/-
# The results of a batch of tools

The calls of a batch run concurrently and end in any order; an observer may have
skipped some of them, and others were never valid. Still the results, and the
tool messages in the history, are one for each call, in the order of the calls
and with their ids, as long as no exception gets past the handlers of a call
before another one is cancelled (`batch_answered_iff`).

Key definitions: `Answers`, `Appends`, `Clean`.
Key theorems: `executeTools_answers_iff`, `executeToolCalls_appends_iff`,
`batch_answered_iff`, `executeToolCalls_toolIds`.
-/
import AgentCore.Loop.Replay
import AgentCore.Loop.ToolExec

namespace AgentCore
namespace Loop
namespace ToolExec

/-- The ids of a batch's calls, those made up included. -/
def ids (batch : Batch) (calls : List ToolCall) : List String := calls.mapIdx (toolCallId batch)

/-- One result for each id, in order, or a cancellation. -/
def Answers (ids : List String) : Except Raise (List ToolResult) → Prop
  | .ok rs => rs.map (·.toolCallId) = ids
  | .error e => e = .cancelled

/-- One tool message for each id, in order, or a cancellation. Behind the
messages come at most those injected, and old images are evicted. -/
def Appends (cfg : LoopConfig) (messages : History) (ids : List String) : Except Raise (History × String) → Prop
  | .ok (h, _) => toolIds h = toolIds messages ++ ids ∧
      ∃ answers texts, answers.map (fun m => (m.role, m.toolCallId)) = ids.map (fun id => (.tool, id)) ∧
        h = injectMessages (evictOldImages (messages ++ answers) cfg.maxImagesInHistory) texts
  | .error e => e = .cancelled

/-- Before each call whose exception gets out, a call of the batch completes
that was cancelled. -/
def Clean (hooks : Hooks) (batch : Batch) (run : Run) (calls : List ToolCall) : Prop :=
  ∀ pre i post, run.order ++ List.range calls.length = pre ++ i :: post →
    (∃ c, calls[i]? = some c ∧ Escapes hooks batch i c (run.course i)) →
      ∃ j ∈ pre, ∃ c, calls[j]? = some c ∧ Cancels hooks batch j c (run.course j)

/-! ### One batch -/

section Batch

variable (hooks : Hooks) (cfg : LoopConfig) (env : TurnEnv) (batch : Batch) (run : Run)

/-- Results of all the calls carry their ids. -/
theorem children_ids {calls : List ToolCall} {rs : List ToolResult}
    (h : children hooks batch run calls = rs.map .ok) : rs.map (·.toolCallId) = ids batch calls := by
  refine List.ext_getElem? fun i => ?_
  have hi : (children hooks batch run calls)[i]? = (rs.map .ok)[i]? := by rw [h]
  rw [children, List.getElem?_mapIdx, List.getElem?_map] at hi
  rw [ids, List.getElem?_map, List.getElem?_mapIdx]
  cases hc : calls[i]? with
  | none =>
    rw [hc, Option.map_none, eq_comm, Option.map_eq_none_iff] at hi
    rw [hi]
    rfl
  | some c =>
    rw [hc, Option.map_some, eq_comm, Option.map_eq_some_iff] at hi
    obtain ⟨r, hr, hrun⟩ := hi
    rw [hr, Option.map_some, Option.map_some, runOne_id hooks batch i c (run.course i) hrun.symm]

/-- Which child ends in which error is a matter of its course. -/
theorem children_error (calls : List ToolCall) (i : ℕ) (P : Raise → Prop) :
    (∃ e, (children hooks batch run calls)[i]? = some (.error e) ∧ P e) ↔
      ∃ c, calls[i]? = some c ∧ ∃ e, runOne hooks batch i c (run.course i) = .error e ∧ P e := by
  rw [children, List.getElem?_mapIdx]
  cases calls[i]? with
  | none => simp
  | some c => simp

/-- What the batch transform makes of the results, it keeps whose they are. -/
theorem transformed_answers {calls : List ToolCall} {rs : List ToolResult}
    (h : rs.map (·.toolCallId) = ids batch calls) :
    Answers (ids batch calls) (safeHook (hooks.transformBatch.apply rs) (.ok rs)) := by
  cases hout : safeHook (hooks.transformBatch.apply rs) (.ok rs) with
  | error e => exact (safeHook_ok_eq_error hout).2
  | ok rs' =>
    rcases fails_or_ok (hooks.transformBatch.apply rs) with ⟨out, hok⟩ | hcancelled | hfails
    · rw [hok] at hout
      rw [← Except.ok.inj hout]
      exact (hooks.transformBatch.keepsCalls hok).trans h
    · rw [hcancelled] at hout
      simp [safeHook] at hout
    · rw [safeHook_of_fails hfails] at hout
      rw [← Except.ok.inj hout]
      exact h

theorem executeTools_ids {calls : List ToolCall} {rs : List ToolResult}
    (h : executeTools hooks batch run calls = .ok rs) : rs.map (·.toolCallId) = ids batch calls := by
  obtain ⟨results, hgather, htransform⟩ := bind_eq_ok h
  have hanswers := transformed_answers hooks batch (children_ids hooks batch run (Gather.gather_ok hgather))
  rw [htransform] at hanswers
  exact hanswers

/-- A batch ends in what its calls end in; transforming it adds a cancellation
at most. -/
theorem executeTools_error_iff (calls : List ToolCall) :
    (∀ e, executeTools hooks batch run calls = .error e → e = .cancelled) ↔
      ∀ e, Gather.gather (children hooks batch run calls) run.order (cancellation run) = .error e →
        e = .cancelled := by
  unfold executeTools
  cases Gather.gather (children hooks batch run calls) run.order (cancellation run) with
  | error e => rfl
  | ok rs => exact iff_of_true (fun e h => (safeHook_ok_eq_error h).2) (by simp)

/-- The first call of a batch to end in an exception ends in a cancellation
exactly when the batch is clean. -/
theorem executeTools_harmless_iff (calls : List ToolCall) :
    (∀ e, executeTools hooks batch run calls = .error e → e = .cancelled) ↔ Clean hooks batch run calls := by
  have hcancelled : ∀ e, cancellation run = some e → e = .cancelled := by
    intro e he
    unfold cancellation at he
    split at he
    · exact (Option.some.inj he).symm
    · simp at he
  have hlength : (children hooks batch run calls).length = calls.length := List.length_mapIdx
  rw [executeTools_error_iff, Gather.gather_harmless_iff hcancelled]
  simp only [Clean, Gather.completion, hlength, children_error]
  have hescapes : ∀ i c, (∃ e, runOne hooks batch i c (run.course i) = .error e ∧ ¬ e = .cancelled) ↔
      Escapes hooks batch i c (run.course i) := fun i c => runOne_fails_iff hooks batch i c (run.course i)
  have hcancels : ∀ i c, (∃ e, runOne hooks batch i c (run.course i) = .error e ∧ e = .cancelled) ↔
      Cancels hooks batch i c (run.course i) := by
    intro i c
    rw [← runOne_cancelled_iff]
    simp
  simp only [hescapes, hcancels]

theorem executeTools_answers_iff (calls : List ToolCall) :
    Answers (ids batch calls) (executeTools hooks batch run calls) ↔ Clean hooks batch run calls := by
  rw [← executeTools_harmless_iff]
  cases h : executeTools hooks batch run calls with
  | error e =>
    show e = .cancelled ↔ _
    simp
  | ok rs => exact iff_of_true (executeTools_ids hooks batch run h) (by simp)

/-! ### The calls of a turn -/

/-- Skipped, invalid or executable, a call keeps its id. -/
theorem callSlot_toolCallId (i : ℕ) (c : ToolCall) :
    (callSlot env batch.turn batch.countOffset i c).elim (fun e => e.2.id) (·.toolCallId) =
      toolCallId batch i c := by
  unfold callSlot toolCallId
  dsimp only
  by_cases hid : c.id = ""
  · rw [if_pos hid, if_neg (not_not_intro hid)]
    split <;> split <;> simp_all
  · rw [if_neg hid, if_pos hid]
    split <;> split <;> simp_all

theorem callSlots_eq_mapIdx (turn : ℤ) (total : ℕ) : ∀ (i : ℕ) (calls : List ToolCall),
    callSlots env turn total i calls = calls.mapIdx fun k c => callSlot env turn total (i + k) c
  | _, [] => rfl
  | i, c :: cs => by
    rw [callSlots, List.mapIdx_cons, callSlots_eq_mapIdx turn total (i + 1) cs]
    simp [Nat.add_comm, Nat.add_left_comm]

theorem callSlots_ids (calls : List ToolCall) :
    (callSlots env batch.turn batch.countOffset 0 calls).map
      (fun x => x.elim (fun e => e.2.id) (·.toolCallId)) = ids batch calls := by
  refine List.ext_getElem? fun i => ?_
  rw [callSlots_eq_mapIdx, List.getElem?_map, List.getElem?_mapIdx, ids, List.getElem?_mapIdx]
  cases calls[i]? with
  | none => rfl
  | some c =>
    rw [Nat.zero_add, Option.map_some, Option.map_some, Option.map_some, callSlot_toolCallId]

theorem toolCallId_ne_empty (i : ℕ) (c : ToolCall) : toolCallId batch i c ≠ "" := by
  unfold toolCallId
  split
  · assumption
  · intro h
    have hlength := congrArg String.length h
    simp [String.length_append] at hlength

theorem ids_of_named {calls : List ToolCall} (h : ∀ c ∈ calls, c.id ≠ "") :
    ids batch calls = calls.map (·.id) := by
  refine List.ext_getElem? fun i => ?_
  rw [ids, List.getElem?_mapIdx, List.getElem?_map]
  cases hc : calls[i]? with
  | none => rfl
  | some c =>
    have hid : c.id ≠ "" := h c (List.mem_of_getElem? hc)
    rw [Option.map_some, Option.map_some, toolCallId, if_pos hid]

/-- The executable calls have their ids before they are executed. -/
theorem executableCalls_named (calls : List ToolCall) : ∀ c ∈ executableCalls env batch calls, c.id ≠ "" := by
  intro c hc
  obtain ⟨e, he, rfl⟩ := List.mem_map.mp hc
  have hslot := Slots.inl_mem_of_mem_lefts he
  rw [callSlots_eq_mapIdx, List.mem_mapIdx] at hslot
  obtain ⟨i, hi, hcall⟩ := hslot
  have hid := callSlot_toolCallId env batch (0 + i) calls[i]
  rw [hcall] at hid
  exact ne_of_eq_of_ne hid (toolCallId_ne_empty batch _ _)

theorem executed_ids {calls : List ToolCall} {rs : List ToolResult}
    (h : executed hooks env batch run calls = .ok rs) :
    rs.map (·.toolCallId) = (executable env batch calls).map fun e => e.2.2.id := by
  have hids : ids batch (executableCalls env batch calls) =
      (executable env batch calls).map fun e => e.2.2.id := by
    rw [ids_of_named batch (executableCalls_named env batch calls), executableCalls, List.map_map]
    rfl
  unfold executed at h
  by_cases hnone : executableCalls env batch calls = []
  · rw [if_pos hnone] at h
    rw [← Except.ok.inj h, ← hids, hnone]
    rfl
  · rw [if_neg hnone] at h
    exact (executeTools_ids hooks batch run h).trans hids

theorem executed_harmless_iff (calls : List ToolCall) :
    (∀ e, executed hooks env batch run calls = .error e → e = .cancelled) ↔
      Clean hooks batch run (executableCalls env batch calls) := by
  unfold executed
  by_cases hnone : executableCalls env batch calls = []
  · rw [if_pos hnone, hnone]
    refine iff_of_true (by simp) ?_
    rintro pre i post - ⟨c, hc, -⟩
    simp at hc
  · rw [if_neg hnone]
    exact executeTools_harmless_iff hooks batch run _

/-- Both halves come back together, in the order of the calls. -/
theorem toolResults_eq (calls : List ToolCall) :
    toolResults hooks env batch run calls = (executed hooks env batch run calls).map fun results =>
      (Slots.weave (callSlots env batch.turn batch.countOffset 0 calls)
        (results.map (·.toToolResult))).filterMap id := by
  unfold toolResults executable
  cases executed hooks env batch run calls with
  | error e => rfl
  | ok results =>
    show Except.ok _ = Except.ok _
    rw [Slots.fill_weave]

theorem toolResults_ids {calls : List ToolCall} {rs : List Loop.ToolResult}
    (h : toolResults hooks env batch run calls = .ok rs) : rs.map (·.toolCallId) = ids batch calls := by
  rw [toolResults_eq] at h
  cases hex : executed hooks env batch run calls with
  | error e => simp [hex, Except.map] at h
  | ok results =>
    rw [hex] at h
    have hresults : (results.map (·.toToolResult)).map (·.toolCallId) =
        (executable env batch calls).map fun e => e.2.2.id := by
      rw [← executed_ids hooks env batch run hex, List.map_map]
      rfl
    rw [← Except.ok.inj h, ← callSlots_ids env batch calls]
    exact Slots.weave_complete (fun e : ℕ × ToolCall => e.2.id) _ _ hresults

/-- Eviction and injected messages leave the answers of a history alone. -/
theorem toolIds_batch {messages answers : History} {maxImages : ℤ} {texts : List String}
    (hanswers : ∀ m ∈ answers, isToolMsg m = true) :
    toolIds (injectMessages (evictOldImages (messages ++ answers) maxImages) texts) =
      toolIds messages ++ answers.map (·.toolCallId) := by
  have hnotes : toolIds (texts.map userMsg) = [] := by simp [toolIds, List.filter_map, Function.comp_def]
  rw [injectMessages, toolIds_append, hnotes, List.append_nil,
    ← toolIds_sameShape (evictOldImages_sameShape _ _), toolIds_append, toolIds_of_tools hanswers]

/-- What a batch adds to a history. -/
theorem appends_of_ids {messages : History} {calls : List ToolCall} {h : History} {stop : String}
    (hout : executeToolCalls hooks cfg env batch run messages calls = .ok (h, stop)) :
    Appends cfg messages (ids batch calls) (.ok (h, stop)) := by
  obtain ⟨results, hresults, hout⟩ := bind_eq_ok hout
  have hids := toolResults_ids hooks env batch run hresults
  have htools := isToolMsg_toolResultMsgs env results
  have hmsgs : (results.map (toolResultMsg env)).map (·.toolCallId) = ids batch calls := by
    rw [← hids, List.map_map]
    rfl
  obtain ⟨texts, htexts⟩ : ∃ texts, h =
      injectMessages (evictOldImages (messages ++ results.map (toolResultMsg env)) cfg.maxImagesInHistory)
        texts := by
    dsimp only at hout
    split at hout
    · exact ⟨_, (congrArg Prod.fst (Except.ok.inj hout)).symm⟩
    · have hh := congrArg Prod.fst (Except.ok.inj hout)
      exact ⟨[], by simpa [injectMessages] using hh.symm⟩
  refine ⟨?_, results.map (toolResultMsg env), texts, ?_, htexts⟩
  · rw [htexts, toolIds_batch htools, hmsgs]
  · rw [← hids, List.map_map, List.map_map]
    rfl

theorem executeToolCalls_appends_iff (messages : History) (calls : List ToolCall) :
    Appends cfg messages (ids batch calls) (executeToolCalls hooks cfg env batch run messages calls) ↔
      Clean hooks batch run (executableCalls env batch calls) := by
  rw [← executed_harmless_iff]
  cases hout : executeToolCalls hooks cfg env batch run messages calls with
  | ok out =>
    refine iff_of_true (appends_of_ids hooks cfg env batch run hout) ?_
    intro e he
    simp [executeToolCalls, toolResults_eq, he, Except.map, bind, Except.bind] at hout
  | error e =>
    have herror : executed hooks env batch run calls = .error e := by
      cases hex : executed hooks env batch run calls with
      | error e' => simpa [executeToolCalls, toolResults_eq, hex, Except.map, bind, Except.bind] using hout
      | ok results =>
        simp only [executeToolCalls, toolResults_eq, hex, Except.map, bind, Except.bind] at hout
        split at hout <;> simp at hout
    rw [herror]
    show e = .cancelled ↔ _
    simp

/-- The loop's own account of a batch, which leaves the courses of its calls
out, answers the same calls. -/
theorem executeToolCalls_toolIds {messages : History} {calls : List ToolCall} {h : History} {stop : String}
    (hout : executeToolCalls hooks cfg env batch run messages calls = .ok (h, stop)) :
    toolIds h = toolIds (Loop.executeToolCalls cfg env batch.turn batch.countOffset messages calls).1 := by
  have hids : (Loop.toolResults env batch.turn batch.countOffset calls).map (·.toolCallId) =
      ids batch calls := by
    rw [Loop.toolResults_eq, List.map_map, ← callSlots_ids env batch calls]
    refine List.map_congr_left fun x _ => ?_
    cases x <;> rfl
  have hmsgs : ((Loop.toolResults env batch.turn batch.countOffset calls).map
      (toolResultMsg env)).map (·.toolCallId) = ids batch calls := by
    rw [← hids, List.map_map]
    rfl
  obtain ⟨texts, htexts⟩ := executeToolCalls_eq cfg env batch.turn batch.countOffset messages calls
  have happends := appends_of_ids hooks cfg env batch run hout
  rw [htexts, toolIds_batch (isToolMsg_toolResultMsgs env _), hmsgs]
  exact happends.1

/-- **A batch of tools.** Its results, and the tool messages it leaves in the
history, are one for each call, in the order of the calls and with their ids, or
a cancellation gets out, exactly when it is clean. -/
theorem batch_answered_iff (messages : History) (calls : List ToolCall) :
    (Answers (ids batch calls) (executeTools hooks batch run calls) ↔ Clean hooks batch run calls) ∧
      (Appends cfg messages (ids batch calls) (executeToolCalls hooks cfg env batch run messages calls) ↔
        Clean hooks batch run (executableCalls env batch calls)) :=
  ⟨executeTools_answers_iff hooks batch run calls,
    executeToolCalls_appends_iff hooks cfg env batch run messages calls⟩

end Batch

/-! ### An exception without words -/

def missing : Raise := .failure "AttributeError" "'LookupFailed' object has no attribute 'code'"

/-- The tool's exception has a `__str__` that raises. -/
def wordless : Raise := .unprintable "LookupFailed" missing

def lookupCall : ToolCall := ⟨"call_1", "lookup", "\x7b\x7d"⟩

def lookupBatch : Batch := { toolNames := ["lookup"], timeout := 60, turn := 1, countOffset := 0, waits := false }

def wordlessRun : Run := { course := fun _ => { outcome := .error wordless } }

def coreHooks : Hooks := { resolveTimeout := fun c configured => .ok (defaultTimeout (fun _ => 0) c configured) }

def quietTurn : TurnEnv := { call := .response {} }

/-- The fallback for a failed formatting formats the same exception again, and
its exception escapes from the batch and from the loop. -/
theorem wordless_exception_escapes :
    ¬ Answers (ids lookupBatch [lookupCall]) (executeTools coreHooks lookupBatch wordlessRun [lookupCall]) ∧
      ¬ Appends { maxTurns := 8 } [] (ids lookupBatch [lookupCall])
        (executeToolCalls coreHooks { maxTurns := 8 } quietTurn lookupBatch wordlessRun [] [lookupCall]) := by
  have hresults : executeTools coreHooks lookupBatch wordlessRun [lookupCall] = .error missing := rfl
  have hhistory : executeToolCalls coreHooks { maxTurns := 8 } quietTurn lookupBatch wordlessRun []
      [lookupCall] = .error missing := rfl
  rw [hresults, hhistory]
  exact ⟨Raise.noConfusion, Raise.noConfusion⟩

end ToolExec
end Loop
end AgentCore
