/-
# Every request is well paired

The answers to the calls of one assistant message come from five places: the
block of a delivery or landing turn, the cap, the calls the parser dropped,
and the results of execution or of its suppression. `turnAnswers` are those
that stand in the history before an observer sees the response; together with
what follows they answer every recorded id once (`answered_with`).

The block stays in one piece as long as nothing comes between it and the
results. `on_llm_response` runs in that very moment: when it injects messages,
or takes the assistant message back, in a turn whose calls are then dispatched
all the same, the results stand below another message or below no call at all.
A dropped call whose id an earlier turn used stays open, since its answer is
looked for in the whole history. `BlockKept` rules out both, and then every
request of a run is well paired (`requests_wellPaired`).

Key definitions: `turnAnswers`, `NativeCalls`, `TakenAsIs`, `BlockKept`.
Key theorems: `recordResponse_eq`, `turnAnswers_ids`, `toolResults_ids`,
`attempt_wellPaired`, `requests_wellPaired`.
-/
import AgentCore.Loop.Run

namespace AgentCore
namespace Loop

/-! ### Edits of a history -/

theorem filterMap_wellPaired {f : Message → Option Message}
    (hsome : ∀ m m', f m = some m' → SameShape m m') (hnone : ∀ m, f m = none → PlainMsg m) {h : History}
    (hh : WellPaired h) : WellPaired (h.filterMap f) := by
  induction hh with
  | nil => exact .nil
  | @group x body rest hx hb ha _ ih =>
    have hbody : ∀ {ms : List Message}, (∀ m ∈ ms, isToolMsg m = true) →
        List.Forall₂ SameShape ms (ms.filterMap f) := by
      intro ms
      induction ms with
      | nil => exact fun _ => .nil
      | cons m ms ihm =>
        intro hms
        cases hf : f m with
        | none =>
          have := (hnone m hf).1
          rw [hms m (by simp)] at this
          cases this
        | some m' =>
          rw [List.filterMap_cons_some hf]
          exact .cons (hsome m m' hf) (ihm fun y hy => hms y (by simp [hy]))
    cases hf : f x with
    | none =>
      have := ((hnone x hf).answered_iff body).mp ha
      subst this
      rwa [List.filterMap_cons_none hf, List.nil_append]
    | some x' =>
      have hxx := hsome x x' hf
      have hres := Groups.forall₂_members (fun _ _ hxy => hxy.isToolMsg_eq) (hbody hb) hb
      rw [List.filterMap_cons_some hf, List.filterMap_append]
      exact .group (hxx.isToolMsg_eq ▸ hx) hres (ha.sameShape hxx (hbody hb)) ih

theorem resetSignedThinking_some {m m' : Message} (h : resetSignedThinking m = some m') : SameShape m m' := by
  unfold resetSignedThinking at h
  split at h
  · dsimp only at h
    split_ifs at h
    all_goals
      cases h
      exact ⟨rfl, rfl, rfl⟩
  · cases h
    exact .refl m

theorem resetSignedThinking_none {m : Message} (h : resetSignedThinking m = none) : PlainMsg m := by
  unfold resetSignedThinking at h
  split at h
  · dsimp only at h
    split_ifs at h with h1 h2 h3
    obtain ⟨-, hcalls⟩ := not_or.mp h3
    have ha : isAssistantMsg m = true := by simpa using h1
    exact ⟨isToolMsg_of_assistant ha, by simp [callIds, ha, not_not.mp hcalls]⟩
  · cases h

theorem resetSignedThinkingHistory_wellPaired {h : History} (hh : WellPaired h) :
    WellPaired (resetSignedThinkingHistory h) :=
  filterMap_wellPaired (fun _ _ => resetSignedThinking_some) (fun _ => resetSignedThinking_none) hh

theorem toolIds_resetSignedThinkingHistory (h : History) :
    toolIds (resetSignedThinkingHistory h) = toolIds h := by
  unfold resetSignedThinkingHistory
  induction h with
  | nil => rfl
  | cons m ms ih =>
    cases hf : resetSignedThinking m with
    | none =>
      rw [List.filterMap_cons_none hf, ih]
      simp [toolIds, (resetSignedThinking_none hf).1]
    | some m' =>
      have hs := resetSignedThinking_some hf
      rw [List.filterMap_cons_some hf]
      unfold toolIds at *
      simp only [List.filter_cons, hs.isToolMsg_eq]
      split
      · simp [hs.2.2, ih]
      · exact ih

theorem injectMessages_wellPaired {h : History} (hh : WellPaired h) (texts : List String) :
    WellPaired (injectMessages h texts) := by
  refine hh.append_plain fun m hm => ?_
  obtain ⟨t, -, rfl⟩ := List.mem_map.mp hm
  exact plainMsg_userMsg t

theorem popLastAssistantTurn_wellPaired {h : History} (hh : WellPaired h) :
    WellPaired (popLastAssistantTurn h) := by
  unfold popLastAssistantTurn
  split
  · exact hh
  · next above a below hl =>
    obtain ⟨rfl, ha, -⟩ := lastAssistant_spec hl
    have hat := isToolMsg_of_assistant ha
    obtain ⟨habove, hturn⟩ := (wellPaired_append (by simp [hat])).mp hh
    rw [← List.takeWhile_append_dropWhile (p := isToolMsg) (l := below)] at hturn
    have hrest := (Groups.grouped_cons hat (fun m hm => List.mem_takeWhile_imp hm)
      (Groups.takeWhile_dropWhile _ _)).mp hturn
    exact habove.append hrest.2

/-- Nothing is answered where everything is. -/
theorem answerUnexecutedToolCalls_eq_self {h : History} (hh : CallsAnswered h) (detail : String) :
    answerUnexecutedToolCalls h detail = h := by
  unfold answerUnexecutedToolCalls
  split
  · rfl
  · next above a below hl =>
    obtain ⟨rfl, ha, hbelow⟩ := lastAssistant_spec hl
    have hids := hh.of_append_right.1
    rw [untilAssistant_eq_self hbelow] at hids
    have hnil : answerOpen (fun _ => detail) a.toolCalls (toolIds below) = [] := by
      rw [List.eq_nil_iff_forall_not_mem]
      intro m hm
      obtain ⟨h1, h2, h3⟩ := (mem_answerOpen_ids _ _ _ _).mp
        (List.mem_map_of_mem (f := (·.toolCallId)) hm)
      exact h3 (hids _ (by simpa [callIds, ha] using h1) h2)
    rw [hnil, List.nil_append, List.takeWhile_append_dropWhile]

/-! ### The answers a response brings with it -/

/-- The history a response is recorded on. -/
def baseHistory (messages : History) (r : Response) : History :=
  if r.thinkingHistoryReset then resetSignedThinkingHistory messages else messages

/-- The assistant message of a response. -/
def responseMsg (r : Response) : Message := assistantMsg r.content r.toolCalls r.reasoning

/-- The answers to the calls that will not be executed, in their order. -/
def turnAnswers (cfg : LoopConfig) (env : TurnEnv) (toolNames : List String) (turn : ℤ)
    (messages : History) (r : Response) : List Message :=
  let g := gate cfg env toolNames
  let calls := identifiedCalls cfg env toolNames turn r
  let refused := blockedAnswers g r calls ++ overCapAnswers cfg (acceptedCalls g calls)
  refused ++ answerOpen (droppedDetail toolNames) r.toolCalls
    (toolIds (baseHistory messages r ++ responseMsg r :: refused) ++
      (parsedCalls cfg env toolNames turn r).map (·.id))

theorem recordResponse_eq (cfg : LoopConfig) (env : TurnEnv) (toolNames : List String) (turn : ℤ)
    (messages : History) (r : Response) :
    recordResponse cfg env toolNames turn messages r =
      baseHistory messages r ++ responseMsg r :: turnAnswers cfg env toolNames turn messages r := by
  unfold recordResponse answerDroppedToolCalls turnAnswers baseHistory responseMsg
  simp [assistantMsg]

theorem isToolMsg_blockedAnswers (g : Option (List String × String)) (r : Response) (calls : List ToolCall) :
    ∀ m ∈ blockedAnswers g r calls, isToolMsg m = true := by
  unfold blockedAnswers
  split
  · intro m hm
    obtain ⟨c, -, rfl⟩ := List.mem_map.mp hm
    rfl
  · simp

theorem isToolMsg_overCapAnswers (cfg : LoopConfig) (calls : List ToolCall) :
    ∀ m ∈ overCapAnswers cfg calls, isToolMsg m = true := by
  intro m hm
  obtain ⟨c, -, rfl⟩ := List.mem_map.mp hm
  rfl

/-- The answers to the calls that are not executed. -/
theorem isToolMsg_refused (cfg : LoopConfig) (env : TurnEnv) (toolNames : List String) (turn : ℤ) (r : Response) :
    ∀ m ∈ blockedAnswers (gate cfg env toolNames) r (identifiedCalls cfg env toolNames turn r) ++
      overCapAnswers cfg (acceptedCalls (gate cfg env toolNames) (identifiedCalls cfg env toolNames turn r)),
      isToolMsg m = true := by
  intro m hm
  rcases List.mem_append.mp hm with hm | hm
  · exact isToolMsg_blockedAnswers _ _ _ m hm
  · exact isToolMsg_overCapAnswers _ _ m hm

theorem isToolMsg_turnAnswers (cfg : LoopConfig) (env : TurnEnv) (toolNames : List String) (turn : ℤ)
    (messages : History) (r : Response) :
    ∀ m ∈ turnAnswers cfg env toolNames turn messages r, isToolMsg m = true := by
  intro m hm
  unfold turnAnswers at hm
  dsimp only at hm
  rcases List.mem_append.mp hm with hm | hm
  · exact isToolMsg_refused cfg env toolNames turn r m hm
  · exact answerOpen_isToolMsg _ _ _ m hm

theorem callIds_responseMsg (r : Response) : callIds (responseMsg r) = r.toolCalls.map (·.id) := rfl

theorem toolIds_base_response (messages : History) (r : Response) {ms : List Message}
    (hms : ∀ m ∈ ms, isToolMsg m = true) :
    toolIds (baseHistory messages r ++ responseMsg r :: ms) = toolIds messages ++ ms.map (·.toolCallId) := by
  have hbase : toolIds (baseHistory messages r) = toolIds messages := by
    unfold baseHistory
    split
    · exact toolIds_resetSignedThinkingHistory messages
    · rfl
  have hcons : toolIds (responseMsg r :: ms) = toolIds ms := rfl
  rw [toolIds_append, hbase, hcons, toolIds_of_tools hms]

theorem mem_accepted_or_blocked (g : Option (List String × String)) {calls : List ToolCall} {c : ToolCall}
    (hc : c ∈ calls) : c ∈ acceptedCalls g calls ∨ c ∈ blockedCalls g calls := by
  cases g with
  | none => exact .inl hc
  | some e =>
    by_cases hn : c.name ∈ e.1
    · exact .inl (List.mem_filter.mpr ⟨hc, by simpa using hn⟩)
    · exact .inr (List.mem_filter.mpr ⟨hc, by simpa using hn⟩)

theorem mem_capped_or_overCap (cfg : LoopConfig) {calls : List ToolCall} {c : ToolCall} (hc : c ∈ calls) :
    c ∈ cappedCalls cfg calls ∨ c ∈ overCapCalls cfg calls := by
  unfold cappedCalls overCapCalls
  split
  · rw [← List.take_append_drop cfg.maxToolCallsPerTurn.toNat calls] at hc
    exact List.mem_append.mp hc
  · exact .inl hc

/-- A call the parser hands over is executed or refused with an answer. -/
theorem identified_parsed_or_answered (cfg : LoopConfig) (env : TurnEnv) (toolNames : List String) (turn : ℤ)
    (messages : History) {r : Response} {c : ToolCall} (hc : c ∈ identifiedCalls cfg env toolNames turn r)
    (hne : c.id ≠ "") (hnative : c.id ∈ r.toolCalls.map (·.id)) :
    c.id ∈ (parsedCalls cfg env toolNames turn r).map (·.id) ∨
      c.id ∈ (turnAnswers cfg env toolNames turn messages r).map (·.toolCallId) := by
  unfold turnAnswers
  simp only [List.map_append, List.mem_append]
  rcases mem_accepted_or_blocked (gate cfg env toolNames) hc with ha | hb
  · rcases mem_capped_or_overCap cfg ha with hp | ho
    · exact .inl (List.mem_map_of_mem hp)
    · refine .inr (.inl (.inr ?_))
      refine List.mem_map.mpr ⟨_, List.mem_map.mpr ⟨c, List.mem_filter.mpr ⟨ho, by simpa using hne⟩, rfl⟩, rfl⟩
  · refine .inr (.inl (.inl ?_))
    cases hg : gate cfg env toolNames with
    | none => simp [hg, blockedCalls] at hb
    | some e =>
      rw [hg] at hb
      unfold blockedAnswers
      refine List.mem_map.mpr ⟨_, List.mem_map.mpr ⟨c, List.mem_filter.mpr ⟨hb, ?_⟩, rfl⟩, rfl⟩
      simpa using ⟨hne, List.mem_map.mp hnative⟩

/-- A recorded id that no earlier tool message carries is executed or
answered. -/
theorem recorded_parsed_or_answered (cfg : LoopConfig) (env : TurnEnv) (toolNames : List String) (turn : ℤ)
    (messages : History) {r : Response} {id : String} (hid : id ∈ r.toolCalls.map (·.id)) (hne : id ≠ "")
    (hfresh : id ∈ (identifiedCalls cfg env toolNames turn r).map (·.id) ∨ id ∉ toolIds messages) :
    id ∈ (parsedCalls cfg env toolNames turn r).map (·.id) ∨
      id ∈ (turnAnswers cfg env toolNames turn messages r).map (·.toolCallId) := by
  by_cases hident : id ∈ (identifiedCalls cfg env toolNames turn r).map (·.id)
  · obtain ⟨c, hc, rfl⟩ := List.mem_map.mp hident
    exact identified_parsed_or_answered cfg env toolNames turn messages hc hne hid
  · have hnot := hfresh.resolve_left hident
    unfold turnAnswers
    simp only [List.map_append, List.mem_append]
    set refused := blockedAnswers (gate cfg env toolNames) r (identifiedCalls cfg env toolNames turn r) ++
      overCapAnswers cfg (acceptedCalls (gate cfg env toolNames) (identifiedCalls cfg env toolNames turn r))
      with hrefused
    have htools : ∀ m ∈ refused, isToolMsg m = true := isToolMsg_refused cfg env toolNames turn r
    by_cases hp : id ∈ (parsedCalls cfg env toolNames turn r).map (·.id)
    · exact .inl hp
    · by_cases href : id ∈ refused.map (·.toolCallId)
      · rw [hrefused, List.map_append, List.mem_append] at href
        exact .inr (.inl href)
      · refine .inr (.inr ((mem_answerOpen_ids _ _ _ _).mpr ⟨hid, hne, ?_⟩))
        rw [toolIds_base_response messages r htools]
        simp only [List.mem_append, not_or]
        exact ⟨⟨hnot, href⟩, hp⟩

/-! ### Native calls -/

/-- A response of native calls with distinct ids, or of none at all. -/
structure NativeCalls (r : Response) : Prop where
  nodup : (r.toolCalls.map (·.id)).Nodup
  ids_ne : ∀ c ∈ r.toolCalls, c.id ≠ ""
  no_text : r.textCalls = []

theorem parseCalls_sublist (cfg : LoopConfig) {r : Response} (hr : NativeCalls r) (names : List String) :
    (parseCalls cfg r names).Sublist r.toolCalls := by
  unfold parseCalls
  split
  · rw [hr.no_text]
    exact List.nil_sublist _
  · dsimp only
    split
    · exact List.filter_sublist
    · exact List.Sublist.refl _

/-- Native calls keep the provider's ids. -/
theorem identifiedCalls_sublist (cfg : LoopConfig) {r : Response} (hr : NativeCalls r) (env : TurnEnv)
    (toolNames : List String) (turn : ℤ) :
    (identifiedCalls cfg env toolNames turn r).Sublist r.toolCalls := by
  unfold identifiedCalls assignUniqueToolCallIds
  dsimp only
  set names := if env.stripTools = true then toolNames else (allowedNames env toolNames).getD toolNames
  have hsub := parseCalls_sublist cfg hr names
  rw [if_pos]
  · exact hsub
  · rw [List.all_eq_true]
    intro c hc
    have hmem := hsub.subset hc
    simp only [assistantMsg, decide_eq_true_eq, List.mem_filter, List.mem_map]
    exact ⟨⟨c, hmem, rfl⟩, by simpa using hr.ids_ne c hmem⟩

theorem perm_accepted_blocked (g : Option (List String × String)) (calls : List ToolCall) :
    (acceptedCalls g calls ++ blockedCalls g calls).Perm calls := by
  cases g with
  | none => simp [acceptedCalls, blockedCalls]
  | some e =>
    have h := List.filter_append_perm (fun c : ToolCall => decide (c.name ∈ e.1)) calls
    simpa [acceptedCalls, blockedCalls] using h

theorem acceptedCalls_sublist (g : Option (List String × String)) (calls : List ToolCall) :
    (acceptedCalls g calls).Sublist calls := by
  cases g with
  | none => exact List.Sublist.refl _
  | some e => exact List.filter_sublist

theorem capped_append_overCap (cfg : LoopConfig) (calls : List ToolCall) :
    cappedCalls cfg calls ++ overCapCalls cfg calls = calls := by
  unfold cappedCalls overCapCalls
  split
  · exact List.take_append_drop _ _
  · exact List.append_nil _

theorem blockedAnswers_ids {r : Response} (hr : NativeCalls r) (g : Option (List String × String))
    {calls : List ToolCall} (hsub : calls.Sublist r.toolCalls) :
    (blockedAnswers g r calls).map (·.toolCallId) = (blockedCalls g calls).map (·.id) := by
  cases g with
  | none => rfl
  | some e =>
    unfold blockedAnswers
    dsimp only
    rw [List.filter_eq_self.mpr, List.map_map]
    · rfl
    · intro c hc
      have hmem : c ∈ r.toolCalls := hsub.subset (List.mem_of_mem_filter hc)
      simpa using ⟨hr.ids_ne c hmem, ⟨c, hmem, rfl⟩⟩

theorem overCapAnswers_ids {r : Response} (hr : NativeCalls r) (cfg : LoopConfig) {calls : List ToolCall}
    (hsub : calls.Sublist r.toolCalls) :
    (overCapAnswers cfg calls).map (·.toolCallId) = (overCapCalls cfg calls).map (·.id) := by
  have hover : ∀ c ∈ overCapCalls cfg calls, c ∈ r.toolCalls := by
    intro c hc
    refine hsub.subset ?_
    rw [← capped_append_overCap cfg calls]
    exact List.mem_append_right _ hc
  unfold overCapAnswers
  rw [List.filter_eq_self.mpr, List.map_map]
  · rfl
  · intro c hc
    simpa using hr.ids_ne c (hover c hc)

/-- The refused, the executed and nobody else: each call the parser hands over
once. -/
theorem refused_parsed_perm (cfg : LoopConfig) {r : Response} (hr : NativeCalls r) (env : TurnEnv)
    (toolNames : List String) (turn : ℤ) :
    let g := gate cfg env toolNames
    let calls := identifiedCalls cfg env toolNames turn r
    ((blockedAnswers g r calls ++ overCapAnswers cfg (acceptedCalls g calls)).map (·.toolCallId) ++
      (parsedCalls cfg env toolNames turn r).map (·.id)).Perm (calls.map (·.id)) := by
  intro g calls
  have hsub := identifiedCalls_sublist cfg hr env toolNames turn
  have hacc := (acceptedCalls_sublist g calls).trans hsub
  rw [List.map_append, blockedAnswers_ids hr g hsub, overCapAnswers_ids hr cfg hacc, ← List.map_append,
    ← List.map_append]
  refine List.Perm.map _ ?_
  have hperm := perm_accepted_blocked g calls
  rw [← capped_append_overCap cfg (acceptedCalls g calls)] at hperm
  refine List.Perm.trans ?_ hperm
  unfold parsedCalls
  refine List.perm_append_comm.trans ?_
  rw [List.append_assoc]
  exact List.Perm.append_left _ List.perm_append_comm

/-- No id is answered twice, and none that is executed is answered. -/
theorem turnAnswers_parsed_nodup (cfg : LoopConfig) {r : Response} (hr : NativeCalls r) (env : TurnEnv)
    (toolNames : List String) (turn : ℤ) (messages : History) :
    ((turnAnswers cfg env toolNames turn messages r).map (·.toolCallId) ++
      (parsedCalls cfg env toolNames turn r).map (·.id)).Nodup := by
  have hperm := refused_parsed_perm cfg hr env toolNames turn
  dsimp only at hperm
  unfold turnAnswers
  dsimp only
  set refused := blockedAnswers (gate cfg env toolNames) r (identifiedCalls cfg env toolNames turn r) ++
    overCapAnswers cfg (acceptedCalls (gate cfg env toolNames) (identifiedCalls cfg env toolNames turn r))
  have hnodup : (refused.map (·.toolCallId) ++ (parsedCalls cfg env toolNames turn r).map (·.id)).Nodup := by
    refine hperm.nodup_iff.mpr (hr.nodup.sublist ?_)
    exact List.Sublist.map _ (identifiedCalls_sublist cfg hr env toolNames turn)
  have htools : ∀ m ∈ refused, isToolMsg m = true := isToolMsg_refused cfg env toolNames turn r
  obtain ⟨hr1, hp1, hdisj⟩ := List.nodup_append.mp hnodup
  rw [toolIds_base_response messages r htools, List.map_append, List.nodup_append]
  refine ⟨?_, hp1, ?_⟩
  · rw [List.nodup_append]
    refine ⟨hr1, nodup_answerOpen_ids _ _ _, fun a ha b hb => ?_⟩
    rintro rfl
    have := ((mem_answerOpen_ids _ _ _ _).mp hb).2.2
    simp only [List.mem_append, not_or] at this
    exact this.1.2 ha
  · intro a ha b hb
    rintro rfl
    rcases List.mem_append.mp ha with ha | ha
    · exact hdisj a ha a hb rfl
    · have := ((mem_answerOpen_ids _ _ _ _).mp ha).2.2
      simp only [List.mem_append, not_or] at this
      exact this.2 hb

/-- Only recorded ids are answered or executed. -/
theorem turnAnswers_parsed_recorded (cfg : LoopConfig) {r : Response} (hr : NativeCalls r) (env : TurnEnv)
    (toolNames : List String) (turn : ℤ) (messages : History) {id : String}
    (hid : id ∈ (turnAnswers cfg env toolNames turn messages r).map (·.toolCallId) ∨
      id ∈ (parsedCalls cfg env toolNames turn r).map (·.id)) : id ∈ r.toolCalls.map (·.id) := by
  have hperm := refused_parsed_perm cfg hr env toolNames turn
  dsimp only at hperm
  have hident : ∀ x, x ∈ (identifiedCalls cfg env toolNames turn r).map (·.id) → x ∈ r.toolCalls.map (·.id) :=
    fun x hx => (List.Sublist.map _ (identifiedCalls_sublist cfg hr env toolNames turn)).subset hx
  rcases hid with hid | hid
  · unfold turnAnswers at hid
    dsimp only at hid
    rw [List.map_append, List.mem_append] at hid
    rcases hid with hid | hid
    · exact hident id (hperm.subset (List.mem_append_left _ hid))
    · exact ((mem_answerOpen_ids _ _ _ _).mp hid).1
  · exact hident id (hperm.subset (List.mem_append_right _ hid))

theorem parsedCalls_ids_ne (cfg : LoopConfig) {r : Response} (hr : NativeCalls r) (env : TurnEnv)
    (toolNames : List String) (turn : ℤ) : ∀ c ∈ parsedCalls cfg env toolNames turn r, c.id ≠ "" := by
  intro c hc
  have hid := turnAnswers_parsed_recorded cfg hr env toolNames turn [] (.inr (List.mem_map_of_mem hc))
  obtain ⟨c', hc', heq⟩ := List.mem_map.mp hid
  rw [← heq]
  exact hr.ids_ne c' hc'

/-- No call the parser drops carries an id that a tool message of the history
already carries. -/
def FreshDrops (cfg : LoopConfig) (env : TurnEnv) (toolNames : List String) (turn : ℤ) (messages : History)
    (r : Response) : Prop :=
  ∀ c ∈ r.toolCalls, c.id ≠ "" → c.id ∉ (identifiedCalls cfg env toolNames turn r).map (·.id) →
    c.id ∉ toolIds messages

/-- The answers of the turn and one more message for each executed call, in
whatever way it came about, answer the assistant message. -/
theorem answered_with {cfg : LoopConfig} {r : Response} (hr : NativeCalls r) {env : TurnEnv}
    {toolNames : List String} {turn : ℤ} {messages : History}
    (hfresh : FreshDrops cfg env toolNames turn messages r) {more : List Message}
    (hmore : (more.map (·.toolCallId)).Perm ((parsedCalls cfg env toolNames turn r).map (·.id))) :
    Answered (responseMsg r) (turnAnswers cfg env toolNames turn messages r ++ more) := by
  have hnodup : ((turnAnswers cfg env toolNames turn messages r ++ more).map (·.toolCallId)).Nodup := by
    rw [List.map_append]
    exact (List.Perm.append_left _ hmore).nodup_iff.mpr
      (turnAnswers_parsed_nodup cfg hr env toolNames turn messages)
  rw [Answered, callIds_responseMsg]
  refine ⟨fun id hid hne => ?_, fun m hm => ?_⟩
  · refine List.count_eq_one_of_mem hnodup ?_
    rw [List.map_append, List.mem_append]
    obtain ⟨c, hc, rfl⟩ := List.mem_map.mp hid
    have hcov : c.id ∈ (identifiedCalls cfg env toolNames turn r).map (·.id) ∨ c.id ∉ toolIds messages := by
      by_cases h : c.id ∈ (identifiedCalls cfg env toolNames turn r).map (·.id)
      · exact .inl h
      · exact .inr (hfresh c hc hne h)
    rcases recorded_parsed_or_answered cfg env toolNames turn messages hid hne hcov with h | h
    · exact .inr (hmore.mem_iff.mpr h)
    · exact .inl h
  · refine turnAnswers_parsed_recorded cfg hr env toolNames turn messages ?_
    rcases List.mem_append.mp hm with hm | hm
    · exact .inl (List.mem_map_of_mem hm)
    · exact .inr (hmore.mem_iff.mp (List.mem_map_of_mem hm))

/-! ### Tool results -/

/-- The result `execute_tools` makes of one call. -/
def executedResult (env : TurnEnv) (e : ℕ × ToolCall) : ToolResult :=
  ⟨e.2.name, (env.execute e.1 e.2).1, e.2.id, false, (env.execute e.1 e.2).2⟩

/-- The slots are all filled, in the order of the calls. -/
theorem toolResults_eq (env : TurnEnv) (turn : ℤ) (total : ℕ) (calls : List ToolCall) :
    toolResults env turn total calls =
      (callSlots env turn total 0 calls).map fun x => x.elim (executedResult env) id := by
  have hentries : ∀ l : List (ℕ × (ℕ × ToolCall)),
      (l.zip (executeTools env (l.map (·.2)))).map (fun e => (e.1.1, e.2)) =
        l.map fun e => (e.1, executedResult env e.2) := by
    intro l
    induction l with
    | nil => rfl
    | cons e l ih =>
      have hcons : executeTools env ((e :: l).map (·.2)) =
          executedResult env e.2 :: executeTools env (l.map (·.2)) := rfl
      rw [hcons, List.zip_cons_cons, List.map_cons, List.map_cons, ih]
  unfold toolResults
  dsimp only
  rw [hentries, Slots.fill_split]
  rw [List.filterMap_map]
  simp

/-- The result of a call, however it came about, carries the call's id. -/
theorem callSlot_id (env : TurnEnv) (turn : ℤ) (total idx : ℕ) {c : ToolCall} (hc : c.id ≠ "") :
    ((callSlot env turn total idx c).elim (executedResult env) id).toolCallId = c.id := by
  unfold callSlot executedResult
  rw [if_neg hc]
  dsimp only
  split <;> split <;> simp_all

/-- One result for each call, in order. -/
theorem toolResults_ids (env : TurnEnv) (turn : ℤ) (total : ℕ) {calls : List ToolCall}
    (hids : ∀ c ∈ calls, c.id ≠ "") :
    (toolResults env turn total calls).map (·.toolCallId) = calls.map (·.id) := by
  rw [toolResults_eq, List.map_map]
  suffices h : ∀ i, (callSlots env turn total i calls).map
      ((·.toolCallId) ∘ fun x => x.elim (executedResult env) id) = calls.map (·.id) from h 0
  induction calls with
  | nil => exact fun _ => rfl
  | cons c cs ih =>
    intro i
    rw [callSlots, List.map_cons, List.map_cons, Function.comp_apply,
      callSlot_id env turn total i (hids c (by simp)), ih (fun x hx => hids x (by simp [hx]))]

theorem toolResultMsgs_ids (env : TurnEnv) (turn : ℤ) (total : ℕ) {calls : List ToolCall}
    (hids : ∀ c ∈ calls, c.id ≠ "") :
    ((toolResults env turn total calls).map (toolResultMsg env)).map (·.toolCallId) = calls.map (·.id) := by
  rw [List.map_map, ← toolResults_ids env turn total hids]
  rfl

theorem isToolMsg_toolResultMsgs (env : TurnEnv) (results : List ToolResult) :
    ∀ m ∈ results.map (toolResultMsg env), isToolMsg m = true := by
  intro m hm
  obtain ⟨tr, -, rfl⟩ := List.mem_map.mp hm
  rfl

/-! ### One attempt -/

/-- The response is taken as it is: nothing stops, restarts or rejects the
turn, and calls that are left are executed. -/
def TakenAsIs (cfg : LoopConfig) (env : TurnEnv) (s : LoopState) (r : Response) : Prop :=
  env.onLlmResponse.stopReason = "" ∧ env.onLlmResponse.continueToNextTurn = false ∧
    r.rejectionReason = "" ∧
    (parsedCalls cfg env s.toolNames s.turn r ≠ [] → env.onLlmResponse.skipToolExecution = false)

/-- Nothing tears the block of the turn's assistant message apart: when the
response is taken as it is, no dropped call reuses the id of an earlier tool
message (unless the assistant message is taken back), and when calls are
executed, `on_llm_response` neither injects messages nor takes the assistant
message back. -/
def BlockKept (cfg : LoopConfig) (s : LoopState) (env : TurnEnv) : Prop :=
  ∀ r, env.call = .response r → TakenAsIs cfg env (beforeCall env s) r →
    (env.onLlmResponse.popLastMessage = false →
      FreshDrops cfg env (beforeCall env s).toolNames (beforeCall env s).turn (beforeCall env s).messages r) ∧
    (parsedCalls cfg env (beforeCall env s).toolNames (beforeCall env s).turn r ≠ [] →
      env.onLlmResponse.injectMessages = [] ∧ env.onLlmResponse.popLastMessage = false)

theorem baseHistory_wellPaired {h : History} (hh : WellPaired h) (r : Response) :
    WellPaired (baseHistory h r) := by
  unfold baseHistory
  split
  · exact resetSignedThinkingHistory_wellPaired hh
  · exact hh

theorem isAssistantMsg_of_tools {ms : List Message} (h : ∀ m ∈ ms, isToolMsg m = true) :
    ∀ m ∈ ms, isAssistantMsg m = false := fun m hm => isAssistantMsg_of_tool (h m hm)

theorem mem_map_userMsg {texts : List String} {m : Message} (hm : m ∈ texts.map userMsg) :
    isUserMsg m = true := by
  obtain ⟨t, -, rfl⟩ := List.mem_map.mp hm
  rfl

/-- Taking back a turn whose results have not come yet. -/
theorem popLastAssistantTurn_turn {h : History} {a : Message} (ha : isAssistantMsg a = true)
    {answers : List Message} (hans : ∀ m ∈ answers, isToolMsg m = true) :
    popLastAssistantTurn (h ++ a :: answers) = h := by
  unfold popLastAssistantTurn
  rw [lastAssistant_append ha (isAssistantMsg_of_tools hans)]
  dsimp only
  rw [List.dropWhile_eq_nil_iff.mpr hans, List.append_nil]

/-- Answering what was not executed, below the answers that are there and above
what was injected. -/
theorem answerUnexecutedToolCalls_turn {h : History} {a : Message} (ha : isAssistantMsg a = true)
    {answers : List Message} (hans : ∀ m ∈ answers, isToolMsg m = true) (texts : List String)
    (detail : String) :
    answerUnexecutedToolCalls (injectMessages (h ++ a :: answers) texts) detail =
      h ++ a :: (answers ++ answerOpen (fun _ => detail) a.toolCalls (answers.map (·.toolCallId))) ++
        texts.map userMsg := by
  have husers : ∀ m ∈ texts.map userMsg, isToolMsg m = false :=
    fun m hm => isToolMsg_of_user (mem_map_userMsg hm)
  have hbelow : ∀ m ∈ answers ++ texts.map userMsg, isAssistantMsg m = false := by
    intro m hm
    rcases List.mem_append.mp hm with hm | hm
    · exact isAssistantMsg_of_tool (hans m hm)
    · exact isAssistantMsg_of_user (mem_map_userMsg hm)
  have hids : toolIds (answers ++ texts.map userMsg) = answers.map (·.toolCallId) := by
    rw [toolIds_append, toolIds_of_tools hans]
    have : toolIds (texts.map userMsg) = [] := by
      unfold toolIds
      rw [List.filter_eq_nil_iff.mpr fun m hm => by simp [husers m hm], List.map_nil]
    rw [this, List.append_nil]
  have htake : (texts.map userMsg).takeWhile isToolMsg = [] ∧
      (texts.map userMsg).dropWhile isToolMsg = texts.map userMsg := by
    cases texts with
    | nil => exact ⟨rfl, rfl⟩
    | cons t ts => exact ⟨rfl, rfl⟩
  unfold answerUnexecutedToolCalls injectMessages
  rw [List.append_assoc, List.cons_append, lastAssistant_append ha hbelow]
  dsimp only
  rw [hids, List.takeWhile_append_of_pos hans, List.dropWhile_append_of_pos hans, htake.1, htake.2]
  simp

/-- The history once `on_llm_response` has had its way with it. -/
def observedHistory (cfg : LoopConfig) (env : TurnEnv) (s : LoopState) (r : Response) : History :=
  let recorded := recordResponse cfg env s.toolNames s.turn s.messages r
  injectMessages (if env.onLlmResponse.popLastMessage then popLastAssistantTurn recorded else recorded)
    env.onLlmResponse.injectMessages

theorem observedHistory_eq (cfg : LoopConfig) (env : TurnEnv) (s : LoopState) (r : Response) :
    observedHistory cfg env s r = injectMessages (if env.onLlmResponse.popLastMessage
      then baseHistory s.messages r
      else baseHistory s.messages r ++ responseMsg r :: turnAnswers cfg env s.toolNames s.turn s.messages r)
        env.onLlmResponse.injectMessages := by
  unfold observedHistory
  dsimp only
  rw [recordResponse_eq, popLastAssistantTurn_turn rfl (isToolMsg_turnAnswers _ _ _ _ _ _)]

theorem observedHistory_untouched (cfg : LoopConfig) {env : TurnEnv} (s : LoopState) (r : Response)
    (hinj : env.onLlmResponse.injectMessages = []) (hpop : env.onLlmResponse.popLastMessage = false) :
    observedHistory cfg env s r =
      baseHistory s.messages r ++ responseMsg r :: turnAnswers cfg env s.toolNames s.turn s.messages r := by
  rw [observedHistory_eq, hinj, hpop, if_neg (by simp)]
  simp [injectMessages]

/-- What `_process_llm_response` leaves: the turn restarted with its calls
answered, or the history as the observers left it. -/
theorem processLlmResponse_messages (cfg : LoopConfig) (env : TurnEnv) (s : LoopState) (r : Response) :
    (processLlmResponse cfg env s.toolNames s.turn s.messages r).messages =
      if env.onLlmResponse.continueToNextTurn then answerUnexecutedToolCalls (observedHistory cfg env s r)
        ("the turn was restarted before this call ran; re-issue it if " ++ "still needed.")
      else observedHistory cfg env s r := by
  unfold processLlmResponse observedHistory
  dsimp only
  split
  · rfl
  · split <;> rfl

theorem processLlmResponse_stopReason {cfg : LoopConfig} {env : TurnEnv} {s : LoopState} {r : Response}
    (h : (processLlmResponse cfg env s.toolNames s.turn s.messages r).stopReason = "") :
    env.onLlmResponse.stopReason = "" := by
  unfold processLlmResponse at h
  dsimp only at h
  split at h
  · exact h
  · split at h
    · next hblock => exact hblock.1
    · exact h

/-- With calls left to execute it is the observers that stop the loop or suppress
execution. -/
theorem processLlmResponse_observed {cfg : LoopConfig} {env : TurnEnv} {s : LoopState} {r : Response}
    (hcont : ¬env.onLlmResponse.continueToNextTurn = true)
    (hparsed : parsedCalls cfg env s.toolNames s.turn r ≠ []) :
    (processLlmResponse cfg env s.toolNames s.turn s.messages r).stopReason = env.onLlmResponse.stopReason ∧
      (processLlmResponse cfg env s.toolNames s.turn s.messages r).skipToolExecution =
        env.onLlmResponse.skipToolExecution := by
  unfold processLlmResponse
  dsimp only
  rw [if_neg hcont, if_neg fun h => hparsed h.2.2]
  exact ⟨rfl, rfl⟩

section Turn

variable {cfg : LoopConfig} {env : TurnEnv} {s : LoopState} {r : Response}
variable (hs : WellPaired s.messages) (hr : NativeCalls r)
include hs hr

/-- A response no call of which is left to execute. -/
theorem observedHistory_wellPaired (hp : parsedCalls cfg env s.toolNames s.turn r = [])
    (hfresh : env.onLlmResponse.popLastMessage = false →
      FreshDrops cfg env s.toolNames s.turn s.messages r) :
    WellPaired (observedHistory cfg env s r) := by
  rw [observedHistory_eq]
  refine injectMessages_wellPaired ?_ _
  have hbase := baseHistory_wellPaired hs r
  split
  · exact hbase
  · next hpop =>
    have hans := answered_with hr (hfresh (by simpa using hpop)) (show ([].map _).Perm _ by simp [hp])
    rw [List.append_nil] at hans
    exact wellPaired_turn hbase rfl (isToolMsg_turnAnswers _ _ _ _ _ _) hans

omit hs in
/-- The answers of the turn and those to every call still open. -/
theorem answered_open (detail : String) :
    Answered (responseMsg r) (turnAnswers cfg env s.toolNames s.turn s.messages r ++
      answerOpen (fun _ => detail) r.toolCalls
        ((turnAnswers cfg env s.toolNames s.turn s.messages r).map (·.toolCallId))) := by
  set answers := turnAnswers cfg env s.toolNames s.turn s.messages r
  have hnodup := (List.nodup_append.mp
    (turnAnswers_parsed_nodup cfg hr env s.toolNames s.turn s.messages)).1
  rw [Answered, callIds_responseMsg, List.map_append]
  refine ⟨fun id hid hne => ?_, fun m hm => ?_⟩
  · refine List.count_eq_one_of_mem ?_ ?_
    · refine List.nodup_append.mpr ⟨hnodup, nodup_answerOpen_ids _ _ _, fun a ha b hb => ?_⟩
      rintro rfl
      exact ((mem_answerOpen_ids _ _ _ _).mp hb).2.2 ha
    · rw [List.mem_append, mem_answerOpen_ids]
      by_cases h : id ∈ answers.map (·.toolCallId)
      · exact .inl h
      · exact .inr ⟨hid, hne, h⟩
  · rcases List.mem_append.mp hm with hm | hm
    · exact turnAnswers_parsed_recorded cfg hr env s.toolNames s.turn s.messages
        (.inl (List.mem_map_of_mem hm))
    · exact ((mem_answerOpen_ids _ _ _ _).mp (List.mem_map_of_mem (f := (·.toolCallId)) hm)).1

/-- A turn whose calls are answered instead of executed. -/
theorem answerUnexecuted_observedHistory_wellPaired (detail : String) :
    WellPaired (answerUnexecutedToolCalls (observedHistory cfg env s r) detail) := by
  have hbase := baseHistory_wellPaired hs r
  have htools := isToolMsg_turnAnswers cfg env s.toolNames s.turn s.messages r
  rw [observedHistory_eq]
  split
  · have hinj := injectMessages_wellPaired hbase env.onLlmResponse.injectMessages
    rwa [answerUnexecutedToolCalls_eq_self hinj.callsAnswered]
  · rw [answerUnexecutedToolCalls_turn rfl htools]
    refine WellPaired.append_plain (wellPaired_turn hbase rfl ?_ (answered_open hr detail)) ?_
    · intro m hm
      rcases List.mem_append.mp hm with hm | hm
      · exact htools m hm
      · exact answerOpen_isToolMsg _ _ _ m hm
    · exact fun m hm => plainMsg_of_user (mem_map_userMsg hm)

/-- A turn whose calls are executed, with the assistant message left in peace. -/
theorem executeToolCalls_wellPaired (hfresh : FreshDrops cfg env s.toolNames s.turn s.messages r)
    (hinj : env.onLlmResponse.injectMessages = [])
    (hpop : env.onLlmResponse.popLastMessage = false) (turn : ℤ) (total : ℕ) :
    WellPaired (executeToolCalls cfg env turn total (observedHistory cfg env s r)
      (parsedCalls cfg env s.toolNames s.turn r)).1 := by
  have hbase := baseHistory_wellPaired hs r
  have hids := parsedCalls_ids_ne cfg hr env s.toolNames s.turn
  have hbatch : WellPaired (observedHistory cfg env s r ++
      (toolResults env turn total (parsedCalls cfg env s.toolNames s.turn r)).map (toolResultMsg env)) := by
    rw [observedHistory_untouched cfg s r hinj hpop, List.append_assoc, List.cons_append]
    refine wellPaired_turn hbase rfl (fun m hm => ?_) (answered_with hr hfresh ?_)
    · rcases List.mem_append.mp hm with hm | hm
      · exact isToolMsg_turnAnswers _ _ _ _ _ _ m hm
      · exact isToolMsg_toolResultMsgs env _ m hm
    · rw [toolResultMsgs_ids env turn total hids]
  unfold executeToolCalls
  dsimp only
  have hevict := hbatch.sameShape (evictOldImages_sameShape _ cfg.maxImagesInHistory)
  split
  · exact injectMessages_wellPaired hevict _
  · exact hevict

end Turn

theorem handleTurnEnd_wellPaired {h : History} (hh : WellPaired h) (env : TurnEnv) :
    WellPaired (handleTurnEnd env h).1 := by
  unfold handleTurnEnd
  dsimp only
  have hpop : WellPaired (if env.onTurnEnd.popLastMessage = true then popLastAssistantTurn h else h) := by
    split
    · exact popLastAssistantTurn_wellPaired hh
    · exact hh
  split
  · exact injectMessages_wellPaired hh _
  · split
    · exact injectMessages_wellPaired hpop _
    · cases env.compaction with
      | none => exact injectMessages_wellPaired hpop _
      | some c => exact c.wellPaired (injectMessages_wellPaired hpop _)

theorem withoutCalls_wellPaired {cfg : LoopConfig} {s s' : LoopState} {r : Response}
    (hs : WellPaired s.messages) (hw : withoutCalls cfg s r = .next s') : WellPaired s'.messages := by
  have hnudge : ∀ t, WellPaired (s.messages ++ [userMsg t]) := fun t =>
    hs.append_plain (by simpa using plainMsg_userMsg t)
  unfold withoutCalls at hw
  dsimp only at hw
  split_ifs at hw
  all_goals
    cases hw
    exact hnudge _

/-- After the batch, whichever way its calls were answered. -/
theorem withCalls_wellPaired {cfg : LoopConfig} {env : TurnEnv} {s s' : LoopState} {p : Processed}
    (hskip : p.skipToolExecution = true → ∀ d, WellPaired (answerUnexecutedToolCalls s.messages d))
    (hexec : p.skipToolExecution = false →
      WellPaired (executeToolCalls cfg env s.turn s.totalToolCalls s.messages p.parsed).1)
    (hw : withCalls cfg env s p = .next s') : WellPaired s'.messages := by
  unfold withCalls at hw
  dsimp only at hw
  cases hsk : p.skipToolExecution with
  | true =>
    rw [hsk] at hw
    simp only [if_true] at hw
    have hm := handleTurnEnd_wellPaired (hskip hsk ("tool execution was suppressed for this turn; re-issue it if " ++
      "still needed.")) env
    split_ifs at hw
    all_goals
      cases hw
      exact hm
  | false =>
    rw [hsk] at hw
    simp only [Bool.false_eq_true, if_false] at hw
    have hm := handleTurnEnd_wellPaired (hexec hsk) env
    split_ifs at hw
    all_goals
      cases hw
      exact hm

/-- After a response, when the loop goes on. -/
theorem respond_wellPaired {cfg : LoopConfig} {env : TurnEnv} {s s' : LoopState} {r : Response}
    (hs : WellPaired s.messages) (hr : NativeCalls r)
    (hkept : TakenAsIs cfg env s r →
      (env.onLlmResponse.popLastMessage = false → FreshDrops cfg env s.toolNames s.turn s.messages r) ∧
      (parsedCalls cfg env s.toolNames s.turn r ≠ [] →
        env.onLlmResponse.injectMessages = [] ∧ env.onLlmResponse.popLastMessage = false))
    (hw : respond cfg env s r = .next s') : WellPaired s'.messages := by
  have hmsgs := processLlmResponse_messages cfg env s r
  have hafter : (afterResponse cfg env s r).messages =
      (processLlmResponse cfg env s.toolNames s.turn s.messages r).messages := rfl
  unfold respond at hw
  dsimp only at hw
  rw [processLlmResponse_parsed, processLlmResponse_continue] at hw
  split at hw
  · cases hw
  next hstop =>
  replace hstop := processLlmResponse_stopReason (not_not.mp hstop)
  split at hw
  · next hcont =>
    cases hw
    rw [if_pos hcont] at hmsgs
    rw [hafter, hmsgs]
    exact answerUnexecuted_observedHistory_wellPaired hs hr _
  next hcont =>
  split at hw
  · cases hw
  next hrej =>
  rw [if_neg hcont] at hmsgs
  have htaken (hskip : parsedCalls cfg env s.toolNames s.turn r ≠ [] →
      env.onLlmResponse.skipToolExecution = false) : TakenAsIs cfg env s r :=
    ⟨hstop, by simpa using hcont, not_not.mp hrej, hskip⟩
  split at hw
  · next hnone =>
    refine withoutCalls_wellPaired ?_ hw
    rw [hafter, hmsgs]
    exact observedHistory_wellPaired hs hr hnone (hkept (htaken fun h => absurd hnone h)).1
  · next hsome =>
    have hskip := (processLlmResponse_observed (s := s) hcont hsome).2
    refine withCalls_wellPaired (fun _ d => ?_) (fun hexec => ?_) hw
    · rw [hafter, hmsgs]
      exact answerUnexecuted_observedHistory_wellPaired hs hr d
    · rw [hskip] at hexec
      obtain ⟨hfresh, hcalls⟩ := hkept (htaken fun _ => hexec)
      obtain ⟨hinj, hpop⟩ := hcalls hsome
      rw [hafter, hmsgs, processLlmResponse_parsed]
      exact executeToolCalls_wellPaired hs hr (hfresh hpop) hinj hpop _ _

/-- **One attempt.** When the loop goes on, its history is well paired. -/
theorem attempt_wellPaired {cfg : LoopConfig} {env : TurnEnv} {s s' : LoopState} (hs : WellPaired s.messages)
    (hr : ∀ r, env.call = .response r → NativeCalls r) (hkept : BlockKept cfg s env)
    (ha : attempt cfg env s = .next s') : WellPaired s'.messages := by
  unfold attempt at ha
  dsimp only at ha
  split at ha
  · cases ha
  · split at ha
    · cases ha
    · cases ha
    · split at ha <;> cases ha
    · cases ha
    · next r hcall =>
      split at ha
      · cases ha
      · have hbefore : WellPaired (beforeCall env s).messages := injectMessages_wellPaired hs _
        exact respond_wellPaired (s := logged env (beforeCall env s) _) hbefore (hr r hcall)
          (hkept r hcall) ha

theorem messagesForCall_wellPaired {h : History} (hh : WellPaired h) (env : TurnEnv) :
    WellPaired (messagesForCall env h) := by
  unfold messagesForCall
  split
  · next asUser text _ =>
    split
    · refine hh.append_plain fun m hm => ?_
      rw [List.mem_singleton.mp hm]
      cases asUser
      · exact plainMsg_of_system rfl
      · exact plainMsg_of_user rfl
    · exact hh
  · exact hh

theorem attempt_log_wellPaired (cfg : LoopConfig) (env : TurnEnv) {s : LoopState} (hs : WellPaired s.messages)
    (hlog : ∀ rec ∈ s.log, WellPaired rec.request) :
    ∀ rec ∈ (attempt cfg env s).state.log, WellPaired rec.request := by
  rcases (attempt_frame cfg env s).2.2 with h | ⟨parsed, h⟩
  · rw [h]
    exact hlog
  · rw [h]
    intro rec hrec
    rcases List.mem_append.mp hrec with hrec | hrec
    · exact hlog rec hrec
    · rw [List.mem_singleton.mp hrec]
      exact messagesForCall_wellPaired (injectMessages_wellPaired hs _) env

/-! ### Whole runs -/

/-- **Every request of a run is well paired**, from a well-paired history on,
whatever native calls the provider answers with and whatever the observers do,
as long as nothing tears a turn's block apart. -/
theorem requests_wellPaired {cfg : LoopConfig} {env : ℕ → TurnEnv} {messages : History}
    {toolNames : List String} (hpaired : WellPaired messages)
    (hnative : ∀ i r, (env i).call = .response r → NativeCalls r)
    (hkept : RunMeets (BlockKept cfg) cfg env messages toolNames) :
    ∀ rec ∈ (runAgentLoop cfg env messages toolNames).state.log, WellPaired rec.request := by
  have hsteps := StepsMeet.and (Q := fun _ e => ∀ r, e.call = .response r → NativeCalls r)
    (fun _ i => hnative i) hkept
  refine runLoop_rule (P := fun s e => BlockKept cfg s e ∧ ∀ r, e.call = .response r → NativeCalls r)
    (I := fun _ s => WellPaired s.messages ∧ ∀ rec ∈ s.log, WellPaired rec.request)
    (Q := fun res => ∀ rec ∈ res.state.log, WellPaired rec.request) ?_ ?_ ?_ ?_ _ _ ⟨hpaired, by simp⟩ hsteps
  · intro left s e s' hI _ hP ha
    have hlog := attempt_log_wellPaired cfg e hI.1 hI.2
    rw [ha] at hlog
    exact ⟨attempt_wellPaired hI.1 hP.2 hP.1 ha, hlog⟩
  · intro left s e s' reason hI _ _ ha
    have hlog := attempt_log_wellPaired cfg e hI.1 hI.2
    rwa [ha] at hlog
  · intro left s e s' hI _ _ ha
    have hlog := attempt_log_wellPaired cfg e hI.1 hI.2
    rwa [ha] at hlog
  · intro left s hI _
    exact hI.2

/-- A reply with one native call. -/
def callReply : Response := { toolCalls := [{ id := "c1", name := "read", arguments := "" }] }

/-- A turn with a call, whose response an observer comments on, and a turn
with none. -/
def callThenText (notes : List String) : ℕ → TurnEnv
  | 0 => { call := .response callReply, onLlmResponse := { injectMessages := notes } }
  | _ => { call := .response { aiText := "done" } }

theorem callThenText_native (notes : List String) : ∀ i r, (callThenText notes i).call = .response r →
    NativeCalls r
  | 0, _, h => by
    cases h
    exact ⟨by decide, by decide, rfl⟩
  | _ + 1, _, h => by
    cases h
    exact ⟨by decide, by decide, rfl⟩

/-- Whatever tools are bound, the parser hands the one call over. -/
theorem identifiedCalls_callReply (cfg : LoopConfig) (env : TurnEnv) (toolNames : List String) (turn : ℤ) :
    identifiedCalls cfg env toolNames turn callReply = callReply.toolCalls := by
  have hparse : ∀ names, parseCalls cfg callReply names = callReply.toolCalls := by
    intro names
    by_cases hn : "read" ∈ names
    · simp [parseCalls, callReply, hn]
    · simp [parseCalls, callReply, hn]
  simp only [identifiedCalls, hparse]
  rfl

theorem callThenText_fresh (cfg : LoopConfig) (env : TurnEnv) (s : LoopState) (notes : List String) :
    ∀ i r, (callThenText notes i).call = .response r → FreshDrops cfg env s.toolNames s.turn s.messages r
  | 0, _, h => by
    cases h
    intro c hc _ hdrop
    rw [identifiedCalls_callReply] at hdrop
    exact absurd (List.mem_map_of_mem hc) hdrop
  | _ + 1, _, h => by
    cases h
    intro c hc
    exact absurd hc List.not_mem_nil

theorem callThenText_kept (cfg : LoopConfig) (s : LoopState) (i : ℕ) : BlockKept cfg s (callThenText [] i) := by
  refine fun r hcall _ => ⟨fun _ => callThenText_fresh cfg _ _ [] i r hcall, fun _ => ?_⟩
  match i with
  | 0 => exact ⟨rfl, rfl⟩
  | _ + 1 => exact ⟨rfl, rfl⟩

theorem requests_wellPaired_callThenText :
    WellPaired [userMsg "go"] ∧ ∀ rec ∈ (runAgentLoop { maxTurns := 2 } (callThenText [])
      [userMsg "go"] ["read"]).state.log, WellPaired rec.request :=
  ⟨by decide, requests_wellPaired (by decide) (callThenText_native [])
    (StepsMeet.of_forall (fun s i => callThenText_kept _ s i) _ _)⟩

/-- An observer's note lands between a call and its result. -/
theorem note_splits_block :
    WellPaired [userMsg "go"] ∧ (∀ i r, (callThenText ["note"] i).call = .response r → NativeCalls r) ∧
      ((runAgentLoop { maxTurns := 2 } (callThenText ["note"]) [userMsg "go"] ["read"]).state.log.map
        fun rec => decide (WellPaired rec.request)) = [true, false] :=
  ⟨by decide, callThenText_native _, by decide⟩

end Loop
end AgentCore
