/-
# The history a run returns can be replayed

Whatever ends a run, the calls of the last assistant message should be
answered below it, or the history cannot be sent again. The invariant is
`CallsAnswered`, weaker than the pairing of requests: answers may stand below
an injected message, and calls recovered from text are welcome.

Three exits leave a call open. A stop by `on_llm_response` ends the run between
the assistant message and the results, without the answers a rejected or
restarted turn gets. A dropped call that reuses the id of an earlier tool
message is taken for answered. And the overflow guard takes back the tool
messages at the end but not the assistant message when an injected message
stands between. `TurnCloses` rules out these, and then every run returns a
history whose calls are answered (`returned_history_answered`).

Key definitions: `TurnCloses`, `RunCloses`.
Key theorems: `callsAnswered_turn`, `respond_callsAnswered`,
`returned_history_answered`.
-/
import AgentCore.Loop.Pairing

namespace AgentCore
namespace Loop

/-! ### Edits of a history -/

theorem injectMessages_callsAnswered {h : History} (hh : CallsAnswered h) (texts : List String) :
    CallsAnswered (injectMessages h texts) :=
  hh.append (PlainMsg.callsAnswered fun _ hm => plainMsg_of_user (mem_map_userMsg hm))

/-- One turn at the end of a history. -/
theorem callsAnswered_turn {h : History} {a : Message} {body : History} (hh : CallsAnswered h)
    (hbody : ∀ m ∈ body, isAssistantMsg m = false)
    (hids : ∀ id ∈ callIds a, id ≠ "" → id ∈ toolIds body) : CallsAnswered (h ++ a :: body) := by
  refine hh.append ⟨?_, callsAnswered_of_not_assistant hbody⟩
  rwa [untilAssistant_eq_self hbody]

theorem popLastAssistantTurn_callsAnswered {h : History} (hh : CallsAnswered h) :
    CallsAnswered (popLastAssistantTurn h) := by
  unfold popLastAssistantTurn
  split
  · exact hh
  · next above a below hl =>
    obtain ⟨rfl, ha, hbelow⟩ := lastAssistant_spec hl
    refine (hh.of_append_assistant ha).append (callsAnswered_of_not_assistant fun m hm => ?_)
    exact hbelow m ((List.dropWhile_sublist _).subset hm)

theorem filterMap_callsAnswered {f : Message → Option Message}
    (hsome : ∀ m m', f m = some m' → SameShape m m') (hnone : ∀ m, f m = none → PlainMsg m) {h : History}
    (hh : CallsAnswered h) : CallsAnswered (h.filterMap f) := by
  have hids : ∀ (ms : History) id, id ∈ toolIds (untilAssistant ms) →
      id ∈ toolIds (untilAssistant (ms.filterMap f)) := by
    intro ms id
    induction ms with
    | nil => exact fun hid => hid
    | cons m ms ih =>
      intro hid
      by_cases ha : isAssistantMsg m = true
      · simp [untilAssistant, ha, toolIds] at hid
      · have ha' : isAssistantMsg m = false := by simpa using ha
        rw [untilAssistant_cons_of_not ha', ← List.singleton_append, toolIds_append, List.mem_append] at hid
        cases hf : f m with
        | none =>
          rw [List.filterMap_cons_none hf]
          refine ih (hid.resolve_left fun hm => ?_)
          simp [toolIds, (hnone m hf).1] at hm
        | some m' =>
          have hs := hsome m m' hf
          rw [List.filterMap_cons_some hf, untilAssistant_cons_of_not (hs.isAssistantMsg_eq ▸ ha'),
            ← List.singleton_append, toolIds_append, List.mem_append]
          refine hid.imp (fun hm => ?_) ih
          rwa [← toolIds_sameShape (.cons hs .nil)]
  induction h with
  | nil => exact hh
  | cons m ms ih =>
    cases hf : f m with
    | none =>
      rw [List.filterMap_cons_none hf]
      exact ih hh.2
    | some m' =>
      rw [List.filterMap_cons_some hf]
      refine ⟨fun id hid hne => ?_, ih hh.2⟩
      rw [← (hsome m m' hf).2.1] at hid
      exact hids ms id (hh.1 id hid hne)

theorem baseHistory_callsAnswered {h : History} (hh : CallsAnswered h) (r : Response) :
    CallsAnswered (baseHistory h r) := by
  unfold baseHistory
  split
  · exact filterMap_callsAnswered (fun _ _ => resetSignedThinking_some)
      (fun _ => resetSignedThinking_none) hh
  · exact hh

/-! ### What the overflow guard takes back -/

/-- The guard leaves the calls answered, whether it takes the turn back or
finds an injected message at the end. -/
theorem popTrailingTurn_injected {h : History} {a : Message} (ha : isAssistantMsg a = true) {tools : History}
    (htools : ∀ m ∈ tools, isToolMsg m = true) (hh : CallsAnswered (h ++ a :: tools)) (texts : List String) :
    CallsAnswered (popTrailingTurn (injectMessages (h ++ a :: tools) texts)) := by
  rcases List.eq_nil_or_concat texts with rfl | ⟨ts, t, rfl⟩
  · rw [injectMessages, List.map_nil, List.append_nil, popTrailingTurn_turn ha htools]
    exact hh.of_append_assistant ha
  · have hinj := injectMessages_callsAnswered hh (ts.concat t)
    unfold injectMessages at *
    rw [List.concat_eq_append, List.map_append, ← List.append_assoc] at *
    rwa [List.map_singleton, popTrailingTurn_user rfl (by simp)]

/-! ### One attempt -/

/-- No call of the turn's assistant message is left open. -/
structure TurnCloses (cfg : LoopConfig) (env : TurnEnv) (s : LoopState) (r : Response) : Prop where
  /-- Where nothing answers what is still open, no dropped call reuses the id
  of an earlier tool message. -/
  fresh : env.onLlmResponse.continueToNextTurn = false → env.onLlmResponse.popLastMessage = false →
    ¬(env.onLlmResponse.stopReason = "" ∧ parsedCalls cfg env s.toolNames s.turn r ≠ [] ∧
      (r.rejectionReason ≠ "" ∨ env.onLlmResponse.skipToolExecution = true)) →
    FreshDrops cfg env s.toolNames s.turn s.messages r
  /-- A stop by `on_llm_response` finds no recorded call left to execute. -/
  stopped : env.onLlmResponse.stopReason ≠ "" → env.onLlmResponse.continueToNextTurn = false →
    env.onLlmResponse.popLastMessage = false → ∀ c ∈ r.toolCalls, c.id ≠ "" →
    c.id ∉ (parsedCalls cfg env s.toolNames s.turn r).map (·.id)
  /-- With the overflow guard on, `on_llm_response` takes no assistant message
  back whose calls are left, and injects nothing above their results. -/
  guarded : cfg.contextOverflowGuard = true → env.onLlmResponse.stopReason = "" →
    env.onLlmResponse.continueToNextTurn = false → r.rejectionReason = "" →
    parsedCalls cfg env s.toolNames s.turn r ≠ [] →
    env.onLlmResponse.popLastMessage = false ∧
      (env.onLlmResponse.skipToolExecution = false → env.onLlmResponse.injectMessages = [])

/-- The response of the attempt, if there is one, closes its calls. -/
def RunCloses (cfg : LoopConfig) (s : LoopState) (env : TurnEnv) : Prop :=
  ∀ r, env.call = .response r → TurnCloses cfg env (beforeCall env s) r

theorem toolIds_turnAnswers (cfg : LoopConfig) (env : TurnEnv) (s : LoopState) (r : Response) :
    toolIds (turnAnswers cfg env s.toolNames s.turn s.messages r) =
      (turnAnswers cfg env s.toolNames s.turn s.messages r).map (·.toolCallId) :=
  toolIds_of_tools (isToolMsg_turnAnswers _ _ _ _ _ _)

/-- A call with an id gets a result that carries it. -/
theorem mem_toolResults_ids (env : TurnEnv) (turn : ℤ) (total : ℕ) {calls : List ToolCall} {c : ToolCall}
    (hc : c ∈ calls) (hne : c.id ≠ "") :
    c.id ∈ (toolResults env turn total calls).map (·.toolCallId) := by
  rw [toolResults_eq, List.map_map]
  suffices h : ∀ i, c.id ∈ (callSlots env turn total i calls).map
      ((·.toolCallId) ∘ fun x => x.elim (executedResult env) id) from h 0
  induction calls with
  | nil => simp at hc
  | cons d ds ih =>
    intro i
    rw [callSlots, List.map_cons, List.mem_cons]
    rcases List.mem_cons.mp hc with rfl | hc
    · exact .inl (callSlot_id env turn total i hne).symm
    · exact .inr (ih hc (i + 1))

/-- The batch, and perhaps messages an interrupted wait injects. -/
theorem executeToolCalls_eq (cfg : LoopConfig) (env : TurnEnv) (turn : ℤ) (total : ℕ) (messages : History)
    (calls : List ToolCall) : ∃ texts, (executeToolCalls cfg env turn total messages calls).1 =
      injectMessages (evictOldImages (messages ++ (toolResults env turn total calls).map (toolResultMsg env))
        cfg.maxImagesInHistory) texts := by
  unfold executeToolCalls
  dsimp only
  split
  · exact ⟨_, rfl⟩
  · exact ⟨[], by simp [injectMessages]⟩

section Turn

variable {cfg : LoopConfig} {env : TurnEnv} {s : LoopState} {r : Response}
variable (hs : CallsAnswered s.messages)
include hs

/-- A response whose recorded calls are all answered when it is recorded. -/
theorem observedHistory_callsAnswered (hans : env.onLlmResponse.popLastMessage = false →
      ∀ id ∈ r.toolCalls.map (·.id), id ≠ "" →
        id ∈ (turnAnswers cfg env s.toolNames s.turn s.messages r).map (·.toolCallId)) :
    CallsAnswered (observedHistory cfg env s r) := by
  rw [observedHistory_eq]
  refine injectMessages_callsAnswered ?_ _
  have hbase := baseHistory_callsAnswered hs r
  split
  · exact hbase
  · next hpop =>
    refine callsAnswered_turn hbase (isAssistantMsg_of_tools (isToolMsg_turnAnswers _ _ _ _ _ _)) ?_
    rw [toolIds_turnAnswers]
    exact hans (by simpa using hpop)

/-- The turn with all its open calls answered. -/
theorem answeredTurn_callsAnswered (detail : String) :
    CallsAnswered (baseHistory s.messages r ++ responseMsg r ::
      (turnAnswers cfg env s.toolNames s.turn s.messages r ++ answerOpen (fun _ => detail) r.toolCalls
        ((turnAnswers cfg env s.toolNames s.turn s.messages r).map (·.toolCallId)))) := by
  have htools := isToolMsg_turnAnswers cfg env s.toolNames s.turn s.messages r
  refine callsAnswered_turn (baseHistory_callsAnswered hs r) (fun m hm => ?_) (fun id hid hne => ?_)
  · rcases List.mem_append.mp hm with hm | hm
    · exact isAssistantMsg_of_tool (htools m hm)
    · exact isAssistantMsg_of_tool (answerOpen_isToolMsg _ _ _ m hm)
  · rw [toolIds_append, List.mem_append, toolIds_of_tools htools,
      toolIds_of_tools (answerOpen_isToolMsg _ _ _), mem_answerOpen_ids]
    by_cases h : id ∈ (turnAnswers cfg env s.toolNames s.turn s.messages r).map (·.toolCallId)
    · exact .inl h
    · exact .inr ⟨hid, hne, h⟩

/-- A turn whose calls are answered instead of executed. -/
theorem answerUnexecuted_callsAnswered (detail : String) :
    CallsAnswered (answerUnexecutedToolCalls (observedHistory cfg env s r) detail) := by
  rw [observedHistory_eq]
  split
  · have hinj := injectMessages_callsAnswered (baseHistory_callsAnswered hs r)
      env.onLlmResponse.injectMessages
    rwa [answerUnexecutedToolCalls_eq_self hinj]
  · rw [answerUnexecutedToolCalls_turn rfl (isToolMsg_turnAnswers _ _ _ _ _ _)]
    exact injectMessages_callsAnswered (answeredTurn_callsAnswered hs detail) _

/-- The guard on a turn whose calls were suppressed. -/
theorem answerUnexecuted_popTrailingTurn (hpop : env.onLlmResponse.popLastMessage = false) (detail : String) :
    CallsAnswered (popTrailingTurn (answerUnexecutedToolCalls (observedHistory cfg env s r) detail)) := by
  have htools := isToolMsg_turnAnswers cfg env s.toolNames s.turn s.messages r
  rw [observedHistory_eq, hpop, if_neg (by simp), answerUnexecutedToolCalls_turn rfl htools]
  refine popTrailingTurn_injected rfl (fun m hm => ?_) (answeredTurn_callsAnswered hs detail)
    env.onLlmResponse.injectMessages
  rcases List.mem_append.mp hm with hm | hm
  · exact htools m hm
  · exact answerOpen_isToolMsg _ _ _ m hm

omit hs in
/-- Each recorded call is answered with the response or executed. -/
theorem recorded_answered_or_executed (hfresh : FreshDrops cfg env s.toolNames s.turn s.messages r)
    {id : String} (hid : id ∈ r.toolCalls.map (·.id)) (hne : id ≠ "") :
    id ∈ (turnAnswers cfg env s.toolNames s.turn s.messages r).map (·.toolCallId) ∨
      id ∈ (parsedCalls cfg env s.toolNames s.turn r).map (·.id) := by
  refine (recorded_parsed_or_answered cfg env s.toolNames s.turn s.messages hid hne ?_).symm
  obtain ⟨c, hc, rfl⟩ := List.mem_map.mp hid
  by_cases h : c.id ∈ (identifiedCalls cfg env s.toolNames s.turn r).map (·.id)
  · exact .inl h
  · exact .inr (hfresh c hc hne h)

/-- The assistant message, what was answered and injected below it, and the
results. -/
theorem batch_callsAnswered (turn : ℤ) (total : ℕ) (hpop : env.onLlmResponse.popLastMessage = false)
    (hfresh : FreshDrops cfg env s.toolNames s.turn s.messages r) :
    CallsAnswered (observedHistory cfg env s r ++
      (toolResults env turn total (parsedCalls cfg env s.toolNames s.turn r)).map (toolResultMsg env)) := by
  have hans := isToolMsg_turnAnswers cfg env s.toolNames s.turn s.messages r
  have hres := isToolMsg_toolResultMsgs env
    (toolResults env turn total (parsedCalls cfg env s.toolNames s.turn r))
  rw [observedHistory_eq, hpop, if_neg (by simp), injectMessages, List.append_assoc, List.append_assoc,
    List.cons_append]
  refine callsAnswered_turn (baseHistory_callsAnswered hs r) (fun m hm => ?_) (fun id hid hne => ?_)
  · rw [List.mem_append, List.mem_append] at hm
    rcases hm with hm | hm | hm
    · exact isAssistantMsg_of_tool (hans m hm)
    · exact isAssistantMsg_of_user (mem_map_userMsg hm)
    · exact isAssistantMsg_of_tool (hres m hm)
  · rw [toolIds_append, toolIds_append, toolIds_of_tools hans, toolIds_of_tools hres]
    rcases recorded_answered_or_executed hfresh hid hne with h | h
    · exact List.mem_append_left _ h
    · obtain ⟨c, hc, rfl⟩ := List.mem_map.mp h
      refine List.mem_append_right _ (List.mem_append_right _ ?_)
      rw [List.map_map]
      exact mem_toolResults_ids env turn total hc hne

/-- A turn whose calls are executed. -/
theorem executeToolCalls_callsAnswered (turn : ℤ) (total : ℕ)
    (hfresh : env.onLlmResponse.popLastMessage = false →
      FreshDrops cfg env s.toolNames s.turn s.messages r) :
    CallsAnswered (executeToolCalls cfg env turn total (observedHistory cfg env s r)
      (parsedCalls cfg env s.toolNames s.turn r)).1 := by
  have hbatch : CallsAnswered (observedHistory cfg env s r ++
      (toolResults env turn total (parsedCalls cfg env s.toolNames s.turn r)).map (toolResultMsg env)) := by
    cases hpop : env.onLlmResponse.popLastMessage with
    | false => exact batch_callsAnswered hs turn total hpop (hfresh hpop)
    | true =>
      refine (observedHistory_callsAnswered hs fun h => ?_).append (callsAnswered_of_not_assistant
        (isAssistantMsg_of_tools (isToolMsg_toolResultMsgs env _)))
      rw [hpop] at h
      cases h
  obtain ⟨texts, heq⟩ := executeToolCalls_eq cfg env turn total (observedHistory cfg env s r)
    (parsedCalls cfg env s.toolNames s.turn r)
  rw [heq]
  exact injectMessages_callsAnswered (hbatch.sameShape (evictOldImages_sameShape _ _)) _

/-- The guard on a turn whose calls were executed right below the assistant
message. -/
theorem executeToolCalls_popTrailingTurn (turn : ℤ) (total : ℕ)
    (hpop : env.onLlmResponse.popLastMessage = false) (hinj : env.onLlmResponse.injectMessages = [])
    (hfresh : FreshDrops cfg env s.toolNames s.turn s.messages r) :
    CallsAnswered (popTrailingTurn (executeToolCalls cfg env turn total (observedHistory cfg env s r)
      (parsedCalls cfg env s.toolNames s.turn r)).1) := by
  have hbatch := batch_callsAnswered hs turn total hpop hfresh
  obtain ⟨texts, heq⟩ := executeToolCalls_eq cfg env turn total (observedHistory cfg env s r)
    (parsedCalls cfg env s.toolNames s.turn r)
  rw [heq]
  rw [observedHistory_untouched cfg s r hinj hpop, List.append_assoc, List.cons_append] at *
  have hevict := evictOldImages_sameShape (baseHistory s.messages r ++ responseMsg r ::
    (turnAnswers cfg env s.toolNames s.turn s.messages r ++
      (toolResults env turn total (parsedCalls cfg env s.toolNames s.turn r)).map (toolResultMsg env)))
    cfg.maxImagesInHistory
  have hanswered := hbatch.sameShape hevict
  obtain ⟨above, block, -, hblock, hsplit⟩ := Groups.forall₂_append_left hevict
  obtain ⟨a, tools, hshape, htools, rfl⟩ := List.forall₂_cons_left_iff.mp hblock
  rw [hsplit] at hanswered ⊢
  refine popTrailingTurn_injected (hshape.isAssistantMsg_eq ▸ rfl) ?_ hanswered texts
  refine Groups.forall₂_members (fun _ _ hxy => hxy.isToolMsg_eq) htools fun m hm => ?_
  rcases List.mem_append.mp hm with hm | hm
  · exact isToolMsg_turnAnswers _ _ _ _ _ _ m hm
  · exact isToolMsg_toolResultMsgs env _ m hm

end Turn

theorem handleTurnEnd_callsAnswered {h : History} (hh : CallsAnswered h) (env : TurnEnv) :
    CallsAnswered (handleTurnEnd env h).1 := by
  unfold handleTurnEnd
  dsimp only
  have hpop : CallsAnswered (if env.onTurnEnd.popLastMessage = true then popLastAssistantTurn h else h) := by
    split
    · exact popLastAssistantTurn_callsAnswered hh
    · exact hh
  split
  · exact injectMessages_callsAnswered hh _
  · split
    · exact injectMessages_callsAnswered hpop _
    · cases env.compaction with
      | none => exact injectMessages_callsAnswered hpop _
      | some c => exact c.callsAnswered (injectMessages_callsAnswered hpop _)

theorem withoutCalls_callsAnswered {cfg : LoopConfig} {s : LoopState} {r : Response}
    (hs : CallsAnswered s.messages) : CallsAnswered (withoutCalls cfg s r).state.messages := by
  have hnudge : ∀ t, CallsAnswered (s.messages ++ [userMsg t]) := fun t =>
    injectMessages_callsAnswered hs [t]
  unfold withoutCalls
  dsimp only
  split_ifs
  all_goals first
    | exact hs
    | exact hnudge _

/-- From the batch to the end of the turn, when the batch leaves no call open
and the guard, if it is on, none either. -/
theorem withCalls_callsAnswered {cfg : LoopConfig} {env : TurnEnv} {s : LoopState} {p : Processed}
    (hbatch : ∀ messages, messages = (if p.skipToolExecution then answerUnexecutedToolCalls s.messages
        ("tool execution was suppressed for this turn; re-issue it if " ++ "still needed.")
      else (executeToolCalls cfg env s.turn s.totalToolCalls s.messages p.parsed).1) →
      CallsAnswered messages ∧
        (cfg.contextOverflowGuard = true → CallsAnswered (popTrailingTurn messages))) :
    CallsAnswered (withCalls cfg env s p).state.messages := by
  have hnote : ∀ messages : History, CallsAnswered (popTrailingTurn messages) →
      CallsAnswered (overflowHistory env messages) := by
    intro messages hm
    refine hm.append (PlainMsg.callsAnswered fun m hm => ?_)
    obtain ⟨x, -, rfl⟩ := Option.map_eq_some_iff.mp (Option.mem_toList.mp hm)
    exact x.2
  unfold withCalls
  dsimp only
  cases hsk : p.skipToolExecution with
  | true =>
    rw [hsk] at hbatch
    simp only [if_true] at hbatch ⊢
    obtain ⟨hm, hguard⟩ := hbatch _ rfl
    have hend := handleTurnEnd_callsAnswered hm env
    split_ifs with _ hover
    · exact hm
    · exact hnote _ (hguard hover.1)
    all_goals exact hend
  | false =>
    rw [hsk] at hbatch
    simp only [Bool.false_eq_true, if_false] at hbatch ⊢
    obtain ⟨hm, hguard⟩ := hbatch _ rfl
    have hend := handleTurnEnd_callsAnswered hm env
    split_ifs with _ hover
    · exact hm
    · exact hnote _ (hguard hover.1)
    all_goals exact hend

/-- **After a response**, however the attempt ends. -/
theorem respond_callsAnswered {cfg : LoopConfig} {env : TurnEnv} {s : LoopState} {r : Response}
    (hs : CallsAnswered s.messages) (hclose : TurnCloses cfg env s r) :
    CallsAnswered (respond cfg env s r).state.messages := by
  have hmsgs := processLlmResponse_messages cfg env s r
  have hafter : (afterResponse cfg env s r).messages =
      (processLlmResponse cfg env s.toolNames s.turn s.messages r).messages := rfl
  by_cases hcont : env.onLlmResponse.continueToNextTurn = true
  · -- restarted, or stopped with its calls answered all the same
    have hanswered : CallsAnswered (afterResponse cfg env s r).messages := by
      rw [hafter, hmsgs, if_pos hcont]
      exact answerUnexecuted_callsAnswered hs _
    unfold respond
    dsimp only
    rw [processLlmResponse_continue, if_pos hcont]
    split <;> exact hanswered
  · have hcont' : env.onLlmResponse.continueToNextTurn = false := by simpa using hcont
    rw [if_neg hcont] at hmsgs
    -- nothing is left to execute, or an observer stops the run
    have hobs (h : env.onLlmResponse.stopReason ≠ "" ∨ parsedCalls cfg env s.toolNames s.turn r = []) :
        CallsAnswered (afterResponse cfg env s r).messages := by
      rw [hafter, hmsgs]
      refine observedHistory_callsAnswered hs fun hpop id hid hne => ?_
      have hfresh := hclose.fresh hcont' hpop fun hc => h.elim (fun h => h hc.1) (fun h => hc.2.1 h)
      refine (recorded_answered_or_executed hfresh hid hne).resolve_right fun hexec => ?_
      rcases h with h | h
      · obtain ⟨c, hc, rfl⟩ := List.mem_map.mp hid
        exact hclose.stopped h hcont' hpop c hc hne hexec
      · simp [h] at hexec
    unfold respond
    dsimp only
    rw [processLlmResponse_continue, processLlmResponse_parsed, if_neg hcont]
    split
    · next hstop =>
      refine hobs ?_
      by_cases hp : parsedCalls cfg env s.toolNames s.turn r = []
      · exact .inr hp
      · rw [(processLlmResponse_observed hcont hp).1] at hstop
        exact .inl hstop
    next hstop =>
    replace hstop := processLlmResponse_stopReason (not_not.mp hstop)
    split
    · show CallsAnswered (answerUnexecutedToolCalls (afterResponse cfg env s r).messages _)
      rw [hafter, hmsgs]
      exact answerUnexecuted_callsAnswered hs _
    next hrej =>
    split
    · next hnone => exact withoutCalls_callsAnswered (hobs (.inr hnone))
    · next hsome =>
      refine withCalls_callsAnswered fun messages heq => ?_
      rw [(processLlmResponse_observed hcont hsome).2, processLlmResponse_parsed, hafter, hmsgs] at heq
      cases hskip : env.onLlmResponse.skipToolExecution with
      | true =>
        rw [hskip, if_pos rfl] at heq
        subst heq
        exact ⟨answerUnexecuted_callsAnswered hs _, fun hguard => answerUnexecuted_popTrailingTurn hs
          (hclose.guarded hguard hstop hcont' (not_not.mp hrej) hsome).1 _⟩
      | false =>
        rw [hskip, if_neg (by simp)] at heq
        subst heq
        have hfresh (hpop : env.onLlmResponse.popLastMessage = false) :=
          hclose.fresh hcont' hpop fun hc => hc.2.2.elim hrej (by simp [hskip])
        refine ⟨executeToolCalls_callsAnswered hs _ _ hfresh, fun hguard => ?_⟩
        obtain ⟨hpop, hinj⟩ := hclose.guarded hguard hstop hcont' (not_not.mp hrej) hsome
        exact executeToolCalls_popTrailingTurn hs _ _ hpop (hinj hskip) (hfresh hpop)

/-- **One attempt**, however it ends. -/
theorem attempt_callsAnswered {cfg : LoopConfig} {env : TurnEnv} {s : LoopState}
    (hs : CallsAnswered s.messages) (hclose : RunCloses cfg s env) :
    CallsAnswered (attempt cfg env s).state.messages := by
  have hbefore : CallsAnswered (beforeCall env s).messages := injectMessages_callsAnswered hs _
  unfold attempt
  dsimp only
  split
  · exact hbefore
  · split
    · exact hbefore
    · exact hbefore
    · split <;> exact hbefore
    · exact hbefore
    · next r hcall =>
      split
      · exact hbefore
      · exact respond_callsAnswered (s := logged env (beforeCall env s) _) hbefore
          ⟨(hclose r hcall).fresh, (hclose r hcall).stopped, (hclose r hcall).guarded⟩

/-! ### Whole runs -/

theorem run_callsAnswered {cfg : LoopConfig} {env : ℕ → TurnEnv} {messages : History}
    {toolNames : List String} (hstart : CallsAnswered messages)
    (hclose : RunMeets (RunCloses cfg) cfg env messages toolNames) :
    CallsAnswered (runAgentLoop cfg env messages toolNames).state.messages := by
  refine runLoop_rule (P := RunCloses cfg) (I := fun _ s => CallsAnswered s.messages)
    (Q := fun res => CallsAnswered res.state.messages) ?_ ?_ ?_ ?_ _ _ hstart hclose
  · intro left s e s' hI _ hP ha
    have := attempt_callsAnswered hI hP
    rwa [ha] at this
  · intro left s e s' reason hI _ hP ha
    have := attempt_callsAnswered hI hP
    rwa [ha] at this
  · intro left s e s' hI _ hP ha
    have := attempt_callsAnswered hI hP
    rwa [ha] at this
  · intro left s hI _
    exact hI

/-- **The returned history can be replayed**: below its last assistant message
every id it records is answered, whichever exit ended the run. -/
theorem returned_history_answered {cfg : LoopConfig} {env : ℕ → TurnEnv} {messages : History}
    {toolNames : List String} (hstart : CallsAnswered messages)
    (hclose : RunMeets (RunCloses cfg) cfg env messages toolNames) {above below : History} {a : Message}
    (hlast : lastAssistant (runAgentLoop cfg env messages toolNames).state.messages = some (above, a, below)) :
    ∀ id ∈ callIds a, id ≠ "" → id ∈ toolIds below := by
  have hrun := run_callsAnswered hstart hclose
  obtain ⟨heq, -, hbelow⟩ := lastAssistant_spec hlast
  rw [heq] at hrun
  have hids := hrun.of_append_right.1
  rwa [untilAssistant_eq_self hbelow] at hids

theorem callThenText_closes {cfg : LoopConfig} (hguard : cfg.contextOverflowGuard = false) (notes : List String)
    (s : LoopState) (i : ℕ) : RunCloses cfg s (callThenText notes i) := by
  intro r hcall
  refine ⟨fun _ _ _ => callThenText_fresh cfg _ _ notes i r hcall, fun hstop => ?_, fun hon => ?_⟩
  · match i with
    | 0 => exact absurd rfl hstop
    | _ + 1 => exact absurd rfl hstop
  · rw [hguard] at hon
    cases hon

theorem returned_history_answered_callThenText :
    ∃ above a below, lastAssistant (runAgentLoop { maxTurns := 1 } (callThenText ["note"]) [userMsg "go"]
        ["read"]).state.messages = some (above, a, below) ∧ "c1" ∈ callIds a ∧ "c1" ∈ toolIds below := by
  refine ⟨_, _, _, rfl, by decide, ?_⟩
  have hstart : CallsAnswered [userMsg "go"] := by decide
  have hclose : RunMeets (RunCloses { maxTurns := 1 }) { maxTurns := 1 } (callThenText ["note"])
      [userMsg "go"] ["read"] := StepsMeet.of_forall (fun s i => callThenText_closes rfl _ s i) _ _
  exact returned_history_answered hstart hclose rfl "c1" (by decide) (by decide)

/-- A call whose run an observer ends before the call does. -/
def stopAtCall : TurnEnv :=
  { call := .response callReply, onLlmResponse := { stopReason := "cancelled" } }

/-- Nobody answers the call of a run stopped by `on_llm_response`. -/
theorem stopped_call_unanswered :
    CallsAnswered [userMsg "go"] ∧
      ∃ above a below, lastAssistant (runAgentLoop { maxTurns := 1 } (fun _ => stopAtCall) [userMsg "go"]
        ["read"]).state.messages = some (above, a, below) ∧ "c1" ∈ callIds a ∧ "c1" ∉ toolIds below :=
  ⟨by decide, _, _, _, rfl, by decide, by decide⟩

end Loop
end AgentCore
