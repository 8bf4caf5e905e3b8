/-
# The end of a turn: dropped calls, rollback and the overflow guard

Three routines of `agent_loop.py` look at the turn that stands at the end of
the history. `_answer_dropped_tool_calls` answers the calls nobody will run but
takes an id that any earlier tool message carries for answered.
`_pop_last_assistant_turn` searches past injected messages for the assistant
message and then removes the tool messages directly beneath it, and
`_handle_context_overflow` looks at the tool messages at the very end. The last
two miss what stands on the far side of a message an observer has injected.

Key definitions: `DroppedAnswered`, `TurnTail`, `TakesTurnBack`,
`executedHistory`, `GuardCoversTurn`.
Key theorems: `droppedAnswered_iff`, `takesTurnBack_iff`, `guardCoversTurn_iff`.
-/
import AgentCore.Loop.Pairing
import Mathlib.Algebra.Order.BigOperators.Group.List
import Mathlib.Algebra.Order.Group.Nat
import Mathlib.Algebra.Ring.Nat

namespace AgentCore
namespace Loop

/-! ### Dropped calls -/

/-- Each call of the assistant message that is not to be executed has a tool
message below it. -/
def DroppedAnswered (above : History) (a : Message) (below : History) (parsed : List ToolCall)
    (toolNames : List String) : Prop :=
  ∀ id ∈ a.toolCalls.map (·.id), id ∉ parsed.map (·.id) →
    id ∈ toolIds ((answerDroppedToolCalls (above ++ a :: below) a parsed toolNames).drop (above.length + 1))

theorem drop_answerDroppedToolCalls (above : History) (a : Message) (below : History)
    (parsed : List ToolCall) (toolNames : List String) :
    (answerDroppedToolCalls (above ++ a :: below) a parsed toolNames).drop (above.length + 1) =
      below ++ answerOpen (droppedDetail toolNames) a.toolCalls
        (toolIds (above ++ a :: below) ++ parsed.map (·.id)) := by
  have hlen : above.length + 1 = (above ++ [a]).length := by simp
  have hsplit : ∀ rest : History, above ++ a :: below ++ rest = (above ++ [a]) ++ (below ++ rest) := by simp
  rw [answerDroppedToolCalls, hsplit, hlen, List.drop_left]

/-- **Dropped calls are answered** exactly when none of them carries an id that
a tool message above the assistant message carries and none below it does. -/
theorem droppedAnswered_iff {above : History} {a : Message} {below : History} {parsed : List ToolCall}
    {toolNames : List String} (ha : isAssistantMsg a = true) (hids : ∀ c ∈ a.toolCalls, c.id ≠ "") :
    DroppedAnswered above a below parsed toolNames ↔
      ∀ id ∈ a.toolCalls.map (·.id), id ∉ parsed.map (·.id) → id ∈ toolIds above → id ∈ toolIds below := by
  have hcons : toolIds (a :: below) = toolIds below := by simp [toolIds, isToolMsg_of_assistant ha]
  have hopen : ∀ id, id ∈ toolIds (below ++ answerOpen (droppedDetail toolNames) a.toolCalls
      (toolIds (above ++ a :: below) ++ parsed.map (·.id))) ↔ id ∈ toolIds below ∨
        (id ∈ a.toolCalls.map (·.id) ∧ id ≠ "" ∧ id ∉ toolIds above ++ toolIds below ++ parsed.map (·.id)) := by
    intro id
    rw [toolIds_append, toolIds_of_tools (answerOpen_isToolMsg _ _ _), List.mem_append, mem_answerOpen_ids,
      toolIds_append, hcons]
  unfold DroppedAnswered
  refine forall_congr' fun id => forall_congr' fun hid => forall_congr' fun hdropped => ?_
  have hne : id ≠ "" := by
    obtain ⟨c, hc, rfl⟩ := List.mem_map.mp hid
    exact hids c hc
  rw [drop_answerDroppedToolCalls, hopen]
  constructor
  · intro h habove
    rcases h with hbelow | ⟨-, -, hfree⟩
    · exact hbelow
    · exact absurd (List.mem_append_left _ (List.mem_append_left _ habove)) hfree
  · intro h
    by_cases hbelow : id ∈ toolIds below
    · exact .inl hbelow
    · refine .inr ⟨hid, hne, fun hmem => ?_⟩
      rcases List.mem_append.mp hmem with hmem | hparsed
      · rcases List.mem_append.mp hmem with habove | hmem
        · exact hbelow (h habove)
        · exact hbelow hmem
      · exact hdropped hparsed

/-- A turn with a call of a tool nobody has and a call of one that is bound. -/
def mixedTurn : Message :=
  assistantMsg .none [⟨"call_0", "search", "\x7b\x7d"⟩, ⟨"call_1", "read", "\x7b\x7d"⟩] ""

theorem droppedAnswered_mixedTurn :
    DroppedAnswered [userMsg "go"] mixedTurn [] [⟨"call_1", "read", "\x7b\x7d"⟩] ["read"] :=
  (droppedAnswered_iff rfl (by decide)).mpr (by decide)

/-- A provider that numbers the calls of each turn from zero: the answer of the
first turn passes for one of the second. -/
theorem reused_id_unanswered :
    let above := [userMsg "go", assistantMsg .none [⟨"call_0", "read", "\x7b\x7d"⟩] "",
      toolMsg "text" "call_0"]
    WellPaired above ∧ (mixedTurn.toolCalls.map (·.id)).Nodup ∧
      ¬ DroppedAnswered above mixedTurn [] [⟨"call_1", "read", "\x7b\x7d"⟩] ["read"] := by
  refine ⟨by decide, by decide, fun h => ?_⟩
  have hopen := h "call_0" (by decide) (by decide)
  exact absurd hopen (by decide)

/-! ### Taking the turn back -/

/-- What a turn leaves below its assistant message: tool messages that answer
it, and messages observers have injected, in any order. -/
def TurnTail (a : Message) (below : History) : Prop :=
  ∀ m ∈ below, isUserMsg m = true ∨ (isToolMsg m = true ∧ m.toolCallId ∈ callIds a)

/-- The rollback removes the assistant message with the tool messages that
answer it and keeps all others in order. -/
def TakesTurnBack (above : History) (a : Message) (below : History) : Prop :=
  popLastAssistantTurn (above ++ a :: below) =
    above ++ below.filter fun m => !(isToolMsg m && decide (m.toolCallId ∈ callIds a))

instance (a : Message) (below : History) : Decidable (TurnTail a below) := by
  unfold TurnTail
  infer_instance

instance (above : History) (a : Message) (below : History) : Decidable (TakesTurnBack above a below) := by
  unfold TakesTurnBack
  infer_instance

theorem TurnTail.not_assistant {a : Message} {below : History} (h : TurnTail a below) :
    ∀ m ∈ below, isAssistantMsg m = false := by
  intro m hm
  rcases h m hm with huser | ⟨htool, -⟩
  · exact isAssistantMsg_of_user huser
  · exact isAssistantMsg_of_tool htool

/-- In a turn's tail the answers are the tool messages. -/
theorem TurnTail.filter_answers {a : Message} {below : History} (h : TurnTail a below) :
    (below.filter fun m => !(isToolMsg m && decide (m.toolCallId ∈ callIds a))) =
      below.filter fun m => !isToolMsg m := by
  apply List.filter_congr
  intro m hm
  rcases h m hm with huser | ⟨htool, hid⟩
  · simp [isToolMsg_of_user huser]
  · simp [htool, hid]

/-- Dropping from the front removes all there is to remove when nothing of it
is left behind. -/
theorem dropWhile_eq_filter_iff {α : Type*} (p : α → Bool) (l : List α) :
    (l.dropWhile p = l.filter fun x => !p x) ↔ ∀ x ∈ l.dropWhile p, p x = false := by
  have hfilter : (l.filter fun x => !p x) = (l.dropWhile p).filter fun x => !p x := by
    conv_lhs => rw [← List.takeWhile_append_dropWhile (p := p) (l := l)]
    rw [List.filter_append, List.filter_eq_nil_iff.mpr, List.nil_append]
    intro x hx
    simp [List.mem_takeWhile_imp hx]
  rw [hfilter, eq_comm, List.filter_eq_self]
  simp

/-! ### The messages of a turn -/

/-- The history once the tools of the turn have run. -/
def executedHistory (cfg : LoopConfig) (env : TurnEnv) (s : LoopState) (r : Response) : History :=
  (executeToolCalls cfg env s.turn s.totalToolCalls (observedHistory cfg env s r)
    (parsedCalls cfg env s.toolNames s.turn r)).1

/-- The results of the turn. -/
def turnResults (cfg : LoopConfig) (env : TurnEnv) (s : LoopState) (r : Response) : List ToolResult :=
  toolResults env s.turn s.totalToolCalls (parsedCalls cfg env s.toolNames s.turn r)

/-- The assistant message with the answers beneath it, unless `on_llm_response`
took them back. -/
def turnHead (cfg : LoopConfig) (env : TurnEnv) (s : LoopState) (r : Response) : List Message :=
  if env.onLlmResponse.popLastMessage then []
  else responseMsg r :: turnAnswers cfg env s.toolNames s.turn s.messages r

/-- What is injected when a tool's wait was interrupted. -/
def turnNotices (cfg : LoopConfig) (env : TurnEnv) (s : LoopState) (r : Response) : List Message :=
  if (turnResults cfg env s r).any (·.interrupted) then env.onToolWaitInterrupted.injectMessages.map userMsg
  else []

theorem executedHistory_eq (cfg : LoopConfig) (env : TurnEnv) (s : LoopState) (r : Response) :
    executedHistory cfg env s r =
      evictOldImages (baseHistory s.messages r ++ (turnHead cfg env s r ++
        (env.onLlmResponse.injectMessages.map userMsg ++
          (turnResults cfg env s r).map (toolResultMsg env)))) cfg.maxImagesInHistory ++
        turnNotices cfg env s r := by
  have hobs : observedHistory cfg env s r =
      baseHistory s.messages r ++ (turnHead cfg env s r ++ env.onLlmResponse.injectMessages.map userMsg) := by
    rw [observedHistory_eq, injectMessages, turnHead]
    split <;> simp
  unfold executedHistory executeToolCalls turnNotices turnResults
  rw [hobs]
  dsimp only
  split
  · simp [injectMessages]
  · simp

/-- The parts of the history a turn leaves, after eviction: what stood there
before, the assistant message's block, the notes on the response, the results,
and the notices of an interrupted wait. -/
theorem executedHistory_parts (cfg : LoopConfig) (env : TurnEnv) (s : LoopState) (r : Response) :
    ∃ base head notes results,
      executedHistory cfg env s r = base ++ (head ++ (notes ++ (results ++ turnNotices cfg env s r))) ∧
      List.Forall₂ SameShape (baseHistory s.messages r) base ∧
      List.Forall₂ SameShape (turnHead cfg env s r) head ∧
      List.Forall₂ SameShape (env.onLlmResponse.injectMessages.map userMsg) notes ∧
      List.Forall₂ SameShape ((turnResults cfg env s r).map (toolResultMsg env)) results := by
  rw [executedHistory_eq]
  obtain ⟨base, own, hbase, hown, hsplit⟩ :=
    Groups.forall₂_append_left (evictOldImages_sameShape (baseHistory s.messages r ++ (turnHead cfg env s r ++
      (env.onLlmResponse.injectMessages.map userMsg ++ (turnResults cfg env s r).map (toolResultMsg env))))
      cfg.maxImagesInHistory)
  obtain ⟨head, rest, hhead, hrest, rfl⟩ := Groups.forall₂_append_left hown
  obtain ⟨notes, results, hnotes, hresults, rfl⟩ := Groups.forall₂_append_left hrest
  refine ⟨base, head, notes, results, ?_, hbase, hhead, hnotes, hresults⟩
  rw [hsplit]
  simp

theorem sameShape_users {texts : List String} {notes : History}
    (h : List.Forall₂ SameShape (texts.map userMsg) notes) : ∀ m ∈ notes, isUserMsg m = true := by
  refine Groups.forall₂_members (fun m m' hmm => ?_) h (fun m hm => mem_map_userMsg hm)
  rw [isUserMsg, isUserMsg, hmm.1]

theorem sameShape_tools {ms results : History} (h : List.Forall₂ SameShape ms results)
    (hms : ∀ m ∈ ms, isToolMsg m = true) : ∀ m ∈ results, isToolMsg m = true :=
  Groups.forall₂_members (fun _ _ hmm => hmm.isToolMsg_eq) h hms

theorem mem_turnNotices {cfg : LoopConfig} {env : TurnEnv} {s : LoopState} {r : Response} {m : Message}
    (hm : m ∈ turnNotices cfg env s r) : isUserMsg m = true := by
  unfold turnNotices at hm
  split at hm
  · exact mem_map_userMsg hm
  · exact absurd hm List.not_mem_nil

theorem turnNotices_eq_nil (cfg : LoopConfig) (env : TurnEnv) (s : LoopState) (r : Response) :
    turnNotices cfg env s r = [] ↔
      ((turnResults cfg env s r).any (·.interrupted) = true → env.onToolWaitInterrupted.injectMessages = []) := by
  unfold turnNotices
  split
  · next hint => simp [hint]
  · next hint => simp [hint]

/-- The block of the assistant message after eviction. -/
theorem sameShape_turnHead {cfg : LoopConfig} {env : TurnEnv} {s : LoopState} {r : Response} {head : History}
    (hpop : env.onLlmResponse.popLastMessage = false)
    (h : List.Forall₂ SameShape (turnHead cfg env s r) head) :
    ∃ a answers, head = a :: answers ∧ SameShape (responseMsg r) a ∧
      List.Forall₂ SameShape (turnAnswers cfg env s.toolNames s.turn s.messages r) answers := by
  rw [turnHead, if_neg (by simp [hpop])] at h
  rcases h with _ | ⟨ha, hanswers⟩
  exact ⟨_, _, rfl, ha, hanswers⟩

/-- A turn with native calls leaves an assistant message with a tail of answers
and injected messages. -/
theorem executedHistory_turnTail {cfg : LoopConfig} {env : TurnEnv} {s : LoopState} {r : Response}
    (hs : WellPaired s.messages) (hr : NativeCalls r) (hpop : env.onLlmResponse.popLastMessage = false) :
    ∃ above a below, executedHistory cfg env s r = above ++ a :: below ∧ WellPaired above ∧
      isAssistantMsg a = true ∧ TurnTail a below := by
  obtain ⟨base, head, notes, results, heq, hbase, hhead, hnotes, hresults⟩ :=
    executedHistory_parts cfg env s r
  obtain ⟨a, answers, rfl, ha, hanswers⟩ := sameShape_turnHead hpop hhead
  have hrecorded : ∀ {id}, (id ∈ (turnAnswers cfg env s.toolNames s.turn s.messages r).map (·.toolCallId) ∨
      id ∈ (parsedCalls cfg env s.toolNames s.turn r).map (·.id)) → id ∈ callIds a := by
    intro id hid
    rw [← ha.2.1, callIds_responseMsg]
    exact turnAnswers_parsed_recorded cfg hr env s.toolNames s.turn s.messages hid
  have hids := parsedCalls_ids_ne cfg hr env s.toolNames s.turn
  refine ⟨base, a, answers ++ (notes ++ (results ++ turnNotices cfg env s r)), ?_, ?_, ?_, ?_⟩
  · rw [heq, List.cons_append]
  · exact (baseHistory_wellPaired hs r).sameShape hbase
  · rw [← ha.isAssistantMsg_eq]
    rfl
  · intro m hm
    rcases List.mem_append.mp hm with hm | hm
    · refine .inr ⟨sameShape_tools hanswers (isToolMsg_turnAnswers _ _ _ _ _ _) m hm, hrecorded (.inl ?_)⟩
      rw [sameShape_ids hanswers]
      exact List.mem_map_of_mem hm
    rcases List.mem_append.mp hm with hm | hm
    · exact .inl (sameShape_users hnotes m hm)
    rcases List.mem_append.mp hm with hm | hm
    · refine .inr ⟨sameShape_tools hresults (isToolMsg_toolResultMsgs env _) m hm, hrecorded (.inr ?_)⟩
      rw [← toolResultMsgs_ids env s.turn s.totalToolCalls hids, ← turnResults, sameShape_ids hresults]
      exact List.mem_map_of_mem hm
    · exact .inl (mem_turnNotices hm)

/-- **Rollback** takes back all of the turn exactly when no tool message of the
turn stands below an injected one. -/
theorem takesTurnBack_iff {above : History} {a : Message} {below : History} (ha : isAssistantMsg a = true)
    (htail : TurnTail a below) :
    TakesTurnBack above a below ↔ ∀ m ∈ below.dropWhile isToolMsg, isToolMsg m = false := by
  have hpop : popLastAssistantTurn (above ++ a :: below) = above ++ below.dropWhile isToolMsg := by
    unfold popLastAssistantTurn
    rw [lastAssistant_append ha htail.not_assistant]
  unfold TakesTurnBack
  rw [hpop, htail.filter_answers, List.append_cancel_left_eq]
  exact dropWhile_eq_filter_iff isToolMsg below

theorem takesTurnBack_callReply :
    TakesTurnBack [userMsg "go"] (responseMsg callReply) [toolMsg "text" "c1", userMsg "note"] :=
  (takesTurnBack_iff rfl (by decide)).mpr (by decide)

/-- The turn of `callThenText` whose response an observer comments on before
the tool runs: at the end of the turn a rollback leaves the result behind. -/
theorem note_orphans_result :
    let h := executedHistory { maxTurns := 2 } (callThenText ["note"] 0)
      { messages := [userMsg "go"], toolNames := ["read"] } callReply
    h = [userMsg "go"] ++ responseMsg callReply :: [userMsg "note", toolMsg "" "c1"] ∧
      WellPaired [userMsg "go"] ∧ TurnTail (responseMsg callReply) [userMsg "note", toolMsg "" "c1"] ∧
      ¬ TakesTurnBack [userMsg "go"] (responseMsg callReply) [userMsg "note", toolMsg "" "c1"] :=
  ⟨by decide, by decide, by decide, by decide⟩

/-! ### The overflow guard -/

/-- With the first `n` messages those before the turn: the estimate counts all
tool messages of the turn, and when the guard trips, neither they nor the
assistant message are left. -/
def GuardCoversTurn (n : ℕ) (h : History) : Prop :=
  ∀ (cfg : LoopConfig) (env : TurnEnv) (s : LoopState), s.messages = h →
    (s.lastInputTokens + s.lastOutputTokens +
      (((h.drop n).filter isToolMsg).map fun m => buffered (env.estimateMessageTokens m)).sum +
      buffered (env.estimateTextTokens cfg.summaryPrompt) + cfg.maxCompletionTokens + 1000 ≤
        overflowEstimate cfg env s) ∧
    (overflows cfg env s → ∃ kept, overflowHistory env h = kept ++ (env.recoveryNote.map (·.1)).toList ∧
      kept <+: h ∧ ∀ m ∈ kept.drop n, isToolMsg m = false ∧ isAssistantMsg m = false)

/-- What is to be shown of a history and its turn. -/
theorem guardCoversTurn_of {n : ℕ} {h : History}
    (hsum : ((h.drop n).filter isToolMsg).Sublist (trailingTools h))
    (hkept : ∀ m ∈ (popTrailingTurn h).drop n, isToolMsg m = false ∧ isAssistantMsg m = false) :
    GuardCoversTurn n h := by
  intro cfg env s hs
  refine ⟨?_, fun _ => ⟨popTrailingTurn h, rfl, popTrailingTurn_isPrefix h, hkept⟩⟩
  have hle : (((h.drop n).filter isToolMsg).map fun m => buffered (env.estimateMessageTokens m)).sum ≤
      ((trailingTools h).map fun m => buffered (env.estimateMessageTokens m)).sum :=
    (hsum.map _).sum_le_sum (fun _ _ => Nat.zero_le _)
  unfold overflowEstimate
  rw [hs]
  omega

/-- There is a guard that trips on any history. -/
theorem GuardCoversTurn.kept {n : ℕ} {h : History} (hg : GuardCoversTurn n h) (hne : h ≠ []) :
    ∀ m ∈ (popTrailingTurn h).drop n, isToolMsg m = false ∧ isAssistantMsg m = false := by
  let cfg : LoopConfig := { maxTurns := 0, contextOverflowGuard := true, maxContextLength := 0 }
  let env : TurnEnv := { call := .failure .emptyCompletion }
  let s : LoopState := { messages := h, toolNames := [] }
  have htrips : overflows cfg env s := by
    refine ⟨rfl, hne, ?_⟩
    show (0 : ℤ) ≤ overflowEstimate cfg env s
    unfold overflowEstimate
    show (0 : ℤ) ≤ _ + _ + _ + _ + 0 + 1000
    omega
  obtain ⟨kept, heq, -, hkept⟩ := (hg cfg env s rfl).2 htrips
  have hpop : popTrailingTurn h = kept := List.append_cancel_right heq
  rwa [hpop]

/-- An assistant message with nothing but tool messages below. -/
theorem guardCoversTurn_block {base tools : History} {a : Message} (ha : isAssistantMsg a = true)
    (htools : ∀ m ∈ tools, isToolMsg m = true) : GuardCoversTurn base.length (base ++ a :: tools) := by
  apply guardCoversTurn_of
  · have hsplit : base ++ a :: tools = (base ++ [a]) ++ tools := by simp
    rw [List.drop_left, List.filter_cons_of_neg (by simp [isToolMsg_of_assistant ha]), hsplit,
      trailingTools_append htools]
    exact List.filter_sublist.trans (List.sublist_append_right _ _)
  · rw [popTrailingTurn_turn ha htools, List.drop_length]
    exact fun m hm => absurd hm List.not_mem_nil

/-- A turn whose assistant message was taken back. -/
theorem guardCoversTurn_popped {base notes tools : History} (hnotes : ∀ m ∈ notes, isUserMsg m = true)
    (htools : ∀ m ∈ tools, isToolMsg m = true) : GuardCoversTurn base.length (base ++ (notes ++ tools)) := by
  have hsplit : base ++ (notes ++ tools) = (base ++ notes) ++ tools := by simp
  apply guardCoversTurn_of
  · have hnone : notes.filter isToolMsg = [] :=
      List.filter_eq_nil_iff.mpr fun m hm => by simp [isToolMsg_of_user (hnotes m hm)]
    rw [List.drop_left, List.filter_append, hnone, List.nil_append, hsplit, trailingTools_append htools]
    exact List.filter_sublist.trans (List.sublist_append_right _ _)
  · rw [hsplit, popTrailingTurn_append htools]
    intro m hm
    have hmem : m ∈ notes := by
      have := (popTrailingTurn_isPrefix (base ++ notes)).sublist.drop base.length |>.subset hm
      rwa [List.drop_left] at this
    exact ⟨isToolMsg_of_user (hnotes m hmem), isAssistantMsg_of_user (hnotes m hmem)⟩

/-- A message above an injected one, with tool messages at the end or not,
stays. -/
theorem GuardCoversTurn.of_user {base own notes tools : History}
    (hg : GuardCoversTurn base.length (base ++ (own ++ (notes ++ tools))))
    (hnotes : ∀ m ∈ notes, isUserMsg m = true) (hne : notes ≠ [])
    (htools : ∀ m ∈ tools, isToolMsg m = true) :
    ∀ m ∈ own, isToolMsg m = false ∧ isAssistantMsg m = false := by
  obtain ⟨init, u, rfl⟩ := List.eq_nil_or_concat notes |>.resolve_left hne
  have hu : isUserMsg u = true := hnotes u (by simp)
  have hsplit : base ++ (own ++ (init.concat u ++ tools)) = (base ++ (own ++ init)) ++ u :: tools := by simp
  intro m hm
  have hkept := hg.kept (by simp)
  rw [hsplit, popTrailingTurn_user hu htools, List.append_assoc, List.drop_left] at hkept
  exact hkept m (by simp [hm])

/-- **The overflow guard** sees and removes the whole turn exactly when no
observer has put a message behind the assistant message: `on_llm_response`
injected nothing or took the message back, and nothing was injected after an
interrupted wait. -/
theorem guardCoversTurn_iff (cfg : LoopConfig) (env : TurnEnv) (s : LoopState) (r : Response) :
    GuardCoversTurn (baseHistory s.messages r).length (executedHistory cfg env s r) ↔
      (env.onLlmResponse.popLastMessage = true ∨ env.onLlmResponse.injectMessages = []) ∧
      ((turnResults cfg env s r).any (·.interrupted) = true → env.onToolWaitInterrupted.injectMessages = []) := by
  obtain ⟨base, head, notes, results, heq, hbase, hhead, hnotes, hresults⟩ :=
    executedHistory_parts cfg env s r
  have htools := sameShape_tools hresults (isToolMsg_toolResultMsgs env _)
  have husers := sameShape_users hnotes
  rw [heq, hbase.length_eq, ← turnNotices_eq_nil]
  constructor
  · intro hg
    have hnil : turnNotices cfg env s r = [] := by
      by_contra hne
      have hsplit : base ++ (head ++ (notes ++ (results ++ turnNotices cfg env s r))) =
          base ++ ((head ++ (notes ++ results)) ++ (turnNotices cfg env s r ++ [])) := by simp
      rw [hsplit] at hg
      have hclean := hg.of_user (fun m => mem_turnNotices) hne (by simp)
      have hint := (Classical.not_imp.mp (mt (turnNotices_eq_nil cfg env s r).mpr hne)).1
      obtain ⟨tr, htr, -⟩ := List.any_eq_true.mp hint
      have hlen : 0 < results.length := by
        rw [← hresults.length_eq, List.length_map]
        exact List.length_pos_of_mem htr
      have hmem : results[0] ∈ results := List.getElem_mem hlen
      have hfalse := (hclean results[0] (by simp [hmem])).1
      rw [htools _ hmem] at hfalse
      exact Bool.noConfusion hfalse
    refine ⟨?_, hnil⟩
    by_contra hnot
    obtain ⟨hpop, hinj⟩ := not_or.mp hnot
    obtain ⟨a, answers, rfl, ha, -⟩ := sameShape_turnHead (by simpa using hpop) hhead
    have hne : notes ≠ [] := by
      rintro rfl
      exact hinj (List.map_eq_nil_iff.mp (List.forall₂_nil_right_iff.mp hnotes))
    rw [hnil, List.append_nil] at hg
    have hfalse := (hg.of_user husers hne htools a (by simp)).2
    rw [← ha.isAssistantMsg_eq] at hfalse
    exact Bool.noConfusion hfalse
  · rintro ⟨hresponse, hnil⟩
    rw [hnil, List.append_nil]
    by_cases hpop : env.onLlmResponse.popLastMessage = true
    · rw [turnHead, if_pos hpop] at hhead
      rw [List.forall₂_nil_left_iff.mp hhead, List.nil_append]
      exact guardCoversTurn_popped husers htools
    · rw [hresponse.resolve_left hpop, List.map_nil] at hnotes
      obtain ⟨a, answers, rfl, ha, hanswers⟩ := sameShape_turnHead (by simpa using hpop) hhead
      rw [List.forall₂_nil_left_iff.mp hnotes, List.nil_append, List.cons_append]
      refine guardCoversTurn_block (by rw [← ha.isAssistantMsg_eq]; rfl) fun m hm => ?_
      rcases List.mem_append.mp hm with hm | hm
      · exact sameShape_tools hanswers (isToolMsg_turnAnswers _ _ _ _ _ _) m hm
      · exact htools m hm

/-- A tool whose wait is interrupted, on which an observer tells the model so. -/
def interruptedTurn : TurnEnv :=
  { call := .response callReply, execute := fun _ _ => ("[interrupted]", true),
    onToolWaitInterrupted := { injectMessages := ["stop and answer"] } }

/-- The notice hides the interrupted turn from the guard. -/
theorem notice_hides_turn :
    ¬ GuardCoversTurn 1 (executedHistory { maxTurns := 2 } interruptedTurn
      { messages := [userMsg "go"], toolNames := ["read"] } callReply) := by
  intro hg
  have hkept := hg.kept (by decide) (responseMsg callReply) (by decide)
  exact absurd hkept.2 (by decide)

end Loop
end AgentCore
