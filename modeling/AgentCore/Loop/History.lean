/-
# How the loop edits its history

The routines of `agent_loop.py` that answer calls nobody will run, take a turn
back, and forget signed thinking. They all start from the last assistant
message of the history, `lastAssistant`. Answers to calls of that message that
were not executed are put directly beneath its block, and taking the turn back
removes the message with the tool messages directly beneath it; messages
injected further down stay.

Key definitions: `answerDroppedToolCalls`, `answerUnexecutedToolCalls`,
`popLastAssistantTurn`, `resetSignedThinkingHistory`, `popTrailingTurn`.
Key theorems: `mem_answerOpen_ids`, `lastAssistant_append`, `lastAssistant_spec`,
`popTrailingTurn_turn`.
-/
import AgentCore.Pairing

namespace AgentCore
namespace Loop

/-- A tool message for each call with an id that is not answered yet. -/
def answerOpen (detail : ToolCall → String) : List ToolCall → List String → List Message
  | [], _ => []
  | c :: cs, answered =>
    if c.id = "" ∨ c.id ∈ answered then answerOpen detail cs answered
    else toolMsg ("[tool call not executed] " ++ detail c) c.id :: answerOpen detail cs (c.id :: answered)

/-- Why a recorded call was not dispatched. -/
def droppedDetail (toolNames : List String) (c : ToolCall) : String :=
  if c.name ≠ "" ∧ c.name ∉ toolNames then
    "unknown tool '" ++ c.name ++ "' is not available. It was not run; the " ++
      "other tool calls in this turn were. Use only the listed tools."
  else "this tool call was not dispatched; re-issue it if still needed."

/-- `_answer_dropped_tool_calls`: the ids any tool message of the history
carries count as answered, and so do those of the calls to be executed. -/
def answerDroppedToolCalls (messages : History) (historyMsg : Message) (parsedCalls : List ToolCall)
    (toolNames : List String) : History :=
  messages ++ answerOpen (droppedDetail toolNames) historyMsg.toolCalls
    (toolIds messages ++ parsedCalls.map (·.id))

/-- The last assistant message, with what stands above and below it. -/
def lastAssistant (h : History) : Option (History × Message × History) :=
  match h.reverse.dropWhile fun m => !isAssistantMsg m with
  | [] => none
  | a :: above => some (above.reverse, a, (h.reverse.takeWhile fun m => !isAssistantMsg m).reverse)

/-- `_answer_unexecuted_tool_calls`. -/
def answerUnexecutedToolCalls (messages : History) (detail : String) : History :=
  match lastAssistant messages with
  | none => messages
  | some (above, a, below) =>
    above ++ a :: (below.takeWhile isToolMsg ++
      (answerOpen (fun _ => detail) a.toolCalls (toolIds below) ++ below.dropWhile isToolMsg))

/-- `_pop_last_assistant_turn`; a history without an assistant message is left
alone. -/
def popLastAssistantTurn (messages : History) : History :=
  match lastAssistant messages with
  | none => messages
  | some (above, _, below) => above ++ below.dropWhile isToolMsg

def isSignedThinking : Block → Bool
  | .thinking _ _ => true
  | .redactedThinking _ => true
  | _ => false

/-- One message without its signed thinking; `none` when nothing is left of
it. -/
def resetSignedThinking (m : Message) : Option Message :=
  match m.content with
  | .blocks bs =>
    if isAssistantMsg m = false then some m
    else
      let kept := bs.filter fun b => !isSignedThinking b
      if kept.length = bs.length then some m
      else if kept ≠ [] ∨ m.toolCalls ≠ [] then some { m with content := .blocks kept }
      else none
  | _ => some m

def resetSignedThinkingHistory (messages : History) : History := messages.filterMap resetSignedThinking

/-- The tool messages at the end of a history. -/
def trailingTools (h : History) : History := (h.reverse.takeWhile isToolMsg).reverse

/-- What stands above the tool messages at the end. -/
def aboveTrailing (h : History) : History := (h.reverse.dropWhile isToolMsg).reverse

/-- The pop of `_handle_context_overflow`: the tool messages at the end, then
the message above them if it is an assistant's. -/
def popTrailingTurn (messages : History) : History :=
  match (aboveTrailing messages).getLast? with
  | some m => if isAssistantMsg m then (aboveTrailing messages).dropLast else aboveTrailing messages
  | none => aboveTrailing messages

def injectMessages (messages : History) (texts : List String) : History := messages ++ texts.map userMsg

/-! ### Open calls -/

theorem answerOpen_isToolMsg (detail : ToolCall → String) : ∀ (cs : List ToolCall) (answered : List String),
    ∀ m ∈ answerOpen detail cs answered, isToolMsg m = true
  | [], _, m, hm => by simp [answerOpen] at hm
  | c :: cs, answered, m, hm => by
    unfold answerOpen at hm
    split at hm
    · exact answerOpen_isToolMsg detail cs answered m hm
    · rcases List.mem_cons.mp hm with rfl | hm
      · rfl
      · exact answerOpen_isToolMsg detail cs _ m hm

/-- The ids answered are those recorded, not empty and not answered before. -/
theorem mem_answerOpen_ids (detail : ToolCall → String) (id : String) :
    ∀ (cs : List ToolCall) (answered : List String),
    id ∈ (answerOpen detail cs answered).map (·.toolCallId) ↔
      id ∈ cs.map (·.id) ∧ id ≠ "" ∧ id ∉ answered
  | [], _ => by simp [answerOpen]
  | c :: cs, answered => by
    unfold answerOpen
    split
    · next hc =>
      rw [mem_answerOpen_ids detail id cs answered, List.map_cons, List.mem_cons]
      constructor
      · rintro ⟨h1, h2, h3⟩
        exact ⟨.inr h1, h2, h3⟩
      · rintro ⟨rfl | h1, h2, h3⟩
        · exact absurd hc (not_or.mpr ⟨h2, h3⟩)
        · exact ⟨h1, h2, h3⟩
    · next hc =>
      rw [List.map_cons, List.map_cons, List.mem_cons, List.mem_cons, toolCallId_toolMsg,
        mem_answerOpen_ids detail id cs (c.id :: answered)]
      obtain ⟨hne, hna⟩ := not_or.mp hc
      constructor
      · rintro (rfl | ⟨h1, h2, h3⟩)
        · exact ⟨.inl rfl, hne, hna⟩
        · exact ⟨.inr h1, h2, fun h => h3 (List.mem_cons_of_mem _ h)⟩
      · rintro ⟨h1, h2, h3⟩
        by_cases hid : id = c.id
        · exact .inl hid
        · refine .inr ⟨h1.resolve_left hid, h2, ?_⟩
          rw [List.mem_cons, not_or]
          exact ⟨hid, h3⟩

/-- No id is answered twice. -/
theorem nodup_answerOpen_ids (detail : ToolCall → String) : ∀ (cs : List ToolCall) (answered : List String),
    ((answerOpen detail cs answered).map (·.toolCallId)).Nodup
  | [], _ => by simp [answerOpen]
  | c :: cs, answered => by
    unfold answerOpen
    split
    · exact nodup_answerOpen_ids detail cs answered
    · rw [List.map_cons, List.nodup_cons, toolCallId_toolMsg]
      refine ⟨fun h => ?_, nodup_answerOpen_ids detail cs _⟩
      rw [mem_answerOpen_ids] at h
      exact h.2.2 (by simp)

/-! ### The last assistant message -/

theorem lastAssistant_append {above : History} {a : Message} {below : History}
    (ha : isAssistantMsg a = true) (hb : ∀ m ∈ below, isAssistantMsg m = false) :
    lastAssistant (above ++ a :: below) = some (above, a, below) := by
  have hrev : ∀ m ∈ below.reverse, (!isAssistantMsg m) = true := by
    intro m hm
    simp [hb m (List.mem_reverse.mp hm)]
  unfold lastAssistant
  rw [List.reverse_append, List.reverse_cons, List.append_assoc, List.dropWhile_append_of_pos hrev,
    List.takeWhile_append_of_pos hrev]
  simp [ha]

/-- The last assistant message is one, and none stands below it. -/
theorem lastAssistant_spec {h above below : History} {a : Message}
    (hl : lastAssistant h = some (above, a, below)) :
    h = above ++ a :: below ∧ isAssistantMsg a = true ∧ ∀ m ∈ below, isAssistantMsg m = false := by
  unfold lastAssistant at hl
  split at hl
  · simp at hl
  · next x xs hd =>
    simp only [Option.some.injEq, Prod.mk.injEq] at hl
    obtain ⟨rfl, rfl, rfl⟩ := hl
    refine ⟨?_, ?_, fun m hm => ?_⟩
    · have hsplit := List.takeWhile_append_dropWhile (p := fun m => !isAssistantMsg m) (l := h.reverse)
      rw [hd] at hsplit
      calc h = h.reverse.reverse := (List.reverse_reverse h).symm
        _ = (h.reverse.takeWhile (fun m => !isAssistantMsg m) ++ x :: xs).reverse := by rw [hsplit]
        _ = xs.reverse ++ x :: (h.reverse.takeWhile fun m => !isAssistantMsg m).reverse := by simp
    · have := List.head_dropWhile_not (fun m => !isAssistantMsg m) (l := h.reverse) (by simp [hd])
      simpa [hd] using this
    · have := List.mem_takeWhile_imp (List.mem_reverse.mp hm)
      simpa using this

/-! ### The turn at the end -/

theorem trailingTools_append {h ts : History} (hts : ∀ m ∈ ts, isToolMsg m = true) :
    trailingTools (h ++ ts) = trailingTools h ++ ts := by
  unfold trailingTools
  rw [List.reverse_append, List.takeWhile_append_of_pos fun m hm => hts m (List.mem_reverse.mp hm)]
  simp

theorem aboveTrailing_append {h ts : History} (hts : ∀ m ∈ ts, isToolMsg m = true) :
    aboveTrailing (h ++ ts) = aboveTrailing h := by
  unfold aboveTrailing
  rw [List.reverse_append, List.dropWhile_append_of_pos fun m hm => hts m (List.mem_reverse.mp hm)]

theorem aboveTrailing_concat {h : History} {m : Message} (hm : isToolMsg m = false) :
    aboveTrailing (h ++ [m]) = h ++ [m] := by
  simp [aboveTrailing, hm]

theorem popTrailingTurn_append {h ts : History} (hts : ∀ m ∈ ts, isToolMsg m = true) :
    popTrailingTurn (h ++ ts) = popTrailingTurn h := by
  unfold popTrailingTurn
  rw [aboveTrailing_append hts]

/-- The guard takes the assistant message right above the tool messages. -/
theorem popTrailingTurn_turn {h ts : History} {a : Message} (ha : isAssistantMsg a = true)
    (hts : ∀ m ∈ ts, isToolMsg m = true) : popTrailingTurn (h ++ a :: ts) = h := by
  have hsplit : h ++ a :: ts = (h ++ [a]) ++ ts := by simp
  rw [hsplit, popTrailingTurn_append hts]
  simp [popTrailingTurn, aboveTrailing_concat (isToolMsg_of_assistant ha), ha]

/-- Any other message there stops it. -/
theorem popTrailingTurn_user {h ts : History} {u : Message} (hu : isUserMsg u = true)
    (hts : ∀ m ∈ ts, isToolMsg m = true) : popTrailingTurn (h ++ u :: ts) = h ++ [u] := by
  have hsplit : h ++ u :: ts = (h ++ [u]) ++ ts := by simp
  rw [hsplit, popTrailingTurn_append hts]
  simp [popTrailingTurn, aboveTrailing_concat (isToolMsg_of_user hu), isAssistantMsg_of_user hu]

theorem popTrailingTurn_isPrefix (h : History) : popTrailingTurn h <+: h := by
  have habove : aboveTrailing h <+: h := by
    have hsplit := List.takeWhile_append_dropWhile (p := isToolMsg) (l := h.reverse)
    refine ⟨(h.reverse.takeWhile isToolMsg).reverse, ?_⟩
    rw [aboveTrailing, ← List.reverse_append, hsplit, List.reverse_reverse]
  unfold popTrailingTurn
  split
  · split
    · exact (List.dropLast_prefix _).trans habove
    · exact habove
  · exact habove

end Loop
end AgentCore
