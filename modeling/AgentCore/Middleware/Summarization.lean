/-
# A summary in place of the older messages

`compact_if_needed` of `compaction.py` and `SummarizationMiddleware.before_llm`.
Both put a summary in the place of all but the last messages, and both move the
cut down past tool messages, so that what is kept starts on no tool message. The
first stops one message short: where the messages to keep are all tool messages,
the last of them is kept without its call.

The tokens of a text and what the summarizer comes back with are arguments; the
prompts and the log are left out.

Key definitions: `compactIfNeeded`, `SummarizationMiddleware.beforeLlm`.
Key theorems: `compactIfNeeded_wellPaired_iff`, `beforeLlm_keeps_pairing`.
-/
import AgentCore.Pairing
import Mathlib.Algebra.GroupWithZero.Nat

namespace AgentCore.Middleware.Summarization

open Text

/-! ### What both share -/

def msgOverhead : ℕ := 4

/-- `estimate_tokens`, `est` counting the tokens of a text. -/
def estimateTokens (est : String → ℕ) (messages : History) : ℕ :=
  (messages.map fun m => est (textOf m.content ++ m.reasoningContent) + msgOverhead).sum

/-- `[m for m in messages[:1] if m.get("role") == "system"]`. -/
def systemMsgs (messages : History) : History := (messages.take 1).filter isSystemMsg

/-- `messages[len(system_msgs):]`. -/
def belowSystem (messages : History) : History := messages.drop (systemMsgs messages).length

/-- `while i < stop and rest[i]["role"] == "tool": i += 1`, `n` being the steps
there are from `i` to `stop`. -/
def advance (rest : History) : ℕ → ℕ → ℕ
  | 0, i => i
  | n + 1, i => if rest[i]?.any isToolMsg then advance rest n (i + 1) else i

def roleName : Role → String
  | .system => "system"
  | .user => "user"
  | .assistant => "assistant"
  | .tool => "tool"

/-! ### `compact_if_needed` -/

/-- `str(block.get("text", ""))`, and a block that is no dictionary as it is. -/
def blockText : Block → String
  | .str s => s
  | .text s => s
  | .imageUrl _ => ""
  | .thinking _ _ => ""
  | .redactedThinking _ => ""
  | .other _ t _ => t

/-- The end of `_generate_summary`: the text of the summarizer's reply. -/
def replyText : Content → String
  | .none => ""
  | .text s => strip s
  | .blocks bs => strip (join "" (bs.map blockText))

def unavailable (dropped : ℕ) : String :=
  "[Summary unavailable — " ++ toString dropped ++ " earlier messages dropped. Recent context preserved below.]"

def rollupMsg (summaryText : String) : Message :=
  userMsg ("[Compacted summary of earlier turns — older raw messages " ++
    "have been replaced by this rollup. Continue from here.]\n\n" ++ summaryText)

/-- `compact_if_needed`; `reply` is none when the summarizer fails. -/
def compactIfNeeded (est : String → ℕ) (messages : History) (threshold : ℤ) (keepRecent : ℕ)
    (reply : Option Content) : History × Bool :=
  if (estimateTokens est messages : ℤ) ≤ threshold ∨ messages.length ≤ keepRecent + 1 then (messages, false)
  else
    let rest := belowSystem messages
    let start := rest.length - keepRecent
    let splitIdx := advance rest (rest.length - 1 - start) start
    let toSummarize := rest.take splitIdx
    let keep := rest.drop splitIdx
    if toSummarize = [] then (messages, false)
    else
      let summaryText := match reply with
        | some content => replyText content
        | none => unavailable toSummarize.length
      (systemMsgs messages ++ rollupMsg summaryText :: keep, true)

/-! ### `SummarizationMiddleware` -/

/-- `ctx.metadata["compression"]`, with the keys it has. -/
structure Compression where
  enabled : Option Bool := none
  threshold : Option ℤ := none
  keepRecent : Option ℕ := none

/-- What the summarizer does when it is called: it answers, or it fails or takes too
long. -/
abbrev Reply := Option Content

structure SummarizationMiddleware where
  threshold : ℤ := 80000
  keepRecent : ℕ := 6
  /-- There is a summarizer. -/
  hasSummaryLlm : Bool := false
  /-- What the addendum provider returns, `some none` when it raises. -/
  summaryAddendum : Option (Option String) := none

def truncateSummary (messages : History) : String :=
  join "\n" ((messages.drop (messages.length - 5)).map fun m =>
    "- " ++ roleName m.role ++ ": " ++ take (textOf m.content) 200)

def generateSummary (messages : History) (reply : Reply) : String :=
  match reply with
  | some content => textOf content
  | none => truncateSummary messages

namespace SummarizationMiddleware

variable (mw : SummarizationMiddleware)

def addendum : String :=
  match mw.summaryAddendum with
  | some (some text) => if strip text = "" then "" else "\n\n" ++ strip text
  | _ => ""

def summaryMsg (summarized : ℕ) (summaryText : String) : Message :=
  userMsg ("[Previous conversation summary (" ++ toString summarized ++ " messages compressed)]\n" ++
    summaryText ++ mw.addendum)

/-- `before_llm`, with the compression of the node if it has one. -/
def beforeLlm (est : String → ℕ) (comp : Option Compression) (messages : History) (reply : Reply) : History :=
  if (comp.bind (·.enabled)).getD true = false then messages
  else
    let threshold := (comp.bind (·.threshold)).getD mw.threshold
    let keepRecent := (comp.bind (·.keepRecent)).getD mw.keepRecent
    if (estimateTokens est messages : ℤ) ≤ threshold ∨ messages.length ≤ keepRecent + 1 then messages
    else
      let rest := belowSystem messages
      let start := rest.length - keepRecent
      let splitIdx := advance rest (rest.length - start) start
      let toSummarize := rest.take splitIdx
      let keep := rest.drop splitIdx
      if toSummarize = [] then messages
      else
        let summaryText := if mw.hasSummaryLlm then generateSummary toSummarize reply
          else truncateSummary toSummarize
        systemMsgs messages ++ mw.summaryMsg toSummarize.length summaryText :: keep

end SummarizationMiddleware

/-! ### The cut -/

/-- The cut moves past the tool messages among the next `n`. -/
theorem advance_eq (rest : History) (n i : ℕ) :
    advance rest n i = i + (((rest.drop i).take n).takeWhile isToolMsg).length := by
  induction n generalizing i with
  | zero => simp [advance]
  | succ n ih =>
    unfold advance
    by_cases hi : i < rest.length
    · have hget : rest[i]? = some rest[i] := List.getElem?_eq_getElem hi
      have hdrop : rest.drop i = rest[i] :: rest.drop (i + 1) := List.drop_eq_getElem_cons hi
      rw [hget, hdrop, List.take_succ_cons]
      by_cases ht : isToolMsg rest[i] = true
      · rw [if_pos (by simpa using ht), List.takeWhile_cons_of_pos ht, ih, List.length_cons]
        omega
      · rw [if_neg (by simpa using ht), List.takeWhile_cons_of_neg ht]
        rfl
    · have hget : rest[i]? = none := List.getElem?_eq_none (by omega)
      have hdrop : rest.drop i = [] := List.drop_eq_nil_of_le (by omega)
      rw [hget, hdrop]
      rfl

theorem systemMsgs_append_belowSystem (messages : History) :
    systemMsgs messages ++ belowSystem messages = messages := by
  unfold belowSystem systemMsgs
  cases messages with
  | nil => rfl
  | cons m ms =>
    by_cases hm : isSystemMsg m = true
    · simp [hm]
    · simp [hm]

theorem plainMsg_systemMsgs {messages : History} : ∀ m ∈ systemMsgs messages, PlainMsg m := by
  intro m hm
  exact plainMsg_of_system (List.mem_filter.mp hm).2

/-- With system messages and a summary above it, a part at the end of a well-paired
history is well paired iff it starts on no tool message. -/
theorem summarized_wellPaired_iff {messages keep dropped : History} {summary : String} (h : WellPaired messages)
    (happ : dropped ++ keep = belowSystem messages) :
    WellPaired (systemMsgs messages ++ userMsg summary :: keep) ↔ keep.takeWhile isToolMsg = [] := by
  have hplain : ∀ m ∈ systemMsgs messages ++ [userMsg summary], PlainMsg m := by
    intro m hm
    rcases List.mem_append.mp hm with hm | hm
    · exact plainMsg_systemMsgs m hm
    · rw [List.mem_singleton.mp hm]
      exact plainMsg_userMsg summary
  have hcut : systemMsgs messages ++ userMsg summary :: keep = (systemMsgs messages ++ [userMsg summary]) ++ keep := by
    simp
  rw [hcut]
  constructor
  · intro hw
    exact (WellPaired.of_plain_append hw hplain).takeWhile_tool
  · intro hkeep
    have hsplit : WellPaired ((systemMsgs messages ++ dropped) ++ keep) := by
      rw [List.append_assoc, happ, systemMsgs_append_belowSystem]
      exact h
    exact (wellPaired_plain hplain).append ((wellPaired_append hkeep).mp hsplit).2

theorem drop_takeWhile (t : History) : t.drop (t.takeWhile isToolMsg).length = t.dropWhile isToolMsg := by
  have h : (t.takeWhile isToolMsg ++ t.dropWhile isToolMsg).drop (t.takeWhile isToolMsg).length = t.dropWhile isToolMsg :=
    List.drop_left
  rwa [List.takeWhile_append_dropWhile] at h

/-- Moved to the end of the list if need be, the cut leaves no tool message on top. -/
theorem kept_past_tools (rest : History) (start : ℕ) :
    (rest.drop (advance rest (rest.length - start) start)).takeWhile isToolMsg = [] := by
  rw [advance_eq, ← List.drop_drop, List.take_of_length_le (by simp), drop_takeWhile]
  exact Groups.takeWhile_dropWhile isToolMsg _

/-- Moved no further than the last message, the cut leaves a tool message on top
when all are tool messages. -/
theorem kept_short_of_last (rest : History) (start : ℕ) :
    (rest.drop (advance rest (rest.length - 1 - start) start)).takeWhile isToolMsg = [] ↔
      rest.drop start = [] ∨ ∃ m ∈ rest.drop start, isToolMsg m = false := by
  have hlen : rest.length - 1 - start = (rest.drop start).length - 1 := by
    rw [List.length_drop]
    omega
  rw [advance_eq, ← List.drop_drop, hlen, ← List.dropLast_eq_take]
  generalize rest.drop start = t
  rcases List.eq_nil_or_concat t with rfl | ⟨init, last, rfl⟩
  · simp
  · rw [List.concat_eq_append, List.dropLast_concat, List.drop_append_of_le_length (List.takeWhile_prefix _).length_le,
      drop_takeWhile]
    by_cases hinit : ∀ m ∈ init, isToolMsg m = true
    · have hnone : init.dropWhile isToolMsg = [] := List.dropWhile_eq_nil_iff.mpr hinit
      have hex : (∃ m ∈ init ++ [last], isToolMsg m = false) ↔ isToolMsg last = false := by
        constructor
        · rintro ⟨m, hm, hf⟩
          rcases List.mem_append.mp hm with hm | hm
          · rw [hinit m hm] at hf
            cases hf
          · rw [List.mem_singleton.mp hm] at hf
            exact hf
        · intro hf
          exact ⟨last, by simp, hf⟩
      rw [hnone, hex]
      cases hlast : isToolMsg last <;> simp [hlast]
    · have hne : init.dropWhile isToolMsg ≠ [] := fun h => hinit (List.dropWhile_eq_nil_iff.mp h)
      obtain ⟨m, ms, hms⟩ := List.exists_cons_of_ne_nil hne
      have hm : isToolMsg m = false := by
        have := List.head_dropWhile_not isToolMsg (l := init) hne
        simpa only [hms, List.head_cons] using this
      have hmem : m ∈ init := (List.dropWhile_suffix isToolMsg).subset (hms ▸ List.mem_cons_self)
      have hex : ∃ m ∈ init ++ [last], isToolMsg m = false := ⟨m, by simp [hmem], hm⟩
      rw [hms, List.cons_append, List.takeWhile_cons_of_neg (by simp [hm])]
      exact ⟨fun _ => .inr hex, fun _ => rfl⟩

/-! ### The kept messages -/

theorem length_systemMsgs (messages : History) : (systemMsgs messages).length ≤ 1 :=
  (List.length_filter_le ..).trans (List.length_take_le ..)

theorem length_belowSystem (messages : History) :
    (belowSystem messages).length + (systemMsgs messages).length = messages.length := by
  have h := congrArg List.length (systemMsgs_append_belowSystem messages)
  rw [List.length_append] at h
  omega

theorem drop_belowSystem {messages : History} {keepRecent : ℕ} (h : keepRecent + 1 < messages.length) :
    (belowSystem messages).drop ((belowSystem messages).length - keepRecent) =
      messages.drop (messages.length - keepRecent) := by
  have h₁ := length_systemMsgs messages
  have h₂ := length_belowSystem messages
  have hidx : messages.length - keepRecent = (systemMsgs messages).length + ((belowSystem messages).length - keepRecent) := by
    omega
  rw [hidx, ← List.drop_drop]
  rfl

theorem le_advance (rest : History) (n i : ℕ) : i ≤ advance rest n i := by
  rw [advance_eq]
  omega

/-- Above the kept messages something is left to summarize. -/
theorem toSummarize_ne_nil {messages : History} {keepRecent : ℕ} (h : keepRecent + 1 < messages.length) (n : ℕ) :
    (belowSystem messages).take (advance (belowSystem messages) n ((belowSystem messages).length - keepRecent)) ≠ [] := by
  have h₁ := length_systemMsgs messages
  have h₂ := length_belowSystem messages
  have h₃ := le_advance (belowSystem messages) n ((belowSystem messages).length - keepRecent)
  intro hnil
  have hlen := congrArg List.length hnil
  rw [List.length_take, List.length_nil] at hlen
  omega

/-- The history stays well paired iff it is left as it is, or nothing is kept, or not
all of the messages to keep are tool messages. -/
theorem compactIfNeeded_wellPaired_iff (est : String → ℕ) {messages : History} (h : WellPaired messages) (threshold : ℤ)
    (keepRecent : ℕ) (reply : Option Content) :
    WellPaired (compactIfNeeded est messages threshold keepRecent reply).1 ↔
      (estimateTokens est messages : ℤ) ≤ threshold ∨ messages.length ≤ keepRecent + 1 ∨ keepRecent = 0 ∨
        ∃ m ∈ messages.drop (messages.length - keepRecent), isToolMsg m = false := by
  unfold compactIfNeeded
  by_cases hsmall : (estimateTokens est messages : ℤ) ≤ threshold ∨ messages.length ≤ keepRecent + 1
  · rw [if_pos hsmall, ← or_assoc]
    exact ⟨fun _ => .inl hsmall, fun _ => h⟩
  · have hlong : keepRecent + 1 < messages.length := by
      by_contra hle
      exact hsmall (.inr (by omega))
    rw [if_neg hsmall, ← or_assoc]
    simp only [if_neg (toSummarize_ne_nil hlong _), hsmall, false_or]
    rw [rollupMsg, summarized_wellPaired_iff h (List.take_append_drop ..), kept_short_of_last, drop_belowSystem hlong]
    refine or_congr_left ?_
    rw [List.drop_eq_nil_iff]
    omega

theorem compactIfNeeded_wellPaired_answered :
    WellPaired (compactIfNeeded (fun _ => 0)
      [userMsg "task", userMsg "more", assistantMsg (.text "") [⟨"a", "search", "1"⟩] "", toolMsg "one" "a"] 0 2 none).1 :=
  (compactIfNeeded_wellPaired_iff _ (by decide) 0 2 none).mpr (by decide)

/-- Two messages to keep, both tool messages: the second stays without its call. -/
theorem compactIfNeeded_orphan :
    ∃ messages : History, WellPaired messages ∧ ¬ WellPaired (compactIfNeeded (fun _ => 0) messages 0 2 none).1 := by
  refine ⟨[userMsg "task", assistantMsg (.text "") [⟨"a", "search", "1"⟩, ⟨"b", "search", "2"⟩] "",
    toolMsg "one" "a", toolMsg "two" "b"], by decide, by decide +kernel⟩

theorem systemMsgs_summarized (messages keep : History) (summary : String) :
    systemMsgs (systemMsgs messages ++ userMsg summary :: keep) = systemMsgs messages := by
  cases messages with
  | nil => rfl
  | cons m ms =>
    have htake : (m :: ms).take 1 = [m] := rfl
    unfold systemMsgs
    rw [htake]
    by_cases hm : isSystemMsg m = true
    · simp [hm]
    · simp [hm]

/-- Whatever the summarizer and the addendum do, the messages stay well paired, begin
with the same system message and end in a part of the history below the summary. -/
theorem beforeLlm_keeps_pairing (mw : SummarizationMiddleware) (est : String → ℕ) (comp : Option Compression)
    {messages : History} (h : WellPaired messages) (reply : Reply) :
    WellPaired (mw.beforeLlm est comp messages reply) ∧
      systemMsgs (mw.beforeLlm est comp messages reply) = systemMsgs messages ∧
      (mw.beforeLlm est comp messages reply = messages ∨ ∃ summary keep,
        mw.beforeLlm est comp messages reply = systemMsgs messages ++ userMsg summary :: keep ∧ keep <:+ messages) := by
  have hsame : WellPaired messages ∧ systemMsgs messages = systemMsgs messages ∧
      (messages = messages ∨ ∃ summary keep,
        messages = systemMsgs messages ++ userMsg summary :: keep ∧ keep <:+ messages) := ⟨h, rfl, .inl rfl⟩
  unfold SummarizationMiddleware.beforeLlm
  by_cases hoff : (comp.bind (·.enabled)).getD true = false
  · rw [if_pos hoff]
    exact hsame
  · rw [if_neg hoff]
    generalize (comp.bind (·.threshold)).getD mw.threshold = threshold
    generalize (comp.bind (·.keepRecent)).getD mw.keepRecent = keepRecent
    by_cases hsmall : (estimateTokens est messages : ℤ) ≤ threshold ∨ messages.length ≤ keepRecent + 1
    · dsimp only
      rw [if_pos hsmall]
      exact hsame
    · have hlong : keepRecent + 1 < messages.length := by
        by_contra hle
        exact hsmall (.inr (by omega))
      simp only [if_neg hsmall, if_neg (toSummarize_ne_nil hlong _), SummarizationMiddleware.summaryMsg]
      refine ⟨?_, systemMsgs_summarized .., .inr ⟨_, _, rfl, ?_⟩⟩
      · rw [summarized_wellPaired_iff h (List.take_append_drop ..)]
        exact kept_past_tools ..
      · exact (List.drop_suffix ..).trans (List.drop_suffix ..)

theorem beforeLlm_keeps_pairing_tools :
    WellPaired (SummarizationMiddleware.beforeLlm { threshold := 0, keepRecent := 1 } (fun _ => 1) none
      [systemMsg "rules", assistantMsg (.text "") [⟨"a", "search", "1"⟩] "", toolMsg "one" "a"] none) :=
  (beforeLlm_keeps_pairing _ _ none (by decide) none).1

end AgentCore.Middleware.Summarization
