/-
# Compaction by a summarizer

`LLMSummaryCompactor` of `compact_llm.py`. What the summarizer's retry loop
comes back with is an argument, `SummaryOutcome`: any text, any failure reason
after any number of attempts. The payload handed to the event callback is part
of the result, `none` where the code emits nothing.

Key definitions: `SummaryOutcome`, `LlmSummary.compact`, `LlmSummary.rollback`,
`LlmSummary.stringSlice`.
-/
import AgentCore.Compaction.Compact

namespace AgentCore
namespace Compaction

open Text

/-- `(text, attempts, reason, error)` of `_generate_summary_with_retry`. -/
structure SummaryOutcome where
  text : String
  attempts : ℕ
  reason : String
  error : String
  deriving DecidableEq, Repr

/-- The event of one compaction. -/
structure CompactionPayload where
  rolledBack : Bool
  rollbackReason : String
  messagesBefore : ℕ
  messagesAfter : ℕ
  tokensBefore : ℕ
  tokensAfter : ℕ
  compactor : String
  attempts : ℕ
  summary : String
  error : String
  deriving DecidableEq, Repr

inductive FailureFallback
  | panic | deterministic
  deriving DecidableEq, Repr

/-- `LLMSummaryCompactor`: whether there is a summarizer, and what a failed
summary falls back to. -/
structure LlmSummary where
  hasSummaryLlm : Bool
  failureFallback : FailureFallback

def lastHumanMessage (messages : History) : Option Message := messages.reverse.find? isUserMsg

/-- The user's own words rather than a rollup. -/
def isOriginalTask (m : Message) : Bool := isUserMsg m && !startsWith (textOf m.content) "[Compacted"

/-- `m` right below the leading system messages. -/
def insertBelowSystem (m : Message) (messages : History) : History :=
  messages.takeWhile isSystemMsg ++ m :: messages.dropWhile isSystemMsg

namespace LlmSummary

variable (c : LlmSummary) (est : String → ℕ)

def summaryMsg (text : String) : Message :=
  userMsg ("[Compacted summary of earlier turns — older raw messages " ++
    "have been replaced by this rollup. Continue from here.]\n\n" ++ text)

def failedMsg (dropped : ℕ) (reason : String) : Message :=
  userMsg ("[Compaction failed — " ++ toString dropped ++ " earlier turns dropped. " ++
    "Reason: " ++ reason ++ ".]")

/-- Deterministic squash, or the system messages, a marker and the latest user
message. -/
def rollback (messages lead : History) (dropped keepRecent : ℕ) (reason : String) : History :=
  match c.failureFallback with
  | .deterministic => compactMessages messages keepRecent
  | .panic =>
    lead ++ failedMsg dropped reason ::
      match lastHumanMessage messages with
      | some u => if u ∈ lead then [] else [u]
      | none => []

/-- The squash, with the original task put back when it was squashed: it is
one of the objects of the new list unless it comes from the middle. -/
def stringSlice (messages : History) (keepRecent : ℕ) : History :=
  let (lead, middle, _) := partitionForCompaction messages keepRecent
  let new := compactMessages messages keepRecent
  if keepRecent = 0 ∨ lead.any isOriginalTask then new
  else match middle.find? isOriginalTask with
    | some task => insertBelowSystem task new
    | none => new

def compact (messages : History) (keepRecent : ℕ) (compressAllToolResults : Bool)
    (outcome : SummaryOutcome) : History × Option CompactionPayload :=
  let source := if compressAllToolResults then compressWith messages toolResultCompactMaxChars [] none []
    else messages
  if c.hasSummaryLlm = false then
    let new := stringSlice source keepRecent
    (new, some { rolledBack := false, rollbackReason := "", messagesBefore := source.length,
                 messagesAfter := new.length, tokensBefore := estimateTokens est source,
                 tokensAfter := estimateTokens est new, compactor := "string", attempts := 0,
                 summary := "", error := "" })
  else
    let (lead, middle, recent) := partitionForCompaction source keepRecent
    if middle = [] then (source, none)
    else if outcome.reason ≠ "" ∨ outcome.text = "" then
      let reason := if outcome.reason ≠ "" then outcome.reason else "empty_summary"
      let new := c.rollback source lead middle.length keepRecent reason
      (new, some { rolledBack := true, rollbackReason := reason, messagesBefore := source.length,
                   messagesAfter := new.length, tokensBefore := estimateTokens est source,
                   tokensAfter := estimateTokens est new, compactor := "llm",
                   attempts := outcome.attempts, summary := "",
                   error := if outcome.reason ≠ "" then outcome.error else "" })
    else
      let new := lead ++ summaryMsg outcome.text :: recent
      (new, some { rolledBack := false, rollbackReason := "", messagesBefore := messages.length,
                   messagesAfter := new.length, tokensBefore := estimateTokens est source,
                   tokensAfter := estimateTokens est new, compactor := "llm",
                   attempts := outcome.attempts, summary := outcome.text, error := "" })

end LlmSummary

end Compaction
end AgentCore
