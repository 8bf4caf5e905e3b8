/-
# Errors of a provider, as the wrappers read them

What the fallback wrappers look at in an exception: its class, its text, and
the attributes that an SDK may put on it. The triggers of `fallback.py`, the
retry policy of `retry_policy.py` and the truncation check of `retriable.py`
are functions of these.

Texts are compared with ASCII phrases in lower case, so `lower` is `str.lower`
as far as ASCII letters come out of it: beyond A to Z these are the dotted
capital I and the Kelvin sign. The first pattern of the truncation check is
left out: what it matches, the second matches too.

Key definitions: `LlmError`, `triggerMatches`, `legacyRetryable`,
`isTruncatedStream`.
-/
import AgentCore.Patterns
import Mathlib.Data.Int.Notation

namespace AgentCore
namespace Providers

open Text Patterns

/-- The value of an attribute: a number, or the text of anything else. -/
inductive AttrValue
  | int (n : ℤ)
  | text (s : String)
  deriving DecidableEq, Repr

def AttrValue.str : AttrValue → String
  | .int n => toString n
  | .text s => s

/-- An exception: the name of its class, `str` of it, what it is an instance
of, and its attributes. -/
structure LlmError where
  typeName : String
  text : String
  timeoutError : Bool := false
  attributeError : Bool := false
  emptyCompletion : Bool := false
  statusCode : Option AttrValue := none
  response : Option AttrValue := none
  body : Option AttrValue := none
  message : Option AttrValue := none
  deriving DecidableEq, Repr

def lowerChar (c : Char) : List Char :=
  if c = 'İ' then ['i', '̇'] else if c = 'K' then ['k'] else [c.toLower]

/-- `str.lower`, as far as ASCII letters come out of it. -/
def lower (s : String) : String := String.ofList (s.toList.flatMap lowerChar)

/-! ### Triggers -/

inductive FallbackTrigger
  | timeout
  | rateLimit
  | serverError
  | anyError
  | emptyCompletion
  deriving DecidableEq, Repr

def rateLimitPhrases : List String := ["rate limit", "rate_limit", "quota", "too many requests"]

def serverErrorPhrases : List String :=
  ["internal server error", "bad gateway", "service unavailable", "gateway timeout", "503", "502", "500", "504"]

def triggerMatches (e : LlmError) : FallbackTrigger → Bool
  | .anyError => true
  | .emptyCompletion => e.emptyCompletion
  | .timeout =>
    e.timeoutError || contains (lower e.typeName) "timeout" || contains (lower e.text) "timeout" ||
      contains (lower e.text) "timed out"
  | .rateLimit => e.statusCode == some (.int 429) || rateLimitPhrases.any (contains (lower e.text))
  | .serverError =>
    (match e.statusCode with
      | some (.int n) => decide (500 ≤ n ∧ n ≤ 599)
      | _ => false) || serverErrorPhrases.any (contains (lower e.text))

/-! ### Retry policy and truncation -/

def legacyRetryableKeywords : List String :=
  ["timeout", "timed out", "429", "500", "502", "503", "504", "529", "overloaded", "rate limit", "rate_limit",
    "server error", "connection reset", "connection error", "econnreset", "gateway timeout", "model_dump",
    "model_not_found", "truncated stream"]

def legacyRetryable (e : LlmError) : Bool :=
  e.attributeError || legacyRetryableKeywords.any (contains (lower e.text))

/-- Every text an SDK may put into an error. -/
def stringify (e : LlmError) : String :=
  join " | " ([e.typeName, e.text] ++ ([e.statusCode, e.response, e.body, e.message].filterMap id).map AttrValue.str)

def isTruncatedStream (e : LlmError) : Bool := (spaced ["truncated", "stream"]).search (stringify e).toList

/-- `LLMEmptyCompletion`; `elapsed` is the time it took, with one decimal. -/
def emptyCompletionError (chunksSeen : ℕ) (elapsed : String) : LlmError where
  typeName := "LLMEmptyCompletion"
  text := "empty completion: response returned no content, no tool call and no reported usage (chunks_seen=" ++
    toString chunksSeen ++ ", elapsed=" ++ elapsed ++ "s)"
  emptyCompletion := true

example : isTruncatedStream { typeName := "LLMTruncatedStream", text := "cut off" } = true := by decide +kernel

example : legacyRetryable { typeName := "LLMTruncatedStream", text := "cut off" } = false := by decide +kernel

end Providers
end AgentCore
