/-
# Which errors advance the chain, and which are tried again

The predicates of `retriable.py`. Each looks for a family of patterns in one text,
in which everything that an SDK may have put into the error is joined; the chain is
advanced (`is_retriable_with_fallback`) on eight of the families, and a transient
error is tried again on the same key.

An error can show the signals of several families. `is_transient_network` gives way
to four of the eight, so an error is taken for both where it shows one of the other
four together with a transient signal (`unambiguous_iff`); the labels have an order
and are not affected.

The word characters beyond ASCII are a parameter. A `bool` among the attributes is
the number it is equal to.

Key definitions: `RaisedError`, `isTransientNetwork`, `isRetriableWithFallback`,
`classifyError`.
Key theorem: `unambiguous_iff`.
-/
import AgentCore.Patterns
import AgentCore.Providers.Errors

namespace AgentCore
namespace Providers
namespace Retriable

open Patterns Regex

/-- An exception with the attributes that these predicates look at besides; `deadline`
is the reason of an `LLMDeadlineExceeded`. -/
structure RaisedError extends LlmError where
  status : Option AttrValue := none
  code : Option AttrValue := none
  deadline : Option String := none

/-! ### The patterns -/

variable (wordBeyond : Char → Bool)

/-- `\b`, the literal, `\b`. -/
def bounded (r : Regex Char) : Regex Char := seq (border wordBeyond) (seq r (border wordBeyond))

/-- `\b`, the literals with `[_\s]*` between them. -/
def begins (ss : List String) : Regex Char := seq (border wordBeyond) (spaced ss)

def overloadPatterns : List (Regex Char) := [words "overload", words "capacity", words "529", words "overloaded_error"]

def creditPatterns : List (Regex Char) :=
  [words "credit", spaced ["insufficient", "quota"], spaced ["insufficient", "balance"], words "billing",
    spaced ["payment", "required"], bounded wordBeyond (text "402")]

def rateLimitPatterns : List (Regex Char) := [spaced ["rate", "limit"], bounded wordBeyond (text "429")]

def contextLengthPatterns : List (Regex Char) :=
  [spaced ["context", "length"], words "context_length_exceeded", words "longer than the model",
    words "maximum context"]

def transientNetworkPatterns : List (Regex Char) :=
  [bounded wordBeyond (words "timeout"), spaced ["timed", "out"],
    seq (words "connection")
      (seq gap (anyOf [words "reset", words "refused", words "aborted", words "error", words "closed"])),
    words "bad_response_status_code", words "new_api_error", spaced ["gateway", "time", "out"],
    seq (words "upstream") (seq gap (anyOf [words "timeout", words "error"]))]

def streamStallPatterns : List (Regex Char) :=
  [bounded wordBeyond (text "LLMStreamStalled"),
    seq (words "stream") (seq (many (one fun c => c = '_' || Text.isSpace c || c = '-')) (words "stalled")),
    words "no chunks for"]

def safetyFilterPatterns : List (Regex Char) :=
  [spaced ["data", "inspection", "failed"], spaced ["content", "policy", "violation"],
    seq (spaced ["content", "filter"]) (opt (words "ed")), spaced ["input", "filtered"], spaced ["output", "filtered"],
    spaced ["inappropriate", "content"], spaced ["prompt", "blocked"],
    spaced ["limited", "access", "to", "this", "content", "for", "safety"],
    spaced ["may", "be", "used", "to", "benefit", "or", "to", "harm"], spaced ["violates", "our", "usage", "policies"],
    spaced ["your", "request", "was", "blocked"], spaced ["content", "moderation"], spaced ["moderation", "policy"],
    spaced ["request", "blocked"], spaced ["safety", "system"]]

def modelUnavailablePatterns : List (Regex Char) :=
  [spaced ["model", "not", "found"], spaced ["no", "such", "model"], spaced ["model", "not", "supported"],
    spaced ["no", "available", "channel"], spaced ["unsupported", "model"], text "not_found_error",
    bounded wordBeyond (text "NotFoundError"), spaced ["not", "a", "valid", "model", "id"],
    bounded wordBeyond (spaced ["invalid", "model", "id"]), bounded wordBeyond (spaced ["unknown", "model"])]

def authFailurePatterns : List (Regex Char) :=
  [bounded wordBeyond (text "AuthenticationError"), begins wordBeyond ["authentication", "failed"],
    begins wordBeyond ["invalid", "api", "key"], begins wordBeyond ["invalid", "authentication"],
    begins wordBeyond ["missing", "authentication"], bounded wordBeyond (words "unauthorized"),
    bounded wordBeyond (words "unauthenticated"), bounded wordBeyond (text "401")]

def emptyCompletionPatterns : List (Regex Char) :=
  [seq (spaced ["no", "generation", "chunk"])
      (seq (opt (words "s")) (seq gap (seq (opt (seq (words "were") gap)) (words "returned")))),
    seq (spaced ["no", "completion"])
      (seq gap (seq (alt (seq (words "token") (opt (words "s"))) (words "content")) (seq gap (words "returned")))),
    spaced ["empty", "completion"]]

/-! ### The predicates -/

/-- `any(p.search(blob) for p in patterns)` for the text of an error. -/
def shows (patterns : List (Regex Char)) (err : RaisedError) : Bool :=
  patterns.any fun p => p.search (stringify err.toLlmError).toList

def getStatusCode (err : RaisedError) : Option ℤ :=
  [err.statusCode, err.status, err.code].findSome? fun
    | some (.int n) => some n
    | _ => none

def isOverloadedError (err : RaisedError) : Bool := shows overloadPatterns err

def isCreditExhausted (err : RaisedError) : Bool := shows (creditPatterns wordBeyond) err

def isRateLimited (err : RaisedError) : Bool := shows (rateLimitPatterns wordBeyond) err

def isContextLengthError (err : RaisedError) : Bool := shows contextLengthPatterns err

def isStreamStall (err : RaisedError) : Bool := shows (streamStallPatterns wordBeyond) err

def isSafetyFilter (err : RaisedError) : Bool := shows safetyFilterPatterns err

def isModelUnavailable (err : RaisedError) : Bool := shows (modelUnavailablePatterns wordBeyond) err

def isAuthFailure (err : RaisedError) : Bool := shows (authFailurePatterns wordBeyond) err

def isEmptyCompletion (err : RaisedError) : Bool := shows emptyCompletionPatterns err

def isTruncated (err : RaisedError) : Bool := isTruncatedStream err.toLlmError

/-- A status of the 5xx, or a transient pattern: what `is_transient_network` looks at last. -/
def transientSignal (err : RaisedError) : Bool :=
  if (getStatusCode err).any fun status => 500 ≤ status ∧ status < 600 then true
  else shows (transientNetworkPatterns wordBeyond) err

def isTransientNetwork (err : RaisedError) : Bool :=
  if err.deadline.isSome then false
  else if isStreamStall wordBeyond err then false
  else if isTruncated err then false
  else if isOverloadedError err then false
  else if isModelUnavailable wordBeyond err then false
  else transientSignal wordBeyond err

def isRetriableWithFallback (err : RaisedError) : Bool :=
  isOverloadedError err || isCreditExhausted wordBeyond err || isSafetyFilter err ||
    isModelUnavailable wordBeyond err || isAuthFailure wordBeyond err || isEmptyCompletion err ||
    isTruncated err || isStreamStall wordBeyond err

def classifyError (err : RaisedError) : String :=
  match err.deadline with
  | some reason => reason
  | none =>
    if isContextLengthError err then "context_length"
    else if isSafetyFilter err then "safety_filter"
    else if isModelUnavailable wordBeyond err then "model_unavailable"
    else if isAuthFailure wordBeyond err then "auth_failure"
    else if isEmptyCompletion err then "empty_completion"
    else if isTruncated err then "truncated_stream"
    else if isOverloadedError err then "overloaded"
    else if isCreditExhausted wordBeyond err then "credit_exhausted"
    else if isStreamStall wordBeyond err then "stream_stall"
    else if isRateLimited wordBeyond err then "rate_limited"
    else if isTransientNetwork wordBeyond err then "transient_network"
    else "other"

/-! ### Routing -/

/-- The labels of the errors on which the chain advances. -/
def fallbackLabels : List String :=
  ["safety_filter", "model_unavailable", "auth_failure", "empty_completion", "truncated_stream", "overloaded",
    "credit_exhausted", "stream_stall"]

/-- An error is not both tried again on the same key and advanced on, and its label
says whether the chain advances on it. -/
def Unambiguous (err : RaisedError) : Prop :=
  ¬ (isRetriableWithFallback wordBeyond err = true ∧ isTransientNetwork wordBeyond err = true) ∧
    (classifyError wordBeyond err ∈ fallbackLabels ↔ isRetriableWithFallback wordBeyond err = true)

/-- A signal that `is_transient_network` does not give way to. -/
def passedOver (err : RaisedError) : Bool :=
  isCreditExhausted wordBeyond err || isSafetyFilter err || isAuthFailure wordBeyond err || isEmptyCompletion err

/-- A signal that it does give way to. -/
def givenWayTo (err : RaisedError) : Bool :=
  isStreamStall wordBeyond err || isTruncated err || isOverloadedError err || isModelUnavailable wordBeyond err

variable {wordBeyond} {err : RaisedError}

theorem isRetriableWithFallback_eq :
    isRetriableWithFallback wordBeyond err = (passedOver wordBeyond err || givenWayTo wordBeyond err) := by
  unfold isRetriableWithFallback passedOver givenWayTo
  generalize isOverloadedError err = a, isCreditExhausted wordBeyond err = b, isSafetyFilter err = c,
    isModelUnavailable wordBeyond err = d, isAuthFailure wordBeyond err = e, isEmptyCompletion err = f,
    isTruncated err = g, isStreamStall wordBeyond err = h
  ac_rfl

theorem isTransientNetwork_eq (hd : err.deadline = none) :
    isTransientNetwork wordBeyond err = (!givenWayTo wordBeyond err && transientSignal wordBeyond err) := by
  unfold isTransientNetwork givenWayTo
  rw [hd, if_neg (by decide)]
  by_cases hs : isStreamStall wordBeyond err = true
  · simp [hs]
  · by_cases ht : isTruncated err = true
    · simp [hs, ht]
    · by_cases ho : isOverloadedError err = true
      · simp [hs, ht, ho]
      · simp [hs, ht, ho]

/-- The label is one of the chain's iff the chain advances. -/
theorem classifyError_mem_iff (hd : err.deadline = none) (hc : isContextLengthError err = false) :
    classifyError wordBeyond err ∈ fallbackLabels ↔ isRetriableWithFallback wordBeyond err = true := by
  have hfirst : ∀ (b : Bool) (l rest : String) (more : Bool), l ∈ fallbackLabels →
      (rest ∈ fallbackLabels ↔ more = true) →
        ((if b = true then l else rest) ∈ fallbackLabels ↔ (b || more) = true) := by
    intro b l rest more hl hrest
    by_cases hb : b = true
    · simp [hb, hl]
    · simp [hb, hrest]
  have hother : (if isRateLimited wordBeyond err = true then "rate_limited"
      else if isTransientNetwork wordBeyond err = true then "transient_network" else "other") ∉ fallbackLabels := by
    by_cases hr : isRateLimited wordBeyond err = true
    · rw [if_pos hr]
      decide
    · by_cases ht : isTransientNetwork wordBeyond err = true
      · rw [if_neg hr, if_pos ht]
        decide
      · rw [if_neg hr, if_neg ht]
        decide
  have horder : isRetriableWithFallback wordBeyond err =
      (isSafetyFilter err || (isModelUnavailable wordBeyond err || (isAuthFailure wordBeyond err ||
        (isEmptyCompletion err || (isTruncated err || (isOverloadedError err || (isCreditExhausted wordBeyond err ||
          (isStreamStall wordBeyond err || false)))))))) := by
    unfold isRetriableWithFallback
    rw [Bool.or_false]
    ac_rfl
  rw [horder]
  unfold classifyError
  rw [hd]
  simp only [hc, Bool.false_eq_true, if_false]
  refine hfirst _ _ _ _ (by decide) (hfirst _ _ _ _ (by decide) (hfirst _ _ _ _ (by decide) (hfirst _ _ _ _ (by decide)
    (hfirst _ _ _ _ (by decide) (hfirst _ _ _ _ (by decide) (hfirst _ _ _ _ (by decide)
      (hfirst _ _ _ _ (by decide) ?_)))))))
  exact iff_of_false hother (by decide)

/-- **Routing is unambiguous** iff the error does not show credit, safety, auth or an
empty completion next to a transient signal, with none of the four signals that
`is_transient_network` gives way to. -/
theorem unambiguous_iff (hd : err.deadline = none) (hc : isContextLengthError err = false) :
    Unambiguous wordBeyond err ↔
      ¬ (passedOver wordBeyond err = true ∧ givenWayTo wordBeyond err = false ∧
        transientSignal wordBeyond err = true) := by
  have hlabel : classifyError wordBeyond err ∈ fallbackLabels ↔ isRetriableWithFallback wordBeyond err = true :=
    classifyError_mem_iff hd hc
  unfold Unambiguous
  rw [and_iff_left hlabel, isRetriableWithFallback_eq, isTransientNetwork_eq hd]
  simp only [Bool.or_eq_true, Bool.and_eq_true, Bool.not_eq_true']
  refine not_congr ⟨?_, ?_⟩
  · rintro ⟨hp | hg, hnot, ht⟩
    · exact ⟨hp, hnot, ht⟩
    · rw [hg] at hnot
      cases hnot
  · rintro ⟨hp, hnot, ht⟩
    exact ⟨.inl hp, hnot, ht⟩

/-- A 503 whose body names the capacity. -/
def overCapacity : RaisedError := { typeName := "APIError", text := "over capacity", statusCode := some (.int 503) }

/-- A 503 of a key without quota. -/
def noQuota : RaisedError := { typeName := "APIError", text := "insufficient_quota", statusCode := some (.int 503) }

theorem unambiguous_overCapacity : Unambiguous (fun _ => false) overCapacity :=
  (unambiguous_iff rfl (by decide +kernel)).mpr (by decide +kernel)

/-- The chain advances on the error, and it is tried again on the same key. -/
theorem noQuota_ambiguous : ∃ (wordBeyond : Char → Bool) (err : RaisedError), err.deadline = none ∧
    isContextLengthError err = false ∧ ¬ Unambiguous wordBeyond err := by
  refine ⟨fun _ => false, noQuota, rfl, by decide +kernel, fun h => h.1 ⟨?_, ?_⟩⟩
  · decide +kernel
  · decide +kernel

end Retriable
end Providers
end AgentCore
