/-
# One logical call of the model

`call_llm` of `_call.py`: a loop of physical attempts around one request of the
agent loop. An attempt may be refused by a deadline, wait for admission, be
answered, replayed once when a streamed tool call is broken, or fail; what
becomes of it decides whether the call returns, raises or tries again. Every
attempt is reported to the attempt observer when it starts and when it
finishes.

What the call does not decide itself is one record for each round of the loop,
`AttemptEnv`: the readings of the clocks, admission, the outcome of the
requests, the jitter, whether the client moves on to another leg and whether a
fallback chain surrounds the run. How errors are classed (`retriable.py`) and
which tool calls are broken (`tool_call_validation.py`, `tool_call_recovery.py`)
are functions of the call's configuration; a check of tool calls may raise, on
arguments nested too deep for `json.loads`. Times are exact numbers of seconds,
but for a `Retry-After` header, which may read as no number; the observer's
timings, the request's messages and cancellation are left out.

Key definitions: `CallConfig`, `AttemptEnv`, `CallState`, `iterate`, `callLlm`.
-/
import AgentCore.Lib.Halting
import AgentCore.Loop.Runaway
import AgentCore.Loop.Turn
import AgentCore.Providers.Errors
import Mathlib.Algebra.Order.Ring.Unbundled.Rat

namespace AgentCore
namespace Loop

open Providers (LlmError isTruncatedStream)

def wallDeadlineFloorS : ℚ := 20

def streamRecoveryMinTimeoutS : ℚ := 10

def runawayBackoffS : ℚ := 2

/-! ### Configuration and surroundings -/

/-- What `float` makes of a `Retry-After` header. -/
inductive HeaderSeconds
  | finite (seconds : ℚ)
  | inf
  | negInf
  | nan

/-- What the handler of `Exception` asks about an error. -/
structure ErrorClasses where
  isEmptyCompletion : LlmError → Bool
  isContextLengthError : LlmError → Bool
  isRetriableWithFallback : LlmError → Bool
  isOverloadedError : LlmError → Bool
  isTransientNetwork : LlmError → Bool
  getStatusCode : LlmError → Option ℤ
  getRetryAfter : LlmError → Option HeaderSeconds

structure CallConfig where
  timeout : ℚ
  maxRetries : ℤ
  retryWaitFixed : Option ℚ := none
  /-- The instant by which `logical_call_timeout_s` wants the call done. -/
  logicalDeadline : Option ℚ := none
  maxCompletionTokensHint : Option ℤ := none
  limits : OutputLimits := {}
  emptyCompletionMaxRetries : ℤ := 2
  stream : Bool := false
  runawayMaxRetries : ℤ := 3
  streamStallMax : ℤ := 2
  invalidNativeToolCalls : Response → Except LlmError Bool
  missingRequiredArguments : Response → Except LlmError Bool
  classes : ErrorClasses

/-- `_RUNAWAY_EXPAND_ENABLED`. -/
def CallConfig.runawayExpandEnabled (cfg : CallConfig) : Bool :=
  decide ((runawayDisableThinkingAfter : ℤ) ≤ cfg.runawayMaxRetries)

/-- A look at the clocks: the wall budget left, where there is one, and the
monotonic clock. -/
structure Reading where
  wallRemaining : Option ℚ := none
  now : ℚ := 0

/-- An exception as the handlers of the call tell them apart, in their order. -/
inductive Raised
  | emptyCompletion
  | callExhausted (reason errorType : String)
  | reasoningRunaway (partial_response : Response)
  | streamStalled
  | timeoutError (typeName : String)
  | error (e : LlmError)

def Raised.errorType : Raised → String
  | .emptyCompletion => "LLMEmptyCompletion"
  | .callExhausted _ _ => "LLMCallExhausted"
  | .reasoningRunaway _ => "LLMReasoningRunaway"
  | .streamStalled => "LLMStreamStalled"
  | .timeoutError typeName => typeName
  | .error e => e.typeName

/-- The concurrency gate: its configured wait, the readings around it and
whether a slot was got in time. -/
structure GateEnv where
  configuredWait : ℚ := 0
  beforeWait : Reading := {}
  refusal : Reading := {}
  acquired : Bool := true
  postGate : Reading := {}

/-- The replay of a stream with a broken tool call. -/
structure ReplayEnv where
  streamEndedAt : ℚ := 0
  beforeStart : Reading := {}
  afterStart : Reading := {}
  outcome : Except Raised Response := .error .streamStalled

structure AttemptEnv where
  preGate : Reading := {}
  gate : Option GateEnv := none
  generationStarted : ℚ := 0
  outcome : Except Raised Response
  replay : ReplayEnv := {}
  /-- The reading of the handler that decides what becomes of the attempt. -/
  handling : Reading := {}
  beforeBackoff : Reading := {}
  /-- What `random.uniform` makes of the two schedules. -/
  jitter : ℚ := 1
  advanceEmptyCompletion : Bool := false
  chainFallbackActive : Bool := false
  /-- The ids for calls that came without one. -/
  freshId : ℕ → String := fun i => "call_" ++ toString i

/-! ### Reports, state and result -/

inductive AttemptOutcome
  | accepted
  | acceptedDegraded
  | discarded
  | failed
  deriving DecidableEq, Repr

def AttemptOutcome.delivered : AttemptOutcome → Bool
  | .accepted | .acceptedDegraded => true
  | .discarded | .failed => false

/-- What both reports of an attempt carry: its index, its output cap and what it
asks of thinking. -/
structure AttemptLabel where
  attemptIndex : ℕ
  maxTokens : Option ℤ
  thinking : Option ThinkingRetryOverride
  deriving DecidableEq, Repr

inductive AttemptEvent
  | started (label : AttemptLabel)
  | finished (label : AttemptLabel) (outcome : AttemptOutcome) (reason recoveryAction errorType : String)
  deriving DecidableEq, Repr

structure CallState where
  attempt : ℕ := 0
  physicalAttemptIndex : ℕ := 0
  emptyCompletions : ℕ := 0
  streamStallCount : ℕ := 0
  ladder : Ladder := {}
  /-- What the attempt observer has been told. -/
  events : List AttemptEvent := []

inductive CallEnd
  | returned (r : Response)
  /-- `LLMCallExhausted` with this reason. -/
  | raised (reason : String)
  /-- An exception of a handler itself. -/
  | escaped

/-- An attempt under way: its label, and its time with the deadline that
clamped it, if one did. -/
structure Attempt where
  label : AttemptLabel
  effectiveTimeout : ℚ
  deadlineReason : String

namespace CallState

def emit (s : CallState) (e : AttemptEvent) : CallState := { s with events := s.events ++ [e] }

/-- `_finish_attempt`. -/
def finish (s : CallState) (a : Attempt) (outcome : AttemptOutcome) (reason recoveryAction errorType : String) :
    CallState :=
  s.emit (.finished a.label outcome reason recoveryAction errorType)

/-- The next round of the loop. -/
def nextAttempt (s : CallState) : CallState := { s with attempt := s.attempt + 1 }

end CallState

/-! ### Deadlines and waits -/

variable (cfg : CallConfig)

/-- `_nearest_deadline`: the time left and the deadline's name. -/
def nearestDeadline (r : Reading) : Option (ℚ × String) :=
  match r.wallRemaining, cfg.logicalDeadline with
  | none, none => none
  | some wall, none => some (wall, "wall_deadline")
  | none, some deadline => some (deadline - r.now, "logical_call_deadline")
  | some wall, some deadline =>
    if deadline - r.now < wall then some (deadline - r.now, "logical_call_deadline") else some (wall, "wall_deadline")

/-- `_effective_timeout_or_deadline_exhausted`: the time of an attempt and the
deadline that clamps it, or the deadline that refuses it. -/
def effectiveTimeout (r : Reading) : Except String (ℚ × String) :=
  match nearestDeadline cfg r with
  | none => .ok (cfg.timeout, "")
  | some (remaining, reason) =>
    if remaining < cfg.timeout then
      if remaining < wallDeadlineFloorS then .error reason else .ok (remaining, reason)
    else .ok (cfg.timeout, "")

def deadlineAllowsRetryAfter (r : Reading) (delay : ℚ) : Bool :=
  match nearestDeadline cfg r with
  | none => true
  | some (remaining, _) => decide (delay + wallDeadlineFloorS < remaining)

/-- The deadline that a wait would cross. -/
def crossedDeadline (r : Reading) (delay : ℚ) : Option String :=
  match nearestDeadline cfg r with
  | none => none
  | some (remaining, reason) => if remaining < delay + wallDeadlineFloorS then some reason else none

def defaultBackoff (jitter : ℚ) (attempt : ℕ) : ℚ := min (2 * 2 ^ attempt) 60 * jitter

def defaultRateLimitBackoff (jitter : ℚ) (attempt : ℕ) : ℚ := min (30 * 2 ^ attempt) 300 * jitter

def transientBackoff (env : AttemptEnv) (attempt : ℕ) : ℚ :=
  cfg.retryWaitFixed.getD (defaultBackoff env.jitter attempt)

/-- The wait after a 429. Nothing where `int` of it raises: `min` with 300 lets
nan and negative infinity through. -/
def rateLimitBackoff (env : AttemptEnv) (attempt : ℕ) (e : LlmError) : Option ℚ :=
  match cfg.retryWaitFixed with
  | some wait => some wait
  | none =>
    match cfg.classes.getRetryAfter e with
    | some (.finite after) => some (if after = 0 then defaultRateLimitBackoff env.jitter attempt else min after 300)
    | some .inf => some 300
    | some .negInf => none
    | some .nan => none
    | none => some (defaultRateLimitBackoff env.jitter attempt)

/-! ### The request -/

/-- The deadline that leaves no time to wait at the gate. -/
def gateRefusal (g : GateEnv) : Option String :=
  match nearestDeadline cfg g.beforeWait with
  | none => none
  | some (remaining, _) =>
    if remaining - wallDeadlineFloorS ≤ 0 then
      match effectiveTimeout cfg g.refusal with
      | .error reason => some reason
      | .ok _ => none
    else none

/-- The deadline that bounds the wait at the gate, where it is the tighter
bound. -/
def gateWaitReason (g : GateEnv) : String :=
  match nearestDeadline cfg g.beforeWait with
  | none => ""
  | some (remaining, reason) =>
    if g.configuredWait ≤ 0 ∨ remaining - wallDeadlineFloorS ≤ g.configuredWait then reason else ""

/-- Admission by the gate, where there is one: the attempt with its time taken
again once the slot is held. -/
def admission (env : AttemptEnv) (a : Attempt) : Except Raised Attempt :=
  match env.gate with
  | none => .ok a
  | some g =>
    match gateRefusal cfg g with
    | some reason => .error (.callExhausted reason "LLMDeadlineExceeded")
    | none =>
      if g.acquired then
        match effectiveTimeout cfg g.postGate with
        | .error reason => .error (.callExhausted reason "LLMDeadlineExceeded")
        | .ok (time, reason) => .ok { a with effectiveTimeout := time, deadlineReason := reason }
      else if gateWaitReason cfg g = "" then .error (.callExhausted "gate_wait" "_GateWaitTimeout")
      else .error (.callExhausted (gateWaitReason cfg g) "LLMDeadlineExceeded")

def streamRecoveryBudgetTooSmall (remaining attemptBudget : ℚ) : Bool :=
  decide (remaining < streamRecoveryMinTimeoutS ∧ remaining < attemptBudget / 2)

/-- The time a replay has, or why it has none. -/
def replayBudget (a : Attempt) (attemptDeadline : ℚ) (r : Reading) (now : ℚ) : Except Raised ℚ :=
  match effectiveTimeout cfg r with
  | .error reason => .error (.callExhausted reason "LLMDeadlineExceeded")
  | .ok (time, _) =>
    let recoveryTimeout := min time (max (attemptDeadline - now) 0)
    if streamRecoveryBudgetTooSmall recoveryTimeout a.effectiveTimeout then .error (.timeoutError "TimeoutError")
    else .ok recoveryTimeout

/-- A check of tool calls that raises is an error of the attempt. -/
def checked {α : Type} (verdict : Except LlmError Bool) (a : α) : Except Raised α :=
  match verdict with
  | .error e => .error (.error e)
  | .ok _ => .ok a

/-- The replay of a stream with broken tool calls. It is a request of its own:
where it brings a response, the stream it replaces is reported discarded and
the attempt goes on under the replay's index, its calls checked outside the
replay's handler; where it fails, the replay is reported failed and the stream's
response kept. -/
def replay (env : AttemptEnv) (a : Attempt) (s : CallState) (r : Response) (emptyArgs : Bool) :
    CallState × Attempt × Except Raised Response :=
  let attemptDeadline := env.generationStarted + a.effectiveTimeout
  match replayBudget cfg a attemptDeadline env.replay.beforeStart env.replay.streamEndedAt with
  | .error _ => (s, a, .ok r)
  | .ok _ =>
    let replayIndex := s.physicalAttemptIndex + 1
    let s := { s with physicalAttemptIndex := replayIndex }
    let label := { a.label with attemptIndex := replayIndex }
    let s := s.emit (.started label)
    let recovered : Except Raised Response :=
      match replayBudget cfg a attemptDeadline env.replay.afterStart env.replay.afterStart.now with
      | .error raised => .error raised
      | .ok _ => env.replay.outcome
    match recovered with
    | .error raised =>
      let reason := match raised with
        | .emptyCompletion => "empty_completion"
        | _ => if emptyArgs then "stream_empty_args_replay" else "stream_invalid_tool_call_retry"
      (s.emit (.finished label .failed reason "keep_streamed_response" raised.errorType), a, .ok r)
    | .ok r' =>
      let reason := if emptyArgs then "stream_empty_tool_arguments" else "stream_invalid_tool_call"
      (s.finish a .discarded reason "retry_streaming" "", { a with label := label },
        checked (cfg.invalidNativeToolCalls r') r')

/-- `ensure_tool_call_ids`: a named call without an id gets a fresh one. -/
def ensureToolCallIds (freshId : ℕ → String) (r : Response) : Response :=
  { r with
    toolCalls := r.toolCalls.mapIdx fun i c => if c.name ≠ "" ∧ c.id = "" then { c with id := freshId i } else c }

/-- The response of the attempt, its calls checked unless it ran away. -/
def settle (env : AttemptEnv) (r : Response) : Except Raised Response :=
  let r := ensureToolCallIds env.freshId r
  if r.runaway then .ok r else checked (cfg.invalidNativeToolCalls r) r

/-- The verdicts on a streamed response: whether native calls are invalid, and
whether calls lack required arguments. -/
def streamVerdicts (r : Response) : Except LlmError (Bool × Bool) :=
  match cfg.invalidNativeToolCalls r, cfg.missingRequiredArguments r with
  | .error e, _ => .error e
  | .ok _, .error e => .error e
  | .ok invalid, .ok emptyArgs => .ok (invalid, emptyArgs)

/-- The attempt once its stream is assembled. -/
def afterStream (env : AttemptEnv) (a : Attempt) (s : CallState) (r : Response) :
    CallState × Attempt × Except Raised Response :=
  match streamVerdicts cfg r with
  | .error e => (s, a, .error (.error e))
  | .ok (invalid, emptyArgs) => if invalid || emptyArgs then replay cfg env a s r emptyArgs else (s, a, .ok r)

/-- The body of the attempt up to a response whose calls are checked. -/
def request (env : AttemptEnv) (a : Attempt) (s : CallState) : CallState × Attempt × Except Raised Response :=
  match admission cfg env a with
  | .error raised => (s, a, .error raised)
  | .ok a =>
    match env.outcome with
    | .error raised => (s, a, .error raised)
    | .ok r =>
      let (s, a, result) := if cfg.stream then afterStream cfg env a s r else (s, a, .ok r)
      (s, a, result.bind (settle cfg env))

/-! ### What becomes of an attempt -/

/-- There is a retry left on the ladder and in the call. -/
def runawayRetryLeft (s : CallState) : Bool :=
  decide ((s.ladder.runawayAttempts : ℤ) < cfg.runawayMaxRetries ∧ (s.attempt : ℤ) < cfg.maxRetries - 1)

/-- A response whose check, where it is due, has not raised (`settle`). -/
def onResponse (env : AttemptEnv) (a : Attempt) (s : CallState) (r : Response) : CallState × Option CallEnd :=
  if r.runaway then
    if runawayRetryLeft cfg s && deadlineAllowsRetryAfter cfg env.handling runawayBackoffS then
      let (ladder, action) := s.ladder.next cfg.runawayExpandEnabled cfg.limits
        (orElse a.label.maxTokens (some r.completionTokens)) (runawayRetryMaxTokens r.completionTokens)
      (({ s with ladder := ladder }.finish a .discarded "reasoning_runaway" action "").nextAttempt, none)
    else (s.finish a .acceptedDegraded "reasoning_runaway" "return_to_loop" "", some (.returned r))
  else
    match cfg.invalidNativeToolCalls r with
    | .ok true =>
      (s.finish a .acceptedDegraded "invalid_tool_call" "return_invalid_tool_feedback" "", some (.returned r))
    | _ => (s.finish a .accepted "" "accepted" "", some (.returned r))

/-- `_recover_empty_completion`. -/
def recoverEmptyCompletion (env : AttemptEnv) (a : Attempt) (s : CallState) : CallState × Option CallEnd :=
  let emptyCompletions := s.emptyCompletions + 1
  let spent := decide (cfg.emptyCompletionMaxRetries.toNat < emptyCompletions)
  if spent && !env.advanceEmptyCompletion then
    let reason := if env.chainFallbackActive then "chain_advance" else "empty_completion"
    ({ s with emptyCompletions := emptyCompletions }.finish a .failed "empty_completion" reason "LLMEmptyCompletion",
      some (.raised reason))
  else
    let s := { s with emptyCompletions := if spent then 0 else emptyCompletions }
    let delay := if spent then 0 else transientBackoff cfg env (emptyCompletions - 1)
    match crossedDeadline cfg env.handling delay with
    | some reason => (s.finish a .failed reason "abandon_retry" "LLMDeadlineExceeded", some (.raised reason))
    | none =>
      (s.finish a .discarded "empty_completion" (if spent then "chain_advance" else "retry_same_key")
        "LLMEmptyCompletion", none)

/-- The end of a round that failed but may be tried again. -/
def retrySameKey (env : AttemptEnv) (a : Attempt) (s : CallState) (reason errorType : String) (backoff : ℚ) :
    CallState × Option CallEnd :=
  if (s.attempt : ℤ) < cfg.maxRetries - 1 then
    match crossedDeadline cfg env.beforeBackoff backoff with
    | some deadline => (s.finish a .failed deadline "abandon_retry" errorType, some (.raised deadline))
    | none => ((s.finish a .discarded reason "retry_same_key" errorType).nextAttempt, none)
  else ((s.finish a .failed reason "raise_exhausted" errorType).nextAttempt, none)

/-- The handler of `Exception`. -/
def onError (env : AttemptEnv) (a : Attempt) (s : CallState) (e : LlmError) : CallState × Option CallEnd :=
  let resampleMayRecover :=
    cfg.classes.isOverloadedError e || cfg.classes.isEmptyCompletion e || isTruncatedStream e
  if cfg.classes.isEmptyCompletion e then recoverEmptyCompletion cfg env a s
  else if (a.label.thinking.any fun t => t.mode == .expanded) && cfg.classes.isContextLengthError e &&
      runawayRetryLeft cfg s then
    (({ s with ladder := s.ladder.afterOverflow a.label.maxTokens }.finish a .discarded "context_length"
      "retry_reduced_after_context_overflow" e.typeName).nextAttempt, none)
  else if cfg.classes.isRetriableWithFallback e && (env.chainFallbackActive || !resampleMayRecover) then
    (s.finish a .failed "chain_advance" "chain_advance" e.typeName, some (.raised "chain_advance"))
  else
    match cfg.classes.getStatusCode e with
    | some status =>
      if status ∈ [400, 401, 403, 404] then
        if status = 400 ∧ cfg.classes.isTransientNetwork e = true then
          retrySameKey cfg env a s "transient_error" e.typeName (transientBackoff cfg env s.attempt)
        else (s.finish a .failed "non_transient" "raise" e.typeName, some (.raised "non_transient"))
      else if status = 429 then
        match rateLimitBackoff cfg env s.attempt e with
        | some backoff => retrySameKey cfg env a s "rate_limited" e.typeName backoff
        | none => (s, some .escaped)
      else retrySameKey cfg env a s "transient_error" e.typeName (transientBackoff cfg env s.attempt)
    | none => retrySameKey cfg env a s "transient_error" e.typeName (transientBackoff cfg env s.attempt)

/-- The deadline that clamped the attempt and has passed. -/
def passedDeadline (env : AttemptEnv) (a : Attempt) : Option String :=
  match nearestDeadline cfg env.handling with
  | none => none
  | some (remaining, reason) =>
    if a.deadlineReason ≠ "" ∧ remaining ≤ 0 ∧ reason = a.deadlineReason then some reason else none

/-- The partial response of a stream stopped early, marked for the loop. -/
def markRunaway (r : Response) : Response := { r with runaway := r.toolCalls.isEmpty && r.visibleText == "" }

/-- The handlers of an attempt that raised. -/
def onRaised (env : AttemptEnv) (a : Attempt) (s : CallState) : Raised → CallState × Option CallEnd
  | .emptyCompletion => recoverEmptyCompletion cfg env a s
  | .callExhausted reason errorType => (s.finish a .failed reason "raise" errorType, some (.raised reason))
  | .reasoningRunaway r =>
    if runawayRetryLeft cfg s && deadlineAllowsRetryAfter cfg env.handling runawayBackoffS then
      let (ladder, action) := s.ladder.next cfg.runawayExpandEnabled cfg.limits a.label.maxTokens
        (runawayRetryMaxTokensFromCap a.label.maxTokens)
      (({ s with ladder := ladder }.finish a .discarded "reasoning_runaway_early" action
        "LLMReasoningRunaway").nextAttempt, none)
    else
      (s.finish a .acceptedDegraded "reasoning_runaway_early" "return_to_loop" "LLMReasoningRunaway",
        some (.returned (markRunaway r)))
  | .streamStalled =>
    let s := { s with streamStallCount := s.streamStallCount + 1 }
    if 0 < cfg.streamStallMax ∧ cfg.streamStallMax ≤ s.streamStallCount ∧ env.chainFallbackActive = true then
      (s.finish a .failed "stream_stalled" "chain_advance" "LLMStreamStalled", some (.raised "chain_advance"))
    else retrySameKey cfg env a s "stream_stalled" "LLMStreamStalled" (transientBackoff cfg env s.attempt)
  | .timeoutError typeName =>
    match passedDeadline cfg env a with
    | some reason => (s.finish a .failed reason "raise" "LLMDeadlineExceeded", some (.raised reason))
    | none => retrySameKey cfg env a s "timeout" typeName (transientBackoff cfg env s.attempt)
  | .error e => onError cfg env a s e

/-! ### The loop -/

/-- The output cap an attempt runs under. -/
def activeCap (s : CallState) : Option ℤ := orElse s.ladder.maxTokens cfg.maxCompletionTokensHint

/-- One round of the loop. -/
def iterate (env : AttemptEnv) (s : CallState) : CallState × Option CallEnd :=
  match effectiveTimeout cfg env.preGate with
  | .error reason => (s, some (.raised reason))
  | .ok (time, reason) =>
    let index := s.physicalAttemptIndex + 1
    let s := { s with physicalAttemptIndex := index }
    let a : Attempt := ⟨⟨index, activeCap cfg s, s.ladder.retryThinking⟩, time, reason⟩
    let s := s.emit (.started a.label)
    match request cfg env a s with
    | (s, a, .ok r) => onResponse cfg env a s r
    | (s, a, .error raised) => onRaised cfg env a s raised

/-- A call under way: the rounds so far, its state, and how it ended. -/
structure Call where
  round : ℕ := 0
  state : CallState := {}
  ended : Option CallEnd := none

/-- The call goes on by one round, or ends once its retries are spent. -/
def callStep (envs : ℕ → AttemptEnv) (c : Call) : Option Call :=
  match c.ended with
  | some _ => none
  | none =>
    if (c.state.attempt : ℤ) < cfg.maxRetries then
      let (s, ended) := iterate cfg (envs c.round) c.state
      some ⟨c.round + 1, s, ended⟩
    else some { c with ended := some (.raised "exhausted") }

/-- The call after at most `n` rounds, with the client bound to a cap. -/
def callLlm (envs : ℕ → AttemptEnv) (maxTokens : Option ℤ) (n : ℕ) : Call :=
  Halting.drive (callStep cfg envs) n { state := { ladder := { maxTokens := maxTokens } } }

end Loop
end AgentCore
