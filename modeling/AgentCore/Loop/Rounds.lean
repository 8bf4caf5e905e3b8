/-
# What a round of the call comes to

One round of `call_llm` makes at most two requests, the second the replay of a
stream with a broken tool call, whatever becomes of the attempt after it; and it ends the call or leaves it with counters
changed in one of four ways: a rung of the runaway ladder is climbed, an empty
completion is sampled again by the same leg, the client moves on to another
leg, or the attempt is retried. A rung and a retry take an attempt from
`max_retries`, the other two take none.

Key definitions: `requestsOf`, `roundRequests`, `Rung`, `Turnout`.
Key theorem: `iterate_turnout`.
-/
import AgentCore.Loop.Ledger

namespace AgentCore
namespace Loop

variable (cfg : CallConfig)

/-! ### The requests of a round -/

/-- A request: the last look at the deadlines before it, the instant at which it
is made and the time it is given. -/
structure Request where
  checked : Reading
  startedAt : ℚ
  timeout : ℚ

/-- The request of a replay, where there is time for it before and after it is
reported. -/
def replayRequest (env : AttemptEnv) (a : Attempt) : Option Request :=
  let attemptDeadline := env.generationStarted + a.effectiveTimeout
  match replayBudget cfg a attemptDeadline env.replay.beforeStart env.replay.streamEndedAt with
  | .error _ => none
  | .ok _ =>
    match replayBudget cfg a attemptDeadline env.replay.afterStart env.replay.afterStart.now with
    | .error _ => none
    | .ok time => some ⟨env.replay.afterStart, env.replay.afterStart.now, time⟩

/-- The last look at the deadlines before the request of an attempt. -/
def lastCheck (env : AttemptEnv) : Reading :=
  match env.gate with
  | none => env.preGate
  | some g => g.postGate

/-- A response that is replayed: streamed, and found broken. -/
def isReplayed (r : Response) : Bool :=
  cfg.stream &&
    match streamVerdicts cfg r with
    | .error _ => false
    | .ok (invalid, emptyArgs) => invalid || emptyArgs

/-- The requests of an attempt. -/
def requestsOf (env : AttemptEnv) (a : Attempt) : List Request :=
  match admission cfg env a with
  | .error _ => []
  | .ok a =>
    ⟨lastCheck env, env.generationStarted, a.effectiveTimeout⟩ ::
      match env.outcome with
      | .error _ => []
      | .ok r => if isReplayed cfg r then (replayRequest cfg env a).toList else []

/-- The attempt that a round opens. -/
def opened (s : CallState) (time : ℚ) (reason : String) : Attempt :=
  ⟨⟨s.physicalAttemptIndex + 1, activeCap cfg s, s.ladder.retryThinking⟩, time, reason⟩

/-- The state once the attempt is reported started. -/
def begun (s : CallState) (a : Attempt) : CallState :=
  { s with physicalAttemptIndex := s.physicalAttemptIndex + 1 }.emit (.started a.label)

/-- The requests of a round. -/
def roundRequests (env : AttemptEnv) (s : CallState) : List Request :=
  match effectiveTimeout cfg env.preGate with
  | .error _ => []
  | .ok (time, reason) => requestsOf cfg env (opened cfg s time reason)

variable {cfg} {env : AttemptEnv} {a : Attempt} {s : CallState}

/-- What an attempt's requests leave as it was: all but the index of a replay. -/
structure Sends (cfg : CallConfig) (env : AttemptEnv) (a : Attempt) (s : CallState)
    (p : CallState × Attempt × Except Raised Response) : Prop where
  attempt : p.1.attempt = s.attempt
  emptyCompletions : p.1.emptyCompletions = s.emptyCompletions
  ladder : p.1.ladder = s.ladder
  maxTokens : p.2.1.label.maxTokens = a.label.maxTokens
  thinking : p.2.1.label.thinking = a.label.thinking
  index : p.1.physicalAttemptIndex = s.physicalAttemptIndex ∨
    p.1.physicalAttemptIndex = s.physicalAttemptIndex + 1
  requests : (requestsOf cfg env a).length + s.physicalAttemptIndex ≤ p.1.physicalAttemptIndex + 1

theorem replayRequest_length : (replayRequest cfg env a).toList.length ≤ 1 := by
  cases replayRequest cfg env a with
  | none => exact Nat.zero_le 1
  | some q => exact Nat.le_refl 1

theorem requestsOf_refused {raised : Raised} (h : admission cfg env a = .error raised) : requestsOf cfg env a = [] := by
  rw [requestsOf, h]

theorem requestsOf_length_le (h : ¬∃ r, env.outcome = .ok r) : (requestsOf cfg env a).length ≤ 1 := by
  unfold requestsOf
  split
  · exact Nat.zero_le 1
  · split
    · exact Nat.le_refl 1
    · next r ho => exact absurd ⟨r, ho⟩ h

/-- An attempt makes one request, and the second of a replay. -/
theorem requestsOf_length_le_two : (requestsOf cfg env a).length ≤ 2 := by
  unfold requestsOf
  split
  · exact Nat.zero_le 2
  · split
    · exact Nat.le_succ 1
    · split
      · exact Nat.succ_le_succ replayRequest_length
      · exact Nat.le_succ 1

/-- Where there is no replay, there is one request at most. -/
theorem requestsOf_length_le_one {a' : Attempt} (h : admission cfg env a = .ok a')
    (hnone : replayRequest cfg env a' = none) : (requestsOf cfg env a).length ≤ 1 := by
  rw [requestsOf, h]
  dsimp only
  rw [hnone]
  split
  · exact Nat.le_refl 1
  · split <;> exact Nat.le_refl 1

theorem admission_error {raised : Raised} (h : admission cfg env a = .error raised) :
    ∃ reason errorType, raised = .callExhausted reason errorType := by
  unfold admission at h
  split at h
  · cases h
  · split at h
    · cases h
      exact ⟨_, _, rfl⟩
    · split at h
      · split at h
        · cases h
          exact ⟨_, _, rfl⟩
        · cases h
      · split at h
        · cases h
          exact ⟨_, _, rfl⟩
        · cases h
          exact ⟨_, _, rfl⟩

theorem afterStream_sends {a' : Attempt} (ha : admission cfg env a = .ok a') {r : Response}
    (ho : env.outcome = .ok r) (hstream : cfg.stream = true) : Sends cfg env a s (afterStream cfg env a' s r) := by
  have htwo : (requestsOf cfg env a).length ≤ 2 := requestsOf_length_le_two
  have hlabel := admission_label ha
  have hm : a'.label.maxTokens = a.label.maxTokens := by rw [hlabel]
  have ht : a'.label.thinking = a.label.thinking := by rw [hlabel]
  have hone (hnot : isReplayed cfg r = false) : (requestsOf cfg env a).length ≤ 1 := by
    rw [requestsOf, ha]
    dsimp only
    rw [ho]
    dsimp only
    rw [if_neg (by rw [hnot]; decide)]
    exact Nat.le_refl 1
  unfold afterStream
  split
  · next e he =>
    have := hone (by rw [isReplayed, hstream, he]; rfl)
    refine ⟨rfl, rfl, rfl, hm, ht, .inl rfl, ?_⟩
    dsimp only
    omega
  · next invalid emptyArgs he =>
    split
    · unfold replay
      dsimp only
      split
      · next hb =>
        have hnone : replayRequest cfg env a' = none := by
          unfold replayRequest
          dsimp only
          rw [hb]
        have := requestsOf_length_le_one ha hnone
        refine ⟨rfl, rfl, rfl, hm, ht, .inl rfl, ?_⟩
        dsimp only
        omega
      · split
        · refine ⟨rfl, rfl, rfl, hm, ht, .inr rfl, ?_⟩
          simp only [CallState.emit]
          omega
        · refine ⟨rfl, rfl, rfl, hm, ht, .inr rfl, ?_⟩
          simp only [CallState.finish, CallState.emit]
          omega
    · next hnot =>
      have := hone (by rw [isReplayed, hstream, he]; simpa using hnot)
      refine ⟨rfl, rfl, rfl, hm, ht, .inl rfl, ?_⟩
      dsimp only
      omega

theorem request_sends : Sends cfg env a s (request cfg env a s) := by
  unfold request
  split
  · next raised ha =>
    have hnone := requestsOf_refused ha
    refine ⟨rfl, rfl, rfl, rfl, rfl, .inl rfl, ?_⟩
    rw [hnone, List.length_nil, Nat.zero_add]
    exact Nat.le_succ _
  · next a' ha =>
    have hlabel := admission_label ha
    have hm : a'.label.maxTokens = a.label.maxTokens := by rw [hlabel]
    have ht : a'.label.thinking = a.label.thinking := by rw [hlabel]
    split
    · next raised ho =>
      have hone : (requestsOf cfg env a).length ≤ 1 := by
        apply requestsOf_length_le
        rw [ho]
        exact fun ⟨_, h⟩ => nomatch h
      refine ⟨rfl, rfl, rfl, hm, ht, .inl rfl, ?_⟩
      dsimp only
      omega
    · next r ho =>
      cases hstream : cfg.stream with
      | true =>
        rw [if_pos rfl]
        -- the check of the response changes the result alone
        obtain ⟨h1, h2, h3, h4, h5, h6, h7⟩ := afterStream_sends (s := s) ha ho hstream
        exact ⟨h1, h2, h3, h4, h5, h6, h7⟩
      | false =>
        have hone : (requestsOf cfg env a).length ≤ 1 := by
          rw [requestsOf, ha]
          dsimp only
          rw [ho]
          dsimp only
          rw [if_neg (by rw [isReplayed, hstream, Bool.false_and]; decide)]
          exact Nat.le_refl 1
        rw [if_neg (by decide)]
        refine ⟨rfl, rfl, rfl, hm, ht, .inl rfl, ?_⟩
        dsimp only
        omega

/-- Only a request that was made can come back empty. -/
theorem requestsOf_ne_nil {raised : Raised} (h : (request cfg env a s).2.2 = .error raised)
    (hraised : ∀ reason errorType, raised ≠ .callExhausted reason errorType) : requestsOf cfg env a ≠ [] := by
  cases ha : admission cfg env a with
  | error refusal =>
    obtain ⟨reason, errorType, rfl⟩ := admission_error ha
    rw [request, ha] at h
    cases h
    exact absurd rfl (hraised reason errorType)
  | ok a' =>
    rw [requestsOf, ha]
    exact List.cons_ne_nil _ _

/-! ### The ways a round ends -/

/-- A rung of the ladder, from the cap of the attempt and its result. -/
inductive Rung (cfg : CallConfig) (env : AttemptEnv) (cap : Option ℤ) (l : Ladder) :
    Except Raised Response → Ladder → Prop
  | complete (r : Response) (h : r.runaway = true)
      (time : deadlineAllowsRetryAfter cfg env.handling runawayBackoffS = true) :
      Rung cfg env cap l (.ok r) (l.next cfg.runawayExpandEnabled cfg.limits (orElse cap (some r.completionTokens))
        (runawayRetryMaxTokens r.completionTokens)).1
  | early (r : Response) (time : deadlineAllowsRetryAfter cfg env.handling runawayBackoffS = true) :
      Rung cfg env cap l (.error (.reasoningRunaway r))
        (l.next cfg.runawayExpandEnabled cfg.limits cap (runawayRetryMaxTokensFromCap cap)).1
  | overflow (e : Providers.LlmError) (h : (l.retryThinking.any fun t => t.mode == .expanded) = true) :
      Rung cfg env cap l (.error (.error e)) (l.afterOverflow cap)

theorem enter_runawayAttempts (l : Ladder) (phase : ℕ) (cap : Option ℤ) :
    (l.enter phase cap).1.runawayAttempts = l.runawayAttempts + 1 := rfl

theorem next_runawayAttempts (expandEnabled : Bool) (limits : OutputLimits) (expansionCap reduced : Option ℤ)
    (l : Ladder) : (l.next expandEnabled limits expansionCap reduced).1.runawayAttempts = l.runawayAttempts + 1 := by
  unfold Ladder.next
  dsimp only
  split
  · split <;> exact enter_runawayAttempts ..
  · exact enter_runawayAttempts ..

/-- A rung takes a retry. -/
theorem Rung.runawayAttempts {cap : Option ℤ} {l l' : Ladder} {result : Except Raised Response}
    (h : Rung cfg env cap l result l') : l'.runawayAttempts = l.runawayAttempts + 1 := by
  cases h with
  | complete r hr time => exact next_runawayAttempts ..
  | early r time => exact next_runawayAttempts ..
  | overflow e he => exact enter_runawayAttempts ..

/-- The attempt's result is an empty completion. -/
def isEmpty (cfg : CallConfig) : Except Raised Response → Bool
  | .error .emptyCompletion => true
  | .error (.error e) => cfg.classes.isEmptyCompletion e
  | _ => false

/-- The round asks the client to move on: the leg's budget of empty completions
is spent. -/
def asksToAdvance (cfg : CallConfig) (s : CallState) (result : Except Raised Response) : Bool :=
  isEmpty cfg result && decide (cfg.emptyCompletionMaxRetries.toNat < s.emptyCompletions + 1)

/-- What a round that went as far as a result makes of the counters. -/
inductive Turnout (cfg : CallConfig) (env : AttemptEnv) (cap : Option ℤ) (s : CallState)
    (result : Except Raised Response) : CallState × Option CallEnd → Prop
  | ended {s' : CallState} {e : CallEnd} (ladder : s'.ladder = s.ladder) : Turnout cfg env cap s result (s', some e)
  | climbed {s' : CallState} (left : runawayRetryLeft cfg s = true) (rung : Rung cfg env cap s.ladder result s'.ladder)
      (attempt : s'.attempt = s.attempt + 1) (empty : s'.emptyCompletions = s.emptyCompletions) :
      Turnout cfg env cap s result (s', none)
  | resent {s' : CallState} (isEmpty : isEmpty cfg result = true)
      (room : s.emptyCompletions + 1 ≤ cfg.emptyCompletionMaxRetries.toNat)
      (ladder : s'.ladder = s.ladder) (attempt : s'.attempt = s.attempt)
      (empty : s'.emptyCompletions = s.emptyCompletions + 1) : Turnout cfg env cap s result (s', none)
  | advanced {s' : CallState} (asked : asksToAdvance cfg s result = true) (advance : env.advanceEmptyCompletion = true)
      (ladder : s'.ladder = s.ladder) (attempt : s'.attempt = s.attempt) (empty : s'.emptyCompletions = 0) :
      Turnout cfg env cap s result (s', none)
  | retried {s' : CallState} (failed : ∀ r, result ≠ .ok r) (ladder : s'.ladder = s.ladder) (attempt : s'.attempt = s.attempt + 1)
      (empty : s'.emptyCompletions = s.emptyCompletions) : Turnout cfg env cap s result (s', none)

variable {cap : Option ℤ} {result : Except Raised Response}

/-- `s₀` is the state when the attempt's requests are made. -/
theorem Turnout.of_sends {s₀ : CallState} {p : CallState × Option CallEnd} (h : Turnout cfg env cap s result p)
    (hattempt : s.attempt = s₀.attempt) (hempty : s.emptyCompletions = s₀.emptyCompletions)
    (hladder : s.ladder = s₀.ladder) : Turnout cfg env cap s₀ result p := by
  cases h with
  | ended ladder => exact .ended (ladder.trans hladder)
  | climbed left rung attempt empty =>
    rw [runawayRetryLeft, hladder, hattempt] at left
    rw [hladder] at rung
    rw [hattempt] at attempt
    exact .climbed left rung attempt (empty.trans hempty)
  | resent isEmpty room ladder attempt empty =>
    rw [hempty] at room empty
    exact .resent isEmpty room (ladder.trans hladder) (attempt.trans hattempt) empty
  | advanced asked advance ladder attempt empty =>
    rw [asksToAdvance, hempty] at asked
    exact .advanced asked advance (ladder.trans hladder) (attempt.trans hattempt) empty
  | retried failed ladder attempt empty =>
    rw [hattempt] at attempt
    exact .retried failed (ladder.trans hladder) attempt (empty.trans hempty)

theorem retrySameKey_turnout (raised : Raised) (reason errorType : String) (backoff : ℚ) :
    Turnout cfg env cap s (.error raised) (retrySameKey cfg env a s reason errorType backoff) := by
  have hfailed : ∀ r, (.error raised : Except Raised Response) ≠ .ok r := fun r h => nomatch h
  unfold retrySameKey
  split
  · split
    · exact .ended rfl
    · exact .retried hfailed rfl rfl rfl
  · exact .retried hfailed rfl rfl rfl

theorem recoverEmptyCompletion_turnout (hempty : isEmpty cfg result = true) :
    Turnout cfg env cap s result (recoverEmptyCompletion cfg env a s) := by
  unfold recoverEmptyCompletion
  dsimp only
  split
  · exact .ended rfl
  · next hgo =>
    split
    · exact .ended rfl
    · by_cases hspent : cfg.emptyCompletionMaxRetries.toNat < s.emptyCompletions + 1
      · have hadvance : env.advanceEmptyCompletion = true := by
          simpa [hspent] using hgo
        have hasked : asksToAdvance cfg s result = true := by
          rw [asksToAdvance, hempty, decide_eq_true hspent]
          rfl
        refine .advanced hasked hadvance rfl rfl ?_
        simp [CallState.finish, CallState.emit, hspent]
      · refine .resent hempty (Nat.le_of_not_lt hspent) rfl rfl ?_
        simp [CallState.finish, CallState.emit, hspent]

theorem onResponse_turnout (r : Response) :
    Turnout cfg env a.label.maxTokens s (.ok r) (onResponse cfg env a s r) := by
  unfold onResponse
  split
  · next hr =>
    split
    · next hc =>
      rw [Bool.and_eq_true] at hc
      exact .climbed hc.1 (.complete r hr hc.2) rfl rfl
    · exact .ended rfl
  · split
    · exact .ended rfl
    · exact .ended rfl

theorem onError_turnout (hthinking : a.label.thinking = s.ladder.retryThinking) (e : Providers.LlmError) :
    Turnout cfg env a.label.maxTokens s (.error (.error e)) (onError cfg env a s e) := by
  unfold onError
  dsimp only
  split
  · next hempty => exact recoverEmptyCompletion_turnout hempty
  · split
    · next hc =>
      rw [Bool.and_eq_true, Bool.and_eq_true, hthinking] at hc
      exact .climbed hc.2 (.overflow e hc.1.1) rfl rfl
    · split
      · exact .ended rfl
      · split
        · split
          · split
            · exact retrySameKey_turnout ..
            · exact .ended rfl
          · split
            · split
              · exact retrySameKey_turnout ..
              · exact .ended rfl
            · exact retrySameKey_turnout ..
        · exact retrySameKey_turnout ..

theorem onRaised_turnout (hthinking : a.label.thinking = s.ladder.retryThinking) (raised : Raised) :
    Turnout cfg env a.label.maxTokens s (.error raised) (onRaised cfg env a s raised) := by
  cases raised with
  | emptyCompletion => exact recoverEmptyCompletion_turnout rfl
  | callExhausted reason errorType => exact .ended rfl
  | reasoningRunaway r =>
    unfold onRaised
    dsimp only
    split
    · next hc =>
      rw [Bool.and_eq_true] at hc
      exact .climbed hc.1 (.early r hc.2) rfl rfl
    · exact .ended rfl
  | streamStalled =>
    unfold onRaised
    dsimp only
    split
    · exact .ended rfl
    · exact (retrySameKey_turnout ..).of_sends rfl rfl rfl
  | timeoutError typeName =>
    unfold onRaised
    dsimp only
    split
    · exact .ended rfl
    · exact retrySameKey_turnout ..
  | error e => exact onError_turnout hthinking e

/-! ### The round -/

/-- The result of the attempt of a round, if no deadline refuses it. -/
def roundResult (cfg : CallConfig) (env : AttemptEnv) (s : CallState) : Option (Except Raised Response) :=
  match effectiveTimeout cfg env.preGate with
  | .error _ => none
  | .ok (time, reason) =>
    let a := opened cfg s time reason
    some (request cfg env a (begun s a)).2.2

/-- What a round with a result comes to. -/
structure Comes (cfg : CallConfig) (env : AttemptEnv) (s : CallState) (result : Except Raised Response)
    (p : CallState × Option CallEnd) : Prop where
  turnout : Turnout cfg env (activeCap cfg s) s result p
  index : p.1.physicalAttemptIndex = s.physicalAttemptIndex + 1 ∨
    p.1.physicalAttemptIndex = s.physicalAttemptIndex + 2
  requests : (roundRequests cfg env s).length + s.physicalAttemptIndex ≤ p.1.physicalAttemptIndex

/-- A round whose result is empty made a request. -/
theorem roundRequests_ne_nil (h : roundResult cfg env s = some result) (hempty : isEmpty cfg result = true) :
    roundRequests cfg env s ≠ [] := by
  unfold roundResult at h
  split at h
  · cases h
  · next time reason he =>
    rw [Option.some.injEq] at h
    rw [roundRequests, he]
    cases result with
    | ok r => cases hempty
    | error raised =>
      refine requestsOf_ne_nil h fun reason errorType hr => ?_
      rw [hr] at hempty
      cases hempty

/-- What the handlers make of a result. -/
def conclude (cfg : CallConfig) (env : AttemptEnv) (a : Attempt) (s : CallState) :
    Except Raised Response → CallState × Option CallEnd
  | .ok r => onResponse cfg env a s r
  | .error raised => onRaised cfg env a s raised

theorem iterate_refused {reason : String} (h : effectiveTimeout cfg env.preGate = .error reason) :
    iterate cfg env s = (s, some (.raised reason)) := by
  rw [iterate, h]

theorem iterate_opened {time : ℚ} {reason : String} (h : effectiveTimeout cfg env.preGate = .ok (time, reason)) :
    iterate cfg env s =
      conclude cfg env (request cfg env (opened cfg s time reason) (begun s (opened cfg s time reason))).2.1
        (request cfg env (opened cfg s time reason) (begun s (opened cfg s time reason))).1
        (request cfg env (opened cfg s time reason) (begun s (opened cfg s time reason))).2.2 := by
  rw [iterate, h]
  generalize hrequest : request cfg env (opened cfg s time reason) (begun s (opened cfg s time reason)) = r
  dsimp only
  erw [hrequest]
  obtain ⟨s₁, a₁, result⟩ := r
  cases result with
  | ok r => rfl
  | error raised => rfl

theorem conclude_index (result : Except Raised Response) :
    (conclude cfg env a s result).1.physicalAttemptIndex = s.physicalAttemptIndex := by
  cases result with
  | ok r => exact (onResponse_concludes r).1
  | error raised => exact (onRaised_concludes raised).1

theorem conclude_turnout (hthinking : a.label.thinking = s.ladder.retryThinking) (result : Except Raised Response) :
    Turnout cfg env a.label.maxTokens s result (conclude cfg env a s result) := by
  cases result with
  | ok r => exact onResponse_turnout r
  | error raised => exact onRaised_turnout hthinking raised

/-- The handlers of a round see the counters the round began with, and the cap
it runs under. -/
theorem iterate_of_result (h : roundResult cfg env s = some result) : ∃ a₁ s₁,
    iterate cfg env s = conclude cfg env a₁ s₁ result ∧ s₁.attempt = s.attempt ∧
      s₁.emptyCompletions = s.emptyCompletions ∧ s₁.ladder = s.ladder ∧ a₁.label.maxTokens = activeCap cfg s ∧
      a₁.label.thinking = s.ladder.retryThinking ∧
      (s₁.physicalAttemptIndex = s.physicalAttemptIndex + 1 ∨
        s₁.physicalAttemptIndex = s.physicalAttemptIndex + 2) ∧
      (roundRequests cfg env s).length + s.physicalAttemptIndex ≤ s₁.physicalAttemptIndex := by
  unfold roundResult at h
  split at h
  · cases h
  · next time reason he =>
    rw [Option.some.injEq] at h
    have hsends : Sends cfg env (opened cfg s time reason) (begun s (opened cfg s time reason))
      (request cfg env (opened cfg s time reason) (begun s (opened cfg s time reason))) := request_sends
    have hrequests : (roundRequests cfg env s).length + (s.physicalAttemptIndex + 1) ≤
        (request cfg env (opened cfg s time reason)
          (begun s (opened cfg s time reason))).1.physicalAttemptIndex + 1 := by
      rw [roundRequests, he]
      exact hsends.requests
    refine ⟨_, _, ?_, hsends.attempt, hsends.emptyCompletions, hsends.ladder, hsends.maxTokens, hsends.thinking, ?_,
      Nat.le_of_succ_le_succ hrequests⟩
    · rw [iterate_opened he, ← h]
    · exact hsends.index

/-- A round is refused by a deadline and makes no request, or its result decides
what it comes to. -/
theorem iterate_turnout (cfg : CallConfig) (env : AttemptEnv) (s : CallState) :
    (roundResult cfg env s = none ∧ roundRequests cfg env s = [] ∧
      ∃ reason, iterate cfg env s = (s, some (.raised reason))) ∨
    ∃ result, roundResult cfg env s = some result ∧ Comes cfg env s result (iterate cfg env s) := by
  cases he : effectiveTimeout cfg env.preGate with
  | error reason =>
    exact .inl ⟨by rw [roundResult, he], by rw [roundRequests, he], reason, iterate_refused he⟩
  | ok p =>
    obtain ⟨result, hresult⟩ : ∃ result, roundResult cfg env s = some result := by
      rw [roundResult, he]
      exact ⟨_, rfl⟩
    obtain ⟨a₁, s₁, hit, hattempt, hempty, hladder, hmax, hthinking, hindex, hrequests⟩ := iterate_of_result hresult
    have hturn : Turnout cfg env a₁.label.maxTokens s₁ result (conclude cfg env a₁ s₁ result) := by
      apply conclude_turnout
      rw [hthinking, hladder]
    rw [hmax] at hturn
    refine .inr ⟨result, hresult, ?_⟩
    rw [hit]
    refine ⟨hturn.of_sends hattempt hempty hladder, ?_, ?_⟩
    · rw [conclude_index]
      exact hindex
    · rw [conclude_index]
      exact hrequests

/-! ### Round after round -/

theorem callLlm_succ (envs : ℕ → AttemptEnv) (maxTokens : Option ℤ) (n : ℕ) :
    callLlm cfg envs maxTokens (n + 1) =
      (callStep cfg envs (callLlm cfg envs maxTokens n)).getD (callLlm cfg envs maxTokens n) :=
  Halting.drive_succ n _

/-- A call that goes on makes a round or ends for want of attempts. -/
theorem callStep_cases {envs : ℕ → AttemptEnv} {c c' : Call} (h : callStep cfg envs c = some c') :
    c.ended = none ∧
      ((cfg.maxRetries ≤ c.state.attempt ∧ c' = { c with ended := some (.raised "exhausted") }) ∨
        ((c.state.attempt : ℤ) < cfg.maxRetries ∧
          c' = ⟨c.round + 1, (iterate cfg (envs c.round) c.state).1, (iterate cfg (envs c.round) c.state).2⟩)) := by
  unfold callStep at h
  split at h
  · cases h
  · next hend =>
    refine ⟨hend, ?_⟩
    split at h
    · next hlt =>
      cases h
      exact .inr ⟨hlt, rfl⟩
    · next hge =>
      cases h
      exact .inl ⟨Int.not_lt.mp hge, rfl⟩

end Loop
end AgentCore
