/-
# Requests, waits and the deadline

A call with a wall deadline and a deadline of its own, both instants of one
clock. Before a request the time left is looked at, clamps the time the request
gets, and refuses it under a floor; before a wait it must hold the wait and that
floor, which leaves room for the report that is made in between.

A request is not always made when the time is looked at: without a gate the
report of the attempt's start comes first, with a grace period of its own. A
replay looks again after its report, and an attempt that was admitted after it
was; an attempt without a gate does not, so its request keeps to the deadline
exactly when it is made at once, or early enough for all its time
(`MadeInTime`).

Key definitions: `onWall`, `roundSleep`, `HonoursDeadline`, `MadeInTime`.
Key theorem: `honours_deadline_iff`.
-/
import AgentCore.Loop.Rounds
import Mathlib.Tactic.Linarith

namespace AgentCore
namespace Loop

/-! ### Waits -/

/-- A wait before the next attempt: the look at the deadlines that allowed it, and
how long it is. -/
structure Sleep where
  checked : Reading
  delay : ℚ

variable (cfg : CallConfig)

/-- The wait that a resampled runaway makes. -/
def runawaySleep (env : AttemptEnv) (s : CallState) : Option Sleep :=
  if runawayRetryLeft cfg s && deadlineAllowsRetryAfter cfg env.handling runawayBackoffS then
    some ⟨env.handling, runawayBackoffS⟩
  else none

/-- The wait of `_recover_empty_completion`. -/
def emptySleep (env : AttemptEnv) (s : CallState) : Option Sleep :=
  let emptyCompletions := s.emptyCompletions + 1
  let spent := decide (cfg.emptyCompletionMaxRetries.toNat < emptyCompletions)
  if spent && !env.advanceEmptyCompletion then none
  else
    let delay := if spent then 0 else transientBackoff cfg env (emptyCompletions - 1)
    match crossedDeadline cfg env.handling delay with
    | some _ => none
    | none => some ⟨env.handling, delay⟩

/-- The wait at the end of a round that may be tried again. -/
def retrySleep (env : AttemptEnv) (s : CallState) (backoff : ℚ) : Option Sleep :=
  if (s.attempt : ℤ) < cfg.maxRetries - 1 then
    match crossedDeadline cfg env.beforeBackoff backoff with
    | some _ => none
    | none => some ⟨env.beforeBackoff, backoff⟩
  else none

/-- The wait of the handler of `Exception`. -/
def errorSleep (env : AttemptEnv) (a : Attempt) (s : CallState) (e : Providers.LlmError) : Option Sleep :=
  let resampleMayRecover :=
    cfg.classes.isOverloadedError e || cfg.classes.isEmptyCompletion e || Providers.isTruncatedStream e
  if cfg.classes.isEmptyCompletion e then emptySleep cfg env s
  else if (a.label.thinking.any fun t => t.mode == .expanded) && cfg.classes.isContextLengthError e &&
      runawayRetryLeft cfg s then none
  else if cfg.classes.isRetriableWithFallback e && (env.chainFallbackActive || !resampleMayRecover) then none
  else
    match cfg.classes.getStatusCode e with
    | some status =>
      if status ∈ [400, 401, 403, 404] then
        if status = 400 ∧ cfg.classes.isTransientNetwork e = true then
          retrySleep cfg env s (transientBackoff cfg env s.attempt)
        else none
      else if status = 429 then (rateLimitBackoff cfg env s.attempt e).bind (retrySleep cfg env s)
      else retrySleep cfg env s (transientBackoff cfg env s.attempt)
    | none => retrySleep cfg env s (transientBackoff cfg env s.attempt)

/-- The wait that follows an attempt. -/
def sleepAfter (env : AttemptEnv) (a : Attempt) (s : CallState) : Except Raised Response → Option Sleep
  | .ok r => if r.runaway then runawaySleep cfg env s else none
  | .error .emptyCompletion => emptySleep cfg env s
  | .error (.callExhausted _ _) => none
  | .error (.reasoningRunaway _) => runawaySleep cfg env s
  | .error .streamStalled =>
    if 0 < cfg.streamStallMax ∧ cfg.streamStallMax ≤ s.streamStallCount + 1 ∧ env.chainFallbackActive = true then none
    else retrySleep cfg env s (transientBackoff cfg env s.attempt)
  | .error (.timeoutError _) =>
    match passedDeadline cfg env a with
    | some _ => none
    | none => retrySleep cfg env s (transientBackoff cfg env s.attempt)
  | .error (.error e) => errorSleep cfg env a s e

/-- The wait that a round ends with. -/
def roundSleep (env : AttemptEnv) (s : CallState) : Option Sleep :=
  match effectiveTimeout cfg env.preGate with
  | .error _ => none
  | .ok (time, reason) =>
    match request cfg env (opened cfg s time reason) (begun s (opened cfg s time reason)) with
    | (s, a, result) => sleepAfter cfg env a s result

variable {cfg} {env : AttemptEnv} {a : Attempt} {s : CallState}

/-- There was time for the wait and an attempt after it when the handler looked. -/
structure Allowed (cfg : CallConfig) (env : AttemptEnv) (q : Sleep) : Prop where
  reading : q.checked = env.handling ∨ q.checked = env.beforeBackoff
  time : ∀ p ∈ nearestDeadline cfg q.checked, q.delay + wallDeadlineFloorS ≤ p.1

theorem allowed_of_not_crossed {r : Reading} (hr : r = env.handling ∨ r = env.beforeBackoff) {delay : ℚ}
    (h : crossedDeadline cfg r delay = none) : Allowed cfg env ⟨r, delay⟩ := by
  refine ⟨hr, fun p hp => ?_⟩
  rw [Option.mem_def] at hp
  rw [crossedDeadline, hp] at h
  dsimp only at h
  split at h
  · cases h
  · next hle => exact not_lt.mp hle

theorem runawaySleep_allowed : ∀ q ∈ runawaySleep cfg env s, Allowed cfg env q := by
  intro q hq
  unfold runawaySleep at hq
  split at hq
  · next hc =>
    rw [Option.mem_def, Option.some.injEq] at hq
    rw [← hq]
    refine ⟨.inl rfl, fun p hp => ?_⟩
    have htime := (Bool.and_eq_true_iff.mp hc).2
    rw [Option.mem_def] at hp
    rw [deadlineAllowsRetryAfter, hp] at htime
    exact le_of_lt (of_decide_eq_true htime)
  · cases hq

theorem retrySleep_allowed (backoff : ℚ) : ∀ q ∈ retrySleep cfg env s backoff, Allowed cfg env q := by
  intro q hq
  unfold retrySleep at hq
  split at hq
  · split at hq
    · cases hq
    · next hc =>
      rw [Option.mem_def, Option.some.injEq] at hq
      rw [← hq]
      exact allowed_of_not_crossed (.inr rfl) hc
  · cases hq

theorem emptySleep_allowed : ∀ q ∈ emptySleep cfg env s, Allowed cfg env q := by
  intro q hq
  unfold emptySleep at hq
  dsimp only at hq
  split at hq
  · cases hq
  · split at hq
    · cases hq
    · next hc =>
      rw [Option.mem_def, Option.some.injEq] at hq
      rw [← hq]
      exact allowed_of_not_crossed (.inl rfl) hc

theorem errorSleep_allowed (e : Providers.LlmError) : ∀ q ∈ errorSleep cfg env a s e, Allowed cfg env q := by
  intro q hq
  unfold errorSleep at hq
  dsimp only at hq
  split at hq
  · exact emptySleep_allowed q hq
  · split at hq
    · cases hq
    · split at hq
      · cases hq
      · split at hq
        · split at hq
          · split at hq
            · exact retrySleep_allowed _ q hq
            · cases hq
          · split at hq
            · obtain ⟨backoff, -, hsleep⟩ := Option.bind_eq_some_iff.mp hq
              exact retrySleep_allowed backoff q hsleep
            · exact retrySleep_allowed _ q hq
        · exact retrySleep_allowed _ q hq

theorem sleepAfter_allowed (result : Except Raised Response) : ∀ q ∈ sleepAfter cfg env a s result, Allowed cfg env q := by
  intro q hq
  unfold sleepAfter at hq
  split at hq
  · split at hq
    · exact runawaySleep_allowed q hq
    · cases hq
  · exact emptySleep_allowed q hq
  · cases hq
  · exact runawaySleep_allowed q hq
  · split at hq
    · cases hq
    · exact retrySleep_allowed _ q hq
  · split at hq
    · cases hq
    · exact retrySleep_allowed _ q hq
  · exact errorSleep_allowed _ q hq

theorem roundSleep_allowed : ∀ q ∈ roundSleep cfg env s, Allowed cfg env q := by
  intro q hq
  unfold roundSleep at hq
  split at hq
  · cases hq
  · exact sleepAfter_allowed _ q hq

/-! ### One clock -/

/-- A look at the clock, with a wall deadline to tell the budget left. -/
def look (wall : Option ℚ) (now : ℚ) : Reading := ⟨wall.map fun deadline => deadline - now, now⟩

/-- Surroundings whose readings are all looks at one clock. -/
def onWall (wall : Option ℚ) (env : AttemptEnv) : AttemptEnv :=
  { env with
    preGate := look wall env.preGate.now
    gate := env.gate.map fun g =>
      { g with
        beforeWait := look wall g.beforeWait.now
        refusal := look wall g.refusal.now
        postGate := look wall g.postGate.now }
    replay :=
      { env.replay with
        beforeStart := look wall env.replay.beforeStart.now
        afterStart := look wall env.replay.afterStart.now }
    handling := look wall env.handling.now
    beforeBackoff := look wall env.beforeBackoff.now }

/-- The nearer of the two deadlines. -/
def deadlineOf (cfg : CallConfig) (wall : Option ℚ) : Option ℚ :=
  match wall, cfg.logicalDeadline with
  | none, none => none
  | some deadline, none => some deadline
  | none, some deadline => some deadline
  | some deadline, some deadline' => some (min deadline deadline')

variable {wall : Option ℚ} {now : ℚ}

/-- The time left is that to the nearer deadline. -/
theorem nearestDeadline_look : (nearestDeadline cfg (look wall now)).map (·.1) =
    (deadlineOf cfg wall).map fun deadline => deadline - now := by
  unfold nearestDeadline deadlineOf look
  cases wall with
  | none =>
    cases cfg.logicalDeadline with
    | none => rfl
    | some deadline => rfl
  | some deadline =>
    cases cfg.logicalDeadline with
    | none => rfl
    | some deadline' =>
      dsimp only [Option.map_some]
      split
      · next hlt => rw [min_eq_right (by linarith), Option.map_some]
      · next hle => rw [min_eq_left (by linarith [not_lt.mp hle]), Option.map_some]

theorem nearestDeadline_of_mem {deadline : ℚ} (h : deadline ∈ deadlineOf cfg wall) (now : ℚ) :
    ∃ reason, nearestDeadline cfg (look wall now) = some (deadline - now, reason) := by
  have hmap : (nearestDeadline cfg (look wall now)).map (·.1) = some (deadline - now) := by
    rw [nearestDeadline_look, Option.mem_def.mp h, Option.map_some]
  obtain ⟨⟨left, reason⟩, hp, hleft⟩ := Option.map_eq_some_iff.mp hmap
  dsimp only at hleft
  exact ⟨reason, hleft ▸ hp⟩

/-- The time an attempt gets is clamped to the time left, which is not under the
floor where it clamps. -/
theorem effectiveTimeout_look {time : ℚ} {reason : String}
    (h : effectiveTimeout cfg (look wall now) = .ok (time, reason)) {deadline : ℚ} (hd : deadline ∈ deadlineOf cfg wall) :
    time = min cfg.timeout (deadline - now) ∧ min cfg.timeout wallDeadlineFloorS ≤ deadline - now := by
  obtain ⟨name, hnearest⟩ := nearestDeadline_of_mem hd now
  rw [effectiveTimeout, hnearest] at h
  dsimp only at h
  split at h
  · next hlt =>
    split at h
    · cases h
    · next hfloor =>
      cases h
      exact ⟨(min_eq_right (le_of_lt hlt)).symm, (min_le_right _ _).trans (not_lt.mp hfloor)⟩
  · next hle =>
    cases h
    exact ⟨(min_eq_left (not_lt.mp hle)).symm, (min_le_left _ _).trans (not_lt.mp hle)⟩

/-! ### Requests and waits of a round -/

/-- A request gets the time that the last look at the deadlines leaves, or is a
replay, which is made at that look and gets no more. -/
structure Checked (cfg : CallConfig) (env : AttemptEnv) (q : Request) : Prop where
  reading : q.checked = lastCheck env ∨ q.checked = env.replay.afterStart
  time : ∃ time reason, effectiveTimeout cfg q.checked = .ok (time, reason) ∧
    (q.timeout = time ∨ q.startedAt = q.checked.now ∧ q.timeout ≤ time)

theorem admission_checked {time : ℚ} {reason : String} (h : effectiveTimeout cfg env.preGate = .ok (time, reason))
    {label : AttemptLabel} {a' : Attempt} (ha : admission cfg env ⟨label, time, reason⟩ = .ok a') :
    ∃ reason', effectiveTimeout cfg (lastCheck env) = .ok (a'.effectiveTimeout, reason') := by
  unfold admission at ha
  split at ha
  · next hgate =>
    rw [lastCheck, hgate]
    cases ha
    exact ⟨reason, h⟩
  · next g hgate =>
    rw [lastCheck, hgate]
    split at ha
    · cases ha
    · split at ha
      · split at ha
        · cases ha
        · next time' reason' he =>
          cases ha
          exact ⟨reason', he⟩
      · split at ha <;> cases ha

theorem replayRequest_checked : ∀ q ∈ replayRequest cfg env a, Checked cfg env q := by
  intro q hq
  unfold replayRequest at hq
  dsimp only at hq
  split at hq
  · cases hq
  · split at hq
    · cases hq
    · next time hbudget =>
      rw [Option.mem_def, Option.some.injEq] at hq
      rw [← hq]
      unfold replayBudget at hbudget
      split at hbudget
      · cases hbudget
      · next time' reason he =>
        dsimp only at hbudget
        split at hbudget
        · cases hbudget
        · cases hbudget
          exact ⟨.inr rfl, time', reason, he, .inr ⟨rfl, min_le_left _ _⟩⟩

theorem roundRequests_checked : ∀ q ∈ roundRequests cfg env s, Checked cfg env q := by
  intro q hq
  unfold roundRequests at hq
  split at hq
  · cases hq
  · next time reason he =>
    unfold requestsOf at hq
    split at hq
    · cases hq
    · next a' ha =>
      obtain ⟨reason', hlast⟩ := admission_checked he ha
      rcases List.mem_cons.mp hq with rfl | hq
      · exact ⟨.inl rfl, _, reason', hlast, .inl rfl⟩
      · split at hq
        · cases hq
        · split at hq
          · exact replayRequest_checked q (Option.mem_toList.mp hq)
          · cases hq

theorem lastCheck_onWall : lastCheck (onWall wall env) = look wall (lastCheck (onWall wall env)).now := by
  unfold lastCheck onWall
  dsimp only
  cases env.gate with
  | none => rfl
  | some g => rfl

theorem checked_onWall {q : Request} (h : Checked cfg (onWall wall env) q) : q.checked = look wall q.checked.now := by
  rcases h.reading with hq | hq
  · rw [hq]
    exact lastCheck_onWall
  · rw [hq]
    rfl

theorem allowed_onWall {q : Sleep} (h : Allowed cfg (onWall wall env) q) : q.checked = look wall q.checked.now := by
  rcases h.reading with hq | hq
  · rw [hq]
    rfl
  · rw [hq]
    rfl

/-! ### Keeping to the deadline -/

/-- A request is made with the time for an attempt left, and gets no more time
than is left. -/
structure RequestWithin (cfg : CallConfig) (wall : Option ℚ) (q : Request) : Prop where
  floor : ∀ deadline ∈ deadlineOf cfg wall, min cfg.timeout wallDeadlineFloorS ≤ deadline - q.startedAt
  timeout : ∀ deadline ∈ deadlineOf cfg wall, q.timeout ≤ deadline - q.startedAt

/-- A request is made when the time left is looked at, or early enough for all the
time an attempt may take. -/
def MadeInTime (cfg : CallConfig) (wall : Option ℚ) (q : Request) : Prop :=
  ∀ deadline ∈ deadlineOf cfg wall, q.startedAt ≤ q.checked.now ∨ q.startedAt + cfg.timeout ≤ deadline

/-- How long the observer of a report is waited for at most. -/
def observationTimeoutS : ℚ := 5

/-- The time a report takes. -/
abbrev Report := { time : ℚ // 0 ≤ time ∧ time ≤ observationTimeoutS }

/-- A wait that begins once the end of the attempt is reported is over by the
deadline. -/
def SleepWithin (cfg : CallConfig) (wall : Option ℚ) (report : Report) (q : Sleep) : Prop :=
  ∀ deadline ∈ deadlineOf cfg wall, q.checked.now + report + q.delay ≤ deadline

theorem requestWithin_iff {q : Request} (h : Checked cfg (onWall wall env) q) :
    RequestWithin cfg wall q ↔ MadeInTime cfg wall q := by
  obtain ⟨time, reason, he, htime⟩ := h.time
  rw [checked_onWall h] at he
  constructor
  · intro hwithin deadline hd
    obtain ⟨hmin, -⟩ := effectiveTimeout_look he hd
    have hle := hwithin.timeout deadline hd
    rcases htime with hq | ⟨hat, -⟩
    · rw [hq, hmin] at hle
      rcases min_le_iff.mp hle with hall | hclamped
      · exact .inr (by linarith)
      · exact .inl (by linarith)
    · exact .inl (le_of_eq hat)
  · intro hmade
    have hle : q.timeout ≤ time := by
      rcases htime with hq | ⟨-, hq⟩
      · exact le_of_eq hq
      · exact hq
    refine ⟨fun deadline hd => ?_, fun deadline hd => ?_⟩
    · obtain ⟨-, hfloor⟩ := effectiveTimeout_look he hd
      rcases hmade deadline hd with hat | hall
      · linarith
      · have := min_le_left cfg.timeout wallDeadlineFloorS
        linarith
    · obtain ⟨hmin, -⟩ := effectiveTimeout_look he hd
      rw [hmin] at hle
      rcases hmade deadline hd with hat | hall
      · have := min_le_right cfg.timeout (deadline - q.checked.now)
        linarith
      · have := min_le_left cfg.timeout (deadline - q.checked.now)
        linarith

/-- The floor that a wait leaves is more than its report takes. -/
theorem sleepWithin {q : Sleep} (h : Allowed cfg (onWall wall env) q) (report : Report) :
    SleepWithin cfg wall report q := by
  intro deadline hd
  obtain ⟨reason, hnearest⟩ := nearestDeadline_of_mem hd q.checked.now
  have hroom := h.time (deadline - q.checked.now, reason) (by rw [allowed_onWall h]; exact hnearest)
  have hreport := report.property.2
  unfold wallDeadlineFloorS at hroom
  unfold observationTimeoutS at hreport
  dsimp only at hroom
  linarith

/-- What a call owes to its deadline, in every round: its requests are made with
the time for them left, and its wait is over in time. -/
def HonoursDeadline (cfg : CallConfig) (wall : Option ℚ) (envs : ℕ → AttemptEnv) (reports : ℕ → Report)
    (maxTokens : Option ℤ) : Prop :=
  ∀ n, let c := callLlm cfg (fun n => onWall wall (envs n)) maxTokens n
    c.ended = none → (c.state.attempt : ℤ) < cfg.maxRetries →
      (∀ q ∈ roundRequests cfg (onWall wall (envs c.round)) c.state, RequestWithin cfg wall q) ∧
      ∀ q ∈ roundSleep cfg (onWall wall (envs c.round)) c.state, SleepWithin cfg wall (reports c.round) q

/-- **A call keeps to its deadline exactly as far as its requests are made in
time.** Whatever the clocks show and the providers do, no wait of it ends past
the nearer deadline; and every request is made with the time for an attempt left
and gets no more time than is left, if and only if each is made at the last look
at the deadlines before it, or early enough for the whole timeout. -/
theorem honours_deadline_iff (cfg : CallConfig) (wall : Option ℚ) (envs : ℕ → AttemptEnv) (reports : ℕ → Report)
    (maxTokens : Option ℤ) :
    HonoursDeadline cfg wall envs reports maxTokens ↔
      ∀ n, let c := callLlm cfg (fun n => onWall wall (envs n)) maxTokens n
        c.ended = none → (c.state.attempt : ℤ) < cfg.maxRetries →
          ∀ q ∈ roundRequests cfg (onWall wall (envs c.round)) c.state, MadeInTime cfg wall q := by
  constructor
  · intro h n c hend hlt q hq
    exact (requestWithin_iff (roundRequests_checked q hq)).mp ((h n hend hlt).1 q hq)
  · intro h n c hend hlt
    refine ⟨fun q hq => ?_, fun q hq => sleepWithin (roundSleep_allowed q hq) _⟩
    exact (requestWithin_iff (roundRequests_checked q hq)).mpr (h n hend hlt q hq)

/-- A call whose attempts may take 120 seconds. -/
def longCall : CallConfig := { streamingCall with timeout := 120, stream := false }

/-- An attempt whose start takes 5 seconds to report. -/
def slowReport : AttemptEnv := { generationStarted := 5, outcome := .ok {} }

/-- With 100 seconds to the wall deadline the attempt gets all of them, and makes
its request with 95 left. -/
theorem slow_report_outlives_deadline :
    ¬HonoursDeadline longCall (some 100) (fun _ => slowReport) (fun _ => ⟨5, by decide +kernel⟩) none := by
  intro h
  have hrequest : roundRequests longCall (onWall (some 100) slowReport) {} = [⟨look (some 100) 0, 5, 100⟩] := by
    have htime : effectiveTimeout longCall (look (some 100) 0) = .ok (100, "wall_deadline") := by
      norm_num [effectiveTimeout, nearestDeadline, look, longCall, streamingCall, wallDeadlineFloorS]
    rw [roundRequests, show (onWall (some 100) slowReport).preGate = look (some 100) 0 from rfl, htime]
    rfl
  have hwithin := (h 0 rfl (by decide)).1 ⟨look (some 100) 0, 5, 100⟩ (List.mem_of_mem_head? (congrArg List.head? hrequest))
  have hle : (100 : ℚ) ≤ 100 - 5 := hwithin.timeout 100 rfl
  exact absurd hle (by norm_num)

end Loop
end AgentCore
