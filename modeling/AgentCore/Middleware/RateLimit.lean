/-
# The token bucket of the rate limiter

`TokenBucket` of `rate_limit.py` under any schedule of its callers. A caller's turn, from
taking the lock to leaving it, is one step: nothing in it waits, so the lock is never
contended. A turn either reserves or leaves the caller asleep until its computed wait is
over; `adjust` comes at any time and does not refill.

With the time since the last refill counted in, each of the two levels is a meter
(`step_requests`, `step_tokens`), which bounds what a window of time sees reserved. An
acquire that is left alone finds at its second turn what it waited for
(`alone_granted`).

Numbers are exact, and the clock never goes back. A sleep lasts at least its delay. A
sleeping caller may be cancelled. The log is a ghost.

Key definitions: `Rates`, `Limiter`, `attempt`, `step`, `Enforced`, `LeftAlone`.
Key theorem: `bucket_enforces`.
-/
import AgentCore.Lib.Meter
import AgentCore.Lib.Runs
import Mathlib.Algebra.Order.Ring.Rat
import Mathlib.Data.List.Induction
import Mathlib.Tactic.FieldSimp

namespace AgentCore.Middleware.RateLimit

/-- The rates of a `TokenBucket`. -/
structure Rates where
  requestsPerMin : ℤ
  tokensPerMin : ℤ
  requests_pos : 0 < requestsPerMin
  tokens_pos : 0 < tokensPerMin

/-- The checks of the constructor. -/
def Rates.init (requestsPerMin tokensPerMin : ℤ) : Except String Rates :=
  if h₁ : requestsPerMin ≤ 0 then .error "requests_per_min must be positive"
  else if h₂ : tokensPerMin ≤ 0 then .error "tokens_per_min must be positive"
  else .ok ⟨requestsPerMin, tokensPerMin, not_le.mp h₁, not_le.mp h₂⟩

/-- The constructor admits every choice of positive rates. -/
theorem Rates.init_admits (rates : Rates) : Rates.init rates.requestsPerMin rates.tokensPerMin = .ok rates := by
  unfold Rates.init
  rw [dif_neg (not_le.mpr rates.requests_pos), dif_neg (not_le.mpr rates.tokens_pos)]

structure Bucket where
  requestTokens : ℚ
  tokenTokens : ℚ
  lastRefill : ℚ
  deriving DecidableEq

/-- A caller asleep in `acquire`. -/
structure Waiter where
  requested : ℕ
  wakesAt : ℚ
  totalWait : ℚ
  deriving DecidableEq

inductive Record
  | granted (tokens : ℕ) (waited : ℚ)
  /-- By how much `adjust` has changed the level. -/
  | adjusted (change : ℚ)
  deriving DecidableEq

structure Limiter where
  clock : ℚ
  bucket : Bucket
  waiters : List Waiter := []
  log : List (ℚ × Record) := []
  deriving DecidableEq

inductive Event
  | tick (seconds : ℚ)
  | acquire (estimated : ℤ)
  | wake (w : Waiter)
  | cancel (w : Waiter)
  | adjust (actual estimated : ℤ)

section Source

variable (rates : Rates)

def start (now : ℚ) : Limiter :=
  { clock := now, bucket := ⟨rates.requestsPerMin, rates.tokensPerMin, now⟩ }

/-- A level after some more seconds. -/
def refilled (capacity level seconds : ℚ) : ℚ := min capacity (level + seconds / 60 * capacity)

def refill (now : ℚ) (b : Bucket) : Bucket where
  requestTokens := refilled rates.requestsPerMin b.requestTokens (now - b.lastRefill)
  tokenTokens := refilled rates.tokensPerMin b.tokenTokens (now - b.lastRefill)
  lastRefill := now

def reservationSize (estimated : ℤ) : ℕ := (min (max estimated 0) rates.tokensPerMin).toNat

def reqWait (b : Bucket) : ℚ :=
  if b.requestTokens < 1 then (1 - b.requestTokens) / rates.requestsPerMin * 60 else 0

def tokWait (requested : ℕ) (b : Bucket) : ℚ :=
  if 0 < requested ∧ b.tokenTokens < requested then (requested - b.tokenTokens) / rates.tokensPerMin * 60 else 0

def waitTime (requested : ℕ) (b : Bucket) : ℚ := max (reqWait rates b) (tokWait rates requested b)

def reserve (requested : ℕ) (b : Bucket) : Bucket :=
  { b with
    requestTokens := b.requestTokens - 1
    tokenTokens := if 0 < requested then b.tokenTokens - requested else b.tokenTokens }

/-- A turn of `acquire`, for a caller that has waited `totalWait` so far. -/
def attempt (s : Limiter) (requested : ℕ) (totalWait : ℚ) : Limiter :=
  let bucket := refill rates s.clock s.bucket
  let wait := waitTime rates requested bucket
  if wait ≤ 0 then
    { s with bucket := reserve requested bucket, log := s.log ++ [(s.clock, .granted requested totalWait)] }
  else { s with bucket := bucket, waiters := s.waiters ++ [⟨requested, s.clock + wait, totalWait + wait⟩] }

def adjustedLevel (actual estimated : ℤ) (level : ℚ) : ℚ :=
  let diff := estimated - actual
  if diff ≠ 0 then min (rates.tokensPerMin : ℚ) (level + diff) else level

def adjust (s : Limiter) (actual estimated : ℤ) : Limiter :=
  let level := adjustedLevel rates actual estimated s.bucket.tokenTokens
  { s with
    bucket := { s.bucket with tokenTokens := level }
    log := s.log ++ [(s.clock, .adjusted (level - s.bucket.tokenTokens))] }

def step (s : Limiter) : Event → Option Limiter
  | .tick seconds => if 0 ≤ seconds then some { s with clock := s.clock + seconds } else none
  | .acquire estimated => some (attempt rates s (reservationSize rates estimated) 0)
  | .wake w =>
    if w ∈ s.waiters ∧ w.wakesAt ≤ s.clock then
      some (attempt rates { s with waiters := s.waiters.erase w } w.requested w.totalWait)
    else none
  | .cancel w => some { s with waiters := s.waiters.erase w }
  | .adjust actual estimated => some (adjust rates s actual estimated)

abbrev runFrom (now : ℚ) (es : List Event) : Option Limiter := Runs.run (step rates) (start rates now) es

/-! ### What is claimed -/

/-- The requests a record counts for. -/
def Record.requests : Record → ℚ
  | .granted _ _ => 1
  | .adjusted _ => 0

def Record.tokens : Record → ℚ
  | .granted tokens _ => tokens
  | .adjusted _ => 0

/-- What `adjust` has given back. -/
def Record.back : Record → ℚ
  | .granted _ _ => 0
  | .adjusted change => max change 0

/-- The sum over the records made from `a` to `b`. -/
def sumIn (f : Record → ℚ) (a b : ℚ) (log : List (ℚ × Record)) : ℚ :=
  ((log.filter fun r => a ≤ r.1 ∧ r.1 ≤ b).map fun r => f r.2).sum

/-- **The rates are enforced.** -/
structure Enforced (s : Limiter) : Prop where
  requests_le : s.bucket.requestTokens ≤ rates.requestsPerMin
  tokens_le : s.bucket.tokenTokens ≤ rates.tokensPerMin
  requests_nonneg : 0 ≤ s.bucket.requestTokens
  granted_le : ∀ a T, 0 ≤ T →
    sumIn Record.requests a (a + T) s.log ≤ rates.requestsPerMin * (1 + T / 60)
  reserved_le : ∀ a T, 0 ≤ T → sumIn Record.tokens a (a + T) s.log ≤
    rates.tokensPerMin * (1 + T / 60) + sumIn Record.back a (a + T) s.log

/-- From `s` to `s'` others have reserved nothing and taken nothing. -/
def LeftAlone (s s' : Limiter) : Prop :=
  ∃ later, s'.log = s.log ++ later ∧ ∀ r ∈ later, ∃ change, r.2 = .adjusted change ∧ 0 ≤ change

/-- An acquire in `s` is granted, or it sleeps and is granted at its next turn if it is
left alone till then. -/
def Prompt (s : Limiter) (estimated : ℤ) : Prop :=
  ∃ s₁, step rates s (.acquire estimated) = some s₁ ∧
    (s₁.log = s.log ++ [(s.clock, .granted (reservationSize rates estimated) 0)] ∨
      ∃ w, s₁.waiters = s.waiters ++ [w] ∧ w.wakesAt = s.clock + w.totalWait ∧
        ∀ es s₂, Runs.run (step rates) s₁ es = some s₂ → LeftAlone s₁ s₂ → w ∈ s₂.waiters → w.wakesAt ≤ s₂.clock →
          ∃ s₃, step rates s₂ (.wake w) = some s₃ ∧
            s₃.log = s₂.log ++ [(s₂.clock, .granted (reservationSize rates estimated) w.totalWait)])

end Source

/-! ### Levels -/

section Levels

variable {capacity level seconds : ℚ}

theorem refilled_le : refilled capacity level seconds ≤ capacity := min_le_left _ _

theorem refilled_zero (h : level ≤ capacity) : refilled capacity level 0 = level := by
  unfold refilled
  rw [zero_div, zero_mul, add_zero]
  exact min_eq_right h

theorem refilled_mono {level' : ℚ} (h : level ≤ level') :
    refilled capacity level seconds ≤ refilled capacity level' seconds :=
  min_le_min_left _ (add_le_add_left h _)

/-- Two refills are one. -/
theorem refilled_later (hcapacity : 0 ≤ capacity) {d : ℚ} (hd : 0 ≤ d) :
    refilled capacity level (seconds + d) = refilled capacity (refilled capacity level seconds) d := by
  have hinflow : 0 ≤ d / 60 * capacity := mul_nonneg (div_nonneg hd (by norm_num)) hcapacity
  have hsum : level + (seconds + d) / 60 * capacity = level + seconds / 60 * capacity + d / 60 * capacity := by
    ring
  unfold refilled
  rw [hsum]
  by_cases h : capacity ≤ level + seconds / 60 * capacity
  · rw [min_eq_left h, min_eq_left (h.trans (le_add_of_nonneg_right hinflow)),
      min_eq_left (le_add_of_nonneg_right hinflow)]
  · rw [min_eq_right (not_le.mp h).le]

theorem refilled_rise : refilled capacity level seconds ≤ level + capacity / 60 * seconds := by
  have hcomm : seconds / 60 * capacity = capacity / 60 * seconds := by ring
  unfold refilled
  rw [hcomm]
  exact min_le_right _ _

/-- What is given to a level shows in full at most. -/
theorem refilled_given (level' : ℚ) :
    refilled capacity level' seconds ≤ refilled capacity level seconds + max (level' - level) 0 := by
  have hback : 0 ≤ max (level' - level) 0 := le_max_right _ _
  have hdiff : level' - level ≤ max (level' - level) 0 := le_max_left _ _
  have hfull : refilled capacity level' seconds ≤ capacity := min_le_left _ _
  have hopen : refilled capacity level' seconds ≤ level' + seconds / 60 * capacity := min_le_right _ _
  have hmin : refilled capacity level seconds =
      min capacity (level + seconds / 60 * capacity) := rfl
  rcases min_choice capacity (level + seconds / 60 * capacity) with h | h
  · rw [hmin, h]
    linarith
  · rw [hmin, h]
    linarith

/-- After the time that a deficit takes to fill, it is filled. -/
theorem refilled_reaches (hcapacity : 0 < capacity) {need : ℚ} (hneed : need ≤ capacity) (hseconds : 0 ≤ seconds)
    (hwait : level < need → (need - level) / capacity * 60 ≤ seconds) : need ≤ refilled capacity level seconds := by
  refine le_min hneed ?_
  by_cases h : level < need
  · have hfill : (need - level) / capacity * 60 / 60 * capacity ≤ seconds / 60 * capacity :=
      mul_le_mul_of_nonneg_right (div_le_div_of_nonneg_right (hwait h) (by norm_num)) hcapacity.le
    have hdeficit : (need - level) / capacity * 60 / 60 * capacity = need - level := by
      field_simp
    linarith
  · have hinflow : 0 ≤ seconds / 60 * capacity := mul_nonneg (div_nonneg hseconds (by norm_num)) hcapacity.le
    linarith

end Levels

section Waits

variable {rates : Rates} {requested : ℕ} {b : Bucket}

theorem requests_pos : (0 : ℚ) < rates.requestsPerMin := by exact_mod_cast rates.requests_pos

theorem tokens_pos : (0 : ℚ) < rates.tokensPerMin := by exact_mod_cast rates.tokens_pos

theorem reservationSize_le (estimated : ℤ) : (reservationSize rates estimated : ℚ) ≤ rates.tokensPerMin := by
  have hnat : (reservationSize rates estimated : ℤ) ≤ rates.tokensPerMin := by
    have hpos := rates.tokens_pos
    unfold reservationSize
    omega
  exact_mod_cast hnat

theorem reqWait_pos_iff : 0 < reqWait rates b ↔ b.requestTokens < 1 := by
  unfold reqWait
  by_cases h : b.requestTokens < 1
  · rw [if_pos h]
    exact iff_of_true (mul_pos (div_pos (sub_pos.mpr h) requests_pos) (by norm_num)) h
  · rw [if_neg h]
    exact iff_of_false (lt_irrefl 0) h

theorem tokWait_pos_iff : 0 < tokWait rates requested b ↔ 0 < requested ∧ b.tokenTokens < requested := by
  unfold tokWait
  by_cases h : 0 < requested ∧ b.tokenTokens < requested
  · rw [if_pos h]
    exact iff_of_true (mul_pos (div_pos (sub_pos.mpr h.2) tokens_pos) (by norm_num)) h
  · rw [if_neg h]
    exact iff_of_false (lt_irrefl 0) h

/-- A turn reserves iff both levels cover what it reserves. -/
theorem waitTime_nonpos_iff :
    waitTime rates requested b ≤ 0 ↔ 1 ≤ b.requestTokens ∧ (0 < requested → (requested : ℚ) ≤ b.tokenTokens) := by
  have hreq : reqWait rates b ≤ 0 ↔ 1 ≤ b.requestTokens := by
    rw [← not_lt, reqWait_pos_iff, not_lt]
  have htok : tokWait rates requested b ≤ 0 ↔ (0 < requested → (requested : ℚ) ≤ b.tokenTokens) := by
    rw [← not_lt, tokWait_pos_iff]
    simp only [not_and, not_lt]
  unfold waitTime
  rw [max_le_iff, hreq, htok]

end Waits

/-! ### Steps -/

variable {rates : Rates} {s s' : Limiter}

/-- What a step does to clock, bucket and log. -/
inductive Move (rates : Rates) (s s' : Limiter) : Prop
  | tick (d : ℚ) (hd : 0 ≤ d) (hclock : s'.clock = s.clock + d) (hbucket : s'.bucket = s.bucket) (hlog : s'.log = s.log)
  | grant (requested : ℕ) (waited : ℚ) (hcover : waitTime rates requested (refill rates s.clock s.bucket) ≤ 0)
      (hclock : s'.clock = s.clock) (hbucket : s'.bucket = reserve requested (refill rates s.clock s.bucket))
      (hlog : s'.log = s.log ++ [(s.clock, .granted requested waited)])
  | refuse (hclock : s'.clock = s.clock) (hbucket : s'.bucket = refill rates s.clock s.bucket) (hlog : s'.log = s.log)
  | leave (hclock : s'.clock = s.clock) (hbucket : s'.bucket = s.bucket) (hlog : s'.log = s.log)
  | adjust (level : ℚ) (hle : s.bucket.tokenTokens ≤ rates.tokensPerMin → level ≤ rates.tokensPerMin)
      (hclock : s'.clock = s.clock) (hbucket : s'.bucket = { s.bucket with tokenTokens := level })
      (hlog : s'.log = s.log ++ [(s.clock, .adjusted (level - s.bucket.tokenTokens))])

theorem attempt_move (waiters : List Waiter) (requested : ℕ) (totalWait : ℚ) :
    Move rates s (attempt rates { s with waiters := waiters } requested totalWait) := by
  by_cases h : waitTime rates requested (refill rates s.clock s.bucket) ≤ 0
  · refine .grant requested totalWait h ?_ ?_ ?_ <;> simp only [attempt, if_pos h]
  · refine .refuse ?_ ?_ ?_ <;> simp only [attempt, if_neg h]

theorem adjustedLevel_le (actual estimated : ℤ) {level : ℚ} (h : level ≤ rates.tokensPerMin) :
    adjustedLevel rates actual estimated level ≤ rates.tokensPerMin := by
  unfold adjustedLevel
  dsimp only
  split
  · exact min_le_left _ _
  · exact h

/-- `adjust` gives back no more than the estimate was too high. -/
theorem adjustedLevel_back (actual estimated : ℤ) {level : ℚ} :
    adjustedLevel rates actual estimated level - level ≤ (estimated - actual : ℤ) := by
  unfold adjustedLevel
  dsimp only
  split
  · exact sub_le_iff_le_add'.mpr (min_le_right _ _)
  case isFalse h =>
    rw [not_not.mp h, sub_self]
    exact le_refl _

theorem step_move {e : Event} (h : step rates s e = some s') : Move rates s s' := by
  cases e with
  | tick seconds =>
    obtain ⟨hd, heq⟩ := Option.ite_none_right_eq_some.mp h
    obtain rfl := Option.some.inj heq
    exact .tick seconds hd rfl rfl rfl
  | acquire estimated =>
    obtain rfl := Option.some.inj h
    exact attempt_move s.waiters _ _
  | wake w =>
    obtain ⟨-, heq⟩ := Option.ite_none_right_eq_some.mp h
    obtain rfl := Option.some.inj heq
    exact attempt_move _ _ _
  | cancel w =>
    obtain rfl := Option.some.inj h
    exact .leave rfl rfl rfl
  | adjust actual estimated =>
    obtain rfl := Option.some.inj h
    exact .adjust _ (adjustedLevel_le actual estimated) rfl rfl rfl

/-- What holds of the levels in every state. -/
structure Filled (rates : Rates) (s : Limiter) : Prop where
  last_le : s.bucket.lastRefill ≤ s.clock
  requests_le : s.bucket.requestTokens ≤ rates.requestsPerMin
  tokens_le : s.bucket.tokenTokens ≤ rates.tokensPerMin
  requests_nonneg : 0 ≤ s.bucket.requestTokens

theorem refilled_nonneg {capacity level seconds : ℚ} (hcapacity : 0 ≤ capacity) (hlevel : 0 ≤ level)
    (hseconds : 0 ≤ seconds) : 0 ≤ refilled capacity level seconds :=
  le_min hcapacity (add_nonneg hlevel (mul_nonneg (div_nonneg hseconds (by norm_num)) hcapacity))

theorem reserve_tokens_le (requested : ℕ) (b : Bucket) : (reserve requested b).tokenTokens ≤ b.tokenTokens := by
  have hnonneg : (0 : ℚ) ≤ requested := Nat.cast_nonneg _
  unfold reserve
  dsimp only
  split
  · exact sub_le_self _ hnonneg
  · exact le_refl _

theorem Filled.move (h : Filled rates s) (hmove : Move rates s s') : Filled rates s' := by
  have hseconds : 0 ≤ s.clock - s.bucket.lastRefill := sub_nonneg.mpr h.last_le
  cases hmove with
  | tick d hd hclock hbucket hlog =>
    refine ⟨?_, ?_, ?_, ?_⟩
    · rw [hbucket, hclock]
      exact h.last_le.trans (le_add_of_nonneg_right hd)
    · rw [hbucket]
      exact h.requests_le
    · rw [hbucket]
      exact h.tokens_le
    · rw [hbucket]
      exact h.requests_nonneg
  | grant requested waited hcover hclock hbucket hlog =>
    obtain ⟨hrequest, -⟩ := waitTime_nonpos_iff.mp hcover
    refine ⟨?_, ?_, ?_, ?_⟩
    · rw [hbucket, hclock]
      exact le_refl _
    · rw [hbucket]
      exact (sub_le_self _ zero_le_one).trans refilled_le
    · rw [hbucket]
      exact (reserve_tokens_le _ _).trans refilled_le
    · rw [hbucket]
      exact sub_nonneg.mpr hrequest
  | refuse hclock hbucket hlog =>
    refine ⟨?_, ?_, ?_, ?_⟩
    · rw [hbucket, hclock]
      exact le_refl _
    · rw [hbucket]
      exact refilled_le
    · rw [hbucket]
      exact refilled_le
    · rw [hbucket]
      exact refilled_nonneg requests_pos.le h.requests_nonneg hseconds
  | leave hclock hbucket hlog =>
    refine ⟨?_, ?_, ?_, ?_⟩
    · rw [hbucket, hclock]
      exact h.last_le
    · rw [hbucket]
      exact h.requests_le
    · rw [hbucket]
      exact h.tokens_le
    · rw [hbucket]
      exact h.requests_nonneg
  | adjust level hle hclock hbucket hlog =>
    refine ⟨?_, ?_, ?_, ?_⟩
    · rw [hbucket, hclock]
      exact h.last_le
    · rw [hbucket]
      exact h.requests_le
    · rw [hbucket]
      exact hle h.tokens_le
    · rw [hbucket]
      exact h.requests_nonneg

theorem start_filled (now : ℚ) : Filled rates (start rates now) where
  last_le := le_refl _
  requests_le := le_refl _
  tokens_le := le_refl _
  requests_nonneg := requests_pos.le

/-! ### The levels are meters -/

/-- The request level with the time since the last refill counted in. -/
def requestLevel (rates : Rates) (s : Limiter) : ℚ := (refill rates s.clock s.bucket).requestTokens

def tokenLevel (rates : Rates) (s : Limiter) : ℚ := (refill rates s.clock s.bucket).tokenTokens

/-- How the two levels move. -/
theorem levels_tick {d : ℚ} (hd : 0 ≤ d) (hclock : s'.clock = s.clock + d) (hbucket : s'.bucket = s.bucket) :
    requestLevel rates s' = refilled rates.requestsPerMin (requestLevel rates s) d ∧
      tokenLevel rates s' = refilled rates.tokensPerMin (tokenLevel rates s) d := by
  have hsum : s.clock + d - s.bucket.lastRefill = s.clock - s.bucket.lastRefill + d := by ring
  unfold requestLevel tokenLevel refill
  dsimp only
  rw [hbucket, hclock, hsum]
  exact ⟨refilled_later requests_pos.le hd, refilled_later tokens_pos.le hd⟩

theorem levels_refuse (hclock : s'.clock = s.clock) (hbucket : s'.bucket = refill rates s.clock s.bucket) :
    requestLevel rates s' = requestLevel rates s ∧ tokenLevel rates s' = tokenLevel rates s := by
  unfold requestLevel tokenLevel
  rw [hclock, hbucket]
  unfold refill
  dsimp only
  rw [sub_self, refilled_zero refilled_le, refilled_zero refilled_le]
  exact ⟨rfl, rfl⟩

theorem levels_grant {requested : ℕ} (hclock : s'.clock = s.clock)
    (hbucket : s'.bucket = reserve requested (refill rates s.clock s.bucket)) :
    requestLevel rates s' = requestLevel rates s - 1 ∧ tokenLevel rates s' = tokenLevel rates s - requested := by
  have hrequest : requestLevel rates s - 1 ≤ rates.requestsPerMin := (sub_le_self _ zero_le_one).trans refilled_le
  have htoken : tokenLevel rates s - requested ≤ rates.tokensPerMin :=
    (sub_le_self _ (Nat.cast_nonneg _)).trans refilled_le
  have hreserve : (reserve requested (refill rates s.clock s.bucket)).tokenTokens = tokenLevel rates s - requested := by
    unfold reserve tokenLevel
    dsimp only
    split
    · rfl
    case isFalse h =>
      rw [Nat.eq_zero_of_not_pos h, Nat.cast_zero, sub_zero]
  constructor
  · show refilled rates.requestsPerMin s'.bucket.requestTokens (s'.clock - s'.bucket.lastRefill) = _
    rw [hclock, hbucket]
    show refilled rates.requestsPerMin (requestLevel rates s - 1) (s.clock - s.clock) = _
    rw [sub_self, refilled_zero hrequest]
  · show refilled rates.tokensPerMin s'.bucket.tokenTokens (s'.clock - s'.bucket.lastRefill) = _
    rw [hclock, hbucket, hreserve]
    show refilled rates.tokensPerMin (tokenLevel rates s - requested) (s.clock - s.clock) = _
    rw [sub_self, refilled_zero htoken]

theorem levels_adjust {level : ℚ} (hclock : s'.clock = s.clock)
    (hbucket : s'.bucket = { s.bucket with tokenTokens := level }) :
    requestLevel rates s' = requestLevel rates s ∧
      tokenLevel rates s' = refilled rates.tokensPerMin level (s.clock - s.bucket.lastRefill) := by
  unfold requestLevel tokenLevel
  rw [hclock, hbucket]
  exact ⟨rfl, rfl⟩

/-- A level with the log as entries of its meter. -/
def meter (level : ℚ) (taken given : Record → ℚ) (s : Limiter) : Meters.Meter ℚ :=
  ⟨level, s.clock, s.log.map fun r => ⟨r.1, taken r.2, given r.2⟩⟩

theorem meter_flow {capacity rate level level' : ℚ} {taken given : Record → ℚ} (hclock : s.clock ≤ s'.clock)
    (hlog : s'.log = s.log) (hcap : level' ≤ capacity) (hrise : level' ≤ level + rate * (s'.clock - s.clock)) :
    Meters.Step capacity rate (meter level taken given s) (meter level' taken given s') := by
  have heq : meter level' taken given s' = { meter level taken given s with level := level', clock := s'.clock } := by
    unfold meter
    rw [hlog]
  rw [heq]
  exact .flow hclock hcap hrise

theorem meter_enter {capacity rate level level' : ℚ} {taken given : Record → ℚ} {r : Record}
    (hclock : s'.clock = s.clock) (hlog : s'.log = s.log ++ [(s.clock, r)]) (hcap : level' ≤ capacity)
    (hbalance : level' + taken r ≤ level + given r) (hcover : taken r = 0 ∨ 0 ≤ level') (hgiven : 0 ≤ given r) :
    Meters.Step capacity rate (meter level taken given s) (meter level' taken given s') := by
  have heq : meter level' taken given s' = { meter level taken given s with
      level := level', entries := (meter level taken given s).entries ++ [⟨s.clock, taken r, given r⟩] } := by
    unfold meter
    rw [hlog, hclock, List.map_append]
    rfl
  rw [heq]
  exact .enter hcap hbalance hcover hgiven

abbrev requestMeter (rates : Rates) (s : Limiter) : Meters.Meter ℚ :=
  meter (requestLevel rates s) Record.requests (fun _ => 0) s

abbrev tokenMeter (rates : Rates) (s : Limiter) : Meters.Meter ℚ :=
  meter (tokenLevel rates s) Record.tokens Record.back s

/-- **The request level is a meter.** -/
theorem step_requests (hmove : Move rates s s') :
    Meters.Step (rates.requestsPerMin : ℚ) (rates.requestsPerMin / 60) (requestMeter rates s) (requestMeter rates s') := by
  have hcap : requestLevel rates s' ≤ rates.requestsPerMin := refilled_le
  cases hmove with
  | tick d hd hclock hbucket hlog =>
    refine meter_flow (hclock ▸ le_add_of_nonneg_right hd) hlog hcap ?_
    rw [(levels_tick hd hclock hbucket).1, hclock, add_sub_cancel_left]
    exact refilled_rise
  | grant requested waited hcover hclock hbucket hlog =>
    have hlevel : requestLevel rates s' = requestLevel rates s - 1 := (levels_grant hclock hbucket).1
    have hone : 1 ≤ requestLevel rates s := (waitTime_nonpos_iff.mp hcover).1
    refine meter_enter hclock hlog hcap ?_ (.inr ?_) (le_refl _)
    · show requestLevel rates s' + 1 ≤ requestLevel rates s + 0
      linarith
    · linarith
  | refuse hclock hbucket hlog =>
    refine meter_flow hclock.ge hlog hcap ?_
    rw [(levels_refuse hclock hbucket).1, hclock, sub_self, mul_zero, add_zero]
  | leave hclock hbucket hlog =>
    refine meter_flow hclock.ge hlog hcap ?_
    rw [requestLevel, hclock, hbucket, sub_self, mul_zero, add_zero]
    exact le_refl _
  | adjust level hle hclock hbucket hlog =>
    refine meter_enter hclock hlog hcap ?_ (.inl rfl) (le_refl _)
    rw [(levels_adjust hclock hbucket).1]
    exact le_refl _

/-- **The token level is a meter.** -/
theorem step_tokens (hmove : Move rates s s') :
    Meters.Step (rates.tokensPerMin : ℚ) (rates.tokensPerMin / 60) (tokenMeter rates s) (tokenMeter rates s') := by
  have hcap : tokenLevel rates s' ≤ rates.tokensPerMin := refilled_le
  cases hmove with
  | tick d hd hclock hbucket hlog =>
    refine meter_flow (hclock ▸ le_add_of_nonneg_right hd) hlog hcap ?_
    rw [(levels_tick hd hclock hbucket).2, hclock, add_sub_cancel_left]
    exact refilled_rise
  | grant requested waited hcover hclock hbucket hlog =>
    have hlevel : tokenLevel rates s' = tokenLevel rates s - requested := (levels_grant hclock hbucket).2
    refine meter_enter hclock hlog hcap ?_ ?_ (le_refl _)
    · show tokenLevel rates s' + requested ≤ tokenLevel rates s + 0
      linarith
    · by_cases hzero : requested = 0
      · left
        rw [hzero]
        exact Nat.cast_zero
      · right
        have hle : (requested : ℚ) ≤ tokenLevel rates s :=
          (waitTime_nonpos_iff.mp hcover).2 (Nat.pos_of_ne_zero hzero)
        linarith
  | refuse hclock hbucket hlog =>
    refine meter_flow hclock.ge hlog hcap ?_
    rw [(levels_refuse hclock hbucket).2, hclock, sub_self, mul_zero, add_zero]
  | leave hclock hbucket hlog =>
    refine meter_flow hclock.ge hlog hcap ?_
    rw [tokenLevel, hclock, hbucket, sub_self, mul_zero, add_zero]
    exact le_refl _
  | adjust level hle hclock hbucket hlog =>
    refine meter_enter hclock hlog hcap ?_ (.inl rfl) (le_max_right _ _)
    rw [(levels_adjust hclock hbucket).2]
    show _ + (0 : ℚ) ≤ _
    rw [add_zero]
    exact refilled_given level

/-! ### Left alone -/

theorem move_log (hmove : Move rates s s') : ∃ later, s'.log = s.log ++ later := by
  cases hmove with
  | tick d hd hclock hbucket hlog => exact ⟨[], by rw [hlog, List.append_nil]⟩
  | grant requested waited hcover hclock hbucket hlog => exact ⟨_, hlog⟩
  | refuse hclock hbucket hlog => exact ⟨[], by rw [hlog, List.append_nil]⟩
  | leave hclock hbucket hlog => exact ⟨[], by rw [hlog, List.append_nil]⟩
  | adjust level hle hclock hbucket hlog => exact ⟨_, hlog⟩

theorem run_log : ∀ {es : List Event} {s s' : Limiter}, Runs.run (step rates) s es = some s' →
    ∃ later, s'.log = s.log ++ later
  | [], s, s', h => ⟨[], by rw [Option.some.inj h, List.append_nil]⟩
  | e :: es, s, s', h => by
    obtain ⟨s₁, hstep, hrun⟩ := Option.bind_eq_some_iff.mp h
    obtain ⟨first, hfirst⟩ := move_log (step_move hstep)
    obtain ⟨later, hlater⟩ := run_log hrun
    exact ⟨first ++ later, by rw [hlater, hfirst, List.append_assoc]⟩

/-- Both levels have risen from `s` to `s'` as with nobody about. -/
def Risen (rates : Rates) (s s' : Limiter) : Prop :=
  s.clock ≤ s'.clock ∧
    refilled rates.requestsPerMin (requestLevel rates s) (s'.clock - s.clock) ≤ requestLevel rates s' ∧
    refilled rates.tokensPerMin (tokenLevel rates s) (s'.clock - s.clock) ≤ tokenLevel rates s'

theorem Risen.of_le (hclock : s'.clock = s.clock) (hrequest : requestLevel rates s ≤ requestLevel rates s')
    (htoken : tokenLevel rates s ≤ tokenLevel rates s') : Risen rates s s' := by
  refine ⟨hclock.ge, ?_, ?_⟩
  · rw [hclock, sub_self]
    exact (refilled_zero refilled_le).le.trans hrequest
  · rw [hclock, sub_self]
    exact (refilled_zero refilled_le).le.trans htoken

theorem Risen.trans {s'' : Limiter} (h : Risen rates s s') (h' : Risen rates s' s'') : Risen rates s s'' := by
  obtain ⟨hclock, hrequest, htoken⟩ := h
  obtain ⟨hclock', hrequest', htoken'⟩ := h'
  have hsum : s''.clock - s.clock = s'.clock - s.clock + (s''.clock - s'.clock) := by ring
  have hlater : 0 ≤ s''.clock - s'.clock := sub_nonneg.mpr hclock'
  refine ⟨hclock.trans hclock', ?_, ?_⟩
  · rw [hsum, refilled_later requests_pos.le hlater]
    exact (refilled_mono hrequest).trans hrequest'
  · rw [hsum, refilled_later tokens_pos.le hlater]
    exact (refilled_mono htoken).trans htoken'

theorem alone_rises (hmove : Move rates s s') (halone : LeftAlone s s') : Risen rates s s' := by
  obtain ⟨later, hlater, hback⟩ := halone
  cases hmove with
  | tick d hd hclock hbucket hlog =>
    have hrequest : requestLevel rates s' = refilled rates.requestsPerMin (requestLevel rates s) d :=
      (levels_tick hd hclock hbucket).1
    have htoken : tokenLevel rates s' = refilled rates.tokensPerMin (tokenLevel rates s) d :=
      (levels_tick hd hclock hbucket).2
    refine ⟨hclock ▸ le_add_of_nonneg_right hd, ?_, ?_⟩
    · rw [hrequest, hclock, add_sub_cancel_left]
    · rw [htoken, hclock, add_sub_cancel_left]
  | grant requested waited hcover hclock hbucket hlog =>
    have hrecord : later = [(s.clock, .granted requested waited)] :=
      List.append_cancel_left (hlater.symm.trans hlog)
    obtain ⟨change, hchange, -⟩ := hback _ (hrecord ▸ List.mem_cons_self)
    cases hchange
  | refuse hclock hbucket hlog =>
    obtain ⟨hrequest, htoken⟩ := levels_refuse hclock hbucket
    exact .of_le hclock hrequest.ge htoken.ge
  | leave hclock hbucket hlog =>
    refine .of_le hclock (le_of_eq ?_) (le_of_eq ?_)
    · rw [requestLevel, requestLevel, hclock, hbucket]
    · rw [tokenLevel, tokenLevel, hclock, hbucket]
  | adjust level hle hclock hbucket hlog =>
    have hrecord : later = [(s.clock, .adjusted (level - s.bucket.tokenTokens))] :=
      List.append_cancel_left (hlater.symm.trans hlog)
    obtain ⟨change, hchange, hnonneg⟩ := hback _ (hrecord ▸ List.mem_cons_self)
    rw [← Record.adjusted.inj hchange] at hnonneg
    have hrequest : requestLevel rates s' = requestLevel rates s := (levels_adjust hclock hbucket).1
    refine .of_le hclock hrequest.ge ?_
    rw [(levels_adjust hclock hbucket).2]
    exact refilled_mono (sub_nonneg.mp hnonneg)

theorem alone_run_rises {es : List Event} (hrun : Runs.run (step rates) s es = some s') (halone : LeftAlone s s') :
    Risen rates s s' := by
  induction es using List.reverseRecOn generalizing s' with
  | nil =>
    obtain rfl := Option.some.inj hrun
    exact .of_le rfl (le_refl _) (le_refl _)
  | append_singleton es e ih =>
    rw [Runs.run_concat] at hrun
    obtain ⟨s₁, hfirst, hstep⟩ := Option.bind_eq_some_iff.mp hrun
    obtain ⟨later, hlater, hback⟩ := halone
    obtain ⟨first, hs₁⟩ := run_log hfirst
    obtain ⟨last, hlast⟩ := move_log (step_move hstep)
    have hsplit : later = first ++ last := by
      rw [hs₁, List.append_assoc] at hlast
      exact List.append_cancel_left (hlater.symm.trans hlast)
    have hbefore : LeftAlone s s₁ := ⟨first, hs₁, fun r hr => hback r (hsplit ▸ List.mem_append_left _ hr)⟩
    have hnow : LeftAlone s₁ s' := ⟨last, hlast, fun r hr => hback r (hsplit ▸ List.mem_append_right _ hr)⟩
    exact (ih hfirst hbefore).trans (alone_rises (step_move hstep) hnow)

/-- A turn that finds both levels high enough reserves. -/
theorem attempt_granted {requested : ℕ} (totalWait : ℚ) (hrequest : 1 ≤ requestLevel rates s)
    (htoken : 0 < requested → (requested : ℚ) ≤ tokenLevel rates s) :
    (attempt rates s requested totalWait).log = s.log ++ [(s.clock, .granted requested totalWait)] := by
  have hcover : waitTime rates requested (refill rates s.clock s.bucket) ≤ 0 :=
    waitTime_nonpos_iff.mpr ⟨hrequest, htoken⟩
  unfold attempt
  dsimp only
  rw [if_pos hcover]

theorem one_le_requests : (1 : ℚ) ≤ rates.requestsPerMin := by exact_mod_cast rates.requests_pos

/-- Both levels suffice when the wait is over. -/
theorem wait_suffices {requested : ℕ} (hrequested : (requested : ℚ) ≤ rates.tokensPerMin) {seconds : ℚ}
    (hseconds : 0 ≤ seconds) (hslept : waitTime rates requested (refill rates s.clock s.bucket) ≤ seconds) :
    1 ≤ refilled rates.requestsPerMin (requestLevel rates s) seconds ∧
      (0 < requested → (requested : ℚ) ≤ refilled rates.tokensPerMin (tokenLevel rates s) seconds) := by
  constructor
  · refine refilled_reaches requests_pos one_le_requests hseconds fun hless => ?_
    have hwait : reqWait rates (refill rates s.clock s.bucket) =
        (1 - requestLevel rates s) / rates.requestsPerMin * 60 := if_pos hless
    rw [← hwait]
    exact (le_max_left _ _).trans hslept
  · intro hpos
    refine refilled_reaches tokens_pos hrequested hseconds fun hless => ?_
    have hwait : tokWait rates requested (refill rates s.clock s.bucket) =
        (requested - tokenLevel rates s) / rates.tokensPerMin * 60 := if_pos ⟨hpos, hless⟩
    rw [← hwait]
    exact (le_max_right _ _).trans hslept

/-- **An acquire that is left alone** sleeps at most once. -/
theorem alone_granted (s : Limiter) (estimated : ℤ) : Prompt rates s estimated := by
  refine ⟨_, rfl, ?_⟩
  by_cases hcover : waitTime rates (reservationSize rates estimated) (refill rates s.clock s.bucket) ≤ 0
  · left
    obtain ⟨hrequest, htoken⟩ := waitTime_nonpos_iff.mp hcover
    exact attempt_granted 0 hrequest htoken
  · right
    -- the caller falls asleep, with both levels refilled
    have hsleeps : attempt rates s (reservationSize rates estimated) 0 = { s with
        bucket := refill rates s.clock s.bucket
        waiters := s.waiters ++ [⟨reservationSize rates estimated,
          s.clock + waitTime rates (reservationSize rates estimated) (refill rates s.clock s.bucket),
          0 + waitTime rates (reservationSize rates estimated) (refill rates s.clock s.bucket)⟩] } := by
      unfold attempt
      dsimp only
      rw [if_neg hcover]
    rw [hsleeps]
    refine ⟨_, rfl, by rw [zero_add], fun es s₂ hrun halone hmem hwakes => ?_⟩
    have hrisen := alone_run_rises hrun halone
    generalize hs₁ : ({ s with bucket := refill rates s.clock s.bucket, waiters := _ } : Limiter) = s₁ at hrisen
    have hclock₁ : s₁.clock = s.clock := by rw [← hs₁]
    have hbucket₁ : s₁.bucket = refill rates s.clock s.bucket := by rw [← hs₁]
    obtain ⟨hsame, hsame'⟩ := levels_refuse hclock₁ hbucket₁
    obtain ⟨hclock, hrequest, htoken⟩ := hrisen
    rw [hsame, hclock₁] at hrequest
    rw [hsame', hclock₁] at htoken
    have hseconds : 0 ≤ s₂.clock - s.clock := sub_nonneg.mpr (hclock₁ ▸ hclock)
    have hslept : waitTime rates (reservationSize rates estimated) (refill rates s.clock s.bucket) ≤
        s₂.clock - s.clock := le_sub_iff_add_le'.mpr hwakes
    obtain ⟨hone, hcovers⟩ := wait_suffices (reservationSize_le estimated) hseconds hslept
    refine ⟨_, if_pos ⟨hmem, hwakes⟩, ?_⟩
    exact attempt_granted _ (hone.trans hrequest) fun hpos => (hcovers hpos).trans htoken

/-! ### The bucket -/

theorem sumIn_meter (level : ℚ) (taken given : Record → ℚ) (a b : ℚ) :
    Meters.sumIn Meters.Entry.taken a b (meter level taken given s).entries = sumIn taken a b s.log ∧
      Meters.sumIn Meters.Entry.given a b (meter level taken given s).entries = sumIn given a b s.log := by
  unfold Meters.sumIn sumIn meter
  rw [List.filter_map, List.map_map, List.map_map]
  exact ⟨rfl, rfl⟩

theorem sumIn_zero (a b : ℚ) (log : List (ℚ × Record)) : sumIn (fun _ => 0) a b log = 0 := by
  unfold sumIn
  simp

/-- What every run keeps. -/
theorem run_keeps {now : ℚ} {es : List Event} (hrun : runFrom rates now es = some s) :
    Filled rates s ∧
      Meters.Sound (rates.requestsPerMin : ℚ) (rates.requestsPerMin / 60) (requestMeter rates s) ∧
        Meters.Sound (rates.tokensPerMin : ℚ) (rates.tokensPerMin / 60) (tokenMeter rates s) := by
  have hrequests : (0 : ℚ) ≤ rates.requestsPerMin := requests_pos.le
  have htokens : (0 : ℚ) ≤ rates.tokensPerMin := tokens_pos.le
  refine Runs.Trace.invariant (I := fun _ s => Filled rates s ∧
    Meters.Sound (rates.requestsPerMin : ℚ) (rates.requestsPerMin / 60) (requestMeter rates s) ∧
      Meters.Sound (rates.tokensPerMin : ℚ) (rates.tokensPerMin / 60) (tokenMeter rates s)) ?_ ?_
    (Runs.Trace.of_run_any hrun)
  · exact ⟨start_filled now, .init (div_nonneg hrequests (by norm_num)) hrequests refilled_le,
      .init (div_nonneg htokens (by norm_num)) htokens refilled_le⟩
  · intro _ s e s' ⟨hfilled, hrequest, htoken⟩ _ hstep
    have hmove : Move rates s s' := step_move hstep
    exact ⟨hfilled.move hmove,
      hrequest.of_run (div_nonneg hrequests (by norm_num)) (.single (step_requests hmove)),
      htoken.of_run (div_nonneg htokens (by norm_num)) (.single (step_tokens hmove))⟩

theorem run_enforced {now : ℚ} {es : List Event} (hrun : runFrom rates now es = some s) : Enforced rates s := by
  obtain ⟨hfilled, hrequest, htoken⟩ := run_keeps hrun
  have hbound : ∀ capacity T a : ℚ, capacity + capacity / 60 * (a + T - a) = capacity * (1 + T / 60) := by
    intro capacity T a
    ring
  refine ⟨hfilled.requests_le, hfilled.tokens_le, hfilled.requests_nonneg, fun a T hT => ?_, fun a T hT => ?_⟩
  · have hwindow := hrequest.window a (a + T) (le_add_of_nonneg_right hT)
    obtain ⟨htaken, hgiven⟩ := sumIn_meter (s := s) (requestLevel rates s) Record.requests (fun _ => 0) a (a + T)
    rw [htaken, hgiven, sumIn_zero, hbound, add_zero] at hwindow
    exact hwindow
  · have hwindow := htoken.window a (a + T) (le_add_of_nonneg_right hT)
    obtain ⟨htaken, hgiven⟩ := sumIn_meter (s := s) (tokenLevel rates s) Record.tokens Record.back a (a + T)
    rw [htaken, hgiven, hbound] at hwindow
    exact hwindow

/-- **The token bucket enforces its rates** under every schedule, and an acquire that is
left alone is granted after its first wait. -/
theorem bucket_enforces {now : ℚ} {es : List Event} (hrun : runFrom rates now es = some s) :
    Enforced rates s ∧ ∀ estimated, Prompt rates s estimated :=
  ⟨run_enforced hrun, alone_granted s⟩

/-- Two callers of a bucket for one request a minute; an adjustment keeps the second one
waiting twice. -/
theorem twoCallers_enforces : Enforced ⟨1, 10, by decide, by decide⟩
      { clock := 72, bucket := ⟨0, 0, 72⟩, log := [(0, .granted 4 0), (0, .adjusted (-8)), (72, .granted 10 72)] } ∧
    ∀ estimated, Prompt ⟨1, 10, by decide, by decide⟩
      { clock := 72, bucket := ⟨0, 0, 72⟩, log := [(0, .granted 4 0), (0, .adjusted (-8)), (72, .granted 10 72)] }
      estimated := by
  have hrun : runFrom ⟨1, 10, by decide, by decide⟩ 0
      [.acquire 4, .acquire 20, .adjust 12 4, .tick 60, .wake ⟨10, 60, 60⟩, .tick 12, .wake ⟨10, 72, 72⟩] =
        some { clock := 72, bucket := ⟨0, 0, 72⟩, log := [(0, .granted 4 0), (0, .adjusted (-8)), (72, .granted 10 72)] } := by
    decide +kernel
  exact bucket_enforces hrun

end AgentCore.Middleware.RateLimit
