/-
# A hard timeout that follows renewals

`run_with_renewable_wall_time` of `runtime/wall_time_lease.py`. A supervisor waits for a
task until the deadline that the last renewal of the lease gives it, and not beyond an
absolute ceiling. When its time is up, the task has a grace period before it is
cancelled.

Renewals come from any thread, so the clock, a renewal and the end of the task may fall
between any two steps of the supervisor, also between its two readings of the time
left. A renewal after the first of them does not count for that deadline.

Numbers are exact, and the clock never goes back. A wait may end late, never early. The
supervisor is cancelled from outside at most once, and `on_expire` does not raise. The
list of renewals and the times of the readings are ghosts.

Key definitions: `Lease`, `Limits`, `Supervisor`, `step`, `Supervised`.
Key theorem: `supervises`.
-/
import AgentCore.Lib.Runs
import Mathlib.Algebra.Order.Ring.Rat
import Mathlib.Tactic.Linarith

namespace AgentCore.WallTimeLease

/-- `RenewableWallTimeLease`, as far as a deadline reads it. -/
structure Lease where
  sequence : ℕ := 0
  latestRenewal : Option ℚ := none
  deriving DecidableEq, Repr

namespace Lease

/-- `renew`. -/
def renew (l : Lease) (now : ℚ) : Lease := ⟨l.sequence + 1, some now⟩

def anchor (l : Lease) (start : ℚ) : ℚ :=
  match l.latestRenewal with
  | some renewal => max start renewal
  | none => start

/-- `remaining_s_for`. -/
def remainingFor (l : Lease) (durationS start now : ℚ) : ℚ := max 0 durationS - (now - l.anchor start)

/-- `elapsed_s`. -/
def elapsed (l : Lease) (start now : ℚ) : ℚ := max 0 (now - l.anchor start)

end Lease

/-- The arguments of a supervisor. -/
structure Limits where
  durationS : ℚ
  maxSessionS : Option ℚ := none
  graceS : ℚ := 5
  deriving DecidableEq, Repr

inductive Stage
  /-- The head of the loop. -/
  | head
  /-- The lease has been read. -/
  | read (leaseRemaining : ℚ)
  | waiting (since wakesAt : ℚ)
  | grace (wakesAt : ℚ) (ceiling : Bool)
  /-- The task has been cancelled and is waited for. -/
  | cancelling (ceiling : Bool)
  /-- The `finally` block, after the supervisor was cancelled itself. -/
  | interrupted
  | returned
  | exceeded (ceiling : Bool) (resetSeq : ℕ)
  | aborted
  deriving DecidableEq, Repr

structure Supervisor where
  clock : ℚ
  lease : Lease
  started : ℚ
  stage : Stage := .head
  taskDone : Bool := false
  cancelRequested : Bool := false
  /-- How often the time was up. -/
  expiries : ℕ := 0
  renewals : List ℚ := []
  lastRead : ℚ
  deriving DecidableEq, Repr

inductive Event
  | tick (seconds : ℚ)
  | renew
  | finish
  | advance
  /-- The supervisor is cancelled. -/
  | interrupt
  deriving DecidableEq, Repr

section Source

variable (limits : Limits)

def start (lease : Lease) (now : ℚ) : Supervisor :=
  { clock := now, lease := lease, started := now, renewals := lease.latestRenewal.toList, lastRead := now }

/-- `absolute_remaining`. -/
def absoluteRemaining (s : Supervisor) : Option ℚ :=
  limits.maxSessionS.map fun m => max 0 m - (s.clock - s.started)

/-- `task.cancel()`, and the wait for its end. -/
def cancelTask (s : Supervisor) (ceiling : Bool) : Supervisor :=
  { s with cancelRequested := true, stage := .cancelling ceiling }

/-- The time is up. -/
def expire (s : Supervisor) (ceiling : Bool) : Supervisor :=
  let s := { s with expiries := s.expiries + 1 }
  if 0 < max 0 limits.graceS then { s with stage := .grace (s.clock + max 0 limits.graceS) ceiling }
  else cancelTask s ceiling

/-- The second reading, and what follows from the two. -/
def decideOn (s : Supervisor) (leaseRemaining : ℚ) : Supervisor :=
  let remaining := match absoluteRemaining limits s with
    | some absolute => min leaseRemaining absolute
    | none => leaseRemaining
  if remaining ≤ 0 then expire limits s ((absoluteRemaining limits s).any (· ≤ 0))
  else { s with stage := .waiting s.clock (s.clock + remaining) }

/-- The next step of the supervisor, if nothing holds it up. -/
def advance (s : Supervisor) : Option Supervisor :=
  match s.stage with
  | .head =>
    if s.taskDone then some { s with stage := .returned }
    else some { s with
      stage := .read (s.lease.remainingFor (max 0 limits.durationS) s.started s.clock)
      lastRead := s.clock }
  | .read leaseRemaining => some (decideOn limits s leaseRemaining)
  | .waiting _ wakesAt => if s.taskDone ∨ wakesAt ≤ s.clock then some { s with stage := .head } else none
  | .grace wakesAt ceiling =>
    if s.taskDone then some { s with stage := .returned }
    else if wakesAt ≤ s.clock then some (cancelTask s ceiling)
    else none
  | .cancelling ceiling =>
    if s.taskDone then some { s with stage := .exceeded ceiling s.lease.sequence } else none
  | .interrupted => if s.taskDone then some { s with stage := .aborted } else none
  | _ => none

/-- Where the supervisor waits for something. -/
def Stage.isWait : Stage → Bool
  | .waiting _ _ => true
  | .grace _ _ => true
  | .cancelling _ => true
  | _ => false

/-- A cancellation reaches it where it waits. -/
def interrupt (s : Supervisor) : Option Supervisor :=
  if !s.stage.isWait then none
  else if s.taskDone then some { s with stage := .aborted }
  else some { s with cancelRequested := true, stage := .interrupted }

def step (s : Supervisor) : Event → Option Supervisor
  | .tick seconds => if 0 ≤ seconds then some { s with clock := s.clock + seconds } else none
  | .renew => some { s with lease := s.lease.renew s.clock, renewals := s.clock :: s.renewals }
  | .finish => if s.taskDone then none else some { s with taskDone := true }
  | .advance => advance limits s
  | .interrupt => interrupt s

end Source

/-! ### What a supervisor guarantees -/

/-- The time is up, for the ceiling or for the lease. -/
def Stage.expired : Stage → Option Bool
  | .grace _ ceiling => some ceiling
  | .cancelling ceiling => some ceiling
  | .exceeded ceiling _ => some ceiling
  | _ => none

/-- The loop is not over. -/
def Stage.loops : Stage → Bool
  | .head => true
  | .read _ => true
  | .waiting _ _ => true
  | _ => false

def Stage.ended : Stage → Bool
  | .returned => true
  | .exceeded _ _ => true
  | .aborted => true
  | _ => false

/-- At the last reading the start and every renewal before it were a duration ago. -/
def Idle (limits : Limits) (s : Supervisor) : Prop :=
  s.started + max 0 limits.durationS ≤ s.lastRead ∧
    ∀ r ∈ s.renewals, r < s.lastRead → r + max 0 limits.durationS ≤ s.lastRead

/-- The time is up only when it is, once, and not waited for beyond it; the supervisor
leaves no task behind, and returns the value of one that nobody cancelled. -/
structure Supervised (limits : Limits) (s : Supervisor) : Prop where
  lease_over : s.stage.expired = some false → Idle limits s
  ceiling_over : s.stage.expired = some true → ∃ m, limits.maxSessionS = some m ∧ s.started + max 0 m ≤ s.clock
  wait_le : ∀ since wakesAt, s.stage = .waiting since wakesAt → wakesAt ≤ since + max 0 limits.durationS ∧
    ∀ m, limits.maxSessionS = some m → wakesAt ≤ s.started + max 0 m
  expiries_le : s.expiries ≤ 1
  expiries_eq : s.stage.expired.isSome = true → s.expiries = 1
  settled : s.stage.ended = true → s.taskDone = true
  untouched : s.stage = .returned → s.cancelRequested = false

/-! ### The anchor -/

theorem Lease.start_le_anchor (l : Lease) (start : ℚ) : start ≤ l.anchor start := by
  unfold Lease.anchor
  split
  · exact le_max_left _ _
  · exact le_refl _

theorem Lease.renewal_le_anchor {l : Lease} {r : ℚ} (h : l.latestRenewal = some r) (start : ℚ) : r ≤ l.anchor start := by
  unfold Lease.anchor
  rw [h]
  exact le_max_right _ _

theorem Lease.anchor_le {l : Lease} {start now : ℚ} (hstart : start ≤ now)
    (hlatest : ∀ r, l.latestRenewal = some r → r ≤ now) : l.anchor start ≤ now := by
  unfold Lease.anchor
  split
  · rename_i r hr
    exact max_le hstart (hlatest r hr)
  · exact hstart

/-! ### The invariant -/

structure Inv (limits : Limits) (s : Supervisor) : Prop extends Supervised limits s where
  started_le : s.started ≤ s.clock
  latest_le : ∀ r, s.lease.latestRenewal = some r → r ≤ s.clock
  le_latest : ∀ r ∈ s.renewals, ∃ l, s.lease.latestRenewal = some l ∧ r ≤ l
  lastRead_le : s.lastRead ≤ s.clock
  reading : ∀ left, s.stage = .read left → left ≤ max 0 limits.durationS ∧ (left ≤ 0 → Idle limits s)
  looping : s.stage.loops = true → s.expiries = 0 ∧ s.cancelRequested = false
  graced : ∀ wakesAt ceiling, s.stage = .grace wakesAt ceiling → s.cancelRequested = false

variable {limits : Limits} {s s' : Supervisor}

theorem inv_start {lease : Lease} {now : ℚ} (h : ∀ r, lease.latestRenewal = some r → r ≤ now) :
    Inv limits (start lease now) where
  lease_over := nofun
  ceiling_over := nofun
  wait_le := nofun
  expiries_le := Nat.zero_le 1
  expiries_eq := nofun
  settled := nofun
  untouched := nofun
  started_le := le_refl _
  latest_le := h
  le_latest r hr := ⟨r, Option.mem_toList.mp hr, le_refl _⟩
  lastRead_le := le_refl _
  reading := nofun
  looping _ := ⟨rfl, rfl⟩
  graced := nofun

theorem inv_tick (h : Inv limits s) {seconds : ℚ} (hpos : 0 ≤ seconds) :
    Inv limits { s with clock := s.clock + seconds } :=
  have hle : s.clock ≤ s.clock + seconds := le_add_of_nonneg_right hpos
  { h with
    ceiling_over := fun hexpired => by
      obtain ⟨m, hm, hover⟩ := h.ceiling_over hexpired
      exact ⟨m, hm, hover.trans hle⟩
    started_le := h.started_le.trans hle
    latest_le := fun r hr => (h.latest_le r hr).trans hle
    lastRead_le := h.lastRead_le.trans hle }

/-- A renewal is no earlier than the last reading. -/
theorem idle_renew (h : s.lastRead ≤ s.clock) (hidle : Idle limits s) :
    Idle limits { s with lease := s.lease.renew s.clock, renewals := s.clock :: s.renewals } := by
  refine ⟨hidle.1, fun r hr hlt => ?_⟩
  rcases List.mem_cons.mp hr with rfl | hr
  · exact absurd hlt (not_lt.mpr h)
  · exact hidle.2 r hr hlt

theorem inv_renew (h : Inv limits s) :
    Inv limits { s with lease := s.lease.renew s.clock, renewals := s.clock :: s.renewals } :=
  { h with
    lease_over := fun hexpired => idle_renew h.lastRead_le (h.lease_over hexpired)
    latest_le := fun r hr => le_of_eq (Option.some.inj hr).symm
    le_latest := fun r hr => by
      refine ⟨s.clock, rfl, ?_⟩
      rcases List.mem_cons.mp hr with rfl | hr
      · exact le_refl _
      · obtain ⟨l, hl, hle⟩ := h.le_latest r hr
        exact hle.trans (h.latest_le l hl)
    reading := fun left hleft =>
      ⟨(h.reading left hleft).1, fun hzero => idle_renew h.lastRead_le ((h.reading left hleft).2 hzero)⟩ }

theorem inv_finish (h : Inv limits s) : Inv limits { s with taskDone := true } :=
  { h with
    lease_over := h.lease_over
    settled := fun _ => rfl
    reading := h.reading }

/-- The time that the lease leaves is over only where it is. -/
theorem inv_head (h : Inv limits s) (hstage : s.stage = .head) :
    Inv limits { s with
      stage := .read (s.lease.remainingFor (max 0 limits.durationS) s.started s.clock)
      lastRead := s.clock } := by
  have hloop := h.looping (by rw [hstage]; rfl)
  have hmax : max 0 (max 0 limits.durationS) = max 0 limits.durationS := max_eq_right (le_max_left _ _)
  refine { h with
    lease_over := nofun, ceiling_over := nofun, wait_le := nofun, expiries_eq := nofun, settled := nofun
    untouched := nofun, lastRead_le := le_refl _, looping := fun _ => hloop, graced := nofun, reading := ?_ }
  intro left hleft
  obtain rfl : s.lease.remainingFor (max 0 limits.durationS) s.started s.clock = left := Stage.read.inj hleft
  unfold Lease.remainingFor
  rw [hmax]
  have hanchor := Lease.anchor_le h.started_le h.latest_le
  refine ⟨by linarith, fun hzero => ⟨?_, fun r hr _ => ?_⟩⟩
  · have := s.lease.start_le_anchor s.started
    dsimp only
    linarith
  · obtain ⟨l, hl, hle⟩ := h.le_latest r hr
    have := Lease.renewal_le_anchor hl s.started
    dsimp only
    linarith

/-- The task is cancelled when its time is up. -/
theorem inv_cancelTask (h : Inv limits s) {ceiling : Bool} (hidle : ceiling = false → Idle limits s)
    (hceiling : ceiling = true → ∃ m, limits.maxSessionS = some m ∧ s.started + max 0 m ≤ s.clock)
    (honce : s.expiries = 1) : Inv limits (cancelTask s ceiling) where
  lease_over hexpired := hidle (Option.some.inj hexpired)
  ceiling_over hexpired := hceiling (Option.some.inj hexpired)
  wait_le := nofun
  expiries_le := h.expiries_le
  expiries_eq _ := honce
  settled := nofun
  untouched := nofun
  started_le := h.started_le
  latest_le := h.latest_le
  le_latest := h.le_latest
  lastRead_le := h.lastRead_le
  reading := nofun
  looping := nofun
  graced := nofun

theorem inv_expire (h : Inv limits s) {ceiling : Bool} (hloop : s.stage.loops = true)
    (hidle : ceiling = false → Idle limits s)
    (hceiling : ceiling = true → ∃ m, limits.maxSessionS = some m ∧ s.started + max 0 m ≤ s.clock) :
    Inv limits (expire limits s ceiling) := by
  obtain ⟨hzero, huncancelled⟩ := h.looping hloop
  have honce : s.expiries + 1 = 1 := by rw [hzero]
  have hcounted : Inv limits { s with expiries := s.expiries + 1, stage := .grace 0 ceiling } :=
    { h with
      lease_over := fun hexpired => hidle (Option.some.inj hexpired)
      ceiling_over := fun hexpired => hceiling (Option.some.inj hexpired)
      wait_le := nofun, settled := nofun, untouched := nofun, reading := nofun, looping := nofun
      expiries_le := le_of_eq honce
      expiries_eq := fun _ => honce
      graced := fun _ _ _ => huncancelled }
  unfold expire
  dsimp only
  split
  · exact { hcounted with
      lease_over := hcounted.lease_over
      ceiling_over := hcounted.ceiling_over
      wait_le := nofun, settled := nofun, untouched := nofun, reading := nofun, looping := nofun
      graced := fun _ _ _ => huncancelled }
  · exact inv_cancelTask hcounted hidle hceiling honce

/-- A wait is no longer than what is left, by the lease and by the ceiling. -/
theorem inv_waiting (h : Inv limits s) (hloop : s.stage.loops = true) {remaining : ℚ}
    (hlease : remaining ≤ max 0 limits.durationS)
    (hceiling : ∀ m, limits.maxSessionS = some m → remaining ≤ max 0 m - (s.clock - s.started)) :
    Inv limits { s with stage := .waiting s.clock (s.clock + remaining) } := by
  refine { h with
    lease_over := nofun, ceiling_over := nofun, expiries_eq := nofun, settled := nofun, untouched := nofun
    reading := nofun, graced := nofun, looping := fun _ => h.looping hloop, wait_le := ?_ }
  intro since wakesAt hwait
  obtain ⟨rfl, rfl⟩ := Stage.waiting.inj hwait
  refine ⟨by linarith, fun m hm => ?_⟩
  have := hceiling m hm
  dsimp only
  linarith

theorem inv_decideOn (h : Inv limits s) {left : ℚ} (hstage : s.stage = .read left) : Inv limits (decideOn limits s left) := by
  have hloop : s.stage.loops = true := by rw [hstage]; rfl
  obtain ⟨hle, hidle⟩ := h.reading left hstage
  unfold decideOn absoluteRemaining
  cases hm : limits.maxSessionS with
  | none =>
    dsimp only [Option.map_none]
    split
    · rename_i hzero
      exact inv_expire h hloop (fun _ => hidle hzero) nofun
    · refine inv_waiting h hloop hle fun m hm' => ?_
      rw [hm] at hm'
      cases hm'
  | some m =>
    dsimp only [Option.map_some, Option.any_some]
    split
    · rename_i hzero
      refine inv_expire h hloop (fun hceiling => hidle ?_) fun hceiling => ⟨m, hm, ?_⟩
      · rcases min_le_iff.mp hzero with hlease | habsolute
        · exact hlease
        · exact absurd habsolute (of_decide_eq_false hceiling)
      · have := of_decide_eq_true hceiling
        linarith
    · refine inv_waiting h hloop ((min_le_left _ _).trans hle) fun m' hm' => ?_
      obtain rfl : m = m' := Option.some.inj (hm.symm.trans hm')
      exact min_le_right _ _

theorem inv_advance (h : Inv limits s) (hstep : advance limits s = some s') : Inv limits s' := by
  unfold advance at hstep
  cases hstage : s.stage with
  | head =>
    rw [hstage] at hstep
    dsimp only at hstep
    split at hstep
    · rename_i hdone
      cases hstep
      have hloop := h.looping (by rw [hstage]; rfl)
      exact { h with
        lease_over := nofun, ceiling_over := nofun, wait_le := nofun, expiries_eq := nofun, reading := nofun
        looping := nofun, graced := nofun, settled := fun _ => hdone, untouched := fun _ => hloop.2 }
    · cases hstep
      exact inv_head h hstage
  | read left =>
    rw [hstage] at hstep
    cases hstep
    exact inv_decideOn h hstage
  | waiting since wakesAt =>
    rw [hstage] at hstep
    obtain ⟨-, heq⟩ := Option.ite_none_right_eq_some.mp hstep
    cases heq
    have hloop := h.looping (by rw [hstage]; rfl)
    exact { h with
      lease_over := nofun, ceiling_over := nofun, wait_le := nofun, expiries_eq := nofun, settled := nofun
      untouched := nofun, reading := nofun, graced := nofun, looping := fun _ => hloop }
  | grace wakesAt ceiling =>
    have huncancelled := h.graced wakesAt ceiling hstage
    have hexpired : s.stage.expired = some ceiling := by rw [hstage]; rfl
    rw [hstage] at hstep
    dsimp only at hstep
    split at hstep
    · rename_i hdone
      cases hstep
      exact { h with
        lease_over := nofun, ceiling_over := nofun, wait_le := nofun, expiries_eq := nofun, reading := nofun
        looping := nofun, graced := nofun, settled := fun _ => hdone, untouched := fun _ => huncancelled }
    · obtain ⟨-, heq⟩ := Option.ite_none_right_eq_some.mp hstep
      cases heq
      refine inv_cancelTask h (fun hc => h.lease_over ?_) (fun hc => h.ceiling_over ?_) (h.expiries_eq ?_)
      · rw [hexpired, hc]
      · rw [hexpired, hc]
      · rw [hexpired]
        rfl
  | cancelling ceiling =>
    have hexpired : s.stage.expired = some ceiling := by rw [hstage]; rfl
    rw [hstage] at hstep
    obtain ⟨hdone, heq⟩ := Option.ite_none_right_eq_some.mp hstep
    cases heq
    exact { h with
      lease_over := fun hc => h.lease_over (hexpired.trans hc)
      ceiling_over := fun hc => h.ceiling_over (hexpired.trans hc)
      expiries_eq := fun _ => h.expiries_eq (by rw [hexpired]; rfl)
      wait_le := nofun, untouched := nofun, reading := nofun, looping := nofun, graced := nofun
      settled := fun _ => hdone }
  | interrupted =>
    rw [hstage] at hstep
    obtain ⟨hdone, heq⟩ := Option.ite_none_right_eq_some.mp hstep
    cases heq
    exact { h with
      lease_over := nofun, ceiling_over := nofun, wait_le := nofun, expiries_eq := nofun, untouched := nofun
      reading := nofun, looping := nofun, graced := nofun, settled := fun _ => hdone }
  | returned => rw [hstage] at hstep; cases hstep
  | exceeded ceiling resetSeq => rw [hstage] at hstep; cases hstep
  | aborted => rw [hstage] at hstep; cases hstep

theorem inv_interrupt (h : Inv limits s) (hstep : interrupt s = some s') : Inv limits s' := by
  unfold interrupt at hstep
  obtain ⟨-, hstep⟩ := Option.ite_none_left_eq_some.mp hstep
  split at hstep
  · rename_i hdone
    cases hstep
    exact { h with
      lease_over := nofun, ceiling_over := nofun, wait_le := nofun, expiries_eq := nofun, untouched := nofun
      reading := nofun, looping := nofun, graced := nofun, settled := fun _ => hdone }
  · cases hstep
    exact { h with
      lease_over := nofun, ceiling_over := nofun, wait_le := nofun, expiries_eq := nofun, settled := nofun
      untouched := nofun, reading := nofun, looping := nofun, graced := nofun }

theorem inv_step (h : Inv limits s) {e : Event} (hstep : step limits s e = some s') : Inv limits s' := by
  cases e with
  | tick seconds =>
    obtain ⟨hpos, heq⟩ := Option.ite_none_right_eq_some.mp hstep
    cases heq
    exact inv_tick h hpos
  | renew =>
    cases hstep
    exact inv_renew h
  | finish =>
    obtain ⟨-, heq⟩ := Option.ite_none_left_eq_some.mp hstep
    cases heq
    exact inv_finish h
  | advance => exact inv_advance h hstep
  | interrupt => exact inv_interrupt h hstep

/-- **The supervisor** in every run: whatever the clock, the renewals and the task do
between its steps. -/
theorem supervises {lease : Lease} {now : ℚ} (hlease : ∀ r, lease.latestRenewal = some r → r ≤ now) {es : List Event}
    (h : Runs.Trace (step limits) (fun _ _ _ => True) (start lease now) es s) : Supervised limits s :=
  (h.invariant (I := fun _ s => Inv limits s) (inv_start hlease) fun _ _ _ _ hI _ hstep => inv_step hI hstep).toSupervised

def renewedRun : List Event :=
  [.advance, .advance, .tick 8, .renew, .tick 2, .advance, .advance, .advance, .tick 5, .advance, .advance, .advance,
    .tick 5, .advance, .finish, .advance]

/-- A renewal pushes the deadline back, but not beyond the ceiling. -/
theorem supervises_renewed : ∃ s, Runs.run (step ⟨10, some 15, 5⟩) (start {} 0) renewedRun = some s ∧
    s.stage = .exceeded true 1 ∧ Supervised ⟨10, some 15, 5⟩ s := by
  have hrun : (Runs.run (step ⟨10, some 15, 5⟩) (start {} 0) renewedRun).map (·.stage) = some (.exceeded true 1) := by
    decide +kernel
  obtain ⟨s, hs, hstage⟩ := Option.map_eq_some_iff.mp hrun
  exact ⟨s, hs, hstage, supervises (fun r hr => by cases hr) (Runs.Trace.of_run_any hs)⟩

end AgentCore.WallTimeLease
