/-
# Stopping before the wall

`WallClockDeadlineObserver` of `wall_clock_observer.py` and its `WallClockGuard` of
`wall_clock_guard.py`. At the end of a turn the loop is stopped when its soft deadline has
passed, and warned once when a part of it has; with a lease the time counts from the last
renewal, and each renewal allows another warning.

The guard holds back a reserve of at least the longest turn, so a turn that begins before
the soft deadline is over before the budget is. The soft deadline is never before half
the budget, and so this holds for budgets of two such turns or more (`guard_in_time`).

Numbers are exact, and the clock never goes back. The deadline published to the scope and
the metadata of the turn are left out. The log of the turns is a ghost.

Key definitions: `Observer`, `onLoopStart`, `onTurnEnd`, `guardOnLoopStart`, `System`,
`step`, `Timely`.
Key theorem: `guard_in_time`.
-/
import AgentCore.Loop.Turn
import AgentCore.WallTimeLease

namespace AgentCore.Observers.WallClock

open Loop (Intervention)
open WallTimeLease (Lease)

/-- The texts of an observer, with what is formatted into them. -/
structure Wording where
  /-- `STOP_MESSAGE`, of the elapsed seconds and the budget. -/
  stop : ℤ → ℤ → String
  /-- `WARN_MESSAGE`, of the remaining seconds. -/
  warn : ℤ → String

def coordinatorWording : Wording where
  stop elapsed budget :=
    "Time budget nearly exhausted (" ++ toString elapsed ++ "s / " ++ toString budget ++ "s wall-clock). " ++
      "Stop spawning, searching, or waiting on sub-agents now. Preserve any " ++
      "existing artifacts and finalize a best-effort answer immediately " ++ "from the work already completed."
  warn remaining :=
    "Warning: ~" ++ toString remaining ++ "s of usable time left before the wall-clock " ++
      "deadline. Enter finalization now: stop new exploration, finish and " ++
      "publish the best available deliverables while tools are still " ++
      "available, run only essential checks, and prepare the final answer."

def subAgentWording : Wording where
  stop elapsed budget :=
    "Wall-clock budget nearly exhausted (" ++ toString elapsed ++ "s of " ++ toString budget ++ "s used). " ++
      "Stop gathering and deliver your report now, based on the information " ++ "you already have."
  warn remaining :=
    "Warning: ~" ++ toString remaining ++ "s of usable time left on your wall-clock " ++
      "budget. Start consolidating what you have into your report rather " ++ "than opening new lines of investigation."

/-- `int(x)`. -/
def truncated (x : ℚ) : ℤ := if 0 ≤ x then x.floor else x.ceil

def softDeadline (deadlineS reserveS : ℚ) : ℚ := max (deadlineS - reserveS) (deadlineS * (1 / 2))

structure Observer where
  deadlineS : ℚ
  reserveS : ℚ
  warnRatio : ℚ
  softDeadlineS : ℚ
  wording : Wording
  start : Option ℚ := none
  warned : Bool := false
  /-- When the renewable deadline was bound, if there is a lease. -/
  boundAt : Option ℚ := none
  leaseSequence : ℕ := 0

/-- The arguments of `WallClockDeadlineObserver`. -/
structure Settings where
  deadlineS : ℚ
  reserveS : ℚ := 150
  warnRatio : ℚ := 4 / 5

def observer (settings : Settings) (wording : Wording) : Observer where
  deadlineS := settings.deadlineS
  reserveS := settings.reserveS
  warnRatio := settings.warnRatio
  softDeadlineS := softDeadline settings.deadlineS settings.reserveS
  wording := wording

/-- The arguments of `WallClockGuard`. -/
structure GuardSettings where
  budgetS : ℚ
  reserveS : ℚ := 600
  budget_pos : 0 < budgetS

/-- `WallClockGuard(…)`, which refuses a budget that is not positive. -/
def GuardSettings.init (budgetS reserveS : ℚ) : Option GuardSettings :=
  if h : budgetS ≤ 0 then none else some ⟨budgetS, reserveS, not_le.mp h⟩

/-- `on_loop_start`, in a scope with or without a lease. -/
def onLoopStart (o : Observer) (lease : Option Lease) (now : ℚ) : Observer :=
  { o with
    start := some now
    warned := false
    boundAt := lease.map fun _ => now
    leaseSequence := (lease.map (·.sequence)).getD o.leaseSequence }

/-- The longest turn: a request, its tools, and a minute. -/
def turnFloor (llmTimeout toolTimeout : ℚ) : ℚ := llmTimeout + toolTimeout + 60

/-- `on_loop_start` of the guard. -/
def guardOnLoopStart (requestedReserveS llmTimeout toolTimeout : ℚ) (o : Observer) (lease : Option Lease) (now : ℚ) :
    Observer :=
  let reserveS := max requestedReserveS (turnFloor llmTimeout toolTimeout)
  onLoopStart { o with reserveS := reserveS, softDeadlineS := softDeadline o.deadlineS reserveS } lease now

/-- The time that counts, after the observer has looked at the lease. -/
def Observer.elapsed (o : Observer) (start : ℚ) (lease : Option Lease) (now : ℚ) : ℚ :=
  match lease, o.boundAt with
  | some lease, some boundAt => lease.elapsed boundAt now
  | _, _ => now - start

/-- A renewal since the last turn allows another warning. -/
def Observer.noticeRenewal (o : Observer) (lease : Option Lease) : Observer :=
  match lease with
  | some lease =>
    if lease.sequence ≠ o.leaseSequence then { o with leaseSequence := lease.sequence, warned := false } else o
  | none => o

/-- `on_turn_end`. -/
def onTurnEnd (o : Observer) (lease : Option Lease) (now : ℚ) : Observer × Option Intervention :=
  match o.start with
  | none => (o, none)
  | some start =>
    let o := o.noticeRenewal lease
    let elapsed := o.elapsed start lease now
    if o.softDeadlineS ≤ elapsed then
      (o, some {
        stopReason := "wall_deadline"
        injectMessages := [o.wording.stop (truncated elapsed) (truncated o.deadlineS)] })
    else if 0 < o.softDeadlineS ∧ o.softDeadlineS * o.warnRatio ≤ elapsed ∧ o.warned = false then
      ({ o with warned := true }, some { injectMessages := [o.wording.warn (truncated (o.softDeadlineS - elapsed))] })
    else (o, none)

/-! ### Loops -/

/-- Which observer watches the loop. -/
inductive Role
  | coordinator (settings : Settings)
  | subAgent (settings : GuardSettings) (llmTimeout toolTimeout : ℚ)

def Role.observer : Role → Observer
  | .coordinator settings => WallClock.observer settings coordinatorWording
  | .subAgent settings _ _ => WallClock.observer ⟨settings.budgetS, settings.reserveS, 4 / 5⟩ subAgentWording

def Role.onLoopStart : Role → Observer → Option Lease → ℚ → Observer
  | .coordinator _ => WallClock.onLoopStart
  | .subAgent settings llmTimeout toolTimeout => guardOnLoopStart settings.reserveS llmTimeout toolTimeout

/-- What the observer saw and answered at the end of a turn. -/
structure Entry where
  elapsed : ℚ
  sequence : ℕ
  answer : Option Intervention

def Entry.stops (e : Entry) : Bool := e.answer.any fun i => i.stopReason = "wall_deadline"

def Entry.warns (e : Entry) : Bool := e.answer.any fun i => i.stopReason = ""

structure System where
  clock : ℚ
  lease : Option Lease
  observer : Observer
  turnBegan : ℚ
  /-- The turns of the loop that have ended. -/
  log : List Entry := []

inductive Event
  | tick (seconds : ℚ)
  | renew
  | loopStart
  | turnEnd

variable (role : Role)

def start (lease : Option Lease) (now : ℚ) : System :=
  { clock := now, lease := lease, observer := role.observer, turnBegan := now }

def step (s : System) : Event → Option System
  | .tick seconds => if 0 ≤ seconds then some { s with clock := s.clock + seconds } else none
  | .renew => s.lease.map fun lease => { s with lease := some (lease.renew s.clock) }
  | .loopStart =>
    some { s with observer := role.onLoopStart s.observer s.lease s.clock, turnBegan := s.clock, log := [] }
  | .turnEnd =>
    s.observer.start.map fun start =>
      let answer := onTurnEnd s.observer s.lease s.clock
      { s with
        observer := answer.1
        turnBegan := s.clock
        log := s.log ++ [⟨answer.1.elapsed start s.lease s.clock, answer.1.leaseSequence, answer.2⟩] }

/-! ### What the observer guarantees -/

/-- The loop is stopped at the ends of turns after the soft deadline, and warned once
for each renewal. -/
structure Timely (s : System) : Prop where
  stops_iff : ∀ e ∈ s.log, e.stops = true ↔ s.observer.softDeadlineS ≤ e.elapsed
  warns_once : (s.log.filter Entry.warns).Pairwise fun a b => a.sequence ≠ b.sequence

/-- A stopped loop has no more turns, and a turn is no longer than a time. -/
def Bounded (longest : ℚ) (_ : List Event) (s : System) : Event → Prop
  | .turnEnd => s.clock - s.turnBegan ≤ longest ∧ ∀ e ∈ s.log, e.stops = false
  | _ => True

instance decidableBounded (longest : ℚ) (past : List Event) (s : System) : ∀ e, Decidable (Bounded longest past s e)
  | .turnEnd => inferInstanceAs (Decidable (_ ∧ _))
  | .tick _ => .isTrue trivial
  | .renew => .isTrue trivial
  | .loopStart => .isTrue trivial

/-! ### One turn -/

variable {role : Role} {s s' : System} {o : Observer} {lease : Option Lease} {now begun : ℚ}

theorem noticeRenewal_cases (o : Observer) (lease : Option Lease) :
    (o.noticeRenewal lease = o ∧ ∀ l, lease = some l → l.sequence = o.leaseSequence) ∨
    ∃ l, lease = some l ∧ l.sequence ≠ o.leaseSequence ∧
      o.noticeRenewal lease = { o with leaseSequence := l.sequence, warned := false } := by
  unfold Observer.noticeRenewal
  cases lease with
  | none => exact .inl ⟨rfl, nofun⟩
  | some l =>
    dsimp only
    by_cases hseq : l.sequence = o.leaseSequence
    · rw [if_neg (not_not_intro hseq)]
      exact .inl ⟨rfl, fun l' hl' => Option.some.inj hl' ▸ hseq⟩
    · rw [if_pos hseq]
      exact .inr ⟨l, rfl, hseq, rfl⟩

/-- The observer after a turn, and what it answered. -/
theorem onTurnEnd_cases (hstart : o.start = some begun) :
    (o.softDeadlineS ≤ o.elapsed begun lease now ∧
      ∃ text, onTurnEnd o lease now =
        (o.noticeRenewal lease, some { stopReason := "wall_deadline", injectMessages := [text] })) ∨
    (o.elapsed begun lease now < o.softDeadlineS ∧ (o.noticeRenewal lease).warned = false ∧
      ∃ text, onTurnEnd o lease now = ({ o.noticeRenewal lease with warned := true }, some { injectMessages := [text] })) ∨
    (o.elapsed begun lease now < o.softDeadlineS ∧ onTurnEnd o lease now = (o.noticeRenewal lease, none)) := by
  have hsame : (o.noticeRenewal lease).softDeadlineS = o.softDeadlineS ∧
      (o.noticeRenewal lease).elapsed begun lease now = o.elapsed begun lease now := by
    rcases noticeRenewal_cases o lease with ⟨heq, -⟩ | ⟨l, -, -, heq⟩
    · rw [heq]
      exact ⟨rfl, rfl⟩
    · rw [heq]
      exact ⟨rfl, rfl⟩
  unfold onTurnEnd
  rw [hstart]
  dsimp only
  rw [hsame.1, hsame.2]
  by_cases hstop : o.softDeadlineS ≤ o.elapsed begun lease now
  · rw [if_pos hstop]
    exact .inl ⟨hstop, _, rfl⟩
  · rw [if_neg hstop]
    split
    · rename_i hwarn
      exact .inr (.inl ⟨not_le.mp hstop, hwarn.2.2, _, rfl⟩)
    · exact .inr (.inr ⟨not_le.mp hstop, rfl⟩)

/-- When the time began to count. -/
def anchor (lease : Option Lease) (begun : ℚ) : ℚ :=
  match lease with
  | some lease => lease.anchor begun
  | none => begun

theorem elapsed_eq (hbound : o.boundAt = lease.map fun _ => begun) (hle : anchor lease begun ≤ now) :
    o.elapsed begun lease now = now - anchor lease begun := by
  unfold Observer.elapsed
  cases lease with
  | none => rfl
  | some l =>
    rw [hbound]
    exact max_eq_right (sub_nonneg.mpr hle)

/-! ### The invariant -/

structure Inv (s : System) : Prop extends Timely s where
  latest_le : ∀ l, s.lease = some l → ∀ r, l.latestRenewal = some r → r ≤ s.clock
  sequence_le : ∀ l, s.lease = some l → s.observer.leaseSequence ≤ l.sequence
  bound : ∀ begun, s.observer.start = some begun → s.observer.boundAt = (s.lease.map fun _ => begun) ∧ begun ≤ s.clock
  seen : ∀ e ∈ s.log, e.sequence ≤ s.observer.leaseSequence
  warned : ∀ e ∈ s.log, e.warns = true → e.sequence = s.observer.leaseSequence → s.observer.warned = true

theorem Inv.anchor_le (h : Inv s) (hbegun : begun ≤ s.clock) : anchor s.lease begun ≤ s.clock := by
  unfold anchor
  cases hl : s.lease with
  | none => exact hbegun
  | some l => exact Lease.anchor_le hbegun (h.latest_le l hl)

theorem inv_start (hlease : ∀ l, lease = some l → ∀ r, l.latestRenewal = some r → r ≤ now) : Inv (start role lease now) where
  stops_iff := nofun
  warns_once := .nil
  latest_le := hlease
  sequence_le l _ := by
    cases role <;> exact Nat.zero_le _
  bound begun hbegun := by
    cases role <;> cases hbegun
  seen := nofun
  warned := nofun

theorem inv_renew (h : Inv s) {l : Lease} (hl : s.lease = some l) : Inv { s with lease := some (l.renew s.clock) } :=
  { h with
    latest_le := fun l' hl' r hr => by
      obtain rfl := Option.some.inj hl'
      exact le_of_eq (Option.some.inj hr).symm
    sequence_le := fun l' hl' => by
      obtain rfl := Option.some.inj hl'
      exact Nat.le_succ_of_le (h.sequence_le l hl)
    bound := fun begun hbegun => by
      have hbound := h.bound begun hbegun
      rw [hl] at hbound
      exact hbound }

theorem inv_loopStart (h : Inv s) :
    Inv { s with observer := role.onLoopStart s.observer s.lease s.clock, turnBegan := s.clock, log := [] } where
  stops_iff := nofun
  warns_once := .nil
  latest_le := h.latest_le
  sequence_le l hl := by
    have hsequence : ∀ n : ℕ, ((s.lease.map (·.sequence)).getD n) ≤ l.sequence := by
      intro n
      rw [hl]
      exact Nat.le_refl _
    cases role with
    | coordinator settings => exact hsequence _
    | subAgent settings llmTimeout toolTimeout => exact hsequence _
  bound begun hbegun := by
    cases role <;> exact ⟨by rw [← Option.some.inj hbegun]; rfl, le_of_eq (Option.some.inj hbegun).symm⟩
  seen := nofun
  warned := nofun

/-- What was seen before a turn was seen before the renewal that the turn notices. -/
theorem noticed (h : Inv s) : s.observer.leaseSequence ≤ (s.observer.noticeRenewal s.lease).leaseSequence ∧
    (∀ l, s.lease = some l → (s.observer.noticeRenewal s.lease).leaseSequence ≤ l.sequence) ∧
    ∀ e ∈ s.log, e.warns = true → e.sequence = (s.observer.noticeRenewal s.lease).leaseSequence →
      (s.observer.noticeRenewal s.lease).warned = true := by
  rcases noticeRenewal_cases s.observer s.lease with ⟨heq, hseq⟩ | ⟨l, hl, hne, heq⟩
  · rw [heq]
    exact ⟨Nat.le_refl _, fun l hl => le_of_eq (hseq l hl).symm, h.warned⟩
  · rw [heq]
    refine ⟨h.sequence_le l hl, fun l' hl' => ?_, fun e he _ hsame => ?_⟩
    · exact le_of_eq (congrArg Lease.sequence (Option.some.inj (hl.symm.trans hl')))
    · have hseen := h.seen e he
      have hle := h.sequence_le l hl
      have hsame : e.sequence = l.sequence := hsame
      exact absurd (le_antisymm (hsame ▸ hseen) hle) hne

/-- A turn goes into the log with what the observer answered. -/
theorem inv_turn (h : Inv s) {o' : Observer} {e : Entry} (hsoft : o'.softDeadlineS = s.observer.softDeadlineS)
    (hstart : o'.start = s.observer.start) (hbound : o'.boundAt = s.observer.boundAt)
    (hsequence : o'.leaseSequence = (s.observer.noticeRenewal s.lease).leaseSequence)
    (hentry : e.sequence = o'.leaseSequence) (hstops : e.stops = true ↔ s.observer.softDeadlineS ≤ e.elapsed)
    (hfirst : e.warns = true → (s.observer.noticeRenewal s.lease).warned = false)
    (hwarned : o'.warned = ((s.observer.noticeRenewal s.lease).warned || e.warns)) :
    Inv { s with observer := o', turnBegan := s.clock, log := s.log ++ [e] } := by
  obtain ⟨hold, hlease, hbefore⟩ := noticed h
  rw [← hsequence] at hold hlease hbefore
  refine ⟨⟨?_, ?_⟩, h.latest_le, hlease, ?_, ?_, ?_⟩
  · intro x hx
    dsimp only
    rw [hsoft]
    rcases List.mem_append.mp hx with hx | hx
    · exact h.stops_iff x hx
    · obtain rfl := List.mem_singleton.mp hx
      exact hstops
  · rw [List.filter_append, List.pairwise_append]
    refine ⟨h.warns_once, List.Pairwise.sublist List.filter_sublist (List.pairwise_singleton _ _), ?_⟩
    intro x hx y hy hsame
    obtain ⟨hx, hxwarns⟩ := List.mem_filter.mp hx
    obtain ⟨hy, hywarns⟩ := List.mem_filter.mp hy
    obtain rfl := List.mem_singleton.mp hy
    have hagain := hbefore x hx hxwarns (hsame.trans hentry)
    rw [hfirst hywarns] at hagain
    exact Bool.false_ne_true hagain
  · intro begun hbegun
    dsimp only at hbegun ⊢
    rw [hbound]
    exact h.bound begun (hstart ▸ hbegun)
  · intro x hx
    rcases List.mem_append.mp hx with hx | hx
    · exact (h.seen x hx).trans hold
    · rw [List.mem_singleton.mp hx]
      exact le_of_eq hentry
  · intro x hx hxwarns hsame
    dsimp only
    rw [hwarned, Bool.or_eq_true]
    rcases List.mem_append.mp hx with hx | hx
    · exact .inl (hbefore x hx hxwarns hsame)
    · rw [List.mem_singleton.mp hx] at hxwarns
      exact .inr hxwarns

theorem noticeRenewal_keeps (o : Observer) (lease : Option Lease) :
    (o.noticeRenewal lease).softDeadlineS = o.softDeadlineS ∧ (o.noticeRenewal lease).start = o.start ∧
      (o.noticeRenewal lease).boundAt = o.boundAt := by
  rcases noticeRenewal_cases o lease with ⟨heq, -⟩ | ⟨l, -, -, heq⟩
  · rw [heq]
    exact ⟨rfl, rfl, rfl⟩
  · rw [heq]
    exact ⟨rfl, rfl, rfl⟩

theorem elapsed_of_bound {o o' : Observer} (h : o'.boundAt = o.boundAt) (begun : ℚ) (lease : Option Lease) (now : ℚ) :
    o'.elapsed begun lease now = o.elapsed begun lease now := by
  unfold Observer.elapsed
  rw [h]

theorem inv_turnEnd (h : Inv s) (hstart : s.observer.start = some begun) :
    Inv { s with
      observer := (onTurnEnd s.observer s.lease s.clock).1
      turnBegan := s.clock
      log := s.log ++ [⟨(onTurnEnd s.observer s.lease s.clock).1.elapsed begun s.lease s.clock,
        (onTurnEnd s.observer s.lease s.clock).1.leaseSequence, (onTurnEnd s.observer s.lease s.clock).2⟩] } := by
  obtain ⟨hsoft, hsame, hbound⟩ := noticeRenewal_keeps s.observer s.lease
  rcases onTurnEnd_cases hstart with ⟨hle, text, heq⟩ | ⟨hlt, hfirst, text, heq⟩ | ⟨hlt, heq⟩
  · have hstop : ∀ o' : Observer, o'.boundAt = s.observer.boundAt → s.observer.softDeadlineS ≤ o'.elapsed begun s.lease s.clock :=
      fun o' ho' => by rwa [elapsed_of_bound ho']
    rw [heq]
    exact inv_turn h hsoft hsame hbound rfl rfl (iff_of_true rfl (hstop _ hbound)) nofun (Bool.or_false _).symm
  · have hgo : ∀ o' : Observer, o'.boundAt = s.observer.boundAt → ¬ s.observer.softDeadlineS ≤ o'.elapsed begun s.lease s.clock :=
      fun o' ho' => by rwa [elapsed_of_bound ho', not_le]
    rw [heq]
    exact inv_turn h hsoft hsame hbound rfl rfl (iff_of_false nofun (hgo _ hbound)) (fun _ => hfirst) (Bool.or_true _).symm
  · have hgo : ∀ o' : Observer, o'.boundAt = s.observer.boundAt → ¬ s.observer.softDeadlineS ≤ o'.elapsed begun s.lease s.clock :=
      fun o' ho' => by rwa [elapsed_of_bound ho', not_le]
    rw [heq]
    exact inv_turn h hsoft hsame hbound rfl rfl (iff_of_false nofun (hgo _ hbound)) nofun (Bool.or_false _).symm

theorem inv_step (h : Inv s) {e : Event} (hstep : step role s e = some s') : Inv s' := by
  cases e with
  | tick seconds =>
    obtain ⟨hpos, heq⟩ := Option.ite_none_right_eq_some.mp hstep
    cases heq
    have hle : s.clock ≤ s.clock + seconds := le_add_of_nonneg_right hpos
    exact { h with
      latest_le := fun l hl r hr => (h.latest_le l hl r hr).trans hle
      bound := fun begun hbegun => ⟨(h.bound begun hbegun).1, (h.bound begun hbegun).2.trans hle⟩ }
  | renew =>
    obtain ⟨l, hl, heq⟩ := Option.map_eq_some_iff.mp hstep
    cases heq
    exact inv_renew h hl
  | loopStart =>
    cases hstep
    exact inv_loopStart h
  | turnEnd =>
    obtain ⟨begun, hbegun, heq⟩ := Option.map_eq_some_iff.mp hstep
    cases heq
    exact inv_turnEnd h hbegun

/-! ### The budget of a guard -/

/-- The soft deadline of a guard. -/
def GuardSettings.soft (settings : GuardSettings) (llmTimeout toolTimeout : ℚ) : ℚ :=
  softDeadline settings.budgetS (max settings.reserveS (turnFloor llmTimeout toolTimeout))

variable {settings : GuardSettings} {llmTimeout toolTimeout : ℚ}

theorem soft_pos (settings : GuardSettings) (llmTimeout toolTimeout : ℚ) : 0 ≤ settings.soft llmTimeout toolTimeout := by
  have hhalf : 0 ≤ settings.budgetS * (1 / 2) := mul_nonneg (le_of_lt settings.budget_pos) (by norm_num)
  exact hhalf.trans (le_max_right _ _)

/-- A turn that begins before the soft deadline ends before the hard one. -/
theorem soft_add_floor (hfloor : 2 * turnFloor llmTimeout toolTimeout ≤ settings.budgetS) :
    settings.soft llmTimeout toolTimeout + turnFloor llmTimeout toolTimeout ≤ settings.budgetS := by
  unfold GuardSettings.soft softDeadline
  have hreserve := le_max_right settings.reserveS (turnFloor llmTimeout toolTimeout)
  rcases max_cases (settings.budgetS - max settings.reserveS (turnFloor llmTimeout toolTimeout)) (settings.budgetS * (1 / 2))
    with ⟨heq, -⟩ | ⟨heq, -⟩
  · rw [heq]
    linarith
  · rw [heq]
    linarith

/-- Every turn that ended was in the budget, and the one that goes on began before the
soft deadline. -/
structure Within (settings : GuardSettings) (llmTimeout toolTimeout : ℚ) (s : System) : Prop where
  budget : s.observer.deadlineS = settings.budgetS
  ended : ∀ e ∈ s.log, e.elapsed ≤ settings.soft llmTimeout toolTimeout + turnFloor llmTimeout toolTimeout
  soft : s.observer.start ≠ none → s.observer.softDeadlineS = settings.soft llmTimeout toolTimeout
  began : ∀ begun, s.observer.start = some begun → (∀ e ∈ s.log, e.stops = false) →
    s.turnBegan - anchor s.lease begun ≤ settings.soft llmTimeout toolTimeout

theorem le_anchor (lease : Option Lease) (begun : ℚ) : begun ≤ anchor lease begun := by
  cases lease with
  | none => exact le_refl _
  | some l => exact l.start_le_anchor begun

/-- A renewal only pushes the deadline back. -/
theorem anchor_renew {l : Lease} (hbegun : begun ≤ now) (hlatest : ∀ r, l.latestRenewal = some r → r ≤ now) :
    anchor (some l) begun ≤ anchor (some (l.renew now)) begun :=
  (Lease.anchor_le hbegun hlatest).trans (Lease.renewal_le_anchor rfl begun)

theorem within_loopStart (hbudget : s.observer.deadlineS = settings.budgetS) :
    Within settings llmTimeout toolTimeout { s with
      observer := guardOnLoopStart settings.reserveS llmTimeout toolTimeout s.observer s.lease s.clock
      turnBegan := s.clock, log := [] } where
  budget := hbudget
  ended := nofun
  soft _ := by
    show softDeadline s.observer.deadlineS _ = _
    rw [hbudget]
    rfl
  began begun hbegun _ := by
    obtain rfl := Option.some.inj hbegun
    have hpos := soft_pos settings llmTimeout toolTimeout
    have hle := le_anchor s.lease s.clock
    dsimp only
    linarith

/-- The deadlines do not change in a turn. -/
theorem onTurnEnd_keeps (hstart : o.start = some begun) :
    (onTurnEnd o lease now).1.deadlineS = o.deadlineS ∧ (onTurnEnd o lease now).1.start = o.start ∧
      (onTurnEnd o lease now).1.softDeadlineS = o.softDeadlineS ∧ (onTurnEnd o lease now).1.boundAt = o.boundAt := by
  have hkeeps : (o.noticeRenewal lease).deadlineS = o.deadlineS := by
    rcases noticeRenewal_cases o lease with ⟨heq, -⟩ | ⟨l, -, -, heq⟩
    · rw [heq]
    · rw [heq]
  obtain ⟨hsoft, hsame, hbound⟩ := noticeRenewal_keeps o lease
  rcases onTurnEnd_cases hstart with ⟨-, text, heq⟩ | ⟨-, -, text, heq⟩ | ⟨-, heq⟩
  all_goals
    rw [heq]
    exact ⟨hkeeps, hsame, hsoft, hbound⟩

theorem within_turnEnd (h : Within settings llmTimeout toolTimeout s) (hinv : Inv s)
    (hbegun : s.observer.start = some begun) (hturn : s.clock - s.turnBegan ≤ turnFloor llmTimeout toolTimeout)
    (hgoes : ∀ e ∈ s.log, e.stops = false)
    (hstep : step (.subAgent settings llmTimeout toolTimeout) s .turnEnd = some s') :
    Within settings llmTimeout toolTimeout s' := by
  have htimely := inv_turnEnd hinv hbegun
  obtain ⟨hdeadline, hstart, hsoft, hbound⟩ := @onTurnEnd_keeps s.observer s.lease s.clock begun hbegun
  obtain ⟨hlease, hle⟩ := hinv.bound begun hbegun
  have helapsed : (onTurnEnd s.observer s.lease s.clock).1.elapsed begun s.lease s.clock = s.clock - anchor s.lease begun := by
    rw [elapsed_of_bound hbound]
    exact elapsed_eq hlease (hinv.anchor_le hle)
  obtain ⟨begun', hbegun', heq⟩ := Option.map_eq_some_iff.mp hstep
  obtain rfl : begun' = begun := Option.some.inj (hbegun'.symm.trans hbegun)
  cases heq
  have hbegan := h.began begun' hbegun hgoes
  have hset := h.soft (by rw [hbegun]; exact Option.some_ne_none _)
  refine ⟨hdeadline.trans h.budget, ?_, fun _ => hsoft.trans hset, ?_⟩
  · intro e he
    rcases List.mem_append.mp he with he | he
    · exact h.ended e he
    · rw [List.mem_singleton.mp he]
      dsimp only
      rw [helapsed]
      linarith
  · -- The loop goes on, so this turn ended before the soft deadline.
    intro again hagain hall
    obtain rfl : again = begun' := Option.some.inj (hagain.symm.trans (hstart.trans hbegun))
    have hlast := hall _ (List.mem_append_right _ (List.mem_singleton_self _))
    have hstops := htimely.stops_iff _ (List.mem_append_right _ (List.mem_singleton_self _))
    rw [hlast] at hstops
    have hlt := fun hle => Bool.false_ne_true (hstops.mpr hle)
    dsimp only at hlt ⊢
    rw [helapsed, hsoft, hset] at hlt
    exact le_of_lt (not_le.mp hlt)

theorem within_step (h : Within settings llmTimeout toolTimeout s) (hinv : Inv s) {past : List Event} {e : Event}
    (hbounded : Bounded (turnFloor llmTimeout toolTimeout) past s e)
    (hstep : step (.subAgent settings llmTimeout toolTimeout) s e = some s') : Within settings llmTimeout toolTimeout s' := by
  cases e with
  | tick seconds =>
    obtain ⟨-, heq⟩ := Option.ite_none_right_eq_some.mp hstep
    cases heq
    exact { h with }
  | renew =>
    obtain ⟨l, hl, heq⟩ := Option.map_eq_some_iff.mp hstep
    cases heq
    refine { h with began := fun begun hbegun hgoes => ?_ }
    have hlater := anchor_renew (hinv.bound begun hbegun).2 (hinv.latest_le l hl)
    have hbegan := h.began begun hbegun hgoes
    rw [hl] at hbegan
    dsimp only
    linarith
  | loopStart =>
    cases hstep
    exact within_loopStart h.budget
  | turnEnd =>
    obtain ⟨begun, hbegun, -⟩ := Option.map_eq_some_iff.mp hstep
    exact within_turnEnd h hinv hbegun hbounded.1 hbounded.2 hstep

/-- **A guard in any run** stops at the turns that end after its soft deadline and warns
once for each renewal. Where its budget is two longest turns or more, and no turn takes
longer than the longest or comes after a stop, no turn runs over the budget. -/
theorem guard_in_time {lease : Option Lease} (hlease : ∀ l, lease = some l → ∀ r, l.latestRenewal = some r → r ≤ now)
    (es : List Event) :
    (∀ s, Runs.run (step (.subAgent settings llmTimeout toolTimeout))
        (start (.subAgent settings llmTimeout toolTimeout) lease now) es = some s → Timely s) ∧
      (2 * turnFloor llmTimeout toolTimeout ≤ settings.budgetS → ∀ s,
        Runs.Trace (step (.subAgent settings llmTimeout toolTimeout)) (Bounded (turnFloor llmTimeout toolTimeout))
          (start (.subAgent settings llmTimeout toolTimeout) lease now) es s →
        ∀ e ∈ s.log, e.elapsed ≤ settings.budgetS) := by
  constructor
  · intro s hrun
    have hinv := (Runs.Trace.of_run_any hrun).invariant (I := fun _ s => Inv s) (inv_start hlease)
      fun _ _ _ _ hI _ hstep => inv_step hI hstep
    exact hinv.toTimely
  · intro hfloor s h
    have hinv := h.invariant (I := fun _ s => Inv s ∧ Within settings llmTimeout toolTimeout s)
      ⟨inv_start hlease, rfl, nofun, fun hstarted => absurd rfl hstarted, fun _ hbegun => by cases hbegun⟩
      fun _ _ _ _ hI hP hstep => ⟨inv_step hI.1 hstep, within_step hI.2 hI.1 hP hstep⟩
    exact fun e he => (hinv.2.ended e he).trans (soft_add_floor hfloor)

/-- A thousand seconds, for requests and tools of a minute each. -/
def shortGuard : Role := .subAgent ⟨1000, 100, by norm_num⟩ 60 60

def fullTurns : List Event := .loopStart :: (List.replicate 5 [Event.tick 180, .turnEnd]).flatten

/-- The longest turns there can be: warned in the fourth, and stopped in the fifth. -/
theorem guard_in_time_full : ∃ s, Runs.run (step shortGuard) (start shortGuard (some {}) 0) fullTurns = some s ∧
    s.log.map (fun e => (e.warns, e.stops)) =
      [(false, false), (false, false), (false, false), (true, false), (false, true)] ∧
    Timely s ∧ ∀ e ∈ s.log, e.elapsed ≤ 1000 := by
  have hrun : (Runs.run (step shortGuard) (start shortGuard (some {}) 0) fullTurns).map
      (fun s => s.log.map fun e => (e.warns, e.stops)) =
        some [(false, false), (false, false), (false, false), (true, false), (false, true)] := by
    decide +kernel
  have hmeets : Runs.meets (step shortGuard) (fun past s e => decide (Bounded (turnFloor 60 60) past s e)) []
      (start shortGuard (some {}) 0) fullTurns = true := by
    decide +kernel
  obtain ⟨s, hs, hlog⟩ := Option.map_eq_some_iff.mp hrun
  have htrace := Runs.Trace.of_run (fun _ _ _ hP => of_decide_eq_true hP) hmeets hs
  have hlease : ∀ l : Lease, some ({} : Lease) = some l → ∀ r, l.latestRenewal = some r → r ≤ 0 := by
    rintro l hl r hr
    cases hl
    cases hr
  have hguard : (∀ s, Runs.run (step shortGuard) (start shortGuard (some {}) 0) fullTurns = some s → Timely s) ∧
      (2 * turnFloor 60 60 ≤ 1000 → ∀ s, Runs.Trace (step shortGuard) (Bounded (turnFloor 60 60))
        (start shortGuard (some {}) 0) fullTurns s → ∀ e ∈ s.log, e.elapsed ≤ 1000) :=
    guard_in_time hlease fullTurns
  exact ⟨s, hs, hlog, hguard.1 s hs, hguard.2 (by norm_num [turnFloor]) s htrace⟩

end AgentCore.Observers.WallClock
