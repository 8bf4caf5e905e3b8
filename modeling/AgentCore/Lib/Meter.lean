/-
# Meters

A meter has a level that rises with the clock, by at most `rate`, and never above
`capacity`. An entry takes from the level or gives to it; what is taken is covered, that
is, the level is not negative after it. So no window of time sees more taken than one
full meter, the inflow of the window and what was given in it (`Sound.window`), whatever
the order of the steps.

Key definitions: `Meter`, `Step`, `Sound`.
Key theorem: `Sound.of_run`.
-/
import Mathlib.Algebra.Order.Field.Basic
import Mathlib.Logic.Relation
import Mathlib.Tactic.Linarith
import Mathlib.Tactic.Ring

namespace Meters

structure Entry (K : Type*) where
  time : K
  taken : K
  given : K

structure Meter (K : Type*) where
  level : K
  clock : K
  entries : List (Entry K)

variable {K : Type*} [Field K] [LinearOrder K]

/-- Time passes or an entry is made. -/
inductive Step (capacity rate : K) : Meter K → Meter K → Prop
  | flow {m : Meter K} {level clock : K} (hclock : m.clock ≤ clock) (hcap : level ≤ capacity)
      (hrise : level ≤ m.level + rate * (clock - m.clock)) :
      Step capacity rate m { m with level := level, clock := clock }
  | enter {m : Meter K} {level taken given : K} (hcap : level ≤ capacity)
      (hbalance : level + taken ≤ m.level + given) (hcover : taken = 0 ∨ 0 ≤ level)
      (hgiven : 0 ≤ given) :
      Step capacity rate m { m with level := level, entries := m.entries ++ [⟨m.clock, taken, given⟩] }

/-- The sum of a part of the entries made from `a` to `b`. -/
def sumIn (f : Entry K → K) (a b : K) (es : List (Entry K)) : K :=
  ((es.filter fun e => a ≤ e.time ∧ e.time ≤ b).map f).sum

section Sums

variable (f : Entry K → K) {a b : K}

theorem sumIn_append (es : List (Entry K)) (e : Entry K) :
    sumIn f a b (es ++ [e]) = sumIn f a b es + if a ≤ e.time ∧ e.time ≤ b then f e else 0 := by
  unfold sumIn
  by_cases h : a ≤ e.time ∧ e.time ≤ b
  · simp [h]
  · simp [h]

/-- Entries up to now: a later end of the window changes nothing. -/
theorem sumIn_of_past {es : List (Entry K)} {now : K} (hpast : ∀ e ∈ es, e.time ≤ now) (hb : now ≤ b) :
    sumIn f a b es = sumIn f a now es := by
  unfold sumIn
  congr 2
  refine List.filter_congr fun e he => ?_
  have h1 : e.time ≤ now := hpast e he
  have h2 : e.time ≤ b := h1.trans hb
  simp [h1, h2]

theorem sumIn_of_lt {es : List (Entry K)} {now : K} (hpast : ∀ e ∈ es, e.time ≤ now) (ha : now < a) :
    sumIn f a b es = 0 := by
  have hnone : (es.filter fun e => a ≤ e.time ∧ e.time ≤ b) = [] := by
    rw [List.filter_eq_nil_iff]
    intro e he
    have h1 : ¬ a ≤ e.time := ((hpast e he).trans_lt ha).not_ge
    simp [h1]
  unfold sumIn
  rw [hnone]
  rfl

end Sums

/-- What holds of a meter on the way: `since` carries `window`. -/
structure Sound (capacity rate : K) (m : Meter K) : Prop where
  past : ∀ e ∈ m.entries, e.time ≤ m.clock
  level_le : m.level ≤ capacity
  since : ∀ a ≤ m.clock, sumIn Entry.taken a m.clock m.entries + m.level ≤
    capacity + rate * (m.clock - a) + sumIn Entry.given a m.clock m.entries
  window : ∀ a b, a ≤ b → sumIn Entry.taken a b m.entries ≤
    capacity + rate * (b - a) + sumIn Entry.given a b m.entries

variable [IsStrictOrderedRing K] {capacity rate : K}

theorem Sound.init (hrate : 0 ≤ rate) (hcapacity : 0 ≤ capacity) {level clock : K} (hlevel : level ≤ capacity) :
    Sound capacity rate ⟨level, clock, []⟩ where
  past e he := by cases he
  level_le := hlevel
  since a ha := by
    have hinflow : 0 ≤ rate * (clock - a) := mul_nonneg hrate (sub_nonneg.mpr ha)
    simp only [sumIn, List.filter_nil, List.map_nil, List.sum_nil]
    linarith
  window a b hab := by
    have hinflow : 0 ≤ rate * (b - a) := mul_nonneg hrate (sub_nonneg.mpr hab)
    simp only [sumIn, List.filter_nil, List.map_nil, List.sum_nil]
    linarith

theorem Sound.flow (hrate : 0 ≤ rate) {m : Meter K} (h : Sound capacity rate m) {level clock : K}
    (hclock : m.clock ≤ clock) (hcap : level ≤ capacity) (hrise : level ≤ m.level + rate * (clock - m.clock)) :
    Sound capacity rate { m with level := level, clock := clock } where
  past e he := (h.past e he).trans hclock
  level_le := hcap
  since a ha := by
    show sumIn Entry.taken a clock m.entries + level ≤
      capacity + rate * (clock - a) + sumIn Entry.given a clock m.entries
    by_cases hnow : a ≤ m.clock
    · rw [sumIn_of_past _ h.past hclock, sumIn_of_past _ h.past hclock]
      have hsince := h.since a hnow
      have hsplit : rate * (clock - a) = rate * (m.clock - a) + rate * (clock - m.clock) := by ring
      linarith
    · -- the window has only just been reached
      rw [sumIn_of_lt _ h.past (not_le.mp hnow), sumIn_of_lt _ h.past (not_le.mp hnow)]
      have hinflow : 0 ≤ rate * (clock - a) := mul_nonneg hrate (sub_nonneg.mpr ha)
      linarith
  window := h.window

theorem Sound.enter (hrate : 0 ≤ rate) {m : Meter K} (h : Sound capacity rate m) {level taken given : K}
    (hcap : level ≤ capacity) (hbalance : level + taken ≤ m.level + given) (hcover : taken = 0 ∨ 0 ≤ level)
    (hgiven : 0 ≤ given) :
    Sound capacity rate { m with level := level, entries := m.entries ++ [⟨m.clock, taken, given⟩] } where
  past e he := by
    rcases List.mem_append.mp he with he | he
    · exact h.past e he
    · rw [List.mem_singleton.mp he]
  level_le := hcap
  since a ha := by
    rw [sumIn_append, sumIn_append, if_pos ⟨ha, le_refl _⟩, if_pos ⟨ha, le_refl _⟩]
    have hsince := h.since a ha
    show sumIn Entry.taken a m.clock m.entries + taken + level ≤
      capacity + rate * (m.clock - a) + (sumIn Entry.given a m.clock m.entries + given)
    linarith
  window a b hab := by
    rw [sumIn_append, sumIn_append]
    have hwindow := h.window a b hab
    by_cases hin : a ≤ m.clock ∧ m.clock ≤ b
    · rw [if_pos hin, if_pos hin]
      show sumIn Entry.taken a b m.entries + taken ≤
        capacity + rate * (b - a) + (sumIn Entry.given a b m.entries + given)
      rcases hcover with hcover | hcover
      · linarith
      · rw [sumIn_of_past _ h.past hin.2, sumIn_of_past _ h.past hin.2]
        have hsince := h.since a hin.1
        have hshort : rate * (m.clock - a) ≤ rate * (b - a) :=
          mul_le_mul_of_nonneg_left (sub_le_sub_right hin.2 a) hrate
        linarith
    · rw [if_neg hin, if_neg hin, add_zero, add_zero]
      exact hwindow

/-- **The law of a meter**: what holds of it is kept in every run. -/
theorem Sound.of_run (hrate : 0 ≤ rate) {m m' : Meter K} (h : Sound capacity rate m)
    (hrun : Relation.ReflTransGen (Step capacity rate) m m') : Sound capacity rate m' := by
  induction hrun with
  | refl => exact h
  | tail _ hstep ih =>
    cases hstep with
    | flow hclock hcap hrise => exact ih.flow hrate hclock hcap hrise
    | enter hcap hbalance hcover hgiven => exact ih.enter hrate hcap hbalance hcover hgiven

end Meters
