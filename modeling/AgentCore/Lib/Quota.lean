/-
# A quota that events give back

Events ask for a grant, give everything back, or do neither. A counter of the
grants since the last time everything was given back holds them to the quota, but
not all grants together: those stay within the quota iff no grant is left to be
had, too few are asked for, or nothing is given back between two that are
(`granted_le_iff`).

Key definitions: `Quota.granted`, `Quota.asks`, `Quota.Unbroken`.
Key theorem: `Quota.granted_le_iff`.
-/
import Mathlib.Data.List.Basic

namespace Quota

inductive Event
  | ask
  | giveBack
  | other
  deriving DecidableEq, Repr

open Event

variable (quota : ℕ)

/-- The grants made when `used` have been made since the last giving back. -/
def granted : ℕ → List Event → ℕ
  | _, [] => 0
  | used, ask :: es => if used < quota then granted (used + 1) es + 1 else granted used es
  | _, giveBack :: es => granted 0 es
  | used, other :: es => granted used es

def asks (es : List Event) : ℕ := es.count ask

/-- Nothing is given back in front of a request. -/
def Steady (es : List Event) : Prop := ∀ es₁ es₂, es = es₁ ++ ask :: es₂ → giveBack ∉ es₁

/-- Nothing is given back between two requests. -/
def Unbroken (es : List Event) : Prop :=
  ∀ es₁ es₂ es₃, es = es₁ ++ ask :: es₂ ++ ask :: es₃ → giveBack ∉ es₂

theorem Steady.tail {e : Event} {es : List Event} (h : Steady (e :: es)) : Steady es := by
  intro es₁ es₂ heq hmem
  exact h (e :: es₁) es₂ (by rw [heq, List.cons_append]) (List.mem_cons_of_mem _ hmem)

theorem Unbroken.tail {e : Event} {es : List Event} (h : Unbroken (e :: es)) : Unbroken es := by
  intro es₁ es₂ es₃ heq
  exact h (e :: es₁) es₂ es₃ (by rw [heq, List.cons_append, List.cons_append])

theorem Unbroken.steady {es : List Event} (h : Unbroken (ask :: es)) : Steady es :=
  fun es₁ es₂ heq => h [] es₁ es₂ (by rw [heq]; rfl)

/-- Where something is given back no request follows. -/
theorem Steady.asks_eq_zero {es : List Event} (h : Steady (giveBack :: es)) : asks es = 0 := by
  unfold asks
  rw [List.count_eq_zero]
  intro hmem
  obtain ⟨es₁, es₂, rfl⟩ := List.append_of_mem hmem
  exact h (giveBack :: es₁) es₂ rfl List.mem_cons_self

/-! ### Bounds -/

@[simp] theorem asks_nil : asks [] = 0 := rfl

@[simp] theorem asks_ask (es : List Event) : asks (ask :: es) = asks es + 1 := List.count_cons_self

@[simp] theorem asks_giveBack (es : List Event) : asks (giveBack :: es) = asks es :=
  List.count_cons_of_ne (by decide)

@[simp] theorem asks_other (es : List Event) : asks (other :: es) = asks es := List.count_cons_of_ne (by decide)

/-- Nothing is granted that is not asked for. -/
theorem granted_le_asks : ∀ (used : ℕ) (es : List Event), granted quota used es ≤ asks es
  | _, [] => Nat.le_refl _
  | used, ask :: es => by
    have h := granted_le_asks used es
    have h' := granted_le_asks (used + 1) es
    rw [granted, asks_ask]
    by_cases hlt : used < quota
    · rw [if_pos hlt]
      omega
    · rw [if_neg hlt]
      omega
  | _, giveBack :: es => by
    rw [granted, asks_giveBack]
    exact granted_le_asks 0 es
  | used, other :: es => by
    rw [granted, asks_other]
    exact granted_le_asks used es

theorem granted_zero : ∀ (used : ℕ) (es : List Event), granted 0 used es = 0
  | _, [] => rfl
  | used, ask :: es => by
    rw [granted, if_neg (Nat.not_lt_zero used)]
    exact granted_zero used es
  | _, giveBack :: es => granted_zero 0 es
  | used, other :: es => granted_zero used es

/-- What is left of the quota is granted where it is asked for. -/
theorem le_granted : ∀ (used : ℕ) (es : List Event), min (asks es) (quota - used) ≤ granted quota used es
  | _, [] => Nat.min_le_left ..
  | used, ask :: es => by
    have h := le_granted (used + 1) es
    rw [granted, asks_ask]
    by_cases hlt : used < quota
    · rw [if_pos hlt]
      omega
    · rw [if_neg hlt]
      omega
  | used, giveBack :: es => by
    have h := le_granted 0 es
    rw [granted, asks_giveBack]
    omega
  | used, other :: es => by
    rw [granted, asks_other]
    exact le_granted used es

theorem granted_append_le : ∀ (used : ℕ) (es es' : List Event),
    granted quota used es + granted quota 0 es' ≤ granted quota used (es ++ giveBack :: es')
  | used, [], es' => by
    have hnone : granted quota used ([] : List Event) = 0 := by rw [granted]
    have hback : granted quota used (giveBack :: es') = granted quota 0 es' := by rw [granted]
    rw [List.nil_append]
    omega
  | used, ask :: es, es' => by
    have h := granted_append_le used es es'
    have h' := granted_append_le (used + 1) es es'
    rw [List.cons_append, granted, granted]
    by_cases hlt : used < quota
    · rw [if_pos hlt, if_pos hlt]
      omega
    · rw [if_neg hlt, if_neg hlt]
      exact h
  | used, giveBack :: es, es' => by
    rw [List.cons_append, granted, granted]
    exact granted_append_le 0 es es'
  | used, other :: es, es' => by
    rw [List.cons_append, granted, granted]
    exact granted_append_le used es es'

theorem granted_le_of_steady : ∀ (used : ℕ) (es : List Event), Steady es → granted quota used es ≤ quota - used
  | _, [], _ => Nat.zero_le _
  | used, ask :: es, hs => by
    have h := granted_le_of_steady used es hs.tail
    have h' := granted_le_of_steady (used + 1) es hs.tail
    rw [granted]
    by_cases hlt : used < quota
    · rw [if_pos hlt]
      omega
    · rw [if_neg hlt]
      exact h
  | _, giveBack :: es, hs => by
    have hnone := hs.asks_eq_zero
    have hle := granted_le_asks quota 0 es
    rw [granted]
    omega
  | used, other :: es, hs => by
    rw [granted]
    exact granted_le_of_steady used es hs.tail

theorem granted_le_of_unbroken : ∀ es : List Event, Unbroken es → granted quota 0 es ≤ quota
  | [], _ => Nat.zero_le _
  | ask :: es, hu => by
    have h := granted_le_of_steady quota 1 es hu.steady
    rw [granted, Nat.zero_add]
    by_cases hlt : 0 < quota
    · rw [if_pos hlt]
      omega
    · rw [if_neg hlt]
      exact granted_le_of_unbroken es hu.tail
  | giveBack :: es, hu => by
    rw [granted]
    exact granted_le_of_unbroken es hu.tail
  | other :: es, hu => by
    rw [granted]
    exact granted_le_of_unbroken es hu.tail

/-- **All grants together** stay within the quota iff there is none, no more are asked
for, or nothing is given back between two requests. -/
theorem granted_le_iff (es : List Event) :
    granted quota 0 es ≤ quota ↔ quota = 0 ∨ asks es ≤ quota ∨ Unbroken es := by
  constructor
  · intro h
    by_contra hno
    obtain ⟨hquota, hno⟩ := not_or.mp hno
    obtain ⟨hasks, hbroken⟩ := not_or.mp hno
    unfold Unbroken at hbroken
    push Not at hbroken
    obtain ⟨es₁, es₂, es₃, rfl, hback⟩ := hbroken
    obtain ⟨mid, mid', rfl⟩ := List.append_of_mem hback
    -- both parts ask, and together for more than the quota
    have hsplit : es₁ ++ ask :: (mid ++ giveBack :: mid') ++ ask :: es₃ =
        (es₁ ++ ask :: mid) ++ giveBack :: (mid' ++ ask :: es₃) := by simp
    rw [hsplit] at h hasks
    have hfront : 1 ≤ asks (es₁ ++ ask :: mid) := List.one_le_count_iff.mpr (by simp)
    have hback : 1 ≤ asks (mid' ++ ask :: es₃) := List.one_le_count_iff.mpr (by simp)
    have hsum : asks ((es₁ ++ ask :: mid) ++ giveBack :: (mid' ++ ask :: es₃)) =
        asks (es₁ ++ ask :: mid) + asks (mid' ++ ask :: es₃) := by
      rw [← asks_giveBack (mid' ++ ask :: es₃)]
      exact List.count_append
    have happend := granted_append_le quota 0 (es₁ ++ ask :: mid) (mid' ++ ask :: es₃)
    have h₁ := le_granted quota 0 (es₁ ++ ask :: mid)
    have h₂ := le_granted quota 0 (mid' ++ ask :: es₃)
    omega
  · rintro (h | h | h)
    · subst h
      exact Nat.le_of_eq (granted_zero 0 es)
    · exact Nat.le_trans (granted_le_asks quota 0 es) h
    · exact granted_le_of_unbroken quota es h

end Quota
