/-
# Running a machine until it halts

A machine is a partial step function, which halts where it has no step.
`drive step n s` takes at most `n` steps; `steps step k s` is the state after
exactly `k` steps. A machine with a measure that falls at every step has
halted after enough of them (`halted_drive`), and then more fuel changes
nothing (`drive_stable`).
-/
import Mathlib.Data.Nat.Notation

namespace Halting

variable {S : Type} (step : S → Option S)

def drive : ℕ → S → S
  | 0, s => s
  | n + 1, s =>
    match step s with
    | none => s
    | some s' => drive n s'

def steps : ℕ → S → Option S
  | 0, s => some s
  | n + 1, s => (step s).bind (steps n)

variable {step} {s s' : S}

theorem drive_of_halted (h : step s = none) : ∀ n, drive step n s = s
  | 0 => rfl
  | n + 1 => by rw [drive, h]

theorem drive_of_step (h : step s = some s') (n : ℕ) : drive step (n + 1) s = drive step n s' := by
  rw [drive, h]

theorem drive_add (m n : ℕ) (s : S) : drive step (m + n) s = drive step n (drive step m s) := by
  induction m generalizing s with
  | zero => rw [Nat.zero_add, drive]
  | succ m ih =>
    cases h : step s with
    | none => rw [drive_of_halted h, drive_of_halted h, drive_of_halted h]
    | some s' => rw [Nat.succ_add, drive_of_step h, drive_of_step h, ih]

theorem drive_succ (n : ℕ) (s : S) : drive step (n + 1) s = (step (drive step n s)).getD (drive step n s) := by
  rw [drive_add, drive]
  cases step (drive step n s) with
  | none => rfl
  | some s' => rfl

theorem drive_of_steps {k : ℕ} (h : steps step k s = some s') (n : ℕ) :
    drive step (k + n) s = drive step n s' := by
  induction k generalizing s with
  | zero =>
    rw [steps, Option.some.injEq] at h
    rw [Nat.zero_add, h]
  | succ k ih =>
    obtain ⟨s₁, hs, hk⟩ := Option.bind_eq_some_iff.mp h
    rw [Nat.succ_add, drive_of_step hs, ih hk]

/-- More fuel than it takes to halt changes nothing. -/
theorem drive_stable {m n : ℕ} (h : step (drive step m s) = none) (hmn : m ≤ n) :
    drive step n s = drive step m s := by
  obtain ⟨k, rfl⟩ := Nat.exists_eq_add_of_le hmn
  rw [drive_add, drive_of_halted h]

/-- With a measure that falls at every step, enough steps lead to a halt. -/
theorem halted_drive {μ : S → ℕ} (hμ : ∀ s s', step s = some s' → μ s' < μ s) :
    ∀ {n : ℕ} {s : S}, μ s < n → step (drive step n s) = none
  | 0, _, h => absurd h (Nat.not_lt_zero _)
  | n + 1, s, h => by
    cases hs : step s with
    | none => rw [drive_of_halted hs, hs]
    | some s' =>
      rw [drive_of_step hs]
      have hlt := hμ s s' hs
      exact halted_drive hμ (by omega)

/-- What every step keeps holds where the machine is driven to. -/
theorem drive_keeps {I : S → Prop} (hI : ∀ s s', I s → step s = some s' → I s') (n : ℕ) (h : I s) :
    I (drive step n s) := by
  induction n generalizing s with
  | zero => exact h
  | succ n ih =>
    cases hs : step s with
    | none => rwa [drive_of_halted hs]
    | some s' =>
      rw [drive_of_step hs]
      exact ih (hI s s' h hs)

/-- Where a step shows no more of its state than it was given to see, neither does
a run. -/
theorem drive_congr {T : Type} {view : S → T}
    (hstep : ∀ a b, view a = view b → (step a).map view = (step b).map view) :
    ∀ (n : ℕ) {a b : S}, view a = view b → view (drive step n a) = view (drive step n b)
  | 0, _, _, h => h
  | n + 1, a, b, h => by
    have hs := hstep a b h
    cases ha : step a with
    | none =>
      rw [ha] at hs
      rw [drive_of_halted ha, drive_of_halted (Option.map_eq_none_iff.mp hs.symm), h]
    | some a' =>
      rw [ha] at hs
      obtain ⟨b', hb, hview⟩ := Option.map_eq_some_iff.mp hs.symm
      rw [drive_of_step ha, drive_of_step hb]
      exact drive_congr hstep n hview.symm

theorem steps_succ {k : ℕ} (h : steps step (k + 1) s = some s') :
    ∃ s₁, steps step k s = some s₁ ∧ step s₁ = some s' := by
  induction k generalizing s with
  | zero =>
    obtain ⟨s₁, hs, h0⟩ := Option.bind_eq_some_iff.mp h
    rw [steps, Option.some.injEq] at h0
    exact ⟨s, rfl, h0 ▸ hs⟩
  | succ k ih =>
    obtain ⟨s₁, hs, hk⟩ := Option.bind_eq_some_iff.mp h
    obtain ⟨s₂, hk', hs'⟩ := ih hk
    exact ⟨s₂, Option.bind_eq_some_iff.mpr ⟨s₁, hs, hk'⟩, hs'⟩

end Halting
