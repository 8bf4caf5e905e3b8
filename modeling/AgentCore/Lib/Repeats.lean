/-
# Copies at the end of a list

`EndsIn k w l` says that the list ends in `k` copies of a word. The copies are
counted from the back (`le_copies_iff`), and a list that is periodic from some
place on ends, wherever it is cut far enough behind that place, in copies of its
own last entries (`endsIn_of_periodic`): which rotation of the pattern these are
does not matter.

Key definitions: `Repeats.EndsIn`, `Repeats.copies`, `Repeats.Periodic`.
Key theorems: `Repeats.le_copies_iff`, `Repeats.endsIn_of_periodic`.
-/
import Mathlib.Data.List.DropRight

namespace Repeats

variable {α : Type*}

/-- The list ends in `k` copies of the word. -/
def EndsIn (k : ℕ) (w l : List α) : Prop := (List.replicate k w).flatten <:+ l

theorem endsIn_zero (w l : List α) : EndsIn 0 w l := List.nil_suffix

/-- The last copy is the end of the list, and the others end what is above it. -/
theorem endsIn_succ {k : ℕ} {w l : List α} : EndsIn (k + 1) w l ↔ ∃ l', l = l' ++ w ∧ EndsIn k w l' := by
  have hflat : (List.replicate (k + 1) w).flatten = (List.replicate k w).flatten ++ w := by
    rw [List.replicate_succ', List.flatten_append]
    simp
  unfold EndsIn
  rw [hflat]
  constructor
  · rintro ⟨front, rfl⟩
    exact ⟨front ++ (List.replicate k w).flatten, by rw [List.append_assoc], List.suffix_append ..⟩
  · rintro ⟨l', rfl, front, rfl⟩
    exact ⟨front, by rw [List.append_assoc]⟩

theorem EndsIn.length_le {k : ℕ} {w l : List α} (h : EndsIn k w l) : k * w.length ≤ l.length := by
  have hle : (List.replicate k w).flatten.length ≤ l.length := List.IsSuffix.length_le h
  simpa using hle

/-! ### Counting from the back -/

/-- The copies of a word that end above place `pos`, and at most `n` of them. -/
def copies [DecidableEq α] (w l : List α) : ℕ → ℕ → ℕ
  | 0, _ => 0
  | n + 1, pos =>
    if w.length ≤ pos ∧ (l.take pos).drop (pos - w.length) = w then copies w l n (pos - w.length) + 1 else 0

theorem le_copies_iff [DecidableEq α] {w l : List α} (hw : w ≠ []) {n pos k : ℕ} (hn : pos ≤ n)
    (hl : pos ≤ l.length) : k ≤ copies w l n pos ↔ EndsIn k w (l.take pos) := by
  have hpos : 0 < w.length := List.length_pos_iff.mpr hw
  induction n generalizing pos k with
  | zero =>
    have h0 : pos = 0 := by omega
    subst h0
    cases k with
    | zero => simp [endsIn_zero]
    | succ k =>
      refine iff_of_false (by simp [copies]) fun h => ?_
      obtain ⟨l', hl', -⟩ := endsIn_succ.mp h
      rw [List.take_zero] at hl'
      exact hw (List.append_eq_nil_iff.mp hl'.symm).2
  | succ n ih =>
    cases k with
    | zero => simp [endsIn_zero]
    | succ k =>
      have hsplit : l.take (pos - w.length) ++ (l.take pos).drop (pos - w.length) = l.take pos := by
        have := List.take_append_drop (pos - w.length) (l.take pos)
        rwa [List.take_take, Nat.min_eq_left (by omega)] at this
      unfold copies
      by_cases hc : w.length ≤ pos ∧ (l.take pos).drop (pos - w.length) = w
      · have hrec : k ≤ copies w l n (pos - w.length) ↔ EndsIn k w (l.take (pos - w.length)) :=
          ih (by omega) (by omega)
        rw [if_pos hc, Nat.add_le_add_iff_right, hrec, endsIn_succ]
        rw [hc.2] at hsplit
        constructor
        · exact fun h => ⟨_, hsplit.symm, h⟩
        · rintro ⟨l', hl', h⟩
          rw [← hsplit] at hl'
          rwa [List.append_cancel_right hl']
      · rw [if_neg hc]
        refine iff_of_false (by omega) fun h => hc ?_
        obtain ⟨l', hl', -⟩ := endsIn_succ.mp h
        have hlen : l'.length + w.length = pos := by
          rw [← List.length_append, ← hl', List.length_take]
          omega
        refine ⟨by omega, ?_⟩
        rw [hl', List.drop_left' (by omega)]

/-! ### Periodic lists -/

/-- From place `s` on entries `p` apart are equal. -/
def Periodic (p s : ℕ) (l : List α) : Prop := ∀ i, s ≤ i → i + p < l.length → l[i]? = l[i + p]?

theorem Periodic.take {p s : ℕ} {l : List α} (h : Periodic p s l) (n : ℕ) : Periodic p s (l.take n) := by
  intro i hi hlt
  rw [List.length_take] at hlt
  rw [List.getElem?_take_of_lt (by omega), List.getElem?_take_of_lt (by omega)]
  exact h i hi (by omega)

/-- A periodic list ends in copies of its last entries. -/
theorem endsIn_of_periodic {p s : ℕ} {l : List α} (h : Periodic p s l) {k : ℕ} (hk : s + k * p ≤ l.length) :
    EndsIn k (l.rtake p) l := by
  induction k generalizing l with
  | zero => exact endsIn_zero ..
  | succ k ih =>
    have hmul : (k + 1) * p = k * p + p := Nat.succ_mul ..
    have hsplit : l = l.take (l.length - p) ++ l.rtake p := (List.take_append_drop ..).symm
    refine endsIn_succ.mpr ⟨_, hsplit, ?_⟩
    cases k with
    | zero => exact endsIn_zero ..
    | succ k =>
      have hmul' : (k + 1) * p = k * p + p := Nat.succ_mul ..
      have hlen : (l.take (l.length - p)).length = l.length - p := by
        rw [List.length_take]
        omega
      -- the last entries of the shorter list are those of the list, one period earlier
      have hsame : (l.take (l.length - p)).rtake p = l.rtake p := by
        unfold List.rtake
        rw [hlen]
        apply List.ext_getElem?
        intro i
        rw [List.getElem?_drop, List.getElem?_drop]
        by_cases hi : i < p
        · rw [List.getElem?_take_of_lt (by omega), h _ (by omega) (by omega)]
          congr 1
          omega
        · rw [List.getElem?_eq_none (by omega), List.getElem?_eq_none (by omega)]
      have hend := ih (h.take (l.length - p)) (by rw [hlen]; omega)
      rwa [hsame] at hend

end Repeats
