/-
# Lines

A list split at every separator, its lines. A line is a stretch without separators that
cannot be made longer (`mem_splitOnP_iff`), and what is appended to a list goes on with
its last line (`splitOnP_append`).

Key definition: `IsLine`.
Key theorems: `splitOnP_append`, `mem_splitOnP_iff`.
-/
import Mathlib.Data.List.Basic

namespace Lines

variable {α : Type*} {p : α → Bool}

/-- A maximal stretch without separators. -/
def IsLine (p : α → Bool) (xs line : List α) : Prop :=
  ∃ before after, xs = before ++ line ++ after ∧ (∀ x ∈ line, p x = false) ∧
    (∀ x ∈ before.getLast?, p x = true) ∧ ∀ x ∈ after.head?, p x = true

/-- A list has no separator, or a first one. -/
theorem clear_or_first : ∀ xs : List α, (∀ x ∈ xs, p x = false) ∨
    ∃ line sep rest, xs = line ++ sep :: rest ∧ (∀ x ∈ line, p x = false) ∧ p sep = true
  | [] => .inl (by simp)
  | x :: xs => by
    by_cases hx : p x = true
    · exact .inr ⟨[], x, xs, rfl, by simp, hx⟩
    · have hx : p x = false := by simpa using hx
      rcases clear_or_first xs with hclear | ⟨line, sep, rest, rfl, hline, hsep⟩
      · exact .inl (by simpa [hx] using hclear)
      · exact .inr ⟨x :: line, sep, rest, rfl, by simpa [hx] using hline, hsep⟩

theorem splitOnP_append (xs ys : List α) : (xs ++ ys).splitOnP p =
    (xs.splitOnP p).dropLast ++ (ys.splitOnP p).modifyHead ((xs.splitOnP p).getLastD [] ++ ·) := by
  induction xs with
  | nil =>
    obtain ⟨first, others, hys⟩ := List.exists_cons_of_ne_nil (List.splitOnP_ne_nil p ys)
    simp [hys]
  | cons x xs ih =>
    have hne : xs.splitOnP p ≠ [] := List.splitOnP_ne_nil p xs
    obtain ⟨line, lines, hlines⟩ := List.exists_cons_of_ne_nil hne
    rw [List.cons_append, List.splitOnP_cons_eq_if_modifyHead, List.splitOnP_cons_eq_if_modifyHead, ih, hlines]
    by_cases hx : p x = true
    · simp [hx]
    · cases lines with
      | nil =>
        obtain ⟨first, others, hys⟩ := List.exists_cons_of_ne_nil (List.splitOnP_ne_nil p ys)
        simp [hx, hys]
      | cons next lines => simp [hx]

theorem isLine_of_mem (n : ℕ) : ∀ {xs line : List α}, xs.length ≤ n → line ∈ xs.splitOnP p → IsLine p xs line := by
  induction n with
  | zero =>
    intro xs line hlen h
    obtain rfl := List.eq_nil_of_length_eq_zero (Nat.le_zero.mp hlen)
    rw [List.splitOnP_nil, List.mem_singleton] at h
    exact ⟨[], [], by rw [h]; rfl, by simp [h], by simp, by simp⟩
  | succ n ih =>
    intro xs line hlen h
    rcases clear_or_first (p := p) xs with hclear | ⟨first, sep, rest, rfl, hfirst, hsep⟩
    · rw [List.splitOnP_eq_singleton hclear, List.mem_singleton] at h
      subst h
      exact ⟨[], [], by simp, hclear, by simp, by simp⟩
    · rw [List.splitOnP_append_cons_of_forall_mem hfirst sep hsep] at h
      rcases List.mem_cons.mp h with rfl | h
      · exact ⟨[], sep :: rest, by simp, hfirst, by simp, by simpa using hsep⟩
      · have hshort : rest.length ≤ n := by
          rw [List.length_append, List.length_cons] at hlen
          omega
        obtain ⟨before, after, rfl, hline, hbefore, hafter⟩ := ih hshort h
        refine ⟨first ++ sep :: before, after, by simp, hline, ?_, hafter⟩
        cases before with
        | nil => simpa using hsep
        | cons x before => simpa [List.getLast?_cons] using hbefore

/-- **The lines are the maximal stretches** without separators. -/
theorem mem_splitOnP_iff {xs line : List α} : line ∈ xs.splitOnP p ↔ IsLine p xs line := by
  refine ⟨isLine_of_mem xs.length (Nat.le_refl _), ?_⟩
  rintro ⟨before, after, rfl, hline, hbefore, hafter⟩
  -- the line is the first of what begins with it
  have hfirst : line ∈ (line ++ after).splitOnP p := by
    cases after with
    | nil =>
      rw [List.append_nil, List.splitOnP_eq_singleton hline]
      exact List.mem_singleton_self line
    | cons sep rest =>
      rw [List.splitOnP_append_cons_of_forall_mem hline sep (hafter sep rfl)]
      exact List.mem_cons_self
  rw [List.append_assoc]
  rcases List.eq_nil_or_concat before with rfl | ⟨front, sep, rfl⟩
  · exact hfirst
  · rw [List.concat_eq_append, List.append_assoc, List.singleton_append,
      List.splitOnP_append_cons _ _ (hbefore sep (by simp))]
    exact List.mem_append_right _ hfirst

end Lines
