/-
# A window on the end of a list

A queue of bounded length that drops its oldest entry for a new one holds the last
entries of all that were ever put in (`push_rtake`). So the copies of an entry at
the end of the queue are those at the end of the whole list, as far as the queue
reaches (`trailing_rtake`).

Entries may also be marked when they are put in, and wipe all marks before them: a
queue that keeps the marks of its entries (`mark`) holds those that are left
(`mark_rtake`), and as many as there are hits since the last entry that wipes
(`count_marks`).

Key definitions: `Window.push`, `Window.trailing`, `Window.marks`, `Window.strikes`.
Key theorems: `Window.push_rtake`, `Window.trailing_rtake`, `Window.le_trailing_iff`,
`Window.mark_rtake`, `Window.count_marks`.
-/
import Mathlib.Data.List.DropRight

namespace Window

variable {α : Type*}

/-- A new entry at the end; from the front what no longer fits is dropped. -/
def push (size : ℕ) (queue : List α) (x : α) : List α := (queue ++ [x]).rtake size

/-- The copies of `x` at the end of a list. -/
def trailing [DecidableEq α] (x : α) (l : List α) : ℕ := (l.reverse.takeWhile (· = x)).length

theorem push_rtake (size : ℕ) (l : List α) (x : α) : push size (l.rtake size) x = (l ++ [x]).rtake size := by
  unfold push
  cases size with
  | zero => rw [List.rtake_zero, List.rtake_zero]
  | succ n =>
    rw [List.rtake_concat_succ, List.rtake_concat_succ]
    simp [List.rtake_eq_reverse_take_reverse, List.take_take]

/-! ### Marks -/

section Marks

variable (wipes hits : α → Bool)

/-- A new entry wipes the marks in the queue, or not, and puts in its own. -/
def mark (size : ℕ) (queue : List Bool) (x : α) : List Bool :=
  push size (if wipes x then queue.map fun _ => false else queue) (hits x && !wipes x)

/-- The marks that are left of all entries. -/
def marks (l : List α) : List Bool := l.foldl (fun ms x => mark wipes hits (ms.length + 1) ms x) []

/-- The hits since the last entry that wipes, among the last `size` entries. -/
def strikes (size : ℕ) (l : List α) : ℕ := ((l.rtake size).reverse.takeWhile fun x => !wipes x).countP hits

theorem rtake_of_length_le {l : List α} {n : ℕ} (h : l.length ≤ n) : l.rtake n = l := by
  unfold List.rtake
  rw [Nat.sub_eq_zero_of_le h, List.drop_zero]

theorem map_rtake {β : Type*} (f : α → β) (l : List α) (n : ℕ) : (l.rtake n).map f = (l.map f).rtake n := by
  unfold List.rtake
  rw [List.map_drop, List.length_map]

theorem marks_concat (l : List α) (x : α) : marks wipes hits (l ++ [x]) =
    (if wipes x then (marks wipes hits l).map fun _ => false else marks wipes hits l) ++ [hits x && !wipes x] := by
  have hlen : ((if wipes x then (marks wipes hits l).map fun _ => false else marks wipes hits l) ++
      [hits x && !wipes x]).length ≤ (marks wipes hits l).length + 1 := by
    rw [List.length_append, List.length_singleton]
    split
    · rw [List.length_map]
    · exact Nat.le_refl _
  have hfold : marks wipes hits (l ++ [x]) =
      mark wipes hits ((marks wipes hits l).length + 1) (marks wipes hits l) x := by
    unfold marks
    rw [List.foldl_append, List.foldl_cons, List.foldl_nil]
  rw [hfold]
  exact rtake_of_length_le hlen

/-- **A queue of marks** holds the last of the marks that are left. -/
theorem mark_rtake (size : ℕ) (l : List α) (x : α) :
    mark wipes hits size ((marks wipes hits l).rtake size) x = (marks wipes hits (l ++ [x])).rtake size := by
  rw [marks_concat]
  unfold mark
  by_cases hx : wipes x = true
  · rw [if_pos hx, if_pos hx, map_rtake, push_rtake]
  · rw [if_neg hx, if_neg hx, push_rtake]

/-- **Marks are strikes**: as many are left in the queue as there are hits since the
last entry that wipes. -/
theorem count_marks (size : ℕ) (l : List α) : ((marks wipes hits l).rtake size).count true = strikes wipes hits size l := by
  induction l using List.reverseRecOn generalizing size with
  | nil =>
    unfold marks strikes List.rtake
    simp
  | append_singleton l x ih =>
    cases size with
    | zero =>
      unfold strikes
      rw [List.rtake_zero, List.rtake_zero]
      rfl
    | succ n =>
      unfold strikes
      rw [marks_concat, List.rtake_concat_succ, List.rtake_concat_succ, List.reverse_append, List.reverse_singleton,
        List.singleton_append, List.count_append]
      by_cases hx : wipes x = true
      · have hnone : (((marks wipes hits l).map fun _ => false).rtake n).count true = 0 := by
          rw [← map_rtake, List.count_eq_zero]
          simp
        rw [if_pos hx, hnone, List.takeWhile_cons_of_neg (by simp [hx])]
        simp [hx]
      · have hrest := ih n
        unfold strikes at hrest
        rw [if_neg hx, hrest, List.takeWhile_cons_of_pos (by simp [hx]), List.countP_cons]
        have hx : wipes x = false := by simpa using hx
        cases hits x <;> simp [hx]

end Marks

variable [DecidableEq α]

theorem trailing_concat_self (x : α) (l : List α) : trailing x (l ++ [x]) = trailing x l + 1 := by
  unfold trailing
  rw [List.reverse_append, List.reverse_singleton, List.singleton_append, List.takeWhile_cons_of_pos (by simp),
    List.length_cons]

theorem trailing_concat_ne {x y : α} (l : List α) (h : y ≠ x) : trailing x (l ++ [y]) = 0 := by
  unfold trailing
  rw [List.reverse_append, List.reverse_singleton, List.singleton_append,
    List.takeWhile_cons_of_neg (by simpa using h), List.length_nil]

theorem trailing_rtake (x : α) (l : List α) (n : ℕ) : trailing x (l.rtake n) = min n (trailing x l) := by
  unfold trailing
  rw [List.rtake_eq_reverse_take_reverse, List.reverse_reverse, ← List.take_takeWhile, List.length_take]

/-- At least `n` copies stand at the end iff the last `n` entries are copies. -/
theorem le_trailing_iff {x : α} {l : List α} {n : ℕ} : n ≤ trailing x l ↔ n ≤ l.length ∧ ∀ y ∈ l.rtake n, y = x := by
  have hpre : l.reverse.takeWhile (· = x) <+: l.reverse := List.takeWhile_prefix _
  unfold trailing
  constructor
  · intro h
    have hlen : n ≤ l.length := by
      have := hpre.length_le
      rw [List.length_reverse] at this
      omega
    refine ⟨hlen, fun y hy => ?_⟩
    have htake : l.reverse.take n = (l.reverse.takeWhile (· = x)).take n := by
      rw [List.prefix_iff_eq_take.mp hpre, List.take_take, min_eq_left h]
    rw [List.rtake_eq_reverse_take_reverse, List.mem_reverse, htake] at hy
    simpa using List.mem_takeWhile_imp (List.mem_of_mem_take hy)
  · rintro ⟨hlen, hall⟩
    have hself : (l.reverse.take n).takeWhile (· = x) = l.reverse.take n := by
      rw [List.takeWhile_eq_self_iff]
      intro y hy
      have := hall y (by rwa [List.rtake_eq_reverse_take_reverse, List.mem_reverse])
      simpa using this
    rw [← List.take_takeWhile] at hself
    have := congrArg List.length hself
    rw [List.length_take, List.length_take, List.length_reverse] at this
    omega

/-- A run that is longer has been as long as this before. -/
theorem trailing_take_of_le {x : α} {l : List α} {n : ℕ} (h : n ≤ trailing x l) :
    trailing x (l.take (l.length - n)) = trailing x l - n := by
  induction n generalizing l with
  | zero => rw [Nat.sub_zero, Nat.sub_zero, List.take_length]
  | succ n ih =>
    induction l using List.reverseRecOn with
    | nil => cases h
    | append_singleton l y _ =>
      by_cases hy : y = x
      · subst hy
        rw [trailing_concat_self] at h ⊢
        rw [List.length_append, List.length_singleton, Nat.add_sub_add_right, Nat.add_sub_add_right,
          List.take_append_of_le_length (Nat.sub_le _ _)]
        exact ih (Nat.le_of_succ_le_succ h)
      · rw [trailing_concat_ne l hy] at h
        cases h

end Window
