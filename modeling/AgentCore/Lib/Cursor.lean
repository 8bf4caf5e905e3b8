/-
# Reading a log through a cursor

A log is a list whose entries have strictly increasing ordinals. A cursor
splits it into what has been read (`upTo`) and what has not (`beyond`). A
reader that takes a beginning of the rest and moves the cursor to its last
ordinal has read exactly that much more (`upTo_last`), and entries that join
the log later are beyond the cursor (`upTo_append`); so what a reader has taken
stays a beginning of the log.
-/
import Mathlib.Data.List.Basic
import Mathlib.Data.List.Pairwise
import Mathlib.Order.Defs.LinearOrder
import Mathlib.Order.Lattice

namespace Cursor

variable {α β : Type} [LinearOrder β] (ord : α → β)

/-- The ordinals are strictly increasing. -/
def Ordered (l : List α) : Prop := l.Pairwise fun x y => ord x < ord y

/-- What a reader at the cursor has read. -/
def upTo (c : β) (l : List α) : List α := l.filter fun x => ord x ≤ c

/-- What it has not. -/
def beyond (c : β) (l : List α) : List α := l.filter fun x => c < ord x

variable {ord} {l : List α}

theorem Ordered.filter (h : Ordered ord l) (p : α → Bool) : Ordered ord (l.filter p) := List.Pairwise.filter p h

theorem Ordered.append_singleton (h : Ordered ord l) {x : α} (hx : ∀ y ∈ l, ord y < ord x) :
    Ordered ord (l ++ [x]) :=
  List.pairwise_append.mpr ⟨h, List.pairwise_singleton _ _, fun y hy z hz => by
    rw [List.mem_singleton.mp hz]
    exact hx y hy⟩

theorem Ordered.of_initial {l' : List α} (h : Ordered ord l) (hp : l' <+: l) : Ordered ord l' :=
  List.Pairwise.sublist hp.sublist h

theorem upTo_append_beyond (h : Ordered ord l) (c : β) : upTo ord c l ++ beyond ord c l = l := by
  induction l with
  | nil => rfl
  | cons x xs ih =>
    obtain ⟨hx, hxs⟩ := List.pairwise_cons.mp h
    by_cases hc : ord x ≤ c
    · have hbeyond : beyond ord c (x :: xs) = beyond ord c xs := List.filter_cons_of_neg (by simpa using hc)
      have hupTo : upTo ord c (x :: xs) = x :: upTo ord c xs := List.filter_cons_of_pos (by simpa using hc)
      rw [hbeyond, hupTo, List.cons_append, ih hxs]
    · have hbeyond : beyond ord c (x :: xs) = x :: xs :=
        List.filter_eq_self.mpr fun y hy => by
          rcases List.mem_cons.mp hy with rfl | hy
          · simpa using hc
          · exact decide_eq_true (lt_trans (not_le.mp hc) (hx y hy))
      have hupTo : upTo ord c (x :: xs) = [] :=
        List.filter_eq_nil_iff.mpr fun y hy => by
          rcases List.mem_cons.mp hy with rfl | hy
          · simpa using hc
          · simpa using lt_trans (not_le.mp hc) (hx y hy)
      rw [hbeyond, hupTo, List.nil_append]

theorem upTo_initial (h : Ordered ord l) (c : β) : upTo ord c l <+: l :=
  ⟨beyond ord c l, upTo_append_beyond h c⟩

/-- **One read**: with the cursor at the last ordinal of a batch, what has been
read is what had been and the batch. -/
theorem upTo_last (h : Ordered ord l) {c : β} {batch : List α} {x : α} (hb : batch ++ [x] <+: beyond ord c l) :
    upTo ord (ord x) l = upTo ord c l ++ (batch ++ [x]) := by
  obtain ⟨rest, hrest⟩ := hb
  have hl : l = upTo ord c l ++ (batch ++ [x]) ++ rest := by
    rw [List.append_assoc, hrest, upTo_append_beyond h]
  have hord : Ordered ord (upTo ord c l ++ (batch ++ [x]) ++ rest) := hl ▸ h
  obtain ⟨hread, -, hafter⟩ := List.pairwise_append.mp hord
  have hread' : ∀ y ∈ upTo ord c l ++ (batch ++ [x]), ord y ≤ ord x := by
    intro y hy
    rw [← List.append_assoc] at hread hy
    rcases List.mem_append.mp hy with hy | hy
    · exact le_of_lt ((List.pairwise_append.mp hread).2.2 y hy x (List.mem_singleton_self x))
    · rw [List.mem_singleton.mp hy]
  calc upTo ord (ord x) l = upTo ord (ord x) (upTo ord c l ++ (batch ++ [x]) ++ rest) := by rw [← hl]
    _ = upTo ord (ord x) (upTo ord c l ++ (batch ++ [x])) ++ upTo ord (ord x) rest := List.filter_append _ _
    _ = upTo ord c l ++ (batch ++ [x]) ++ [] := by
      congr 1
      · exact List.filter_eq_self.mpr fun y hy => by simpa using hread' y hy
      · refine List.filter_eq_nil_iff.mpr fun y hy => ?_
        have := hafter x (by simp) y hy
        simpa using this
    _ = upTo ord c l ++ (batch ++ [x]) := List.append_nil _

/-- **One more entry** is beyond the cursor. -/
theorem upTo_append {c : β} {x : α} (hx : c < ord x) : upTo ord c (l ++ [x]) = upTo ord c l := by
  unfold upTo
  rw [List.filter_append, List.filter_cons_of_neg (by simpa using hx), List.filter_nil, List.append_nil]

theorem mem_beyond {c : β} {x : α} (h : x ∈ beyond ord c l) : x ∈ l ∧ c < ord x := by
  simpa [beyond] using h

end Cursor
