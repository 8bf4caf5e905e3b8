/-
# Lists of records with distinct keys

A dictionary whose values carry their key is a list with distinct keys. Such a
list is its record under a key and the records under the others
(`perm_cons_filter`), which is what sums and counts over it need; updating the
record under a key keeps the keys and touches nothing else. A table with a
primary key takes a record only under a new key (`insertNew`), and many records
all or none (`insertAllNew`).
-/
import Mathlib.Data.List.Nodup
import Mathlib.Data.List.Perm.Basic

namespace Keyed

variable {α κ : Type} [DecidableEq κ] (key : α → κ)

/-- The record under a key. -/
def get? (l : List α) (k : κ) : Option α := l.find? fun x => key x = k

/-- The list without the record under a key. -/
def pop (l : List α) (k : κ) : List α := l.filter fun x => key x ≠ k

/-- The record under a key changed by `f`. -/
def update (f : α → α) (k : κ) (l : List α) : List α := l.map fun x => if key x = k then f x else x

/-- The list with one more record, if its key is new. -/
def insertNew (l : List α) (x : α) : Option (List α) := if key x ∈ l.map key then none else some (l ++ [x])

/-- The list with some more records, if all of their keys are new. -/
def insertAllNew (l xs : List α) : Option (List α) := xs.foldlM (insertNew key) l

variable {key} {l : List α} {x : α}

theorem get?_some {k : κ} (h : get? key l k = some x) : x ∈ l ∧ key x = k :=
  ⟨List.mem_of_find?_eq_some h, by simpa using List.find?_some h⟩

theorem get?_none {k : κ} (h : get? key l k = none) : ∀ y ∈ l, key y ≠ k := by
  simpa [get?] using h

theorem mem_pop {k : κ} : x ∈ pop key l k ↔ x ∈ l ∧ key x ≠ k := by
  simp [pop]

theorem pop_sublist (k : κ) : (pop key l k).Sublist l := List.filter_sublist

theorem pop_eq_self {k : κ} (h : ∀ y ∈ l, key y ≠ k) : pop key l k = l :=
  List.filter_eq_self.mpr fun y hy => by simpa using h y hy

theorem get?_append (l l' : List α) (k : κ) : get? key (l ++ l') k = (get? key l k).or (get? key l' k) :=
  List.find?_append

theorem get?_pop_self (l : List α) (k : κ) : get? key (pop key l k) k = none := by
  unfold get? pop
  rw [List.find?_eq_none]
  intro x hx
  simpa using (List.mem_filter.mp hx).2

theorem get?_pop_of_ne {k j : κ} (h : j ≠ k) (l : List α) : get? key (pop key l k) j = get? key l j := by
  induction l with
  | nil => rfl
  | cons x l ih =>
    unfold get? pop at ih ⊢
    by_cases hk : key x = k
    · have hj : key x ≠ j := fun hj => h (hj.symm.trans hk)
      rw [List.filter_cons_of_neg (by simpa using hk), List.find?_cons_of_neg (by simpa using hj)]
      exact ih
    · rw [List.filter_cons_of_pos (by simpa using hk)]
      by_cases hj : key x = j
      · rw [List.find?_cons_of_pos (by simpa using hj), List.find?_cons_of_pos (by simpa using hj)]
      · rw [List.find?_cons_of_neg (by simpa using hj), List.find?_cons_of_neg (by simpa using hj)]
        exact ih

theorem get?_update {f : α → α} (hf : ∀ y, key (f y) = key y) (k j : κ) (l : List α) :
    get? key (update key f k l) j = if j = k then (get? key l j).map f else get? key l j := by
  induction l with
  | nil => simp [get?, update]
  | cons x l ih =>
    have hkey : key (if key x = k then f x else x) = key x := by
      split
      · exact hf x
      · rfl
    unfold get? update at ih ⊢
    rw [List.map_cons]
    by_cases hj : key x = j
    · rw [List.find?_cons_of_pos (by simpa using hkey.trans hj), List.find?_cons_of_pos (by simpa using hj), hj]
      by_cases hk : j = k
      · rw [if_pos hk, if_pos hk, Option.map_some]
      · rw [if_neg hk, if_neg hk]
    · rw [List.find?_cons_of_neg (by simpa [hkey] using hj), List.find?_cons_of_neg (by simpa using hj)]
      exact ih

omit [DecidableEq κ] in
theorem eq_of_key (h : (l.map key).Nodup) {y : α} (hx : x ∈ l) (hy : y ∈ l) (hk : key x = key y) : x = y :=
  List.inj_on_of_nodup_map h hx hy hk

/-- A record and the records under the other keys. -/
theorem perm_cons_pop (h : (l.map key).Nodup) (hx : x ∈ l) : l.Perm (x :: pop key l (key x)) := by
  induction l with
  | nil => simp at hx
  | cons y ys ih =>
    rw [List.map_cons, List.nodup_cons] at h
    rcases List.mem_cons.mp hx with rfl | hx
    · have hself : pop key ys (key x) = ys :=
        pop_eq_self fun z hz hk => h.1 (hk ▸ List.mem_map_of_mem hz)
      have hcons : pop key (x :: ys) (key x) = ys := by
        rw [pop, List.filter_cons_of_neg (by simp)]
        exact hself
      rw [hcons]
    · have hne : key y ≠ key x := fun hk => h.1 (hk ▸ List.mem_map_of_mem hx)
      have hcons : pop key (y :: ys) (key x) = y :: pop key ys (key x) := by simp [pop, hne]
      rw [hcons]
      exact ((ih h.2 hx).cons y).trans (List.Perm.swap ..)

theorem map_key_update {f : α → α} (hf : ∀ y, key (f y) = key y) (k : κ) :
    (update key f k l).map key = l.map key := by
  unfold update
  rw [List.map_map]
  refine List.map_congr_left fun y _ => ?_
  simp only [Function.comp_apply]
  split
  · exact hf y
  · rfl

theorem mem_update {f : α → α} {k : κ} :
    x ∈ update key f k l ↔ (∃ y ∈ l, key y = k ∧ f y = x) ∨ (x ∈ l ∧ key x ≠ k) := by
  unfold update
  rw [List.mem_map]
  constructor
  · rintro ⟨y, hy, rfl⟩
    split
    · next hk => exact .inl ⟨y, hy, hk, rfl⟩
    · next hk => exact .inr ⟨hy, hk⟩
  · rintro (⟨y, hy, hk, rfl⟩ | ⟨hx, hk⟩)
    · exact ⟨y, hy, if_pos hk⟩
    · exact ⟨x, hx, if_neg hk⟩

/-- The changed record and the records under the other keys. -/
theorem update_perm (h : (l.map key).Nodup) {f : α → α} (hx : x ∈ l) :
    (update key f (key x) l).Perm (f x :: pop key l (key x)) := by
  have hmap : update key f (key x) (x :: pop key l (key x)) = f x :: pop key l (key x) := by
    unfold update
    rw [List.map_cons, if_pos rfl]
    congr 1
    exact (List.map_congr_left fun y hy => if_neg (mem_pop.mp hy).2).trans (List.map_id _)
  rw [← hmap]
  exact (perm_cons_pop h hx).map _

/-! ### New records -/

theorem insertNew_of_notMem (h : key x ∉ l.map key) : insertNew key l x = some (l ++ [x]) := if_neg h

theorem insertNew_eq_some {l' : List α} (h : insertNew key l x = some l') : key x ∉ l.map key ∧ l' = l ++ [x] := by
  unfold insertNew at h
  split at h
  · cases h
  · next hx => exact ⟨hx, (Option.some.inj h).symm⟩

theorem insertAllNew_of_nodup {xs : List α} (hxs : (xs.map key).Nodup) (hnew : ∀ x ∈ xs, key x ∉ l.map key) :
    insertAllNew key l xs = some (l ++ xs) := by
  unfold insertAllNew
  induction xs generalizing l with
  | nil => rw [List.append_nil]; rfl
  | cons x xs ih =>
    rw [List.map_cons, List.nodup_cons] at hxs
    have hrest : ∀ y ∈ xs, key y ∉ (l ++ [x]).map key := by
      intro y hy
      rw [List.map_append, List.mem_append, not_or]
      refine ⟨hnew y (List.mem_cons_of_mem _ hy), fun heq => hxs.1 ?_⟩
      rw [← List.mem_singleton.mp heq]
      exact List.mem_map_of_mem hy
    rw [List.foldlM_cons, insertNew_of_notMem (hnew x List.mem_cons_self), Option.bind_eq_bind, Option.bind_some,
      ih hxs.2 hrest, List.append_assoc, List.singleton_append]

/-- Records taken together have distinct keys. -/
theorem nodup_of_insertAllNew {xs l' : List α} (h : insertAllNew key l xs = some l') :
    (xs.map key).Nodup ∧ ∀ x ∈ xs, key x ∉ l.map key := by
  unfold insertAllNew at h
  induction xs generalizing l with
  | nil => exact ⟨List.nodup_nil, by simp⟩
  | cons x xs ih =>
    rw [List.foldlM_cons] at h
    obtain ⟨l₁, hl₁, hrest⟩ := Option.bind_eq_some_iff.mp h
    obtain ⟨hx, rfl⟩ := insertNew_eq_some hl₁
    obtain ⟨hxs, hnew⟩ := ih hrest
    have hnew' : ∀ y ∈ xs, key y ∉ l.map key ∧ key y ≠ key x := by
      intro y hy
      have hy' := hnew y hy
      rw [List.map_append, List.mem_append, not_or] at hy'
      exact ⟨hy'.1, fun heq => hy'.2 (by rw [heq]; exact List.mem_singleton_self _)⟩
    constructor
    · rw [List.map_cons, List.nodup_cons]
      refine ⟨fun hmem => ?_, hxs⟩
      obtain ⟨y, hy, heq⟩ := List.mem_map.mp hmem
      exact (hnew' y hy).2 heq
    · intro y hy
      rcases List.mem_cons.mp hy with rfl | hy
      · exact hx
      · exact (hnew' y hy).1

end Keyed
