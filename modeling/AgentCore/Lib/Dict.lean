/-
# Dictionaries

A dictionary is its list of entries in the order of insertion: a new value under an old key
stays where the old one was (`set`). A total over the entries grows with a new key
(`sum_setdefault`) and shrinks with an old one (`sum_pop`).
-/
import Mathlib.Algebra.BigOperators.Group.List.Basic
import Mathlib.Data.List.Nodup

namespace Dict

variable {κ α : Type} [DecidableEq κ]

def get? (d : List (κ × α)) (k : κ) : Option α := d.lookup k

/-- `d[k] = v`. -/
def set : List (κ × α) → κ → α → List (κ × α)
  | [], k, v => [(k, v)]
  | (j, w) :: d, k, v => if j = k then (k, v) :: d else (j, w) :: set d k v

/-- `d.setdefault(k, v)`. -/
def setdefault (d : List (κ × α)) (k : κ) (v : α) : List (κ × α) :=
  match get? d k with
  | none => d ++ [(k, v)]
  | some _ => d

/-- `d.pop(k, None)`, what is left of it. -/
def pop (d : List (κ × α)) (k : κ) : List (κ × α) := d.eraseP fun e => e.1 = k

theorem get?_cons (j k : κ) (v : α) (d : List (κ × α)) :
    get? ((j, v) :: d) k = if k = j then some v else get? d k := by
  unfold get?
  rw [List.lookup_cons]
  by_cases h : k = j
  · rw [if_pos h, h, beq_self_eq_true]
  · rw [if_neg h, beq_false_of_ne h]

theorem get?_set (d : List (κ × α)) (k j : κ) (v : α) :
    get? (set d k v) j = if j = k then some v else get? d j := by
  induction d with
  | nil => rw [set, get?_cons]
  | cons e d ih =>
    obtain ⟨i, w⟩ := e
    unfold set
    by_cases hi : i = k
    · rw [if_pos hi, get?_cons, get?_cons]
      by_cases hj : j = k
      · rw [if_pos hj, if_pos hj]
      · rw [if_neg hj, if_neg hj, if_neg (hi ▸ hj)]
    · rw [if_neg hi, get?_cons, get?_cons, ih]
      by_cases hj : j = i
      · rw [if_pos hj, if_pos hj, if_neg (hj ▸ hi)]
      · rw [if_neg hj, if_neg hj]

theorem get?_map {β : Type} (f : κ → α → β) (d : List (κ × α)) (k : κ) :
    get? (d.map fun e => (e.1, f e.1 e.2)) k = (get? d k).map (f k) := by
  induction d with
  | nil => rfl
  | cons e d ih =>
    obtain ⟨j, v⟩ := e
    rw [List.map_cons, get?_cons, get?_cons, ih]
    by_cases h : k = j
    · rw [if_pos h, if_pos h, Option.map_some, h]
    · rw [if_neg h, if_neg h]

theorem get?_eq_none {d : List (κ × α)} {k : κ} (h : k ∉ d.map Prod.fst) : get? d k = none := by
  induction d with
  | nil => rfl
  | cons e d ih =>
    rw [List.map_cons, List.mem_cons, not_or] at h
    rw [get?_cons, if_neg h.1, ih h.2]

section Totals

variable {M : Type} [AddCommMonoid M] (f : κ × α → M)

theorem sum_setdefault {d : List (κ × α)} {k : κ} (h : get? d k = none) (v : α) :
    ((setdefault d k v).map f).sum = (d.map f).sum + f (k, v) := by
  unfold setdefault
  rw [h]
  simp

theorem sum_pop {d : List (κ × α)} {k : κ} {v : α} (h : get? d k = some v) :
    (d.map f).sum = f (k, v) + ((pop d k).map f).sum := by
  unfold pop
  induction d with
  | nil => cases h
  | cons e d ih =>
    obtain ⟨j, w⟩ := e
    rw [get?_cons] at h
    by_cases hj : k = j
    · rw [if_pos hj] at h
      obtain rfl := hj
      obtain rfl := Option.some.inj h
      rw [List.eraseP_cons_of_pos (by simp), List.map_cons, List.sum_cons]
    · rw [if_neg hj] at h
      rw [List.eraseP_cons_of_neg (by simpa using Ne.symm hj), List.map_cons, List.map_cons, List.sum_cons,
        List.sum_cons, ih h, add_left_comm]

end Totals

theorem setdefault_of_some {d : List (κ × α)} {k : κ} {w : α} (h : get? d k = some w) (v : α) :
    setdefault d k v = d := by
  unfold setdefault
  rw [h]

theorem setdefault_of_none {d : List (κ × α)} {k : κ} (h : get? d k = none) (v : α) :
    setdefault d k v = d ++ [(k, v)] := by
  unfold setdefault
  rw [h]

theorem pop_of_none {d : List (κ × α)} {k : κ} (h : get? d k = none) : pop d k = d := by
  refine List.eraseP_of_forall_not fun e he => ?_
  have hne := List.lookup_eq_none_iff.mp h e he
  rw [decide_eq_true_eq]
  rintro rfl
  simp at hne

/-- Values changed one by one: the keys stay, and so does what happens by key. -/
theorem map_setdefault {β : Type} (f : α → β) (d : List (κ × α)) (k : κ) (v : α) :
    (setdefault d k v).map (Prod.map id f) = setdefault (d.map (Prod.map id f)) k (f v) := by
  have hmap : get? (d.map (Prod.map id f)) k = (get? d k).map f := get?_map (fun _ => f) d k
  cases h : get? d k with
  | none =>
    rw [h] at hmap
    rw [setdefault_of_none h, setdefault_of_none hmap, List.map_append]
    rfl
  | some w =>
    rw [h] at hmap
    rw [setdefault_of_some h, setdefault_of_some hmap]

theorem map_pop {β : Type} (f : α → β) (d : List (κ × α)) (k : κ) :
    (pop d k).map (Prod.map id f) = pop (d.map (Prod.map id f)) k := by
  unfold pop
  induction d with
  | nil => rfl
  | cons e d ih =>
    obtain ⟨j, w⟩ := e
    by_cases hj : j = k
    · rw [List.eraseP_cons_of_pos (by simpa using hj), List.map_cons, List.eraseP_cons_of_pos (by simpa using hj)]
    · rw [List.eraseP_cons_of_neg (by simpa using hj), List.map_cons, List.map_cons,
        List.eraseP_cons_of_neg (by simpa using hj), ih]

theorem mem_keys_set {d : List (κ × α)} {k j : κ} {v : α} :
    j ∈ (set d k v).map Prod.fst ↔ j = k ∨ j ∈ d.map Prod.fst := by
  induction d with
  | nil => simp [set]
  | cons e d ih =>
    obtain ⟨i, w⟩ := e
    unfold set
    by_cases hi : i = k
    · rw [if_pos hi]
      simp [hi]
    · rw [if_neg hi, List.map_cons, List.map_cons, List.mem_cons, List.mem_cons, ih]
      exact or_left_comm

theorem nodup_set {d : List (κ × α)} (h : (d.map Prod.fst).Nodup) (k : κ) (v : α) :
    ((set d k v).map Prod.fst).Nodup := by
  induction d with
  | nil => exact List.nodup_singleton k
  | cons e d ih =>
    obtain ⟨i, w⟩ := e
    rw [List.map_cons, List.nodup_cons] at h
    unfold set
    by_cases hi : i = k
    · rw [if_pos hi, List.map_cons, List.nodup_cons]
      exact ⟨hi ▸ h.1, h.2⟩
    · rw [if_neg hi, List.map_cons, List.nodup_cons, mem_keys_set]
      exact ⟨fun hmem => hmem.elim hi h.1, ih h.2⟩

end Dict
