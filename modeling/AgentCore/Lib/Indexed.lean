/-
# Dictionaries with ordered keys

A Python dictionary that is filled by index: the entries in insertion order.
Records that are opened one after the other under growing indices end up in the
order of their keys, whatever is done to the open one in between.

Fragments of several records may also come in mixed, each naming the record it
belongs to (`put`). What is then read off in the order of the keys depends only
on the fragments of each record, not on how they were mixed.

Key definitions: `Indexed.set`, `Indexed.modify`, `Indexed.setDefault`,
`Indexed.ordered`, `Indexed.put`.
Key theorems: `Indexed.ordered_collect`, `Indexed.ordered_putAll`,
`Indexed.sortedKeys_congr`.
-/
import Mathlib.Data.List.Sort
import Mathlib.Data.List.Dedup

namespace Indexed

variable {κ β : Type}

section Operations

variable [DecidableEq κ]

/-- `d[i] = b`. -/
def set (i : κ) (b : β) (d : List (κ × β)) : List (κ × β) :=
  if i ∈ d.map Prod.fst then d.map fun e => if e.1 = i then (i, b) else e else d ++ [(i, b)]

/-- The entry under `i` changed in place, where there is one. -/
def modify (i : κ) (f : β → β) (d : List (κ × β)) : List (κ × β) := d.map fun e => if e.1 = i then (i, f e.2) else e

/-- `d.setdefault(i, b)`. -/
def setDefault (i : κ) (b : β) (d : List (κ × β)) : List (κ × β) := if i ∈ d.map Prod.fst then d else d ++ [(i, b)]

end Operations

/-- `[d[i] for i in sorted(d)]`. -/
def ordered [LE κ] [DecidableLE κ] (d : List (κ × β)) : List β := (d.insertionSort fun a b => a.1 ≤ b.1).map Prod.snd

/-- All keys are below `i`. -/
def Below (i : ℕ) (d : List (ℕ × β)) : Prop := ∀ e ∈ d, e.1 < i

variable {i : ℕ} {d : List (ℕ × β)}

theorem Below.notMem (h : Below i d) : i ∉ d.map Prod.fst := by
  intro hi
  obtain ⟨e, he, rfl⟩ := List.mem_map.mp hi
  exact Nat.lt_irrefl _ (h e he)

theorem Below.set (h : Below i d) (b : β) : Indexed.set i b d = d ++ [(i, b)] := if_neg h.notMem

theorem Below.setDefault (h : Below i d) (b : β) : Indexed.setDefault i b d = d ++ [(i, b)] := if_neg h.notMem

theorem Below.append (h : Below i d) (b : β) : Below (i + 1) (d ++ [(i, b)]) := by
  intro e he
  rcases List.mem_append.mp he with he | he
  · exact Nat.lt_succ_of_lt (h e he)
  · rw [List.mem_singleton.mp he]
    exact Nat.lt_succ_self i

theorem Below.succ (h : Below i d) : Below (i + 1) d := fun e he => Nat.lt_succ_of_lt (h e he)

theorem setDefault_last (b b' : β) : setDefault i b (d ++ [(i, b')]) = d ++ [(i, b')] := by
  refine if_pos ?_
  rw [List.map_append]
  exact List.mem_append_right _ List.mem_cons_self

/-- The entry opened last is the one that is changed. -/
theorem Below.modify (h : Below i d) (f : β → β) (b : β) :
    Indexed.modify i f (d ++ [(i, b)]) = d ++ [(i, f b)] := by
  have hfront : d.map (fun e => if e.1 = i then (i, f e.2) else e) = d := by
    refine (List.map_congr_left fun e he => ?_).trans (List.map_id d)
    exact if_neg (Nat.ne_of_lt (h e he))
  unfold Indexed.modify
  rw [List.map_append, hfront, List.map_singleton, if_pos rfl]

/-- The records under the indices from `i` on, those that `f` leaves out taking
none up. -/
def collect {γ : Type} (f : γ → Option β) : ℕ → List γ → List (ℕ × β)
  | _, [] => []
  | i, c :: cs =>
    match f c with
    | some b => (i, b) :: collect f (i + 1) cs
    | none => collect f (i + 1) cs

theorem le_of_mem_collect {γ : Type} {f : γ → Option β} : ∀ {cs : List γ} {i : ℕ}, ∀ e ∈ collect f i cs, i ≤ e.1
  | [], _, _, he => absurd he List.not_mem_nil
  | c :: cs, i, e, he => by
    rw [collect] at he
    cases hc : f c with
    | none =>
      rw [hc] at he
      exact Nat.le_of_succ_le (le_of_mem_collect e he)
    | some b =>
      rw [hc] at he
      rcases List.mem_cons.mp he with rfl | he
      · exact Nat.le_refl i
      · exact Nat.le_of_succ_le (le_of_mem_collect e he)

theorem collect_sorted {γ : Type} {f : γ → Option β} : ∀ (cs : List γ) (i : ℕ),
    (collect f i cs).Pairwise fun a b => a.1 ≤ b.1
  | [], _ => List.Pairwise.nil
  | c :: cs, i => by
    rw [collect]
    cases f c with
    | none => exact collect_sorted cs (i + 1)
    | some b =>
      refine List.Pairwise.cons (fun e he => ?_) (collect_sorted cs (i + 1))
      exact Nat.le_of_succ_le (le_of_mem_collect e he)

theorem map_snd_collect {γ : Type} {f : γ → Option β} : ∀ (cs : List γ) (i : ℕ),
    (collect f i cs).map Prod.snd = cs.filterMap f
  | [], _ => rfl
  | c :: cs, i => by
    rw [collect]
    cases hc : f c with
    | none =>
      rw [List.filterMap_cons_none hc]
      exact map_snd_collect cs (i + 1)
    | some b =>
      rw [List.filterMap_cons_some hc, List.map_cons, map_snd_collect cs (i + 1)]

/-- Records opened under growing indices come out in their order. -/
theorem ordered_collect {γ : Type} {f : γ → Option β} (cs : List γ) (i : ℕ) :
    ordered (collect f i cs) = cs.filterMap f := by
  unfold ordered
  rw [(collect_sorted cs i).insertionSort_eq, map_snd_collect]

/-! ### Records assembled out of fragments -/

section Fragments

variable {δ : Type} (key : δ → κ) (fresh : β) (step : β → δ → β)

section Put

variable [DecidableEq κ]

/-- A fragment taken up by the record it belongs to, which it opens where it is
the first one. -/
def put (d : List (κ × β)) (x : δ) : List (κ × β) :=
  modify (key x) (fun b => step b x) (setDefault (key x) fresh d)

/-- The fragments of one record. -/
def fragments (k : κ) (xs : List δ) : List δ := xs.filter fun x => key x = k

/-- What the fragments of one record make of it. -/
def record (k : κ) (xs : List δ) : β := (fragments key k xs).foldl step fresh

/-- What is kept of the fragments so far: one entry for each key they name, with
the record that the fragments of the key make. -/
structure Holds (d : List (κ × β)) (xs : List δ) : Prop where
  nodup : (d.map Prod.fst).Nodup
  keys : ∀ k, k ∈ d.map Prod.fst ↔ k ∈ xs.map key
  records : ∀ e ∈ d, e.2 = record key fresh step e.1 xs

variable {key fresh step}

theorem map_fst_modify (i : κ) (f : β → β) (d : List (κ × β)) : (modify i f d).map Prod.fst = d.map Prod.fst := by
  unfold modify
  rw [List.map_map]
  refine List.map_congr_left fun e _ => ?_
  by_cases he : e.1 = i
  · simp [he]
  · simp [he]

theorem mem_map_fst_setDefault {i k : κ} {b : β} {d : List (κ × β)} :
    k ∈ (setDefault i b d).map Prod.fst ↔ k ∈ d.map Prod.fst ∨ k = i := by
  unfold setDefault
  by_cases hi : i ∈ d.map Prod.fst
  · rw [if_pos hi]
    refine ⟨.inl, fun h => ?_⟩
    rcases h with h | rfl
    · exact h
    · exact hi
  · rw [if_neg hi]
    simp

theorem nodup_setDefault {i : κ} {b : β} {d : List (κ × β)} (hd : (d.map Prod.fst).Nodup) :
    ((setDefault i b d).map Prod.fst).Nodup := by
  unfold setDefault
  by_cases hi : i ∈ d.map Prod.fst
  · rwa [if_pos hi]
  · rw [if_neg hi, List.map_append]
    exact hd.append (List.nodup_singleton i) (by simpa using hi)

theorem record_append_of_eq {k : κ} {xs : List δ} {x : δ} (hk : key x = k) :
    record key fresh step k (xs ++ [x]) = step (record key fresh step k xs) x := by
  have hx : fragments key k (xs ++ [x]) = fragments key k xs ++ [x] := by simp [fragments, hk]
  simp [record, hx]

theorem record_append_of_ne {k : κ} {xs : List δ} {x : δ} (hk : key x ≠ k) :
    record key fresh step k (xs ++ [x]) = record key fresh step k xs := by
  have hx : fragments key k (xs ++ [x]) = fragments key k xs := by simp [fragments, hk]
  simp [record, hx]

theorem record_of_notMem {k : κ} {xs : List δ} (hk : k ∉ xs.map key) : record key fresh step k xs = fresh := by
  have hx : fragments key k xs = [] := by
    refine List.filter_eq_nil_iff.mpr fun x hx => ?_
    have hne : key x ≠ k := fun h => hk (h ▸ List.mem_map_of_mem hx)
    simpa using hne
  simp [record, hx]

/-- One more fragment keeps what is held. -/
theorem Holds.put {d : List (κ × β)} {xs : List δ} (h : Holds key fresh step d xs) (x : δ) :
    Holds key fresh step (Indexed.put key fresh step d x) (xs ++ [x]) := by
  -- before the fragment is added: a record that nothing was added to is a fresh one
  have hopened : ∀ e ∈ setDefault (key x) fresh d, e.2 = record key fresh step e.1 xs := by
    intro e he
    unfold setDefault at he
    by_cases hk : key x ∈ d.map Prod.fst
    · rw [if_pos hk] at he
      exact h.records e he
    · rw [if_neg hk] at he
      rcases List.mem_append.mp he with he | he
      · exact h.records e he
      · rw [List.mem_singleton.mp he]
        exact (record_of_notMem fun hm => hk ((h.keys _).mpr hm)).symm
  refine ⟨?_, fun k => ?_, fun e he => ?_⟩
  · unfold Indexed.put
    rw [map_fst_modify]
    exact nodup_setDefault h.nodup
  · unfold Indexed.put
    rw [map_fst_modify, mem_map_fst_setDefault, h.keys k]
    simp [eq_comm]
  · obtain ⟨e', he', rfl⟩ := List.mem_map.mp he
    by_cases hk : e'.1 = key x
    · rw [if_pos hk]
      show step e'.2 x = record key fresh step (key x) (xs ++ [x])
      rw [record_append_of_eq rfl, hopened e' he', hk]
    · rw [if_neg hk]
      show e'.2 = record key fresh step e'.1 (xs ++ [x])
      rw [record_append_of_ne (Ne.symm hk), hopened e' he']

theorem Holds.foldl : ∀ (ys : List δ) {d : List (κ × β)} {xs : List δ}, Holds key fresh step d xs →
    Holds key fresh step (ys.foldl (Indexed.put key fresh step) d) (xs ++ ys)
  | [], _, xs, h => by simpa using h
  | y :: ys, _, xs, h => by
    have hrest := Holds.foldl ys (h.put y)
    simpa using hrest

/-- What is kept of a sequence of fragments. -/
theorem holds_putAll (xs : List δ) : Holds key fresh step (xs.foldl (put key fresh step) []) xs := by
  have hnil : Holds key fresh step [] [] := ⟨List.nodup_nil, by simp, by simp⟩
  exact hnil.foldl xs

end Put

section Read

variable [LinearOrder κ]

/-- The keys that the fragments name, in order. -/
def sortedKeys (xs : List δ) : List κ := (xs.map key).dedup.insertionSort (· ≤ ·)

variable {key fresh step}

theorem mem_sortedKeys {k : κ} {xs : List δ} : k ∈ sortedKeys key xs ↔ fragments key k xs ≠ [] := by
  unfold sortedKeys fragments
  rw [List.mem_insertionSort, List.mem_dedup, List.mem_map]
  simp

theorem sortedKeys_lt (xs : List δ) : (sortedKeys key xs).Pairwise (· < ·) := by
  have hle : (sortedKeys key xs).Pairwise (· ≤ ·) := List.pairwise_insertionSort _ _
  have hne : (sortedKeys key xs).Pairwise (· ≠ ·) :=
    ((List.perm_insertionSort _ _).nodup_iff.mpr (List.nodup_dedup _))
  exact (hle.and hne).imp fun h => lt_of_le_of_ne h.1 h.2

/-- Two mixtures of the same fragments name the same keys. -/
theorem sortedKeys_congr {xs ys : List δ} (h : ∀ k, fragments key k xs = fragments key k ys) :
    sortedKeys key xs = sortedKeys key ys := by
  refine List.Perm.eq_of_pairwise' ((sortedKeys_lt xs).imp le_of_lt) ((sortedKeys_lt ys).imp le_of_lt) ?_
  refine (List.perm_ext_iff_of_nodup ((sortedKeys_lt xs).imp ne_of_lt) ((sortedKeys_lt ys).imp ne_of_lt)).mpr ?_
  intro k
  rw [mem_sortedKeys, mem_sortedKeys, h k]

/-- Read off in the order of the keys: the record of each key. -/
theorem ordered_putAll (xs : List δ) :
    ordered (xs.foldl (put key fresh step) []) =
      (sortedKeys key xs).map fun k => record key fresh step k xs := by
  have hd : Holds key fresh step (xs.foldl (put key fresh step) []) xs := holds_putAll xs
  generalize xs.foldl (put key fresh step) [] = d at hd
  have hkeys : (d.insertionSort fun a b => a.1 ≤ b.1).map Prod.fst = sortedKeys key xs := by
    rw [List.map_insertionSort _ (· ≤ ·) Prod.fst d fun _ _ _ _ => Iff.rfl]
    refine List.Perm.eq_of_pairwise' (List.pairwise_insertionSort _ _) (List.pairwise_insertionSort _ _) ?_
    refine (List.perm_insertionSort _ _).trans (List.Perm.trans ?_ (List.perm_insertionSort _ _).symm)
    refine (List.perm_ext_iff_of_nodup hd.nodup (List.nodup_dedup _)).mpr fun k => ?_
    rw [List.mem_dedup, hd.keys k]
  rw [← hkeys, List.map_map]
  refine List.map_congr_left fun e he => ?_
  exact hd.records e ((List.mem_insertionSort _).mp he)

end Read

end Fragments

end Indexed
