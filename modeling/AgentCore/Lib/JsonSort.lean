/-
# JSON texts with sorted keys

`dumps` with `sort_keys` writes the members of every object in the order of
their keys, and raises on an integer Python cannot print and on containers nested
deeper than its stack has room for. What is read back is the value up to the
order of members: equal in the sense in which dictionaries are (`Value.Same`).

Key definitions: `sortKeys`, `Value.writable`, `dumpsSorted`, `Value.Keyed`,
`Value.Same`.
Key theorem: `loads_dumpsSorted`.
-/
import AgentCore.Lib.Json
import Mathlib.Data.List.Sort
import Mathlib.Data.List.Lex
import Mathlib.Data.Char

namespace PyJson

/-! ### Sorting -/

/-- Members in the order of their keys. -/
def sortByKey {V : Type} (kvs : List (List Char × V)) : List (List Char × V) :=
  kvs.insertionSort fun a b => a.1 ≤ b.1

theorem sortByKey_perm {V : Type} (kvs : List (List Char × V)) : (sortByKey kvs).Perm kvs :=
  List.perm_insertionSort _ kvs

theorem sortByKey_map {V W : Type} (f : List Char × V → W) (kvs : List (List Char × V)) :
    sortByKey (kvs.map fun kv => (kv.1, f kv)) = (sortByKey kvs).map fun kv => (kv.1, f kv) :=
  (List.map_insertionSort _ _ (fun kv : List Char × V => (kv.1, f kv)) kvs fun _ _ _ _ => Iff.rfl).symm

variable {F : Type}

mutual

/-- The value with the members of every object sorted. -/
def sortKeys : Value F → Value F
  | .arr xs => .arr (sortElements xs)
  | .obj kvs => .obj (sortByKey (sortMembers kvs))
  | .null => .null
  | .bool b => .bool b
  | .int n => .int n
  | .float x => .float x
  | .str s => .str s

def sortElements : List (Value F) → List (Value F)
  | [] => []
  | x :: xs => sortKeys x :: sortElements xs

def sortMembers : List (List Char × Value F) → List (List Char × Value F)
  | [] => []
  | kv :: kvs => (kv.1, sortKeys kv.2) :: sortMembers kvs

end

theorem sortElements_eq (xs : List (Value F)) : sortElements xs = xs.map sortKeys := by
  induction xs with
  | nil => rfl
  | cons x xs ih => rw [sortElements, ih, List.map_cons]

theorem sortMembers_eq (kvs : List (List Char × Value F)) :
    sortMembers kvs = kvs.map fun kv => (kv.1, sortKeys kv.2) := by
  induction kvs with
  | nil => rfl
  | cons kv kvs ih => rw [sortMembers, ih, List.map_cons]

theorem sortKeys_obj (kvs : List (List Char × Value F)) :
    sortKeys (.obj kvs) = .obj ((sortByKey kvs).map fun kv => (kv.1, sortKeys kv.2)) := by
  rw [sortKeys, sortMembers_eq, sortByKey_map fun kv : List Char × Value F => sortKeys kv.2]

/-! ### What can be written -/

/-- A value whose objects are dictionaries: their keys are distinct. -/
inductive Value.Keyed : Value F → Prop
  | null : Keyed .null
  | bool (b : Bool) : Keyed (.bool b)
  | int (n : ℤ) : Keyed (.int n)
  | float (x : F) : Keyed (.float x)
  | str (s : List Char) : Keyed (.str s)
  | arr (xs : List (Value F)) (h : ∀ x ∈ xs, Keyed x) : Keyed (.arr xs)
  | obj (kvs : List (List Char × Value F)) (hkeys : (kvs.map Prod.fst).Nodup) (h : ∀ kv ∈ kvs, Keyed kv.2) :
      Keyed (.obj kvs)

mutual

/-- No integer has more digits than Python prints. -/
def Value.short : Value F → Bool
  | .int n => (Nat.toDigits 10 n.natAbs).length ≤ maxDigits
  | .arr xs => shortElements xs
  | .obj kvs => shortMembers kvs
  | .null => true
  | .bool _ => true
  | .float _ => true
  | .str _ => true

def shortElements : List (Value F) → Bool
  | [] => true
  | x :: xs => x.short && shortElements xs

def shortMembers : List (List Char × Value F) → Bool
  | [] => true
  | kv :: kvs => kv.2.short && shortMembers kvs

end

theorem shortElements_eq (xs : List (Value F)) : shortElements xs = xs.all Value.short := by
  induction xs with
  | nil => rfl
  | cons x xs ih => rw [shortElements, ih, List.all_cons]

theorem shortMembers_eq (kvs : List (List Char × Value F)) : shortMembers kvs = kvs.all fun kv => kv.2.short := by
  induction kvs with
  | nil => rfl
  | cons kv kvs ih => rw [shortMembers, ih, List.all_cons]

mutual

/-- How deep the containers of a value are nested. -/
def Value.depth : Value F → ℕ
  | .arr xs => depthElements xs + 1
  | .obj kvs => depthMembers kvs + 1
  | .null => 0
  | .bool _ => 0
  | .int _ => 0
  | .float _ => 0
  | .str _ => 0

def depthElements : List (Value F) → ℕ
  | [] => 0
  | x :: xs => max x.depth (depthElements xs)

def depthMembers : List (List Char × Value F) → ℕ
  | [] => 0
  | kv :: kvs => max kv.2.depth (depthMembers kvs)

end

/-- Python can print the integers, and the stack has room for the containers. -/
def Value.writable (room : ℕ) (v : Value F) : Bool := v.short && v.depth ≤ room

theorem Value.writable_iff {room : ℕ} {v : Value F} :
    v.writable room = true ↔ v.short = true ∧ v.depth ≤ room := by
  rw [Value.writable, Bool.and_eq_true, decide_eq_true_eq]

theorem depthElements_eq (xs : List (Value F)) : depthElements xs = (xs.map Value.depth).foldr max 0 := by
  induction xs with
  | nil => rfl
  | cons x xs ih => rw [depthElements, ih, List.map_cons, List.foldr_cons]

theorem depthMembers_eq (kvs : List (List Char × Value F)) :
    depthMembers kvs = (kvs.map fun kv => kv.2.depth).foldr max 0 := by
  induction kvs with
  | nil => rfl
  | cons kv kvs ih => rw [depthMembers, ih, List.map_cons, List.foldr_cons]

theorem Value.Keyed.printable {v : Value F} (h : v.Keyed) (hs : v.short = true) : v.Printable := by
  induction h with
  | null => exact .null
  | bool b => exact .bool b
  | int n => exact .int n (by simpa [Value.short] using hs)
  | float x => exact .float x
  | str s => exact .str s
  | arr xs _ ih =>
    rw [Value.short, shortElements_eq, List.all_eq_true] at hs
    exact .arr xs fun x hx => ih x hx (hs x hx)
  | obj kvs hkeys _ ih =>
    rw [Value.short, shortMembers_eq, List.all_eq_true] at hs
    exact .obj kvs hkeys fun kv hkv => ih kv hkv (hs kv hkv)

theorem keys_sorted (kvs : List (List Char × Value F)) :
    (((sortByKey kvs).map fun kv => (kv.1, sortKeys kv.2)).map Prod.fst).Perm (kvs.map Prod.fst) := by
  rw [List.map_map]
  exact (sortByKey_perm kvs).map Prod.fst

theorem Value.Printable.sortKeys {v : Value F} (h : v.Printable) : (sortKeys v).Printable := by
  induction h with
  | null => exact .null
  | bool b => exact .bool b
  | int n hn => exact .int n hn
  | float x => exact .float x
  | str s => exact .str s
  | arr xs _ ih =>
    rw [PyJson.sortKeys, sortElements_eq]
    refine .arr _ fun x hx => ?_
    obtain ⟨y, hy, rfl⟩ := List.mem_map.mp hx
    exact ih y hy
  | obj kvs hkeys _ ih =>
    rw [sortKeys_obj]
    refine .obj _ ((keys_sorted kvs).nodup_iff.mpr hkeys) fun kv hkv => ?_
    obtain ⟨kv', hkv', rfl⟩ := List.mem_map.mp hkv
    exact ih kv' ((sortByKey_perm kvs).mem_iff.mp hkv')

/-- The order of members does not change the depth. -/
theorem Value.Keyed.depth_sortKeys {v : Value F} (h : v.Keyed) : (PyJson.sortKeys v).depth = v.depth := by
  induction h with
  | null | bool | int | float | str => rfl
  | arr xs _ ih =>
    rw [PyJson.sortKeys, sortElements_eq, Value.depth, Value.depth, depthElements_eq, depthElements_eq, List.map_map]
    exact congrArg (fun ds => List.foldr max 0 ds + 1) (List.map_congr_left ih)
  | obj kvs _ _ ih =>
    rw [sortKeys_obj, Value.depth, Value.depth, depthMembers_eq, depthMembers_eq, List.map_map]
    have hdepths : (sortByKey kvs).map ((fun kv : List Char × Value F => kv.2.depth) ∘
        fun kv => (kv.1, PyJson.sortKeys kv.2)) = (sortByKey kvs).map fun kv => kv.2.depth :=
      List.map_congr_left fun kv hkv => ih kv ((sortByKey_perm kvs).mem_iff.mp hkv)
    rw [hdepths]
    refine congrArg (· + 1) (((sortByKey_perm kvs).map fun kv => kv.2.depth).foldr_eq' (fun x _ y _ z => ?_) 0)
    exact Nat.max_left_comm y x z

/-! ### Equality of dictionaries -/

/-- Two values are equal up to the order of members: objects have the same keys,
and under each the same value. -/
inductive Value.Same : Value F → Value F → Prop
  | refl (v : Value F) : Same v v
  | arr (xs ys : List (Value F)) (hlen : xs.length = ys.length) (h : ∀ p ∈ xs.zip ys, Same p.1 p.2) :
      Same (.arr xs) (.arr ys)
  | obj (kvs kvs' : List (List Char × Value F)) (hkeys : (kvs.map Prod.fst).Perm (kvs'.map Prod.fst))
      (h : ∀ kv ∈ kvs, ∀ kv' ∈ kvs', kv.1 = kv'.1 → Same kv.2 kv'.2) : Same (.obj kvs) (.obj kvs')

theorem Value.Keyed.same_sortKeys {v : Value F} (h : v.Keyed) : v.Same (sortKeys v) := by
  induction h with
  | null => exact .refl _
  | bool b => exact .refl _
  | int n => exact .refl _
  | float x => exact .refl _
  | str s => exact .refl _
  | arr xs _ ih =>
    rw [sortKeys, sortElements_eq]
    refine .arr _ _ (List.length_map _).symm fun p hp => ?_
    rw [List.zip_map_right] at hp
    obtain ⟨q, hq, rfl⟩ := List.mem_map.mp hp
    have hself : q.1 = q.2 := by
      obtain ⟨i, hi, hget⟩ := List.mem_iff_getElem.mp hq
      rw [List.getElem_zip] at hget
      rw [← hget]
    have hmem : q.1 ∈ xs := (List.of_mem_zip hq).1
    simpa [← hself] using ih q.1 hmem
  | obj kvs hkeys _ ih =>
    rw [sortKeys_obj]
    refine .obj _ _ (keys_sorted kvs).symm fun kv hkv kv' hkv' hkey => ?_
    obtain ⟨kv₁, hkv₁, rfl⟩ := List.mem_map.mp hkv'
    have hself : kv = kv₁ :=
      List.inj_on_of_nodup_map hkeys hkv ((sortByKey_perm kvs).mem_iff.mp hkv₁) hkey
    rw [← hself]
    exact ih kv hkv

/-! ### Writing and reading -/

section

variable [DecidableEq F] (ft : FloatText F) (st : Style)

/-- `json.dumps` with `sort_keys`; none is its `ValueError` or `RecursionError`. -/
def dumpsSorted (room : ℕ) (v : Value F) : Option (List Char) :=
  if v.writable room then some (dumps ft st (sortKeys v)) else none

variable {ft st} {room : ℕ}

/-- **Round trip**: what is dumped with sorted keys is loaded again, its members
sorted. -/
theorem loads_dumpsSorted {v : Value F} (h : v.Keyed) {text : List Char} (ht : dumpsSorted ft st room v = some text) :
    loads ft text = some (sortKeys v) := by
  unfold dumpsSorted at ht
  split at ht
  · next hw =>
    obtain rfl := Option.some.inj ht
    exact loads_dumps (h.printable (Value.writable_iff.mp hw).1).sortKeys
  · cases ht

theorem dumpsSorted_isSome {v : Value F} : (dumpsSorted ft st room v).isSome = v.writable room := by
  unfold dumpsSorted
  split
  · next hw => rw [hw]; rfl
  · next hw => rw [Bool.eq_false_iff.mpr hw]; rfl

end

end PyJson
