/-
# Paths as texts

`os.path.normpath` and the pure paths of `pathlib`, for POSIX. Both cut a text at the
slashes and drop the empty components and the dots; `normpath` also takes a component
away for each `..`, which a pure path keeps.

A normalised path below one slash is a list of components that are neither empty nor
dots (`normpath_single`), and such a path is its own normal form (`normpath_clean`).
What is joined to a path comes behind its parts (`parse_join`).

Key definitions: `PosixPath.normpath`, `PosixPath.Clean`, `PosixPath.parse`, `PosixPath.join`.
Key theorems: `normpath_single`, `normpath_clean`, `parse_join`.
-/
import Mathlib.Algebra.GroupWithZero.Nat
import Mathlib.Data.List.Basic
import Mathlib.Data.List.TakeWhile

namespace PosixPath

abbrev Chars := List Char

def dot : Chars := ['.']

def dotdot : Chars := ['.', '.']

/-- `path.split("/")`. -/
def split (t : Chars) : List Chars := t.splitOn '/'

/-- `"/".join(comps)`. -/
def glue (comps : List Chars) : Chars := ['/'].intercalate comps

def leadingSlashes (t : Chars) : ℕ := (t.takeWhile (· = '/')).length

/-- The slashes a path keeps in front: two where there are exactly two, and else one. -/
def rootSlashes (t : Chars) : ℕ := if leadingSlashes t = 2 then 2 else min 1 (leadingSlashes t)

/-- What one component does to those in front of it. -/
def push (rooted : Bool) (comps : List Chars) (c : Chars) : List Chars :=
  if c = [] ∨ c = dot then comps
  else if c ≠ dotdot ∨ (rooted = false ∧ comps = []) ∨ comps.getLast? = some dotdot then comps ++ [c]
  else comps.dropLast

/-- `os.path.normpath`. -/
def normpath (t : Chars) : Chars :=
  if t = [] then dot
  else
    let path := List.replicate (rootSlashes t) '/' ++ glue ((split t).foldl (push (0 < rootSlashes t)) [])
    if path = [] then dot else path

/-- A component that stays what it is. -/
structure Clean (c : Chars) : Prop where
  nonempty : c ≠ []
  not_dot : c ≠ dot
  not_dotdot : c ≠ dotdot
  no_slash : '/' ∉ c

/-! ### Texts and components -/

theorem split_glue {comps : List Chars} (h : ∀ c ∈ comps, '/' ∉ c) (hne : comps ≠ []) : split (glue comps) = comps :=
  List.splitOn_intercalate '/' h hne

theorem split_cons (t : Chars) : split ('/' :: t) = [] :: split t := by
  simp [split, List.splitOn_cons_eq_if_modifyHead]

theorem split_append (s t : Chars) : split (s ++ '/' :: t) = split s ++ split t := List.splitOn_append_cons_self s t

theorem notMem_of_mem_split {t c : Chars} (h : c ∈ split t) : '/' ∉ c := by
  induction t generalizing c with
  | nil =>
    obtain rfl : c = [] := by simpa [split] using h
    exact List.not_mem_nil
  | cons x t ih =>
    rw [split, List.splitOn_cons_eq_if_modifyHead] at h
    by_cases hx : (x == '/') = true
    · rw [if_pos hx] at h
      rcases List.mem_cons.mp h with rfl | h
      · exact List.not_mem_nil
      · exact ih h
    · rw [if_neg hx] at h
      obtain ⟨d, ds, hds⟩ := List.exists_cons_of_ne_nil (List.splitOn_ne_nil '/' t)
      rw [hds, List.modifyHead_cons] at h
      have hmem : ∀ e ∈ d :: ds, '/' ∉ e := fun e he => ih (by rw [split, hds]; exact he)
      rcases List.mem_cons.mp h with rfl | h
      · intro hslash
        rcases List.mem_cons.mp hslash with rfl | hslash
        · simp at hx
        · exact hmem d List.mem_cons_self hslash
      · exact hmem c (List.mem_cons_of_mem _ h)

theorem glue_cons (c : Chars) {comps : List Chars} (h : comps ≠ []) : glue (c :: comps) = c ++ '/' :: glue comps := by
  unfold glue
  rw [List.intercalate_cons_of_ne_nil h]
  simp

@[simp] theorem glue_singleton (c : Chars) : glue [c] = c := by simp [glue]

/-! ### Normal forms below one slash -/

theorem leadingSlashes_single {t : Chars} (ht : t.head? ≠ some '/') : leadingSlashes ('/' :: t) = 1 := by
  unfold leadingSlashes
  rw [List.takeWhile_cons_of_pos (by decide)]
  cases t with
  | nil => rfl
  | cons c t =>
    rw [List.takeWhile_cons_of_neg (by simpa using ht)]
    rfl

theorem rootSlashes_single {t : Chars} (ht : t.head? ≠ some '/') : rootSlashes ('/' :: t) = 1 := by
  unfold rootSlashes
  rw [leadingSlashes_single ht]
  rfl

/-- A component below the root leaves clean components clean. -/
theorem push_clean {comps : List Chars} (h : ∀ c ∈ comps, Clean c) {c : Chars} (hc : '/' ∉ c) :
    ∀ d ∈ push true comps c, Clean d := by
  unfold push
  by_cases hskip : c = [] ∨ c = dot
  · rw [if_pos hskip]
    exact h
  · rw [if_neg hskip]
    obtain ⟨hne, hdot⟩ := not_or.mp hskip
    by_cases hup : c = dotdot
    · have hlast : ¬ (c ≠ dotdot ∨ (true = false ∧ comps = []) ∨ comps.getLast? = some dotdot) := by
        rintro (h1 | h1 | h1)
        · exact h1 hup
        · exact Bool.noConfusion h1.1
        · exact (h dotdot (List.mem_of_getLast? h1)).not_dotdot rfl
      rw [if_neg hlast]
      exact fun d hd => h d (List.dropLast_subset _ hd)
    · rw [if_pos (.inl hup)]
      intro d hd
      rcases List.mem_append.mp hd with hd | hd
      · exact h d hd
      · rw [List.mem_singleton.mp hd]
        exact ⟨hne, hdot, hup, hc⟩

theorem foldl_push_clean : ∀ (cs comps : List Chars), (∀ c ∈ comps, Clean c) → (∀ c ∈ cs, '/' ∉ c) →
    ∀ d ∈ cs.foldl (push true) comps, Clean d
  | [], _, h, _ => h
  | c :: cs, comps, h, hcs =>
    foldl_push_clean cs (push true comps c) (push_clean h (hcs c List.mem_cons_self))
      fun d hd => hcs d (List.mem_cons_of_mem _ hd)

theorem foldl_push_of_clean : ∀ (cs comps : List Chars), (∀ c ∈ cs, Clean c) →
    cs.foldl (push true) comps = comps ++ cs
  | [], comps, _ => (List.append_nil comps).symm
  | c :: cs, comps, h => by
    have hc := h c List.mem_cons_self
    have hpush : push true comps c = comps ++ [c] := by
      unfold push
      rw [if_neg (not_or.mpr ⟨hc.nonempty, hc.not_dot⟩), if_pos (.inl hc.not_dotdot)]
    rw [List.foldl_cons, hpush, foldl_push_of_clean cs _ fun d hd => h d (List.mem_cons_of_mem _ hd), List.append_assoc]
    rfl

/-- The normal form of a path below one slash. -/
theorem normpath_single {t : Chars} (ht : t.head? ≠ some '/') :
    ∃ comps, (∀ c ∈ comps, Clean c) ∧ normpath ('/' :: t) = '/' :: glue comps := by
  refine ⟨(split ('/' :: t)).foldl (push true) [], ?_, ?_⟩
  · exact foldl_push_clean _ _ (fun c hc => absurd hc List.not_mem_nil) fun c hc => notMem_of_mem_split hc
  · unfold normpath
    rw [if_neg (List.cons_ne_nil _ _), rootSlashes_single ht]
    exact if_neg (List.cons_ne_nil _ _)

/-- What the components of a path come to, a slash being counted for each. -/
def weight (comps : List Chars) : ℕ := (comps.map fun c => c.length + 1).sum

theorem weight_append (comps comps' : List Chars) : weight (comps ++ comps') = weight comps + weight comps' := by
  unfold weight
  rw [List.map_append, List.sum_append]

theorem weight_split (t : Chars) : weight (split t) = t.length + 1 := by
  induction t with
  | nil => rfl
  | cons c t ih =>
    by_cases hc : c = '/'
    · rw [hc, split_cons, List.length_cons, ← ih]
      unfold weight
      rw [List.map_cons, List.sum_cons]
      simp [Nat.add_comm]
    · obtain ⟨d, ds, hds⟩ := List.exists_cons_of_ne_nil (List.splitOn_ne_nil '/' t)
      have hsplit : split (c :: t) = (c :: d) :: ds := by
        rw [split, List.splitOn_cons_eq_if_modifyHead, if_neg (by simpa using hc), hds, List.modifyHead_cons]
      unfold split at ih
      rw [hds] at ih
      unfold weight at ih ⊢
      rw [hsplit, List.map_cons, List.sum_cons, List.length_cons]
      rw [List.map_cons, List.sum_cons] at ih
      rw [List.length_cons]
      omega

theorem weight_push_le (rooted : Bool) (comps : List Chars) (c : Chars) :
    weight (push rooted comps c) ≤ weight comps + (c.length + 1) := by
  have hone : weight [c] = c.length + 1 := by
    unfold weight
    simp
  unfold push
  by_cases hskip : c = [] ∨ c = dot
  · rw [if_pos hskip]
    exact Nat.le_add_right _ _
  · rw [if_neg hskip]
    by_cases hkeep : c ≠ dotdot ∨ (rooted = false ∧ comps = []) ∨ comps.getLast? = some dotdot
    · rw [if_pos hkeep, weight_append, hone]
    · rw [if_neg hkeep]
      have hsub : weight comps.dropLast ≤ weight comps := by
        by_cases hne : comps = []
        · rw [hne, List.dropLast_nil]
        · have hsplit := weight_append comps.dropLast [comps.getLast hne]
          rw [List.dropLast_append_getLast hne] at hsplit
          omega
      omega

theorem weight_foldl_push_le (rooted : Bool) : ∀ cs comps : List Chars,
    weight (cs.foldl (push rooted) comps) ≤ weight comps + weight cs
  | [], comps => Nat.le_add_right _ _
  | c :: cs, comps => by
    have h := weight_foldl_push_le rooted cs (push rooted comps c)
    have hpush := weight_push_le rooted comps c
    have hcons : weight (c :: cs) = c.length + 1 + weight cs := rfl
    rw [List.foldl_cons]
    omega

theorem length_glue_cons (c : Chars) (comps : List Chars) : (glue (c :: comps)).length + 1 = weight (c :: comps) := by
  induction comps generalizing c with
  | nil =>
    rw [glue_singleton]
    rfl
  | cons d comps ih =>
    have hcons : weight (c :: d :: comps) = c.length + 1 + weight (d :: comps) := rfl
    rw [glue_cons c (List.cons_ne_nil d comps), hcons, ← ih d, List.length_append, List.length_cons]
    omega

/-- The normal form of a path below one slash is no longer than the path. -/
theorem length_normpath_le {t : Chars} (ht : t.head? ≠ some '/') : (normpath ('/' :: t)).length ≤ ('/' :: t).length := by
  have hfold := weight_foldl_push_le true (split t) []
  rw [weight_split] at hfold
  have hfirst : push true [] [] = [] := if_pos (.inl rfl)
  have hnorm : normpath ('/' :: t) = '/' :: glue ((split t).foldl (push true) []) := by
    unfold normpath
    rw [if_neg (List.cons_ne_nil _ _), rootSlashes_single ht, split_cons, List.foldl_cons]
    exact if_neg (List.cons_ne_nil _ _)
  rw [hnorm, List.length_cons, List.length_cons]
  cases hcomps : (split t).foldl (push true) [] with
  | nil => simp [glue]
  | cons c comps =>
    rw [hcomps, ← length_glue_cons] at hfold
    have hzero : weight [] = 0 := rfl
    omega

theorem glue_head {comps : List Chars} (h : ∀ c ∈ comps, Clean c) : (glue comps).head? ≠ some '/' := by
  cases comps with
  | nil => simp [glue]
  | cons c cs =>
    have hc := h c List.mem_cons_self
    obtain ⟨x, c', rfl⟩ := List.exists_cons_of_ne_nil hc.nonempty
    have hx : x ≠ '/' := fun e => hc.no_slash (e ▸ List.mem_cons_self)
    cases cs with
    | nil => simpa using hx
    | cons d ds =>
      rw [glue_cons _ (List.cons_ne_nil _ _)]
      simpa using hx

/-- A path of clean components is its own normal form. -/
theorem normpath_clean {comps : List Chars} (h : ∀ c ∈ comps, Clean c) :
    normpath ('/' :: glue comps) = '/' :: glue comps := by
  have hfold : (split ('/' :: glue comps)).foldl (push true) [] = comps := by
    rw [split_cons, List.foldl_cons]
    have hfirst : push true [] [] = [] := if_pos (.inl rfl)
    rw [hfirst]
    by_cases hne : comps = []
    · subst hne
      rfl
    · rw [split_glue (fun c hc => (h c hc).no_slash) hne, foldl_push_of_clean _ _ h, List.nil_append]
  unfold normpath
  rw [if_neg (List.cons_ne_nil _ _), rootSlashes_single (glue_head h)]
  simp only [Nat.lt_one_iff, decide_true, hfold]
  exact if_neg (List.cons_ne_nil _ _)

/-! ### Pure paths -/

/-- A `PurePosixPath`: the slashes of its root, and its parts behind them. -/
structure PurePath where
  root : Chars
  parts : List Chars
  deriving DecidableEq

/-- `Path(text)`. -/
def parse (t : Chars) : PurePath where
  root := List.replicate (rootSlashes t) '/'
  parts := (split t).filter fun c => c ≠ [] ∧ c ≠ dot

/-- `os.path.join`. -/
def join (a b : Chars) : Chars :=
  if b.head? = some '/' then b else if a = [] ∨ a.getLast? = some '/' then a ++ b else a ++ '/' :: b

theorem leadingSlashes_append {a b : Chars} (hb : b.head? ≠ some '/') : leadingSlashes (a ++ b) = leadingSlashes a := by
  have hnone : b.takeWhile (· = '/') = [] := by
    cases b with
    | nil => rfl
    | cons c b => exact List.takeWhile_cons_of_neg (by simpa using hb)
  unfold leadingSlashes
  induction a with
  | nil => rw [List.nil_append, hnone, List.takeWhile_nil]
  | cons c a ih =>
    by_cases hc : c = '/'
    · rw [List.cons_append, List.takeWhile_cons_of_pos (by simpa using hc), List.takeWhile_cons_of_pos (by simpa using hc),
        List.length_cons, List.length_cons, ih]
    · rw [List.cons_append, List.takeWhile_cons_of_neg (by simpa using hc), List.takeWhile_cons_of_neg (by simpa using hc)]

theorem leadingSlashes_append_cons {a t : Chars} (ha : a ≠ []) (hlast : a.getLast? ≠ some '/') :
    leadingSlashes (a ++ t) = leadingSlashes a := by
  unfold leadingSlashes
  induction a with
  | nil => exact absurd rfl ha
  | cons c a ih =>
    by_cases hc : c = '/'
    · have hne : a ≠ [] := by
        rintro rfl
        exact hlast (by simp [hc])
      rw [List.getLast?_cons_of_ne_nil hne] at hlast
      rw [List.cons_append, List.takeWhile_cons_of_pos (by simpa using hc), List.takeWhile_cons_of_pos (by simpa using hc),
        List.length_cons, List.length_cons, ih hne hlast]
    · rw [List.cons_append, List.takeWhile_cons_of_neg (by simpa using hc), List.takeWhile_cons_of_neg (by simpa using hc)]

/-- What is joined to a path comes behind its parts. -/
theorem parse_join {a b : Chars} (hb : b.head? ≠ some '/') :
    parse (join a b) = { root := (parse a).root, parts := (parse a).parts ++ (parse b).parts } := by
  unfold join
  rw [if_neg hb]
  by_cases ha : a = []
  · subst ha
    rw [if_pos (.inl rfl)]
    have hroot := leadingSlashes_append (a := []) hb
    have hempty : (split []).filter (fun c => decide (c ≠ [] ∧ c ≠ dot)) = [] := rfl
    unfold parse rootSlashes
    rw [hroot, hempty]
    rfl
  · by_cases hlast : a.getLast? = some '/'
    · obtain ⟨a', rfl⟩ := List.getLast?_eq_some_iff.mp hlast
      rw [if_pos (.inr hlast)]
      unfold parse rootSlashes
      rw [leadingSlashes_append hb, List.append_assoc, List.singleton_append, split_append, split_append]
      simp [split]
    · rw [if_neg (not_or.mpr ⟨ha, hlast⟩)]
      unfold parse rootSlashes
      rw [leadingSlashes_append_cons ha hlast, split_append, List.filter_append]

/-- The parts of clean components. -/
theorem parse_glue_parts {comps : List Chars} (h : ∀ c ∈ comps, Clean c) : (parse (glue comps)).parts = comps := by
  unfold parse
  by_cases hne : comps = []
  · subst hne
    rfl
  · rw [split_glue (fun c hc => (h c hc).no_slash) hne, List.filter_eq_self]
    intro c hc
    simp [(h c hc).nonempty, (h c hc).not_dot]

end PosixPath
