/-
# The output manifest

`snapshot_manifest` and `incomplete_manifest_paths` of `deliverables.py`. The baseline
is keyed by the normal forms of the paths, which are normalised once more when they
are looked up. White space is taken off before a path is normalised and can come to
its end by it, so a normal form need not be its own; the paths and the keys of their
baseline are reconciled alike iff no normal form ends in white space
(`agrees_iff`).

A file tree says what is at a path of the host. A host's `ignore_matcher` may raise,
and files may refuse to be looked at or read.

Key definitions: `pathSnapshot`, `snapshotManifest`, `incompleteManifestPaths`, `Agrees`.
Key theorem: `agrees_iff`.
-/
import Mathlib.Data.Char
import Mathlib.Data.List.Lex
import Mathlib.Data.List.Nodup
import AgentCore.Deliverables.Paths

namespace AgentCore.Deliverables

open PosixPath Text Trim

/-! ### File trees -/

/-- What `stat` says of a file, size and modification time, and its digest; `none` where
the host refuses. -/
structure File where
  stat : Option (ℕ × ℤ)
  digest : Option Chars

mutual

/-- What is at a path; `special` is neither a file nor a directory. -/
inductive Node
  | file (f : File)
  | special (f : File)
  | symlink
  | dir (entries : Entries)

inductive Entries
  | nil
  | cons (name : Chars) (node : Node) (rest : Entries)

end

abbrev FileTree := PurePath → Option Node

structure SnapshotEntry where
  relpath : Chars
  size : ℕ
  mtimeNs : ℤ
  digest : Chars
  deriving DecidableEq

/-- The order of tuples. -/
def SnapshotEntry.le (a b : SnapshotEntry) : Bool :=
  if a.relpath ≠ b.relpath then a.relpath < b.relpath
  else if a.size ≠ b.size then a.size < b.size
  else if a.mtimeNs ≠ b.mtimeNs then a.mtimeNs < b.mtimeNs
  else a.digest ≤ b.digest

/-- The entry of a file, unless it is empty or refuses. -/
def fileEntry (relpath : Chars) (f : File) : List SnapshotEntry :=
  match f.stat, f.digest with
  | some (size, mtimeNs), some digest =>
    if size = 0 then [] else [{ relpath := relpath, size := size, mtimeNs := mtimeNs, digest := digest }]
  | _, _ => []

mutual

/-- What the walk finds at a place below its root. -/
def walkNode (ignored : List Chars → Bool) (place : List Chars) : Node → List SnapshotEntry
  | .file f => if ignored place then [] else fileEntry (glue place) f
  | .special f => if ignored place then [] else fileEntry (glue place) f
  | .symlink => []
  | .dir entries => if ignored place then [] else walk ignored place entries

/-- `os.walk` of a directory. -/
def walk (ignored : List Chars → Bool) (place : List Chars) : Entries → List SnapshotEntry
  | .nil => []
  | .cons name node rest => walkNode ignored (place ++ [name]) node ++ walk ignored place rest

end

/-- A host's predicate on relative paths; `none` where it raises. -/
abbrev IgnoreMatcher := Chars → Option Bool

/-- `candidate.relative_to(root).as_posix()`. -/
def relativeTo (candidate root : PurePath) : Option Chars :=
  if candidate.root = root.root ∧ root.parts <+: candidate.parts then
    let parts := candidate.parts.drop root.parts.length
    some (if parts = [] then dot else glue parts)
  else none

def isIgnored (ignoreMatcher : Option IgnoreMatcher) (outputsRoot candidate : PurePath) : Bool :=
  match ignoreMatcher, relativeTo candidate outputsRoot with
  | some matcher, some rel => (matcher rel).getD false
  | _, _ => false

section Host

variable (hostRoot : Option Chars) (ignoreMatcher : Option IgnoreMatcher)

/-- `_path_snapshot`. -/
def pathSnapshot (tree : FileTree) (path : Chars) : List SnapshotEntry :=
  match hostPath path hostRoot with
  | .error _ => []
  | .ok root =>
    let ignored := isIgnored ignoreMatcher (parse (resolveHostOutputsRoot hostRoot))
    if ignored root then []
    else
      match tree root with
      | some (.file f) => fileEntry dot f
      | some (.dir entries) =>
        (walk (fun place => ignored { root with parts := root.parts ++ place }) [] entries).mergeSort SnapshotEntry.le
      | _ => []

/-! ### Manifests -/

/-- The loop of `normalise_output_paths`. -/
def normaliseFrom : List Chars → List Chars → Except PathError (List Chars)
  | result, [] => .ok result
  | result, raw :: paths =>
    match normaliseOutputPath raw with
    | .error e => .error e
    | .ok path => normaliseFrom (if path ∈ result then result else result ++ [path]) paths

def normaliseOutputPaths (paths : List Chars) : Except PathError (List Chars) := normaliseFrom [] paths

abbrev Baseline := List (Chars × List SnapshotEntry)

def snapshotManifest (tree : FileTree) (paths : List Chars) : Except PathError Baseline :=
  (normaliseOutputPaths paths).map fun ps => ps.map fun path => (path, pathSnapshot hostRoot ignoreMatcher tree path)

/-- What a published file is known by. -/
def identity (e : SnapshotEntry) : Chars × ℕ × Chars := (e.relpath, e.size, e.digest)

/-- The entry of the manifest holds nothing that was published. -/
def isMissing (tree : FileTree) (baseline : Baseline) (path : Chars) : Bool :=
  let current := pathSnapshot hostRoot ignoreMatcher tree path
  if current = [] then true
  else
    let previous := ((baseline.lookup path).getD []).map identity
    if previous = [] then false else (current.map identity).all (· ∈ previous)

def incompleteManifestPaths (tree : FileTree) (paths : List Chars) (baseline : Baseline) :
    Except PathError (List Chars) :=
  (normaliseOutputPaths paths).map fun ps => ps.filter (isMissing hostRoot ignoreMatcher tree baseline)

/-! ### Reconciliation -/

/-- The paths are accepted. -/
def Accepted (paths : List Chars) : Prop := ∀ raw ∈ paths, ∃ p, normaliseOutputPath raw = .ok p

/-- A path holds nothing new: there is nothing, or nothing that the non-empty baseline
lacks. -/
def NothingNew (baseline current : List SnapshotEntry) : Prop :=
  current = [] ∨ (baseline ≠ [] ∧ ∀ e ∈ current, identity e ∈ baseline.map identity)

/-- The second tree is reconciled with the first: the paths and the keys of their
baseline get one answer, and it names the paths that hold nothing new. -/
def Agrees (paths : List Chars) (before after : FileTree) : Prop :=
  ∃ baseline missing, snapshotManifest hostRoot ignoreMatcher before paths = .ok baseline ∧
    incompleteManifestPaths hostRoot ignoreMatcher after paths baseline = .ok missing ∧
    incompleteManifestPaths hostRoot ignoreMatcher after (baseline.map Prod.fst) baseline = .ok missing ∧
    ∀ path, path ∈ missing ↔ (∃ raw ∈ paths, normaliseOutputPath raw = .ok path) ∧
      NothingNew (pathSnapshot hostRoot ignoreMatcher before path) (pathSnapshot hostRoot ignoreMatcher after path)

end Host

/-- The text ends in white space. -/
def endsInSpace (t : Chars) : Bool := t.getLast?.any Text.isSpace

/-! ### Normal forms that stay -/

theorem trim_isSpace_eq_self_iff {t : Chars} (ht : outputsPrefix <+: t) : trim isSpace t = t ↔ endsInSpace t = false := by
  obtain ⟨u, rfl⟩ := ht
  have hfirst : (outputsPrefix ++ u).dropWhile Text.isSpace = outputsPrefix ++ u :=
    List.dropWhile_cons_of_neg (by decide)
  unfold endsInSpace
  constructor
  · intro h
    by_contra hlast
    obtain ⟨c, hc, hspace⟩ : ∃ c, (outputsPrefix ++ u).getLast? = some c ∧ Text.isSpace c = true := by
      cases hget : (outputsPrefix ++ u).getLast? with
      | none =>
        rw [hget] at hlast
        exact absurd rfl hlast
      | some c =>
        rw [hget] at hlast
        exact ⟨c, rfl, by simpa using hlast⟩
    obtain ⟨front, hfront⟩ := List.getLast?_eq_some_iff.mp hc
    have hlen := congrArg List.length h
    unfold trim at hlen
    rw [hfirst, hfront, List.reverse_append, List.reverse_singleton, List.singleton_append,
      List.dropWhile_cons_of_pos hspace, List.length_reverse, List.length_append, List.length_singleton] at hlen
    have hle := (List.dropWhile_sublist (l := front.reverse) Text.isSpace).length_le
    rw [List.length_reverse] at hle
    omega
  · intro h
    refine trim_of_ends hfirst ?_
    cases hrev : (outputsPrefix ++ u).reverse with
    | nil => rfl
    | cons c front =>
      have hlast : (outputsPrefix ++ u).getLast? = some c := by
        rw [← List.head?_reverse, hrev]
        rfl
      rw [hlast] at h
      exact List.dropWhile_cons_of_neg (by simpa using h)

/-- An accepted path is its own normal form iff it does not end in white space. -/
theorem normalise_self_iff {raw p : Chars} (h : normaliseOutputPath raw = .ok p) :
    normaliseOutputPath p = .ok p ↔ endsInSpace p = false := by
  obtain ⟨rest, hne, hclean, rfl, hglob⟩ := normalise_ok h
  have hpre := outputsPrefix_under hne
  rw [← trim_isSpace_eq_self_iff hpre]
  constructor
  · intro hself
    -- the normal form of the stripped path is no longer than it
    by_contra hstrip
    unfold normaliseOutputPath at hself
    dsimp only at hself
    by_cases hraw : outputsPrefix <+: trim isSpace (under rest)
    · rw [if_neg (not_not_intro hraw)] at hself
      by_cases hin : normpath (trim isSpace (under rest)) = sandboxOutputsRoot ∨ ¬ outputsPrefix <+: normpath (trim isSpace (under rest))
      · rw [if_pos hin] at hself
        cases hself
      · rw [if_neg hin] at hself
        by_cases hg : ((normpath (trim isSpace (under rest))).any fun c => c ∈ globCharacters) = true
        · rw [if_pos hg] at hself
          cases hself
        · rw [if_neg hg] at hself
          have heq : normpath (trim isSpace (under rest)) = under rest := Except.ok.inj hself
          obtain ⟨u, hu⟩ := hraw
          have hsingle : trim isSpace (under rest) = '/' :: ("outputs/".toList ++ u) := hu.symm
          have hhead : ("outputs/".toList ++ u).head? ≠ some '/' := by
            have : ("outputs/".toList ++ u).head? = some 'o' := rfl
            rw [this]
            decide
          have hle := length_normpath_le hhead
          rw [← hsingle, heq] at hle
          have hpart : trim isSpace (under rest) <:+: under rest := trim_isInfix _
          exact hstrip (hpart.eq_of_length (Nat.le_antisymm hpart.length_le hle))
    · rw [if_pos hraw] at hself
      cases hself
  · intro hstrip
    have hnot : ¬ (normpath (under rest) = sandboxOutputsRoot ∨ ¬ outputsPrefix <+: normpath (under rest)) := by
      rw [normpath_under hclean]
      rintro (heq | hno)
      · rw [heq] at hpre
        exact absurd hpre (by decide)
      · exact hno hpre
    have hany : ¬ ((normpath (under rest)).any fun c => c ∈ globCharacters) = true := by
      rw [normpath_under hclean, List.any_eq_true]
      rintro ⟨c, hc, hmem⟩
      exact hglob c hc (by simpa using hmem)
    unfold normaliseOutputPath
    dsimp only
    rw [hstrip, if_neg (not_not_intro hpre), if_neg hnot, if_neg hany, normpath_under hclean]

/-! ### The keys -/

theorem normaliseFrom_accepted : ∀ (result paths : List Chars), result.Nodup → Accepted paths →
    ∃ r, normaliseFrom result paths = .ok r ∧ r.Nodup ∧
      ∀ p, p ∈ r ↔ p ∈ result ∨ ∃ raw ∈ paths, normaliseOutputPath raw = .ok p
  | result, [], hn, _ => ⟨result, rfl, hn, by simp⟩
  | result, raw :: paths, hn, ha => by
    obtain ⟨q, hq⟩ := ha raw List.mem_cons_self
    have hnodup : (if q ∈ result then result else result ++ [q]).Nodup := by
      by_cases hmem : q ∈ result
      · rwa [if_pos hmem]
      · rw [if_neg hmem]
        exact List.nodup_append'.mpr ⟨hn, List.nodup_singleton q, by simpa using hmem⟩
    obtain ⟨r, hr, hrn, hmem⟩ := normaliseFrom_accepted _ paths hnodup fun x hx => ha x (List.mem_cons_of_mem _ hx)
    refine ⟨r, ?_, hrn, fun p => ?_⟩
    · rw [normaliseFrom, hq]
      exact hr
    · have hstep : p ∈ (if q ∈ result then result else result ++ [q]) ↔ p ∈ result ∨ normaliseOutputPath raw = .ok p := by
        rw [hq, Except.ok.injEq]
        by_cases hmem : q ∈ result
        · rw [if_pos hmem]
          exact ⟨.inl, fun h => h.elim id fun e => e ▸ hmem⟩
        · rw [if_neg hmem, List.mem_append, List.mem_singleton, eq_comm (a := p)]
      rw [hmem, hstep, List.exists_mem_cons_iff, or_assoc]

/-- Keys that are their own normal forms stay the keys. -/
theorem normaliseFrom_of_self : ∀ (result keys : List Chars), (result ++ keys).Nodup →
    (∀ k ∈ keys, normaliseOutputPath k = .ok k) → normaliseFrom result keys = .ok (result ++ keys)
  | result, [], _, _ => by rw [normaliseFrom, List.append_nil]
  | result, k :: keys, hn, hself => by
    have hnew : k ∉ result := fun hmem => (List.nodup_append'.mp hn).2.2 hmem List.mem_cons_self
    have hassoc : result ++ k :: keys = (result ++ [k]) ++ keys := by simp
    rw [hassoc] at hn ⊢
    rw [normaliseFrom, hself k List.mem_cons_self]
    simp only [if_neg hnew]
    exact normaliseFrom_of_self (result ++ [k]) keys hn fun x hx => hself x (List.mem_cons_of_mem _ hx)

theorem normaliseFrom_extends : ∀ {result paths r : List Chars}, normaliseFrom result paths = .ok r →
    result <+: r ∧ r.length ≤ result.length + paths.length
  | result, [], r, h => by
    rw [normaliseFrom, Except.ok.injEq] at h
    subst h
    exact ⟨List.prefix_refl _, Nat.le_refl _⟩
  | result, raw :: paths, r, h => by
    rw [normaliseFrom] at h
    cases hq : normaliseOutputPath raw with
    | error e =>
      rw [hq] at h
      cases h
    | ok q =>
      rw [hq] at h
      obtain ⟨hpre, hlen⟩ := normaliseFrom_extends h
      by_cases hmem : q ∈ result
      · rw [if_pos hmem] at hpre hlen
        rw [List.length_cons]
        exact ⟨hpre, by omega⟩
      · rw [if_neg hmem] at hpre hlen
        rw [List.length_append, List.length_singleton] at hlen
        rw [List.length_cons]
        exact ⟨(List.prefix_append _ _).trans hpre, by omega⟩

/-- Keys that stay the keys are their own normal forms. -/
theorem self_of_normaliseFrom : ∀ {result keys : List Chars}, normaliseFrom result keys = .ok (result ++ keys) →
    ∀ k ∈ keys, normaliseOutputPath k = .ok k
  | _, [], _ => fun k hk => absurd hk List.not_mem_nil
  | result, k :: keys, h => by
    rw [normaliseFrom] at h
    cases hq : normaliseOutputPath k with
    | error e =>
      rw [hq] at h
      cases h
    | ok q =>
      rw [hq] at h
      obtain ⟨hpre, hlen⟩ := normaliseFrom_extends h
      by_cases hmem : q ∈ result
      · rw [if_pos hmem, List.length_append, List.length_cons] at hlen
        omega
      · simp only [if_neg hmem] at h hpre
        have hk : q = k := by
          obtain ⟨u, hu⟩ := hpre
          rw [List.append_assoc, List.singleton_append] at hu
          exact (List.cons.inj (List.append_cancel_left hu)).1
        have hassoc : result ++ k :: keys = (result ++ [k]) ++ keys := by simp
        rw [hassoc, hk] at h
        intro x hx
        rcases List.mem_cons.mp hx with rfl | hx
        · rw [hq, hk]
        · exact self_of_normaliseFrom h x hx

/-! ### The reconciliation -/

section Reconcile

variable {hostRoot : Option Chars} {ignoreMatcher : Option IgnoreMatcher}

theorem lookup_snapshot (f : Chars → List SnapshotEntry) {keys : List Chars} {path : Chars} (h : path ∈ keys) :
    (keys.map fun p => (p, f p)).lookup path = some (f path) := by
  induction keys with
  | nil => exact absurd h List.not_mem_nil
  | cons k keys ih =>
    rw [List.map_cons]
    by_cases hk : path = k
    · rw [hk, List.lookup_cons_self]
    · have hmem : path ∈ keys := (List.mem_cons.mp h).resolve_left hk
      rw [List.lookup_cons, beq_eq_false_iff_ne.mpr hk]
      exact ih hmem

theorem isMissing_iff {before after : FileTree} {keys : List Chars} {path : Chars} (h : path ∈ keys) :
    isMissing hostRoot ignoreMatcher after (keys.map fun p => (p, pathSnapshot hostRoot ignoreMatcher before p)) path =
      true ↔ NothingNew (pathSnapshot hostRoot ignoreMatcher before path)
        (pathSnapshot hostRoot ignoreMatcher after path) := by
  unfold isMissing NothingNew
  dsimp only
  rw [lookup_snapshot _ h, Option.getD_some]
  by_cases hc : pathSnapshot hostRoot ignoreMatcher after path = []
  · simp [hc]
  · by_cases hp : pathSnapshot hostRoot ignoreMatcher before path = []
    · simp [hc, hp]
    · simp [hc, hp]

variable (hostRoot ignoreMatcher) in
/-- What is incomplete among accepted paths is what holds nothing new. -/
theorem incomplete_spec {paths : List Chars} (ha : Accepted paths) (before after : FileTree) :
    ∃ keys, normaliseOutputPaths paths = .ok keys ∧ keys.Nodup ∧
      (∀ p, p ∈ keys ↔ ∃ raw ∈ paths, normaliseOutputPath raw = .ok p) ∧
      ∀ path, path ∈ keys.filter (isMissing hostRoot ignoreMatcher after
          (keys.map fun p => (p, pathSnapshot hostRoot ignoreMatcher before p))) ↔
        (∃ raw ∈ paths, normaliseOutputPath raw = .ok path) ∧
          NothingNew (pathSnapshot hostRoot ignoreMatcher before path)
            (pathSnapshot hostRoot ignoreMatcher after path) := by
  obtain ⟨keys, hkeys, hn, hmem⟩ := normaliseFrom_accepted [] paths List.nodup_nil ha
  have hmem' : ∀ p, p ∈ keys ↔ ∃ raw ∈ paths, normaliseOutputPath raw = .ok p := fun p => by
    rw [hmem]
    simp
  refine ⟨keys, hkeys, hn, hmem', fun path => ?_⟩
  rw [List.mem_filter, ← hmem']
  exact and_congr_right fun hk => isMissing_iff hk

/-- There is nothing on the host. -/
def emptyTree : FileTree := fun _ => none

theorem pathSnapshot_emptyTree (path : Chars) : pathSnapshot hostRoot ignoreMatcher emptyTree path = [] := by
  unfold pathSnapshot
  cases hostPath path hostRoot with
  | error e => rfl
  | ok root => exact ite_self _

theorem filter_isMissing_emptyTree (baseline : Baseline) (keys : List Chars) :
    keys.filter (isMissing hostRoot ignoreMatcher emptyTree baseline) = keys := by
  rw [List.filter_eq_self]
  intro k _
  unfold isMissing
  rw [pathSnapshot_emptyTree]
  rfl

variable (hostRoot ignoreMatcher)

/-- **The manifest agrees with its baseline** on all file trees iff no normal form of a
path ends in white space. -/
theorem agrees_iff {paths : List Chars} (ha : Accepted paths) :
    (∀ before after, Agrees hostRoot ignoreMatcher paths before after) ↔
      ∀ raw ∈ paths, ∀ p, normaliseOutputPath raw = .ok p → endsInSpace p = false := by
  constructor
  · intro h raw hraw p hp
    obtain ⟨keys, hkeys, -, hmem, -⟩ := incomplete_spec hostRoot ignoreMatcher ha emptyTree emptyTree
    obtain ⟨baseline, missing, hb, hm, hm', -⟩ := h emptyTree emptyTree
    unfold snapshotManifest at hb
    rw [hkeys] at hb
    have hfst : baseline.map Prod.fst = keys := by
      rw [← Except.ok.inj hb, List.map_map]
      exact List.map_id _
    -- on an empty tree everything is missing, so the keys are the keys of the keys
    unfold incompleteManifestPaths at hm hm'
    rw [hkeys] at hm
    rw [hfst] at hm'
    cases hks : normaliseOutputPaths keys with
    | error e =>
      rw [hks] at hm'
      cases hm'
    | ok keys' =>
      rw [hks] at hm'
      have hkeys' : keys'.filter (isMissing hostRoot ignoreMatcher emptyTree baseline) = missing := Except.ok.inj hm'
      have hkept : keys.filter (isMissing hostRoot ignoreMatcher emptyTree baseline) = missing := Except.ok.inj hm
      rw [filter_isMissing_emptyTree] at hkeys' hkept
      rw [hkeys', ← hkept] at hks
      have hkeep : normaliseFrom [] keys = .ok ([] ++ keys) := hks
      have hself := self_of_normaliseFrom hkeep p ((hmem p).mpr ⟨raw, hraw, hp⟩)
      exact (normalise_self_iff hp).mp hself
  · intro h before after
    obtain ⟨keys, hkeys, hn, hmem, hspec⟩ := incomplete_spec hostRoot ignoreMatcher ha before after
    have hstay : normaliseOutputPaths keys = .ok keys := by
      refine normaliseFrom_of_self [] keys hn fun k hk => ?_
      obtain ⟨raw, hraw, hp⟩ := (hmem k).mp hk
      exact (normalise_self_iff hp).mpr (h raw hraw k hp)
    have hfst : (keys.map fun p => (p, pathSnapshot hostRoot ignoreMatcher before p)).map Prod.fst = keys := by
      rw [List.map_map]
      exact List.map_id _
    refine ⟨keys.map fun p => (p, pathSnapshot hostRoot ignoreMatcher before p), _, ?_, ?_, ?_, hspec⟩
    · unfold snapshotManifest
      rw [hkeys]
      rfl
    · unfold incompleteManifestPaths
      rw [hkeys]
      rfl
    · unfold incompleteManifestPaths
      rw [hfst, hstay]
      rfl

/-- The report is accepted, and reconciled with its baseline whatever the file trees. -/
theorem roundabout_agrees : Accepted [roundabout] ∧ ∀ before after, Agrees none none [roundabout] before after := by
  have hok := normalise_roundabout
  have ha : Accepted [roundabout] := fun raw hraw => ⟨_, List.mem_singleton.mp hraw ▸ hok⟩
  refine ⟨ha, (agrees_iff none none ha).mpr fun raw hraw p hp => ?_⟩
  rw [List.mem_singleton.mp hraw, hok, Except.ok.injEq] at hp
  subst hp
  decide +kernel

/-- A directory whose name ends in a blank, with a dot behind it. -/
def blankDir : Chars := "/outputs/a /.".toList

theorem blankDir_disagrees : ¬ ∀ (hostRoot : Option Chars) (ignoreMatcher : Option IgnoreMatcher) (paths : List Chars),
    Accepted paths → ∀ before after, Agrees hostRoot ignoreMatcher paths before after := by
  intro h
  have hok : normaliseOutputPath blankDir = .ok "/outputs/a ".toList := by decide +kernel
  have ha : Accepted [blankDir] := fun raw hraw => ⟨_, List.mem_singleton.mp hraw ▸ hok⟩
  obtain ⟨baseline, missing, hb, hm, hm', -⟩ := h none none [blankDir] ha emptyTree emptyTree
  have hbase : snapshotManifest none none emptyTree [blankDir] = .ok [("/outputs/a ".toList, [])] := by decide +kernel
  rw [hbase, Except.ok.injEq] at hb
  subst hb
  have hraw : incompleteManifestPaths none none emptyTree [blankDir] [("/outputs/a ".toList, [])] =
      .ok ["/outputs/a ".toList] := by decide +kernel
  have hkeys : incompleteManifestPaths none none emptyTree ["/outputs/a ".toList] [("/outputs/a ".toList, [])] =
      .ok ["/outputs/a".toList] := by decide +kernel
  have hmissing : missing = ["/outputs/a ".toList] := Except.ok.inj (hm.symm.trans hraw)
  have hmissing' : missing = ["/outputs/a".toList] := Except.ok.inj (hm'.symm.trans hkeys)
  rw [hmissing] at hmissing'
  exact absurd hmissing' (by decide)

end Reconcile

end AgentCore.Deliverables
