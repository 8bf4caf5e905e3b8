/-
# Output paths

`_normalise_output_path` and `_host_path` of `deliverables.py`. An accepted path is
the outputs directory and behind it components that are neither empty nor dots
(`normalise_ok`), so on the host it is below the directory that the outputs are bound
to, and different paths are different there (`host_path_apart`).

Paths are texts, as in the source, until they become paths of the host.

Key definitions: `normaliseOutputPath`, `hostPath`, `Below`.
Key theorems: `normalise_ok`, `host_path_apart`.
-/
import AgentCore.Lib.PosixPath
import AgentCore.Lib.Trim
import AgentCore.Text

namespace AgentCore.Deliverables

open PosixPath Text Trim

def sandboxOutputsRoot : Chars := "/outputs".toList

def outputsPrefix : Chars := "/outputs/".toList

inductive PathError
  /-- `declared output path must be an absolute file under /outputs: {raw!r}` -/
  | notUnderOutputs (raw : Chars)
  /-- `invalid declared output path: {raw!r}` -/
  | invalid (raw : Chars)
  /-- `output path must not contain glob characters: {raw!r}` -/
  | globCharacters (raw : Chars)
  /-- `output path escapes /outputs: {path!r}` -/
  | escapes (path : Chars)
  deriving DecidableEq

def globCharacters : Chars := "*?[]\x7b\x7d".toList

def normaliseOutputPath (path : Chars) : Except PathError Chars :=
  let raw := trim isSpace path
  if ¬ outputsPrefix <+: raw then .error (.notUnderOutputs raw)
  else
    let normalised := normpath raw
    if normalised = sandboxOutputsRoot ∨ ¬ outputsPrefix <+: normalised then .error (.invalid raw)
    else if normalised.any fun c => c ∈ globCharacters then .error (.globCharacters raw)
    else .ok normalised

/-- `_resolve_host_outputs_root`. -/
def resolveHostOutputsRoot : Option Chars → Chars
  | none => sandboxOutputsRoot
  | some hostRoot => if hostRoot = [] then sandboxOutputsRoot else hostRoot

/-- `Path(root) / rest`. -/
def pathJoin (root rest : Chars) : PurePath := parse (join root rest)

/-- Where a path that has been normalised is on the host. -/
def translate (root path : Chars) : PurePath :=
  if root = [] ∨ root = sandboxOutputsRoot then parse path
  else if path = sandboxOutputsRoot then parse root
  else if outputsPrefix <+: path then pathJoin root (path.drop outputsPrefix.length)
  else parse path

/-- `_host_path`. -/
def hostPath (path : Chars) (hostRoot : Option Chars) : Except PathError PurePath :=
  let root := resolveHostOutputsRoot hostRoot
  if path = sandboxOutputsRoot ∨ outputsPrefix <+: path then
    let normalised := normpath path
    if normalised ≠ sandboxOutputsRoot ∧ ¬ outputsPrefix <+: normalised then .error (.escapes path)
    else .ok (translate root normalised)
  else .ok (translate root path)

/-! ### Accepted paths -/

def outputs : Chars := "outputs".toList

theorem outputs_clean : Clean outputs := ⟨by decide, by decide, by decide, by decide⟩

/-- The path with these components behind the outputs directory. -/
def under (rest : List Chars) : Chars := '/' :: glue (outputs :: rest)

theorem under_eq {rest : List Chars} (h : rest ≠ []) : under rest = outputsPrefix ++ glue rest := by
  unfold under
  rw [glue_cons _ h]
  rfl

theorem outputsPrefix_under {rest : List Chars} (h : rest ≠ []) : outputsPrefix <+: under rest := by
  rw [under_eq h]
  exact List.prefix_append _ _

theorem clean_cons {rest : List Chars} (h : ∀ c ∈ rest, Clean c) : ∀ c ∈ outputs :: rest, Clean c := by
  intro c hc
  rcases List.mem_cons.mp hc with rfl | hc
  · exact outputs_clean
  · exact h c hc

theorem normpath_under {rest : List Chars} (h : ∀ c ∈ rest, Clean c) : normpath (under rest) = under rest :=
  normpath_clean (clean_cons h)

/-- Clean components that begin with the outputs directory and a slash have something
behind it. -/
theorem under_of_prefix {comps : List Chars} (h : ∀ c ∈ comps, Clean c) (hpre : outputsPrefix <+: '/' :: glue comps) :
    ∃ rest, rest ≠ [] ∧ comps = outputs :: rest := by
  obtain ⟨u, hu⟩ := hpre
  have hglue : glue comps = outputs ++ '/' :: u := (List.cons.inj hu).2.symm
  have hne : comps ≠ [] := by
    rintro rfl
    exact List.append_ne_nil_of_right_ne_nil outputs (List.cons_ne_nil '/' u) hglue.symm
  have hslash : ∀ c ∈ comps, '/' ∉ c := fun c hc => (h c hc).no_slash
  have hsplit : comps = outputs :: split u := by
    rw [← split_glue hslash hne, hglue, split_append]
    rfl
  exact ⟨split u, List.splitOn_ne_nil '/' u, hsplit⟩

/-- What `_normalise_output_path` accepts is the outputs directory with clean
components behind it. -/
theorem normalise_ok {path p : Chars} (h : normaliseOutputPath path = .ok p) :
    ∃ rest, rest ≠ [] ∧ (∀ c ∈ rest, Clean c) ∧ p = under rest ∧ ∀ c ∈ p, c ∉ globCharacters := by
  unfold normaliseOutputPath at h
  dsimp only at h
  by_cases hraw : outputsPrefix <+: trim isSpace path
  · rw [if_neg (not_not_intro hraw)] at h
    by_cases hin : normpath (trim isSpace path) = sandboxOutputsRoot ∨ ¬ outputsPrefix <+: normpath (trim isSpace path)
    · rw [if_pos hin] at h
      cases h
    · rw [if_neg hin] at h
      by_cases hglob : ((normpath (trim isSpace path)).any fun c => c ∈ globCharacters) = true
      · rw [if_pos hglob] at h
        cases h
      · rw [if_neg hglob] at h
        have hp : normpath (trim isSpace path) = p := Except.ok.inj h
        obtain ⟨u, hu⟩ := hraw
        have hsingle : trim isSpace path = '/' :: ("outputs/".toList ++ u) := hu.symm
        have hhead : ("outputs/".toList ++ u).head? ≠ some '/' := by
          have : ("outputs/".toList ++ u).head? = some 'o' := rfl
          rw [this]
          decide
        obtain ⟨comps, hclean, hnorm⟩ := normpath_single hhead
        rw [← hsingle, hp] at hnorm
        have hpre : outputsPrefix <+: p := by
          rw [← hp]
          exact not_not.mp fun hno => hin (.inr hno)
        rw [hnorm] at hpre
        obtain ⟨rest, hne, rfl⟩ := under_of_prefix hclean hpre
        refine ⟨rest, hne, fun c hc => hclean c (List.mem_cons_of_mem _ hc), hnorm, fun c hc hmem => hglob ?_⟩
        rw [List.any_eq_true]
        exact ⟨c, hp ▸ hc, by simpa using hmem⟩
  · rw [if_pos hraw] at h
    cases h

/-! ### On the host -/

theorem parse_under {rest : List Chars} (h : ∀ c ∈ rest, Clean c) :
    parse (under rest) = { root := (parse sandboxOutputsRoot).root
                           parts := (parse sandboxOutputsRoot).parts ++ rest } := by
  have hclean := clean_cons h
  have hroot : rootSlashes (under rest) = 1 := rootSlashes_single (glue_head hclean)
  have hparts : (parse (under rest)).parts = outputs :: rest := by
    have hcons : (parse (under rest)).parts = (parse (glue (outputs :: rest))).parts := by
      unfold under parse
      rw [split_cons]
      rfl
    rw [hcons, parse_glue_parts hclean]
  have hwhole : parse (under rest) = { root := List.replicate (rootSlashes (under rest)) '/'
                                       parts := (parse (under rest)).parts } := rfl
  have hsandbox : parse sandboxOutputsRoot = { root := ['/'], parts := [outputs] } := by decide +kernel
  rw [hwhole, hparts, hroot, hsandbox]
  rfl

theorem resolveHostOutputsRoot_ne_nil (hostRoot : Option Chars) : resolveHostOutputsRoot hostRoot ≠ [] := by
  have hsandbox : sandboxOutputsRoot ≠ [] := by decide
  cases hostRoot with
  | none => exact hsandbox
  | some r =>
    show (if r = [] then sandboxOutputsRoot else r) ≠ []
    by_cases hr : r = []
    · rwa [if_pos hr]
    · rwa [if_neg hr]

/-- The components of an accepted path come behind those of the host's directory. -/
theorem hostPath_under {rest : List Chars} (hne : rest ≠ []) (h : ∀ c ∈ rest, Clean c) (hostRoot : Option Chars) :
    hostPath (under rest) hostRoot = .ok {
      root := (parse (resolveHostOutputsRoot hostRoot)).root
      parts := (parse (resolveHostOutputsRoot hostRoot)).parts ++ rest } := by
  have hpre := outputsPrefix_under hne
  have hnot : ¬ under rest = sandboxOutputsRoot := by
    intro heq
    rw [heq] at hpre
    exact absurd hpre (by decide)
  unfold hostPath
  dsimp only
  rw [if_pos (.inr hpre), normpath_under h, if_neg fun hno => hno.2 hpre]
  unfold translate
  by_cases hroot : resolveHostOutputsRoot hostRoot = [] ∨ resolveHostOutputsRoot hostRoot = sandboxOutputsRoot
  · have hsandbox : resolveHostOutputsRoot hostRoot = sandboxOutputsRoot :=
      hroot.resolve_left (resolveHostOutputsRoot_ne_nil hostRoot)
    rw [if_pos hroot, hsandbox, parse_under h]
  · have hdrop : (under rest).drop outputsPrefix.length = glue rest := by
      rw [under_eq hne]
      exact List.drop_left
    rw [if_neg hroot, if_neg hnot, if_pos hpre, hdrop]
    unfold pathJoin
    rw [parse_join (glue_head h), parse_glue_parts h]

/-- The path is lexically below the directory: it has the parts of the directory and
then some more, none of which leads up. -/
def Below (dir path : PurePath) : Prop :=
  path.root = dir.root ∧ ∃ rest, path.parts = dir.parts ++ rest ∧ rest ≠ [] ∧ dotdot ∉ rest

/-- **Output paths stay inside and apart**: an accepted path is below the host's
directory, and no other accepted path is at its place. -/
theorem host_path_apart {raw p : Chars} (h : normaliseOutputPath raw = .ok p) (hostRoot : Option Chars) :
    ∃ q, hostPath p hostRoot = .ok q ∧ Below (parse (resolveHostOutputsRoot hostRoot)) q ∧
      ∀ raw' p', normaliseOutputPath raw' = .ok p' → p ≠ p' → hostPath p' hostRoot ≠ .ok q := by
  obtain ⟨rest, hne, hclean, rfl, -⟩ := normalise_ok h
  refine ⟨_, hostPath_under hne hclean hostRoot, ⟨rfl, rest, rfl, hne, fun hmem => ?_⟩, ?_⟩
  · exact (hclean dotdot hmem).not_dotdot rfl
  · intro raw' p' h' hdiff heq
    obtain ⟨rest', hne', hclean', rfl, -⟩ := normalise_ok h'
    rw [hostPath_under hne' hclean', Except.ok.injEq, PurePath.mk.injEq] at heq
    have hrest : rest' = rest := List.append_cancel_left heq.2
    exact hdiff (by rw [hrest])

/-- A path that takes the long way. -/
def roundabout : Chars := " /outputs/./a/../b//c.txt".toList

theorem normalise_roundabout : normaliseOutputPath roundabout = .ok "/outputs/b/c.txt".toList := by decide +kernel

theorem report_apart : ∃ q, hostPath "/outputs/b/c.txt".toList (some "/srv/run/".toList) = .ok q ∧
    Below (parse "/srv/run/".toList) q ∧ ∀ raw' p', normaliseOutputPath raw' = .ok p' →
      "/outputs/b/c.txt".toList ≠ p' → hostPath p' (some "/srv/run/".toList) ≠ .ok q :=
  host_path_apart normalise_roundabout (some "/srv/run/".toList)

end AgentCore.Deliverables
