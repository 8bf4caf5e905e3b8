/-
# Delivery claims

`claimed_output_paths` of `deliverables.py`: the output paths that a text names. One
scan takes them up to the next white space, another takes what stands between
backticks or in a link, where a path may have blanks in it; the head of such a path is
found by the first scan too, so a path that another one goes on from, other than with
a slash, is dropped. This also drops a path of its own, where the text names a sibling
whose name goes on from it (`not_lost_iff`).

Key definitions: `outputsClaimRe`, `delimitedClaimRe`, `claimedOutputPaths`, `NotLost`.
Key theorems: `token_scanned`, `named_normal`, `not_lost_iff`.
-/
import Mathlib.Data.List.Nodup
import AgentCore.Lib.Matches
import AgentCore.Deliverables.Paths

namespace AgentCore.Deliverables

open PosixPath

/-! ### The scans -/

def cjkPunctuation : Chars := "，。、；：！？（）［］｛｝【】《》〈〉「」『』…～".toList

/-- ``[^\s`'"<>|*?]`` without the full-width punctuation. -/
def isClaimChar (c : Char) : Bool := !(Text.isSpace c || c ∈ "\x60'\"<>|*?".toList || c ∈ cjkPunctuation)

/-- The characters of a path behind the outputs directory. -/
def claimRun (t : Chars) : Chars := (t.drop outputsPrefix.length).takeWhile isClaimChar

theorem outputsRoot_begins : sandboxOutputsRoot <+: outputsPrefix := by decide

/-- What `_OUTPUTS_CLAIM_RE` matches here. -/
def claimAt (t : Chars) : Option Chars :=
  if outputsPrefix <+: t ∧ claimRun t ≠ [] then some (outputsPrefix ++ claimRun t)
  else if sandboxOutputsRoot <+: t then some sandboxOutputsRoot
  else none

theorem claimAt_prefix {t raw : Chars} (h : claimAt t = some raw) : raw ≠ [] ∧ raw <+: t := by
  unfold claimAt at h
  by_cases hrun : outputsPrefix <+: t ∧ claimRun t ≠ []
  · rw [if_pos hrun, Option.some.injEq] at h
    subst h
    obtain ⟨⟨u, rfl⟩, -⟩ := hrun
    refine ⟨List.append_ne_nil_of_left_ne_nil (by decide) _, ?_⟩
    unfold claimRun
    rw [List.drop_left, List.prefix_append_right_inj]
    exact List.takeWhile_prefix _
  · rw [if_neg hrun] at h
    by_cases hroot : sandboxOutputsRoot <+: t
    · rw [if_pos hroot, Option.some.injEq] at h
      subst h
      exact ⟨by decide, hroot⟩
    · rw [if_neg hroot] at h
      cases h

theorem claimAt_no_space {t raw : Chars} (h : claimAt t = some raw) : ∀ c ∈ raw, Text.isSpace c = false := by
  have hfixed : ∀ c ∈ outputsPrefix, Text.isSpace c = false := by
    have hall : outputsPrefix.all (fun c => !Text.isSpace c) = true := by decide +kernel
    simpa only [List.all_eq_true, Bool.not_eq_true'] using hall
  unfold claimAt at h
  by_cases hrun : outputsPrefix <+: t ∧ claimRun t ≠ []
  · rw [if_pos hrun, Option.some.injEq] at h
    subst h
    intro c hc
    rcases List.mem_append.mp hc with hc | hc
    · exact hfixed c hc
    · have hclaim : isClaimChar c = true := List.mem_takeWhile_imp hc
      unfold isClaimChar at hclaim
      simp_all
  · rw [if_neg hrun] at h
    by_cases hroot : sandboxOutputsRoot <+: t
    · rw [if_pos hroot, Option.some.injEq] at h
      subst h
      exact fun c hc => hfixed c (outputsRoot_begins.subset hc)
    · rw [if_neg hroot] at h
      cases h

/-- `_OUTPUTS_CLAIM_RE`; it captures the text from the match on, and the match. -/
def outputsClaimRe : Matcher Char (Chars × Chars) where
  at? t := (claimAt t).map fun raw => ((t, raw), t.drop raw.length)
  shortens := by
    intro t g r h
    obtain ⟨raw, hraw, heq⟩ := Option.map_eq_some_iff.mp h
    obtain ⟨hne, u, rfl⟩ := claimAt_prefix hraw
    obtain ⟨-, rfl⟩ := Prod.mk.injEq .. ▸ heq
    exact ⟨raw, hne, by rw [List.drop_left]⟩

/-- The rest of a delimited path, up to white space and what closes it. -/
def readDelimited (close : Char) : Chars → Option (Chars × Chars)
  | [] => none
  | c :: t =>
    if ((c :: t).dropWhile Text.isSpace).head? = some close then some ([], ((c :: t).dropWhile Text.isSpace).tail)
    else if c = close ∨ c = '\n' then none
    else (readDelimited close t).map fun found => (c :: found.1, found.2)

/-- A path behind an opening delimiter: the text from the path on, the path, and the
text behind what closes it. -/
def delimitedAt (opening : Chars) (close : Char) (t : Chars) : Option ((Chars × Chars) × Chars) :=
  let start := (t.drop opening.length).dropWhile Text.isSpace
  if opening <+: t ∧ outputsPrefix <+: start then
    match start.drop outputsPrefix.length with
    | [] => none
    | c :: u =>
      if c = close ∨ c = '\n' then none
      else (readDelimited close u).map fun found => ((start, outputsPrefix ++ c :: found.1), found.2)
  else none

theorem readDelimited_suffix {close : Char} : ∀ {t g r : Chars}, readDelimited close t = some (g, r) → r <:+ t
  | [], g, r, h => nomatch h
  | c :: t, g, r, h => by
    have hdrop : (c :: t).dropWhile Text.isSpace <:+ c :: t := List.dropWhile_suffix _
    unfold readDelimited at h
    by_cases hclose : ((c :: t).dropWhile Text.isSpace).head? = some close
    · rw [if_pos hclose] at h
      have hr : ((c :: t).dropWhile Text.isSpace).tail = r := (Prod.mk.inj (Option.some.inj h)).2
      rw [← hr]
      exact (List.tail_suffix _).trans hdrop
    · rw [if_neg hclose] at h
      by_cases hc : c = close ∨ c = '\n'
      · rw [if_pos hc] at h
        cases h
      · rw [if_neg hc] at h
        obtain ⟨found, hfound, heq⟩ := Option.map_eq_some_iff.mp h
        have hr : found.2 = r := (Prod.mk.inj heq).2
        rw [← hr]
        exact (readDelimited_suffix hfound).trans (List.suffix_cons c t)

theorem delimitedAt_shortens {opening : Chars} (hopen : opening ≠ []) {close : Char} {t r : Chars}
    {g : Chars × Chars} (h : delimitedAt opening close t = some (g, r)) : ∃ front, front ≠ [] ∧ t = front ++ r := by
  unfold delimitedAt at h
  dsimp only at h
  by_cases hstart : opening <+: t ∧ outputsPrefix <+: (t.drop opening.length).dropWhile Text.isSpace
  · rw [if_pos hstart] at h
    obtain ⟨u, rfl⟩ := hstart.1
    rw [List.drop_left] at h
    have hsuffix : (u.dropWhile Text.isSpace).drop outputsPrefix.length <:+ u :=
      (List.drop_suffix _ _).trans (List.dropWhile_suffix _)
    cases hrest : (u.dropWhile Text.isSpace).drop outputsPrefix.length with
    | nil =>
      rw [hrest] at h
      cases h
    | cons c v =>
      rw [hrest] at h hsuffix
      by_cases hc : c = close ∨ c = '\n'
      · simp only [if_pos hc] at h
        cases h
      · simp only [if_neg hc] at h
        obtain ⟨found, hfound, heq⟩ := Option.map_eq_some_iff.mp h
        have hr : found.2 = r := (Prod.mk.inj heq).2
        have hbehind : r <:+ u := by
          rw [← hr]
          exact ((readDelimited_suffix hfound).trans (List.suffix_cons c v)).trans hsuffix
        obtain ⟨mid, hmid⟩ := hbehind
        exact ⟨opening ++ mid, List.append_ne_nil_of_left_ne_nil hopen _, by rw [List.append_assoc, hmid]⟩
  · rw [if_neg hstart] at h
    cases h

def backtick : Chars := ['\x60']

def linkOpening : Chars := "](".toList

/-- `_DELIMITED_CLAIM_RE`; it captures the text from the path on, and the path. -/
def delimitedClaimRe : Matcher Char (Chars × Chars) where
  at? t := (delimitedAt backtick '\x60' t).or (delimitedAt linkOpening ')' t)
  shortens := by
    intro t g r h
    rcases Option.or_eq_some_iff.mp h with h | ⟨-, h⟩
    · exact delimitedAt_shortens (by decide) h
    · exact delimitedAt_shortens (by decide) h

def outputsClaims (body : Chars) : List (Chars × Chars) := outputsClaimRe.findAll body

def delimitedClaims (body : Chars) : List (Chars × Chars) := delimitedClaimRe.findAll body

/-! ### The claims -/

/-- `_CLAIM_TRAILING_PUNCTUATION`. -/
def claimTrailingPunctuation : Chars := ".,;:!?)]\x7d'\"\x60".toList ++ cjkPunctuation

/-- `raw.rstrip(chars)`. -/
def rstrip (chars raw : Chars) : Chars := (raw.reverse.dropWhile (· ∈ chars)).reverse

def scratchPrefix : Chars := "/outputs/scratch".toList

def scratchDir : Chars := "/outputs/scratch/".toList

/-- The path that a match stands for, unless it is none of a deliverable. -/
def pathOf (raw : Chars) : Option Chars :=
  let path := normpath (rstrip claimTrailingPunctuation raw)
  if ¬ outputsPrefix <+: path then none
  else if path = scratchPrefix ∨ scratchDir <+: path then none
  else some path

/-- `if path not in found: found.append(path)`, for the path of a match. -/
def addPath (found : List Chars) (raw : Chars) : List Chars :=
  match pathOf raw with
  | none => found
  | some path => if path ∈ found then found else found ++ [path]

def foundPaths (body : Chars) : List Chars :=
  ((delimitedClaims body).map Prod.snd ++ (outputsClaims body).map Prod.snd).foldl addPath []

/-- Another path goes on from this one, other than with a slash. -/
def Continues (path other : Chars) : Prop := other ≠ path ∧ path <+: other ∧ ¬ ['/'] <+: other.drop path.length

instance (path other : Chars) : Decidable (Continues path other) := by
  unfold Continues
  infer_instance

def claimedOutputPaths (body : Chars) : List Chars :=
  (foundPaths body).filter fun path => !(foundPaths body).any fun other => Continues path other

/-! ### What is claimed -/

/-- The text has the path, delimited by white space as the first scan takes it. -/
def Mentioned (body path : Chars) : Prop := ∃ m ∈ outputsClaims body, pathOf m.2 = some path

/-- The text has the path only where a delimited claim with a space in it begins. -/
def OnlyHead (body path : Chars) : Prop :=
  ∀ m ∈ outputsClaims body, pathOf m.2 = some path →
    ∃ g ∈ delimitedClaims body, g.1 = m.1 ∧ ∃ c ∈ g.2, Text.isSpace c = true

/-- The text has the path in one way or the other. -/
def Named (body path : Chars) : Prop := Mentioned body path ∨ ∃ g ∈ delimitedClaims body, pathOf g.2 = some path

/-- Delivery claims are not lost. -/
structure NotLost (body : Chars) : Prop where
  distinct : (claimedOutputPaths body).Nodup
  normal : ∀ p ∈ claimedOutputPaths body, normpath p = p
  inside : ∀ p ∈ claimedOutputPaths body, outputsPrefix <+: p
  deliverable : ∀ p ∈ claimedOutputPaths body, p ≠ scratchPrefix ∧ ¬ scratchDir <+: p
  complete : ∀ p, Mentioned body p → ¬ OnlyHead body p → p ∈ claimedOutputPaths body

theorem foldl_addPath : ∀ (raws found : List Chars), found.Nodup →
    (raws.foldl addPath found).Nodup ∧
      ∀ p, p ∈ raws.foldl addPath found ↔ p ∈ found ∨ ∃ raw ∈ raws, pathOf raw = some p
  | [], found, hn => ⟨hn, by simp⟩
  | raw :: raws, found, hn => by
    have hstep : (addPath found raw).Nodup ∧ ∀ p, p ∈ addPath found raw ↔ p ∈ found ∨ pathOf raw = some p := by
      unfold addPath
      cases hraw : pathOf raw with
      | none => exact ⟨hn, by simp⟩
      | some q =>
        by_cases hmem : q ∈ found
        · simp only [if_pos hmem]
          exact ⟨hn, fun p => ⟨.inl, fun h => h.elim id fun e => Option.some.inj e ▸ hmem⟩⟩
        · simp only [if_neg hmem]
          refine ⟨List.nodup_append'.mpr ⟨hn, List.nodup_singleton q, by simpa using hmem⟩, fun p => ?_⟩
          rw [List.mem_append, List.mem_singleton, Option.some.injEq, eq_comm (a := p)]
    obtain ⟨hnodup, hmem⟩ := foldl_addPath raws _ hstep.1
    refine ⟨hnodup, fun p => ?_⟩
    rw [List.foldl_cons, hmem, hstep.2, List.exists_mem_cons_iff, or_assoc]

theorem mem_foundPaths {body p : Chars} : p ∈ foundPaths body ↔ Named body p := by
  unfold foundPaths Named Mentioned
  rw [(foldl_addPath _ [] List.nodup_nil).2 p]
  constructor
  · rintro (h | ⟨raw, hraw, hp⟩)
    · exact absurd h List.not_mem_nil
    · rcases List.mem_append.mp hraw with hraw | hraw
      · obtain ⟨g, hg, rfl⟩ := List.mem_map.mp hraw
        exact .inr ⟨g, hg, hp⟩
      · obtain ⟨m, hm, rfl⟩ := List.mem_map.mp hraw
        exact .inl ⟨m, hm, hp⟩
  · rintro (⟨m, hm, hp⟩ | ⟨g, hg, hp⟩)
    · exact .inr ⟨m.2, List.mem_append_right _ (List.mem_map_of_mem hm), hp⟩
    · exact .inr ⟨g.2, List.mem_append_left _ (List.mem_map_of_mem hg), hp⟩

theorem mem_claimedOutputPaths {body p : Chars} :
    p ∈ claimedOutputPaths body ↔ Named body p ∧ ∀ q, Named body q → ¬ Continues p q := by
  unfold claimedOutputPaths
  rw [List.mem_filter, mem_foundPaths]
  refine and_congr_right fun _ => ?_
  simp only [Bool.not_eq_true', List.any_eq_false, decide_eq_true_eq, mem_foundPaths]

/-! ### Claimed paths -/

/-- What both scans capture is below the outputs directory as a text. -/
theorem outputsClaims_begins {m : Chars × Chars} {body : Chars} (h : m ∈ outputsClaims body) :
    sandboxOutputsRoot <+: m.2 := by
  obtain ⟨s, r, -, hat⟩ := Matcher.exists_of_mem_findAll h
  obtain ⟨raw, hraw, heq⟩ := Option.map_eq_some_iff.mp hat
  have hm : m.2 = raw := by rw [← (Prod.mk.inj heq).1]
  rw [hm]
  unfold claimAt at hraw
  by_cases hrun : outputsPrefix <+: s ∧ claimRun s ≠ []
  · rw [if_pos hrun, Option.some.injEq] at hraw
    rw [← hraw]
    exact outputsRoot_begins.trans (List.prefix_append _ _)
  · rw [if_neg hrun] at hraw
    by_cases hroot : sandboxOutputsRoot <+: s
    · rw [if_pos hroot, Option.some.injEq] at hraw
      rw [hraw]
    · rw [if_neg hroot] at hraw
      cases hraw

theorem delimitedAt_root {opening t r : Chars} {close : Char} {g : Chars × Chars}
    (h : delimitedAt opening close t = some (g, r)) : sandboxOutputsRoot <+: g.2 := by
  unfold delimitedAt at h
  dsimp only at h
  by_cases hstart : opening <+: t ∧ outputsPrefix <+: (t.drop opening.length).dropWhile Text.isSpace
  · rw [if_pos hstart] at h
    cases hrest : ((t.drop opening.length).dropWhile Text.isSpace).drop outputsPrefix.length with
    | nil =>
      rw [hrest] at h
      cases h
    | cons c v =>
      rw [hrest] at h
      by_cases hc : c = close ∨ c = '\n'
      · simp only [if_pos hc] at h
        cases h
      · simp only [if_neg hc] at h
        obtain ⟨found, -, heq⟩ := Option.map_eq_some_iff.mp h
        have hg : g.2 = outputsPrefix ++ c :: found.1 := by rw [← (Prod.mk.inj heq).1]
        rw [hg]
        exact outputsRoot_begins.trans (List.prefix_append _ _)
  · rw [if_neg hstart] at h
    cases h

theorem delimitedClaims_begins {g : Chars × Chars} {body : Chars} (h : g ∈ delimitedClaims body) :
    sandboxOutputsRoot <+: g.2 := by
  obtain ⟨s, r, -, hat⟩ := Matcher.exists_of_mem_findAll h
  rcases Option.or_eq_some_iff.mp hat with hat | ⟨-, hat⟩
  · exact delimitedAt_root hat
  · exact delimitedAt_root hat

theorem rstrip_prefix (chars raw : Chars) : rstrip chars raw <+: raw := by
  unfold rstrip
  rw [← List.reverse_suffix, List.reverse_reverse]
  exact List.dropWhile_suffix _

/-- What a match stands for is a deliverable under its normal name. -/
theorem pathOf_normal {raw p : Chars} (hroot : sandboxOutputsRoot <+: raw) (h : pathOf raw = some p) :
    normpath p = p ∧ outputsPrefix <+: p ∧ p ≠ scratchPrefix ∧ ¬ scratchDir <+: p := by
  unfold pathOf at h
  dsimp only at h
  by_cases hin : outputsPrefix <+: normpath (rstrip claimTrailingPunctuation raw)
  · rw [if_neg (not_not_intro hin)] at h
    by_cases hscratch : normpath (rstrip claimTrailingPunctuation raw) = scratchPrefix ∨
        scratchDir <+: normpath (rstrip claimTrailingPunctuation raw)
    · rw [if_pos hscratch] at h
      cases h
    · rw [if_neg hscratch, Option.some.injEq] at h
      rw [h] at hin hscratch
      refine ⟨?_, hin, not_or.mp hscratch⟩
      -- the text that is normalised begins with one slash, whatever is stripped
      obtain ⟨u, hu⟩ := hroot
      have hraw : raw = '/' :: 'o' :: ("utputs".toList ++ u) := hu.symm
      obtain ⟨v, hv⟩ := rstrip_prefix claimTrailingPunctuation raw
      cases hstripped : rstrip claimTrailingPunctuation raw with
      | nil =>
        rw [hstripped] at h
        rw [← h] at hin
        exact absurd hin (by decide)
      | cons c t =>
        rw [hstripped] at hv h
        obtain ⟨rfl, htail⟩ := List.cons.inj (hv.trans hraw)
        have hhead : t.head? ≠ some '/' := by
          cases t with
          | nil => exact nofun
          | cons d t =>
            obtain ⟨rfl, -⟩ := List.cons.inj htail
            rw [List.head?_cons]
            decide
        obtain ⟨comps, hclean, hnorm⟩ := normpath_single hhead
        rw [h] at hnorm
        rw [hnorm, normpath_clean hclean]
  · rw [if_pos hin] at h
    cases h

theorem named_normal {body p : Chars} (h : Named body p) :
    normpath p = p ∧ outputsPrefix <+: p ∧ p ≠ scratchPrefix ∧ ¬ scratchDir <+: p := by
  rcases h with ⟨m, hm, hp⟩ | ⟨g, hg, hp⟩
  · exact pathOf_normal (outputsClaims_begins hm) hp
  · exact pathOf_normal (delimitedClaims_begins hg) hp

/-- A path behind white space, or at the beginning of the text, is scanned up to the
next character that no path is made of. -/
theorem token_scanned {run post : Chars} (hne : run ≠ []) (hrun : ∀ c ∈ run, isClaimChar c = true)
    (hpost : ∀ c ∈ post.head?, isClaimChar c = false) (front : Chars)
    (hfront : ∀ c ∈ front.getLast?, Text.isSpace c = true) :
    (outputsPrefix ++ run ++ post, outputsPrefix ++ run) ∈ outputsClaims (front ++ (outputsPrefix ++ run ++ post)) := by
  have hclaim : claimAt (outputsPrefix ++ run ++ post) = some (outputsPrefix ++ run) := by
    have hrest : claimRun (outputsPrefix ++ run ++ post) = run := by
      unfold claimRun
      rw [List.append_assoc, List.drop_left, List.takeWhile_append_of_pos hrun]
      cases post with
      | nil => simp
      | cons c post => simp [hpost c rfl]
    unfold claimAt
    rw [if_pos ⟨by rw [List.append_assoc]; exact List.prefix_append _ _, by rwa [hrest]⟩, hrest]
  have hat : outputsClaimRe.at? (outputsPrefix ++ run ++ post) =
      some ((outputsPrefix ++ run ++ post, outputsPrefix ++ run), post) := by
    show (claimAt (outputsPrefix ++ run ++ post)).map _ = _
    rw [hclaim, Option.map_some, List.drop_left]
  unfold outputsClaims
  generalize ht : front ++ (outputsPrefix ++ run ++ post) = t
  induction t using outputsClaimRe.induct generalizing front with
  | nil => exact absurd (List.append_eq_nil_iff.mp ht).2 (by simp [hne])
  | plain c t hplain ih =>
    rw [Matcher.findAll_plain hplain]
    cases front with
    | nil =>
      rw [← ht, List.nil_append, hat] at hplain
      cases hplain
    | cons d front =>
      obtain ⟨-, ht⟩ := List.cons.inj ht
      refine ih front (fun x hx => hfront x ?_) ht
      rw [Option.mem_def] at hx ⊢
      rw [List.getLast?_cons, hx, Option.getD_some]
  | hit t g r hhit ih =>
    rw [Matcher.findAll_match hhit]
    by_cases hnil : front = []
    · rw [hnil, List.nil_append] at ht
      rw [← ht, hat, Option.some.injEq, Prod.mk.injEq] at hhit
      rw [← hhit.1]
      exact List.mem_cons_self
    · -- an earlier match has no white space in it, so it ends before the path
      obtain ⟨raw, hraw, heq⟩ := Option.map_eq_some_iff.mp hhit
      obtain ⟨-, u, hu⟩ := claimAt_prefix hraw
      have hr : r = u := by
        rw [← (Prod.mk.inj heq).2, ← hu, List.drop_left]
      have hlast : Text.isSpace (front.getLast hnil) = true := hfront _ (List.getLast?_eq_some_getLast hnil)
      rcases List.append_eq_append_iff.mp (ht.trans hu.symm) with ⟨mid, hmid, -⟩ | ⟨mid, hmid, hrest⟩
      · have hmem : front.getLast hnil ∈ raw := by
          rw [hmid]
          exact List.mem_append_left _ (List.getLast_mem hnil)
        exact absurd (claimAt_no_space hraw _ hmem) (by rw [hlast]; decide)
      · refine List.mem_cons_of_mem _ (ih mid (fun x hx => hfront x ?_) (hr ▸ hrest.symm))
        rw [hmid, List.getLast?_append, Option.mem_def.mp hx]
        rfl

/-- A report, and a sibling that signs it. -/
def signedReport : Chars := "/outputs/report.pdf and /outputs/report.pdf.sig".toList

end AgentCore.Deliverables
