/-
# Previews and the budget of a turn

`_truncate_with_shape`, `budgeted_preview` and `enforce_aggregate_budget` of
`spill.py`. The results of a turn are shortened in the order of their lengths,
the longest first, until their total is within the cap. A shortened result is a
preview and a footer that points to the file the whole body went to; the footer
is charged to the budget of the result, but the preview has a floor of its own.

A text is a list of characters. What a write to the store comes to is a
parameter: it may save the body under a path, refuse it, or raise.

Key definitions: `truncateWithShape`, `budgetedPreview`,
`enforceAggregateBudget`, `Enforced`.
Key theorems: `length_truncate_le`, `length_budgetedPreview_le`,
`aggregate_budget`.
-/
import Mathlib.Algebra.BigOperators.Group.List.Basic
import Mathlib.Algebra.Ring.Nat
import Mathlib.Data.List.Sort
import AgentCore.Text

namespace AgentCore.SpillBudget

abbrev Chars := List Char

inductive TruncationMode
  | middle | head
  deriving DecidableEq, Repr

inductive PreviewShape
  | head | headAndTail
  deriving DecidableEq, Repr

def minAggregateKeep : ℕ := 2000

def minPreviewChars : ℕ := 500

def minSideChars : ℕ := 200

def spillMinChars : ℕ := 1500

/-! ### Truncation -/

def elision (removed : ℕ) : Chars := ("\n… " ++ Text.thousands removed ++ " chars elided …\n").toList

/-- `text.rfind("\n", lo, hi)`. -/
def lastNewline (text : Chars) (lo hi : ℕ) : Option ℕ :=
  (List.range' lo (hi - lo)).reverse.find? fun i => text[i]? = some '\n'

/-- `text.find("\n", lo, hi)`. -/
def firstNewline (text : Chars) (lo hi : ℕ) : Option ℕ :=
  (List.range' lo (hi - lo)).find? fun i => text[i]? = some '\n'

def headEnd (text : Chars) (budget : ℕ) : ℕ :=
  if text.length ≤ budget then text.length
  else
    match lastNewline text (budget / 2) budget with
    | some newline => if 0 < newline then newline else budget
    | none => budget

def tailStart (text : Chars) (budget : ℕ) : ℕ :=
  let start := text.length - budget
  if start = 0 then 0
  else
    match firstNewline text start (start + max (budget / 2) 1) with
    | some newline => newline + 1
    | none => start

/-- `_truncate_with_shape`; a budget below zero counts as none. -/
def truncateWithShape (text : Chars) (budget : ℕ) (mode : TruncationMode) : Chars × PreviewShape :=
  if budget = 0 then ([], .head)
  else if text.length ≤ budget then (text, .headAndTail)
  else if mode = .head then (text.take (headEnd text budget), .head)
  else
    let room := budget - (elision text.length).length
    if room < 2 * minSideChars then (text.take (headEnd text budget), .head)
    else
      let headStop := headEnd text (room / 2)
      let tail := tailStart text (room - room / 2)
      if tail ≤ headStop then (text.take (headEnd text budget), .head)
      else (text.take headStop ++ elision (tail - headStop) ++ text.drop tail, .headAndTail)

/-! ### Previews with a footer -/

/-- `_shown_clause`. -/
def shownClause : PreviewShape → String
  | .headAndTail => "head and tail; the gap is marked above"
  | .head => "the beginning only; the remainder is elided without a marker"

/-- `ref.rsplit("/", 1)[0]`. -/
def directoryOf (ref : String) : String :=
  if '/' ∈ ref.toList then String.ofList (ref.toList.reverse.dropWhile (· ≠ '/')).tail.reverse else ref

/-- `_spill_footer`. -/
def spillFooter (ref : String) (fullLen : ℕ) (note : String) (shape : PreviewShape) : Chars :=
  let suffix := if note ≠ "" then " " ++ note else ""
  if ref = "" then
    ("\n\n[... only part of this " ++ Text.thousands fullLen ++ "-char result is shown; the " ++
      "remainder is not readable from this backend." ++ suffix ++ "]").toList
  else
    ("\n\n[... only part of this " ++ Text.thousands fullLen ++ "-char result is shown " ++
      "(" ++ shownClause shape ++ "). Full content is saved read-only at " ++
      ref ++ ". Only if the elided content is required, read that path with " ++
      "whichever tool you have — read_file, `cat` via bash, or " ++
      "grep_search(pattern=\"...\", path=\"" ++ directoryOf ref ++ "\"). It is read-only; " ++
      "do not write there." ++ suffix ++ "]").toList

/-- The room kept for a footer of either shape. -/
def reserve (ref : String) (fullLen : ℕ) (note : String) : ℕ :=
  max (spillFooter ref fullLen note .head).length (spillFooter ref fullLen note .headAndTail).length

/-- `budgeted_preview`. -/
def budgetedPreview (body : Chars) (cap : ℕ) (ref : String) (fullLen : Option ℕ) (note : String)
    (mode : TruncationMode) : Chars :=
  let total := fullLen.getD body.length
  let previewBudget := max (cap - reserve ref total note) minPreviewChars
  if body.length ≤ previewBudget ∧ total ≤ body.length then body
  else
    let preview := truncateWithShape body previewBudget mode
    let composed := preview.1 ++ spillFooter ref total note preview.2
    if body.length ≤ composed.length ∧ total ≤ body.length then body else composed

/-! ### The budget of a turn -/

/-- What a call of `write` comes to. -/
inductive WriteOutcome
  | saved (ref : String) | refused | raised
  deriving DecidableEq, Repr

def aggregateNote : String := "Cut further to fit the per-turn tool-result budget."

def lengths (results : List Chars) : ℕ := (results.map List.length).sum

section Enforce

variable (write : ℕ → String → Chars → WriteOutcome) (names : List String) (cap : ℤ) (mode : TruncationMode)

/-- The path that a body is saved under, empty where it is not; `none` where the
write raises. -/
def spilledRef (idx : ℕ) (result : Chars) : Option String :=
  if spillMinChars ≤ result.length then
    match write idx (names.getD idx "tool") result with
    | .saved ref => some ref
    | .refused => some ""
    | .raised => none
  else some ""

/-- The loop, over the results that are still to be looked at; it stops at the
first one where the total is within the cap. `none` where a write raises. -/
def shrink : List (Chars × ℕ) → ℤ → List Chars → Option (List Chars)
  | [], _, adjusted => some adjusted
  | (result, idx) :: rest, total, adjusted =>
    if total ≤ cap then some adjusted
    else
      let resultCap := max minAggregateKeep (result.length - (total - cap)).toNat
      if result.length ≤ resultCap then shrink rest total adjusted
      else
        match spilledRef write names idx result with
        | none => none
        | some ref =>
          let replacement := budgetedPreview result resultCap ref none aggregateNote mode
          shrink rest (total - (result.length - replacement.length)) (adjusted.set idx replacement)

/-- The longest first, those of one length in their order. -/
def byLength (results : List Chars) : List (Chars × ℕ) :=
  results.zipIdx.insertionSort fun a b => b.1.length ≤ a.1.length

/-- `enforce_aggregate_budget`. -/
def enforceAggregateBudget (results : List Chars) : Option (List Chars) :=
  if cap ≤ 0 ∨ (lengths results : ℤ) ≤ cap then some results
  else shrink write names cap mode (byLength results) (lengths results) results

end Enforce

/-! ### Lengths -/

theorem length_groupDigits_le : ∀ {cs ds : Chars} (n : ℕ), cs.length ≤ ds.length →
    (Text.groupDigits n cs).length ≤ (Text.groupDigits n ds).length
  | [], _, _, _ => Nat.zero_le _
  | c :: cs, [], _, h => absurd h (by simp)
  | c :: cs, d :: ds, n, h => by
    have hle : cs.length ≤ ds.length := Nat.le_of_succ_le_succ h
    by_cases hn : n = 3
    · subst hn
      rw [Text.groupDigits, Text.groupDigits]
      have ih := length_groupDigits_le 1 hle
      simp only [List.length_cons]
      omega
    · have hcs : Text.groupDigits n (c :: cs) = c :: Text.groupDigits (n + 1) cs := by
        rw [Text.groupDigits]
        exact hn
      have hds : Text.groupDigits n (d :: ds) = d :: Text.groupDigits (n + 1) ds := by
        rw [Text.groupDigits]
        exact hn
      have ih := length_groupDigits_le (n + 1) hle
      rw [hcs, hds, List.length_cons, List.length_cons]
      omega

/-- A smaller number is not written longer. -/
theorem length_thousands_le {m n : ℕ} (h : m ≤ n) :
    (Text.thousands m).toList.length ≤ (Text.thousands n).toList.length := by
  have hdigits : (Nat.toDigits 10 m).length ≤ (Nat.toDigits 10 n).length := by
    refine (Nat.length_toDigits_le_iff (by decide) Nat.length_toDigits_pos).mpr (Nat.lt_of_le_of_lt h ?_)
    exact (Nat.length_toDigits_le_iff (by decide) Nat.length_toDigits_pos).mp (Nat.le_refl _)
  unfold Text.thousands
  rw [String.toList_ofList, String.toList_ofList, List.length_reverse, List.length_reverse]
  refine length_groupDigits_le 0 ?_
  rw [List.length_reverse, List.length_reverse, Nat.toString_eq_ofList_toDigits, Nat.toString_eq_ofList_toDigits,
    String.toList_ofList, String.toList_ofList]
  exact hdigits

theorem length_elision_le {m n : ℕ} (h : m ≤ n) : (elision m).length ≤ (elision n).length := by
  have hle := length_thousands_le h
  unfold elision
  simp only [String.toList_append, List.length_append]
  omega

theorem headEnd_le (text : Chars) (budget : ℕ) : headEnd text budget ≤ budget := by
  unfold headEnd
  by_cases hlen : text.length ≤ budget
  · rwa [if_pos hlen]
  · rw [if_neg hlen]
    cases hnl : lastNewline text (budget / 2) budget with
    | none => exact Nat.le_refl _
    | some newline =>
      have hmem := List.mem_of_find?_eq_some hnl
      rw [List.mem_reverse, List.mem_range'_1] at hmem
      by_cases hpos : 0 < newline
      · simp only [hpos, if_true]
        omega
      · simp only [hpos, if_false]
        exact Nat.le_refl _

theorem tailStart_within (text : Chars) (budget : ℕ) :
    text.length - budget ≤ tailStart text budget ∧ tailStart text budget ≤ text.length := by
  unfold tailStart
  by_cases hstart : text.length - budget = 0
  · simp only [hstart, if_true]
    omega
  · simp only [hstart, if_false]
    cases hnl : firstNewline text (text.length - budget) (text.length - budget + max (budget / 2) 1) with
    | none => exact ⟨Nat.le_refl _, Nat.sub_le _ _⟩
    | some newline =>
      have hmem := List.mem_of_find?_eq_some hnl
      have hat : text[newline]? = some '\n' := by simpa using List.find?_some hnl
      have hlt : newline < text.length := (List.getElem?_eq_some_iff.mp hat).1
      rw [List.mem_range'_1] at hmem
      exact ⟨hmem.1.trans (Nat.le_succ _), hlt⟩

theorem length_take_headEnd_le (text : Chars) (budget : ℕ) : (text.take (headEnd text budget)).length ≤ budget := by
  rw [List.length_take]
  exact (Nat.min_le_left _ _).trans (headEnd_le text budget)

/-- What a truncation gives: nothing, the text, a beginning of it, or two sides of it
around a mark, which share the room that the mark of the whole text leaves. -/
theorem truncate_cases (text : Chars) (budget : ℕ) (mode : TruncationMode) :
    truncateWithShape text budget mode = ([], .head) ∨
    (text.length ≤ budget ∧ truncateWithShape text budget mode = (text, .headAndTail)) ∨
    truncateWithShape text budget mode = (text.take (headEnd text budget), .head) ∨
    ∃ headStop tail, headStop < tail ∧ tail ≤ text.length ∧
      headStop + (text.length - tail) + (elision text.length).length ≤ budget ∧
      truncateWithShape text budget mode =
        (text.take headStop ++ elision (tail - headStop) ++ text.drop tail, .headAndTail) := by
  unfold truncateWithShape
  by_cases h0 : budget = 0
  · rw [if_pos h0]
    exact .inl rfl
  rw [if_neg h0]
  by_cases hlen : text.length ≤ budget
  · rw [if_pos hlen]
    exact .inr (.inl ⟨hlen, rfl⟩)
  rw [if_neg hlen]
  by_cases hmode : mode = .head
  · rw [if_pos hmode]
    exact .inr (.inr (.inl rfl))
  rw [if_neg hmode]
  dsimp only
  generalize hroom : budget - (elision text.length).length = room
  by_cases hside : room < 2 * minSideChars
  · rw [if_pos hside]
    exact .inr (.inr (.inl rfl))
  rw [if_neg hside]
  by_cases hgap : tailStart text (room - room / 2) ≤ headEnd text (room / 2)
  · rw [if_pos hgap]
    exact .inr (.inr (.inl rfl))
  rw [if_neg hgap]
  have hhead := headEnd_le text (room / 2)
  have htail := tailStart_within text (room - room / 2)
  have hside' : 2 * minSideChars = 400 := rfl
  exact .inr (.inr (.inr ⟨headEnd text (room / 2), tailStart text (room - room / 2), not_le.mp hgap, htail.2,
    by omega, rfl⟩))

/-- A preview is within its budget, the mark of the gap counted. -/
theorem length_truncate_le (text : Chars) (budget : ℕ) (mode : TruncationMode) :
    (truncateWithShape text budget mode).1.length ≤ budget := by
  rcases truncate_cases text budget mode with heq | ⟨hlen, heq⟩ | heq | ⟨headStop, tail, hgap, htail, hroom, heq⟩
  · rw [heq]
    exact Nat.zero_le _
  · rw [heq]
    exact hlen
  · rw [heq]
    exact length_take_headEnd_le text budget
  · -- the mark of a part is no longer than that of the whole text
    have hmark : (elision (tail - headStop)).length ≤ (elision text.length).length :=
      length_elision_le ((Nat.sub_le _ _).trans htail)
    rw [heq]
    simp only [List.length_append, List.length_take, List.length_drop]
    omega

theorem length_footer_le (ref : String) (fullLen : ℕ) (note : String) (shape : PreviewShape) :
    (spillFooter ref fullLen note shape).length ≤ reserve ref fullLen note := by
  unfold reserve
  cases shape with
  | head => exact Nat.le_max_left _ _
  | headAndTail => exact Nat.le_max_right _ _

/-- The least a shortened result is cut to: the floor of the budget, or the floor
of a preview and its footer where that is more. -/
def resultFloor (ref : String) (fullLen : ℕ) : ℕ :=
  max minAggregateKeep (minPreviewChars + reserve ref fullLen aggregateNote)

section Preview

variable (body : Chars) (cap : ℕ) (ref note : String) (mode : TruncationMode)

/-- A preview replaces a body only by something shorter. -/
theorem length_budgetedPreview_le_body :
    (budgetedPreview body cap ref none note mode).length ≤ body.length := by
  unfold budgetedPreview
  simp only [Option.getD_none]
  generalize max (cap - reserve ref body.length note) minPreviewChars = budget
  by_cases hfits : body.length ≤ budget ∧ body.length ≤ body.length
  · rw [if_pos hfits]
  · rw [if_neg hfits]
    generalize (truncateWithShape body budget mode).1 ++
      spillFooter ref body.length note (truncateWithShape body budget mode).2 = composed
    by_cases hlonger : body.length ≤ composed.length ∧ body.length ≤ body.length
    · rw [if_pos hlonger]
    · rw [if_neg hlonger]
      omega

/-- A preview is within its budget, or within the floor and its footer. -/
theorem length_budgetedPreview_le (fullLen : Option ℕ) :
    (budgetedPreview body cap ref fullLen note mode).length ≤
      max cap (minPreviewChars + reserve ref (fullLen.getD body.length) note) := by
  unfold budgetedPreview
  dsimp only
  generalize fullLen.getD body.length = total
  generalize hbudget : max (cap - reserve ref total note) minPreviewChars = budget
  have hmax : budget + reserve ref total note ≤ max cap (minPreviewChars + reserve ref total note) := by
    omega
  by_cases hfits : body.length ≤ budget ∧ total ≤ body.length
  · rw [if_pos hfits]
    omega
  · rw [if_neg hfits]
    have hpreview := length_truncate_le body budget mode
    have hfooter := length_footer_le ref total note (truncateWithShape body budget mode).2
    have hcomposed : ((truncateWithShape body budget mode).1 ++
        spillFooter ref total note (truncateWithShape body budget mode).2).length ≤ budget + reserve ref total note := by
      rw [List.length_append]
      omega
    generalize (truncateWithShape body budget mode).1 ++
      spillFooter ref total note (truncateWithShape body budget mode).2 = composed at hcomposed
    by_cases hlonger : body.length ≤ composed.length ∧ total ≤ body.length
    · rw [if_pos hlonger]
      omega
    · rw [if_neg hlonger]
      omega

end Preview

/-! ### The loop -/

/-- What a result may become: itself or a preview of it, and nothing longer. -/
structure Shortened (mode : TruncationMode) (r o : Chars) : Prop where
  preview : o = r ∨ ∃ cap ref, o = budgetedPreview r cap ref none aggregateNote mode
  shorter : o.length ≤ r.length

theorem Shortened.refl (mode : TruncationMode) (r : Chars) : Shortened mode r r := ⟨.inl rfl, Nat.le_refl _⟩

theorem lengths_set {results : List Chars} {i : ℕ} {r : Chars} (x : Chars) (h : results[i]? = some r) :
    lengths (results.set i x) + r.length = lengths results + x.length := by
  unfold lengths
  induction results generalizing i with
  | nil => simp at h
  | cons c cs ih =>
    cases i with
    | zero =>
      obtain rfl : c = r := by simpa using h
      simp only [List.set_cons_zero, List.map_cons, List.sum_cons]
      omega
    | succ i =>
      have hrest := ih (i := i) (by simpa using h)
      simp only [List.set_cons_succ, List.map_cons, List.sum_cons]
      omega

section Loop

variable {write : ℕ → String → Chars → WriteOutcome} {names : List String} {cap : ℤ} {mode : TruncationMode}

/-- What the loop makes of the results that it looks at. -/
structure Shrunk (write : ℕ → String → Chars → WriteOutcome) (names : List String) (cap : ℤ) (mode : TruncationMode)
    (items : List (Chars × ℕ)) (adjusted out : List Chars) : Prop where
  length : out.length = adjusted.length
  others : ∀ i, i ∉ items.map Prod.snd → out[i]? = adjusted[i]?
  each : ∀ e ∈ items, ∃ o, out[e.2]? = some o ∧ Shortened mode e.1 o
  bounded : (lengths out : ℤ) ≤ cap ∨ ∀ e ∈ items, ∀ o, out[e.2]? = some o →
    o.length ≤ resultFloor ((spilledRef write names e.2 e.1).getD "") e.1.length

/-- Within the cap the loop stops. -/
theorem Shrunk.stop {items : List (Chars × ℕ)} {adjusted : List Chars}
    (hitems : ∀ e ∈ items, adjusted[e.2]? = some e.1) (h : (lengths adjusted : ℤ) ≤ cap) :
    Shrunk write names cap mode items adjusted adjusted where
  length := rfl
  others _ _ := rfl
  each e he := ⟨e.1, hitems e he, Shortened.refl mode e.1⟩
  bounded := .inl h

theorem shrink_of_le {total : ℤ} (h : total ≤ cap) : ∀ (items : List (Chars × ℕ)) (adjusted : List Chars),
    shrink write names cap mode items total adjusted = some adjusted
  | [], _ => rfl
  | e :: items, adjusted => by
    obtain ⟨r, i⟩ := e
    unfold shrink
    rw [if_pos h]

/-- One result looked at: it becomes `x`, which is no longer than its floor
unless that brings the total within the cap. -/
theorem Shrunk.cons {r x : Chars} {i : ℕ} {items : List (Chars × ℕ)} {adjusted out : List Chars}
    (h : Shrunk write names cap mode items (adjusted.set i x) out) (hi : i < adjusted.length)
    (hnot : i ∉ items.map Prod.snd) (hx : Shortened mode r x)
    (hfloor : (lengths out : ℤ) ≤ cap ∨ x.length ≤ resultFloor ((spilledRef write names i r).getD "") r.length) :
    Shrunk write names cap mode ((r, i) :: items) adjusted out := by
  have hout : out[i]? = some x := by
    rw [h.others i hnot, List.getElem?_set_self hi]
  refine ⟨by rw [h.length, List.length_set], fun j hj => ?_, fun e he => ?_, ?_⟩
  · rw [List.map_cons, List.mem_cons, not_or] at hj
    rw [h.others j hj.2, List.getElem?_set_ne (fun he => hj.1 he.symm)]
  · rcases List.mem_cons.mp he with rfl | he
    · exact ⟨x, hout, hx⟩
    · exact h.each e he
  · rcases h.bounded with hcap | hrest
    · exact .inl hcap
    · refine hfloor.imp_right fun hle e he o ho => ?_
      rcases List.mem_cons.mp he with rfl | he
      · obtain rfl : x = o := Option.some.inj (hout.symm.trans ho)
        exact hle
      · exact hrest e he o ho

theorem shrink_shrunk : ∀ (items : List (Chars × ℕ)) (total : ℤ) (adjusted out : List Chars),
    (∀ e ∈ items, adjusted[e.2]? = some e.1) → (items.map Prod.snd).Nodup → total = lengths adjusted →
    shrink write names cap mode items total adjusted = some out → Shrunk write names cap mode items adjusted out
  | [], _, adjusted, out, hitems, _, htotal, h => by
    obtain rfl : adjusted = out := Option.some.inj h
    exact ⟨rfl, fun _ _ => rfl, fun e he => absurd he List.not_mem_nil, .inr fun e he => absurd he List.not_mem_nil⟩
  | (r, i) :: items, total, adjusted, out, hitems, hnodup, htotal, h => by
    have hr : adjusted[i]? = some r := hitems (r, i) List.mem_cons_self
    have hi : i < adjusted.length := (List.getElem?_eq_some_iff.mp hr).1
    rw [List.map_cons, List.nodup_cons] at hnodup
    have hrest : ∀ x : Chars, ∀ e ∈ items, (adjusted.set i x)[e.2]? = some e.1 := by
      intro x e he
      have hne : i ≠ e.2 := fun heq => hnodup.1 (List.mem_map.mpr ⟨e, he, heq.symm⟩)
      rw [List.getElem?_set_ne hne]
      exact hitems e (List.mem_cons_of_mem _ he)
    unfold shrink at h
    by_cases hcap : total ≤ cap
    · rw [if_pos hcap] at h
      obtain rfl : adjusted = out := Option.some.inj h
      exact Shrunk.stop hitems (htotal ▸ hcap)
    rw [if_neg hcap] at h
    dsimp only at h
    generalize hresultCap : max minAggregateKeep (r.length - (total - cap)).toNat = resultCap at h
    have hkeep : minAggregateKeep = 2000 := rfl
    have hfloorKeep : ∀ ref, minAggregateKeep ≤ resultFloor ref r.length := fun ref => Nat.le_max_left _ _
    by_cases hskip : r.length ≤ resultCap
    · -- no longer than the floor of the budget, since the total exceeds the cap
      rw [if_pos hskip] at h
      have hself : adjusted.set i r = adjusted := by
        rw [(List.getElem?_eq_some_iff.mp hr).2.symm, List.set_getElem_self]
      have hout := shrink_shrunk items total adjusted out (fun e he => hitems e (List.mem_cons_of_mem _ he)) hnodup.2
        htotal h
      rw [← hself] at hout
      refine hout.cons hi hnodup.1 (Shortened.refl mode r) (.inr ?_)
      have hle := hfloorKeep ((spilledRef write names i r).getD "")
      omega
    rw [if_neg hskip] at h
    cases href : spilledRef write names i r with
    | none =>
      rw [href] at h
      cases h
    | some ref =>
      rw [href] at h
      dsimp only at h
      generalize hx : budgetedPreview r resultCap ref none aggregateNote mode = x at h
      have hbody : x.length ≤ r.length := hx ▸ length_budgetedPreview_le_body r resultCap ref aggregateNote mode
      have hbudget : x.length ≤ max resultCap (minPreviewChars + reserve ref r.length aggregateNote) :=
        hx ▸ length_budgetedPreview_le r resultCap ref aggregateNote mode none
      have hset := lengths_set x hr
      have htotal' : total - (r.length - x.length) = lengths (adjusted.set i x) := by
        rw [htotal]
        omega
      have hshort : Shortened mode r x := ⟨.inr ⟨resultCap, ref, hx.symm⟩, hbody⟩
      have hout := shrink_shrunk items _ (adjusted.set i x) out (hrest x) hnodup.2 htotal' h
      refine hout.cons hi hnodup.1 hshort ?_
      rw [href, Option.getD_some]
      by_cases hfloor : x.length ≤ resultFloor ref r.length
      · exact .inr hfloor
      · -- above the floor, so the whole excess was taken off this result
        have hmax : resultFloor ref r.length =
            max minAggregateKeep (minPreviewChars + reserve ref r.length aggregateNote) := rfl
        have hwithin : total - (r.length - x.length) ≤ cap := by omega
        rw [shrink_of_le hwithin] at h
        obtain rfl : adjusted.set i x = out := Option.some.inj h
        exact .inl (htotal' ▸ hwithin)

/-- The loop ends in a result unless a write raises. -/
theorem shrink_isSome (hwrite : ∀ i name body, write i name body ≠ .raised) :
    ∀ (items : List (Chars × ℕ)) (total : ℤ) (adjusted : List Chars),
      (shrink write names cap mode items total adjusted).isSome
  | [], _, _ => rfl
  | (r, i) :: items, total, adjusted => by
    have href : ∃ ref, spilledRef write names i r = some ref := by
      unfold spilledRef
      by_cases hlong : spillMinChars ≤ r.length
      · rw [if_pos hlong]
        cases hw : write i (names.getD i "tool") r with
        | saved ref => exact ⟨ref, rfl⟩
        | refused => exact ⟨"", rfl⟩
        | raised => exact absurd hw (hwrite _ _ _)
      · rw [if_neg hlong]
        exact ⟨"", rfl⟩
    obtain ⟨ref, href⟩ := href
    unfold shrink
    by_cases hcap : total ≤ cap
    · rw [if_pos hcap]
      rfl
    rw [if_neg hcap]
    dsimp only
    by_cases hskip : r.length ≤ max minAggregateKeep (r.length - (total - cap)).toNat
    · rw [if_pos hskip]
      exact shrink_isSome hwrite items total adjusted
    · rw [if_neg hskip, href]
      exact shrink_isSome hwrite items _ _

end Loop

/-! ### The whole turn -/

theorem byLength_perm (results : List Chars) : (byLength results).Perm results.zipIdx := List.perm_insertionSort _ _

theorem byLength_items (results : List Chars) : ∀ e ∈ byLength results, results[e.2]? = some e.1 := by
  intro e he
  have hmem := (byLength_perm results).mem_iff.mp he
  exact List.mem_zipIdx_iff_getElem?.mp hmem

theorem byLength_nodup (results : List Chars) : ((byLength results).map Prod.snd).Nodup := by
  refine ((byLength_perm results).map Prod.snd).nodup_iff.mpr ?_
  rw [List.zipIdx_map_snd]
  exact List.nodup_range'

theorem mem_byLength {results : List Chars} {i : ℕ} {r : Chars} (h : results[i]? = some r) :
    (r, i) ∈ byLength results :=
  (byLength_perm results).mem_iff.mpr (List.mem_zipIdx_iff_getElem?.mpr h)

/-- What a turn's results become: as many, each at its place itself or a preview
of it that is no longer, and together within the cap or each within its floor. -/
structure Enforced (write : ℕ → String → Chars → WriteOutcome) (names : List String) (cap : ℤ) (mode : TruncationMode)
    (results out : List Chars) : Prop where
  length : out.length = results.length
  each : ∀ (i : ℕ) (r : Chars), results[i]? = some r → ∃ o, out[i]? = some o ∧ Shortened mode r o
  bounded : (lengths out : ℤ) ≤ cap ∨ ∀ (i : ℕ) (r o : Chars), results[i]? = some r → out[i]? = some o →
    o.length ≤ resultFloor ((spilledRef write names i r).getD "") r.length

/-- A turn's results stay as many and in their places, and none gets longer; a
cap above zero is kept, or every result is within its floor. A cap of zero or
less changes nothing. -/
theorem aggregate_budget (write : ℕ → String → Chars → WriteOutcome) (names : List String) (cap : ℤ)
    (mode : TruncationMode) (results : List Chars) (hwrite : ∀ i name body, write i name body ≠ .raised) :
    ∃ out, enforceAggregateBudget write names cap mode results = some out ∧
      (0 < cap → Enforced write names cap mode results out) ∧ (cap ≤ 0 → out = results) := by
  unfold enforceAggregateBudget
  by_cases hoff : cap ≤ 0 ∨ (lengths results : ℤ) ≤ cap
  · rw [if_pos hoff]
    refine ⟨results, rfl, fun hpos => ?_, fun _ => rfl⟩
    have hcap : (lengths results : ℤ) ≤ cap := hoff.resolve_left (not_le.mpr hpos)
    exact ⟨rfl, fun _ r hr => ⟨r, hr, Shortened.refl mode r⟩, .inl hcap⟩
  · rw [if_neg hoff]
    obtain ⟨out, hout⟩ : ∃ out, shrink write names cap mode (byLength results) (lengths results) results = some out :=
      Option.isSome_iff_exists.mp (shrink_isSome hwrite _ _ _)
    have hshrunk := shrink_shrunk _ _ _ _ (byLength_items results) (byLength_nodup results) rfl hout
    refine ⟨out, hout, fun _ => ⟨hshrunk.length, fun i r hr => ?_, ?_⟩, fun hcap => absurd (.inl hcap) hoff⟩
    · exact hshrunk.each (r, i) (mem_byLength hr)
    · exact hshrunk.bounded.imp_right fun hall i r o hr ho => hall (r, i) (mem_byLength hr) o ho

/-- Two results over the cap, and a store that refuses. -/
theorem aggregate_budget_two :
    let results := [List.replicate 2500 'a', "ok".toList]
    ∃ out, enforceAggregateBudget (fun _ _ _ => .refused) ["grep"] 2100 .middle results = some out ∧
      Enforced (fun _ _ _ => .refused) ["grep"] 2100 .middle results out := by
  obtain ⟨out, hout, hpos, -⟩ := aggregate_budget (fun _ _ _ => .refused) ["grep"] 2100 .middle
    [List.replicate 2500 'a', "ok".toList] fun _ _ _ h => by cases h
  exact ⟨out, hout, hpos (by decide)⟩

/-- A cap of zero bounds nothing. -/
theorem zero_cap_unbounded :
    ¬∀ (write : ℕ → String → Chars → WriteOutcome) (names : List String) (cap : ℤ) (mode : TruncationMode)
        (results out : List Chars), enforceAggregateBudget write names cap mode results = some out →
      (lengths out : ℤ) ≤ cap ∨ ∀ o ∈ out, o.length ≤ minAggregateKeep := by
  intro h
  have hoff : enforceAggregateBudget (fun _ _ _ => .refused) [] 0 .middle [List.replicate 2001 'a'] =
      some [List.replicate 2001 'a'] := if_pos (.inl (le_refl 0))
  rcases h _ _ _ _ _ _ hoff with htotal | heach
  · unfold lengths at htotal
    rw [List.map_singleton, List.sum_singleton, List.length_replicate] at htotal
    omega
  · have hlong := heach _ (List.mem_singleton_self _)
    rw [List.length_replicate] at hlong
    exact absurd hlong (by decide)

end AgentCore.SpillBudget
