/-
# What a footer says of its preview

The footer of `budgeted_preview` says whether the gap in the preview is marked. Its
wording follows the shape that `_truncate_with_shape` reports, and that is head and tail
also for a text which fits and is not cut. Such a text gets a footer where the body was
shortened before, that is, where `full_len` is more than its length; the footer then
promises a mark that is not there (`honest_iff`).

A preview is kept in pieces, so that a mark put in by the call is told from one that the
body quotes.

Key definitions: `Piece`, `truncatePieces`, `composed`, `Honest`.
Key theorem: `honest_iff`.
-/
import AgentCore.SpillBudget

namespace AgentCore.SpillBudget

/-- A piece of a preview: a part of the text, or the mark of a gap. -/
inductive Piece
  | kept (cs : Chars)
  | marker (removed : ℕ)
  deriving DecidableEq, Repr

def Piece.text : Piece → Chars
  | .kept cs => cs
  | .marker removed => elision removed

/-- `_truncate_with_shape`, with the preview in pieces. -/
def truncatePieces (text : Chars) (budget : ℕ) (mode : TruncationMode) : List Piece × PreviewShape :=
  if budget = 0 then ([.kept []], .head)
  else if text.length ≤ budget then ([.kept text], .headAndTail)
  else if mode = .head then ([.kept (text.take (headEnd text budget))], .head)
  else
    let room := budget - (elision text.length).length
    if room < 2 * minSideChars then ([.kept (text.take (headEnd text budget))], .head)
    else
      let headStop := headEnd text (room / 2)
      let tail := tailStart text (room - room / 2)
      if tail ≤ headStop then ([.kept (text.take (headEnd text budget))], .head)
      else ([.kept (text.take headStop), .marker (tail - headStop), .kept (text.drop tail)], .headAndTail)

/-- A preview in pieces, with the shape that its footer is made from. -/
structure Composed where
  pieces : List Piece
  shape : PreviewShape
  deriving DecidableEq, Repr

def previewBudget (cap : ℕ) (ref : String) (total : ℕ) (note : String) : ℕ :=
  max (cap - reserve ref total note) minPreviewChars

/-- The preview that `budgeted_preview` puts in the place of the body, if it does. -/
def composed (body : Chars) (cap : ℕ) (ref : String) (fullLen : Option ℕ) (note : String) (mode : TruncationMode) :
    Option Composed :=
  let total := fullLen.getD body.length
  let budget := previewBudget cap ref total note
  if body.length ≤ budget ∧ total ≤ body.length then none
  else
    let preview := truncatePieces body budget mode
    let text := preview.1.flatMap Piece.text ++ spillFooter ref total note preview.2
    if body.length ≤ text.length ∧ total ≤ body.length then none else some ⟨preview.1, preview.2⟩

/-! ### The pieces are those of the preview -/

section Pieces

variable (text : Chars) (budget : ℕ) (mode : TruncationMode)

theorem truncateWithShape_pieces : truncateWithShape text budget mode =
    ((truncatePieces text budget mode).1.flatMap Piece.text, (truncatePieces text budget mode).2) := by
  have hone : ∀ cs : Chars, [Piece.kept cs].flatMap Piece.text = cs := fun cs => List.append_nil cs
  unfold truncateWithShape truncatePieces
  by_cases h0 : budget = 0
  · rw [if_pos h0, if_pos h0]
    rfl
  rw [if_neg h0, if_neg h0]
  by_cases hlen : text.length ≤ budget
  · rw [if_pos hlen, if_pos hlen, hone]
  rw [if_neg hlen, if_neg hlen]
  by_cases hmode : mode = .head
  · rw [if_pos hmode, if_pos hmode, hone]
  rw [if_neg hmode, if_neg hmode]
  dsimp only
  generalize budget - (elision text.length).length = room
  by_cases hside : room < 2 * minSideChars
  · rw [if_pos hside, if_pos hside, hone]
  rw [if_neg hside, if_neg hside]
  by_cases hgap : tailStart text (room - room / 2) ≤ headEnd text (room / 2)
  · rw [if_pos hgap, if_pos hgap, hone]
  · rw [if_neg hgap, if_neg hgap]
    simp [Piece.text]

/-- The shape is head and tail for a text with a marked gap, and for one that fits. -/
theorem shape_iff (hbudget : budget ≠ 0) : (truncatePieces text budget mode).2 = .headAndTail ↔
    (∃ removed, .marker removed ∈ (truncatePieces text budget mode).1) ∨ text.length ≤ budget := by
  -- without a mark and longer than the budget, the shape is a head
  have hhead : ∀ cs : Chars, ¬ text.length ≤ budget → (PreviewShape.head = .headAndTail ↔
      (∃ removed, Piece.marker removed ∈ [Piece.kept cs]) ∨ text.length ≤ budget) := by
    intro cs hlen
    refine iff_of_false PreviewShape.noConfusion ?_
    simp [hlen]
  unfold truncatePieces
  rw [if_neg hbudget]
  by_cases hlen : text.length ≤ budget
  · rw [if_pos hlen]
    exact iff_of_true rfl (.inr hlen)
  rw [if_neg hlen]
  by_cases hmode : mode = .head
  · rw [if_pos hmode]
    exact hhead _ hlen
  rw [if_neg hmode]
  dsimp only
  generalize budget - (elision text.length).length = room
  by_cases hside : room < 2 * minSideChars
  · rw [if_pos hside]
    exact hhead _ hlen
  rw [if_neg hside]
  by_cases hgap : tailStart text (room - room / 2) ≤ headEnd text (room / 2)
  · rw [if_pos hgap]
    exact hhead _ hlen
  · rw [if_neg hgap]
    exact iff_of_true rfl (.inl ⟨_, List.mem_cons_of_mem _ List.mem_cons_self⟩)

/-- A text that fits is not cut. -/
theorem truncatePieces_fits (hbudget : budget ≠ 0) (hlen : text.length ≤ budget) :
    truncatePieces text budget mode = ([.kept text], .headAndTail) := by
  unfold truncatePieces
  rw [if_neg hbudget, if_pos hlen]

end Pieces

variable (body : Chars) (cap : ℕ) (ref : String) (fullLen : Option ℕ) (note : String) (mode : TruncationMode)

/-- `budgeted_preview` gives the body, or the preview composed with its footer. -/
theorem budgetedPreview_composed : budgetedPreview body cap ref fullLen note mode =
    ((composed body cap ref fullLen note mode).elim body fun c =>
      c.pieces.flatMap Piece.text ++ spillFooter ref (fullLen.getD body.length) note c.shape) := by
  unfold budgetedPreview composed previewBudget
  dsimp only
  generalize max (cap - reserve ref (fullLen.getD body.length) note) minPreviewChars = budget
  rw [truncateWithShape_pieces]
  by_cases hfits : body.length ≤ budget ∧ fullLen.getD body.length ≤ body.length
  · rw [if_pos hfits, if_pos hfits]
    rfl
  rw [if_neg hfits, if_neg hfits]
  dsimp only
  by_cases hlonger : body.length ≤ ((truncatePieces body budget mode).1.flatMap Piece.text ++
      spillFooter ref (fullLen.getD body.length) note (truncatePieces body budget mode).2).length ∧
        fullLen.getD body.length ≤ body.length
  · rw [if_pos hlonger, if_pos hlonger]
    rfl
  · rw [if_neg hlonger, if_neg hlonger]
    rfl

/-- A footer with a reference holds the clause of its shape; the rest of it does not
depend on the shape. -/
theorem footer_clause {ref : String} (href : ref ≠ "") (fullLen : ℕ) (note : String) : ∃ front back : Chars, ∀ shape,
    spillFooter ref fullLen note shape = front ++ (shownClause shape).toList ++ back := by
  refine ⟨("\n\n[... only part of this " ++ Text.thousands fullLen ++ "-char result is shown " ++ "(").toList,
    ("). Full content is saved read-only at " ++ ref ++
      ". Only if the elided content is required, read that path with " ++
      "whichever tool you have — read_file, `cat` via bash, or " ++
      "grep_search(pattern=\"...\", path=\"" ++ directoryOf ref ++ "\"). It is read-only; " ++
      "do not write there." ++ (if note ≠ "" then " " ++ note else "") ++ "]").toList, fun shape => ?_⟩
  unfold spillFooter
  rw [if_neg href]
  simp only [String.toList_append, List.append_assoc]

/-! ### Honest footers -/

/-- The footer says that the gap is marked. -/
def statesMarked (ref : String) (shape : PreviewShape) : Prop :=
  ref ≠ "" ∧ shownClause shape = "head and tail; the gap is marked above"

/-- The preview holds a mark that the call has put in. -/
def isMarked (pieces : List Piece) : Prop := ∃ removed, .marker removed ∈ pieces

/-- **The footer is honest**, where the body is not returned itself. -/
def Honest : Prop :=
  ∀ c, composed body cap ref fullLen note mode = some c → (statesMarked ref c.shape ↔ isMarked c.pieces)

theorem statesMarked_iff {ref : String} (href : ref ≠ "") {shape : PreviewShape} :
    statesMarked ref shape ↔ shape = .headAndTail := by
  unfold statesMarked
  cases shape with
  | headAndTail => exact iff_of_true ⟨href, rfl⟩ rfl
  | head => exact iff_of_false (fun h => absurd h.2 (by decide)) PreviewShape.noConfusion

variable {body cap ref fullLen note mode}

theorem previewBudget_ne_zero : previewBudget cap ref (fullLen.getD body.length) note ≠ 0 := by
  have hfloor : minPreviewChars = 500 := rfl
  unfold previewBudget
  omega

/-- What is composed is what the truncation gives. -/
theorem composed_eq {c : Composed} (h : composed body cap ref fullLen note mode = some c) :
    (c.pieces, c.shape) = truncatePieces body (previewBudget cap ref (fullLen.getD body.length) note) mode ∧
      ¬ (body.length ≤ previewBudget cap ref (fullLen.getD body.length) note ∧ fullLen.getD body.length ≤ body.length) := by
  unfold composed at h
  dsimp only at h
  generalize previewBudget cap ref (fullLen.getD body.length) note = budget at h ⊢
  obtain ⟨hfits, h⟩ := Option.ite_none_left_eq_some.mp h
  obtain ⟨-, h⟩ := Option.ite_none_left_eq_some.mp h
  obtain rfl := Option.some.inj h
  exact ⟨rfl, hfits⟩

/-- A body that fits, of a result that is longer, is previewed whole and without a mark. -/
theorem composed_fits (hlen : body.length ≤ previewBudget cap ref (fullLen.getD body.length) note)
    (hshort : body.length < fullLen.getD body.length) :
    composed body cap ref fullLen note mode = some ⟨[.kept body], .headAndTail⟩ := by
  have hlonger : ¬ fullLen.getD body.length ≤ body.length := not_le.mpr hshort
  unfold composed
  dsimp only
  rw [if_neg fun h => hlonger h.2, if_neg fun h => hlonger h.2,
    truncatePieces_fits _ _ _ previewBudget_ne_zero hlen]

/-- **Footers are honest** exactly where the body is cut, or was not shortened before. -/
theorem honest_iff (href : ref ≠ "") : Honest body cap ref fullLen note mode ↔
    ¬ (body.length ≤ previewBudget cap ref (fullLen.getD body.length) note ∧ body.length < fullLen.getD body.length) := by
  have hbudget : previewBudget cap ref (fullLen.getD body.length) note ≠ 0 := previewBudget_ne_zero
  constructor
  · rintro h ⟨hlen, hshort⟩
    -- the body fits, so nothing is cut and nothing marked
    obtain ⟨removed, hmem⟩ := (h _ (composed_fits hlen hshort)).mp ((statesMarked_iff href).mpr rfl)
    cases List.mem_singleton.mp hmem
  · intro h c hc
    obtain ⟨heq, hfits⟩ := composed_eq hc
    have hcut : ¬ body.length ≤ previewBudget cap ref (fullLen.getD body.length) note := by
      intro hlen
      exact h ⟨hlen, not_le.mp fun htotal => hfits ⟨hlen, htotal⟩⟩
    have hshape := shape_iff body (previewBudget cap ref (fullLen.getD body.length) note) mode hbudget
    rw [← heq] at hshape
    rw [statesMarked_iff href]
    exact hshape.trans (or_iff_left hcut)

/-- A body that is cut to its cap. -/
theorem cut_honest : Honest (List.replicate 3000 'x') 1200 "/spill/a.txt" none "" .middle :=
  (honest_iff (by decide)).mpr fun h => Nat.lt_irrefl _ h.2

/-- A body shortened before that fits its cap: the footer promises a mark. -/
theorem short_dishonest : ¬ Honest "the first lines".toList 8000 "/spill/a.txt" (some 90000) "" .middle := by
  intro h
  have hfloor : "the first lines".toList.length ≤ minPreviewChars := by decide
  have hshort : "the first lines".toList.length < 90000 := by decide
  have hcomposed : composed "the first lines".toList 8000 "/spill/a.txt" (some 90000) "" .middle =
      some ⟨[.kept "the first lines".toList], .headAndTail⟩ :=
    composed_fits (hfloor.trans (le_max_right _ _)) hshort
  obtain ⟨removed, hmem⟩ := (h _ hcomposed).mp ⟨by decide, rfl⟩
  cases List.mem_singleton.mp hmem

end AgentCore.SpillBudget
