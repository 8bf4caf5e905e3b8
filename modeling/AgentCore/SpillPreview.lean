/-
# The arithmetic of previews

A preview made by `_truncate_with_shape` is the text, a beginning of it, or a beginning
and an end of it around a mark. The mark states how many characters of the text are
between the two, and its own length is within the budget, which it depends on:
the room of the two sides is what the mark of the whole text would leave.

The length of a preview with its footer is bounded by the cap, or by the floor of a
preview and the longer of the two footers, since the floor holds also for a cap that
leaves less room.

Here the budget and the cap may be any integer.

Key definitions: `truncateWithin`, `previewWithin`, `IsPreview`.
Key theorem: `preview_arithmetic`.
-/
import Mathlib.Data.Int.Order.Basic
import AgentCore.SpillBudget

namespace AgentCore.SpillBudget

/-! ### The number of a mark -/

/-- The number that the digits of a text write. -/
def statedNumber (cs : Chars) : ℕ := Nat.ofDigitChars 10 (cs.filter Char.isDigit) 0

/-- The commas put between digits are no digits. -/
theorem filter_groupDigits : ∀ {cs : Chars} (n : ℕ), (∀ c ∈ cs, c.isDigit = true) →
    (Text.groupDigits n cs).filter Char.isDigit = cs
  | [], _, _ => by simp [Text.groupDigits]
  | c :: cs, n, h => by
    have hhead : c.isDigit = true := h c List.mem_cons_self
    have htail : ∀ d ∈ cs, d.isDigit = true := fun d hd => h d (List.mem_cons_of_mem c hd)
    have hcomma : ¬ ','.isDigit = true := by decide
    by_cases hn : n = 3
    · subst hn
      rw [Text.groupDigits, List.filter_cons_of_neg hcomma, List.filter_cons_of_pos hhead, filter_groupDigits 1 htail]
    · have hcons : Text.groupDigits n (c :: cs) = c :: Text.groupDigits (n + 1) cs := by
        rw [Text.groupDigits]
        exact hn
      rw [hcons, List.filter_cons_of_pos hhead, filter_groupDigits (n + 1) htail]

theorem filter_thousands (n : ℕ) : (Text.thousands n).toList.filter Char.isDigit = Nat.toDigits 10 n := by
  have hdigits : ∀ c ∈ (Nat.toDigits 10 n).reverse, c.isDigit = true := by
    intro c hc
    exact Nat.isDigit_of_mem_toDigits (by decide) (by decide) (List.mem_reverse.mp hc)
  unfold Text.thousands
  rw [String.toList_ofList, List.filter_reverse, Nat.toString_eq_ofList_toDigits, String.toList_ofList,
    filter_groupDigits 0 hdigits, List.reverse_reverse]

/-- A mark states its number. -/
theorem statedNumber_elision (removed : ℕ) : statedNumber (elision removed) = removed := by
  have hbefore : "\n… ".toList.filter Char.isDigit = [] := by decide
  have hbehind : " chars elided …\n".toList.filter Char.isDigit = [] := by decide
  unfold statedNumber elision
  rw [String.toList_append, String.toList_append, List.filter_append, List.filter_append, hbefore, hbehind,
    List.nil_append, List.append_nil, filter_thousands]
  exact Nat.ofDigitChars_ten_toDigits

/-! ### What a preview is -/

/-- A preview of a text: the text, a beginning of it, or a beginning and an end of it
that do not meet, around the mark of what is between them. -/
inductive IsPreview (text : Chars) : Chars → Prop
  | whole : IsPreview text text
  | beginning {front : Chars} (h : front <+: text) : IsPreview text front
  | sides {front gap back mark : Chars} (htext : text = front ++ gap ++ back) (hgap : gap ≠ [])
      (hmark : mark = elision gap.length) (hstated : statedNumber mark = gap.length) :
      IsPreview text (front ++ mark ++ back)

theorem isPreview_sides {text : Chars} {headStop tail : ℕ} (hgap : headStop < tail) (htail : tail ≤ text.length) :
    IsPreview text (text.take headStop ++ elision (tail - headStop) ++ text.drop tail) := by
  have htext : text = text.take headStop ++ (text.drop headStop).take (tail - headStop) ++ text.drop tail := by
    have hdrop : text.drop tail = (text.drop headStop).drop (tail - headStop) := by
      rw [List.drop_drop, Nat.add_sub_cancel' hgap.le]
    rw [List.append_assoc, hdrop, List.take_append_drop, List.take_append_drop]
  have hlen : ((text.drop headStop).take (tail - headStop)).length = tail - headStop := by
    rw [List.length_take, List.length_drop]
    omega
  have hne : (text.drop headStop).take (tail - headStop) ≠ [] := by
    apply List.ne_nil_of_length_pos
    omega
  refine IsPreview.sides htext hne (by rw [hlen]) ?_
  rw [statedNumber_elision, hlen]

theorem isPreview_truncate (text : Chars) (budget : ℕ) (mode : TruncationMode) :
    IsPreview text (truncateWithShape text budget mode).1 := by
  rcases truncate_cases text budget mode with heq | ⟨-, heq⟩ | heq | ⟨headStop, tail, hgap, htail, -, heq⟩
  · rw [heq]
    exact .beginning List.nil_prefix
  · rw [heq]
    exact .whole
  · rw [heq]
    exact .beginning (List.take_prefix _ _)
  · rw [heq]
    exact isPreview_sides hgap htail

/-! ### Any budget, any cap -/

/-- `_truncate_with_shape`. -/
def truncateWithin (text : Chars) (budget : ℤ) (mode : TruncationMode) : Chars × PreviewShape :=
  if budget ≤ 0 then ([], .head) else truncateWithShape text budget.toNat mode

/-- `budgeted_preview`. -/
def previewWithin (body : Chars) (cap : ℤ) (ref : String) (fullLen : Option ℕ) (note : String)
    (mode : TruncationMode) : Chars :=
  let total := fullLen.getD body.length
  let previewBudget := max (cap - reserve ref total note) minPreviewChars
  if body.length ≤ previewBudget ∧ total ≤ body.length then body
  else
    let preview := truncateWithin body previewBudget mode
    let composed := preview.1 ++ spillFooter ref total note preview.2
    if body.length ≤ composed.length ∧ total ≤ body.length then body else composed

/-- A budget below zero counts as none. -/
theorem truncateWithin_eq (text : Chars) (budget : ℤ) (mode : TruncationMode) :
    truncateWithin text budget mode = truncateWithShape text budget.toNat mode := by
  unfold truncateWithin
  by_cases hnone : budget ≤ 0
  · rw [if_pos hnone, Int.toNat_eq_zero.mpr hnone]
    rfl
  · rw [if_neg hnone]

/-- A cap below zero counts as none. -/
theorem previewWithin_eq (body : Chars) (cap : ℤ) (ref : String) (fullLen : Option ℕ) (note : String)
    (mode : TruncationMode) :
    previewWithin body cap ref fullLen note mode = budgetedPreview body cap.toNat ref fullLen note mode := by
  unfold previewWithin budgetedPreview
  dsimp only
  have hfloor : minPreviewChars = 500 := rfl
  have hbudget : max (cap - reserve ref (fullLen.getD body.length) note) minPreviewChars =
      ((max (cap.toNat - reserve ref (fullLen.getD body.length) note) minPreviewChars : ℕ) : ℤ) := by
    omega
  rw [hbudget, truncateWithin_eq, Int.toNat_natCast]
  simp only [Int.ofNat_le]

/-- **The arithmetic of previews**: a truncated text is a preview of it within its
budget; with a footer it is within the cap, or within the longer footer and the floor;
and it is no longer than the body where that is the full result. -/
theorem preview_arithmetic (body : Chars) :
    (∀ (budget : ℤ) (mode : TruncationMode), IsPreview body (truncateWithin body budget mode).1 ∧
      ((truncateWithin body budget mode).1.length : ℤ) ≤ max budget 0) ∧
    (∀ (cap : ℤ) (ref : String) (fullLen : Option ℕ) (note : String) (mode : TruncationMode),
      ((previewWithin body cap ref fullLen note mode).length : ℤ) ≤
        max cap (reserve ref (fullLen.getD body.length) note + 500)) ∧
    ∀ (cap : ℤ) (ref note : String) (mode : TruncationMode),
      (previewWithin body cap ref none note mode).length ≤ body.length := by
  refine ⟨fun budget mode => ?_, fun cap ref fullLen note mode => ?_, fun cap ref note mode => ?_⟩
  · rw [truncateWithin_eq]
    have hlen := length_truncate_le body budget.toNat mode
    exact ⟨isPreview_truncate body budget.toNat mode, by omega⟩
  · rw [previewWithin_eq]
    have hlen := length_budgetedPreview_le body cap.toNat ref note mode fullLen
    have hfloor : minPreviewChars = 500 := rfl
    omega
  · rw [previewWithin_eq]
    exact length_budgetedPreview_le_body body cap.toNat ref note mode

end AgentCore.SpillBudget
