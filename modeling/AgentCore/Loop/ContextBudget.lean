/-
# Token estimates and truncation

`estimate_tokens` of `context_budget.py` by its heuristic, which counts a CJK
character as a token and four others as one, and `truncate_text_to_tokens`,
which bisects for the slice of a text that fits a budget and puts a marker in
place of the rest.

The estimate of two texts together is not the sum of theirs: what they lose to
rounding may add up to one token more (`estimateTokens_append_le`). So a
truncated text may need one token more than its budget, and not two
(`truncateTextToTokens_le`). A longer slice needs no fewer tokens
(`slice_sublist`), which is what makes the bisection find the longest one that
fits (`longest_slice`).

Key definitions: `estimateTokens`, `truncateTextToTokens`, `Longest`, `Truncates`.
Key theorems: `truncateTextToTokens_le`, `truncation_maximal`.
-/
import AgentCore.Lib.Bisect
import AgentCore.Text
import Mathlib.Data.Int.Order.Basic

namespace AgentCore
namespace ContextBudget

/-- `_CJK_RE`. -/
def isCjk (c : Char) : Bool :=
  let n := c.toNat
  (0x2e80 ≤ n && n ≤ 0x2eff) || (0x3000 ≤ n && n ≤ 0x303f) || (0x3040 ≤ n && n ≤ 0x30ff) ||
    (0x3400 ≤ n && n ≤ 0x4dbf) || (0x4e00 ≤ n && n ≤ 0x9fff) || (0xf900 ≤ n && n ≤ 0xfaff) ||
    (0xff00 ≤ n && n ≤ 0xffef)

def cjkCount (text : String) : ℕ := text.toList.countP isCjk

def otherCount (text : String) : ℕ := text.length - cjkCount text

/-- `estimate_tokens` without an encoder. -/
def estimateTokens (text : String) : ℕ := if text = "" then 0 else cjkCount text + otherCount text / 4

/-- Which end of a text is kept. -/
inductive Keep
  | head | tail
  deriving DecidableEq, Repr

/-- `text[:n]` or `text[-n:]`. -/
def slice (keep : Keep) (text : String) (n : ℕ) : String :=
  match keep with
  | .head => Text.take text n
  | .tail => Text.takeEnd text n

def defaultMarker : String := "\n[... older context truncated to fit token budget ...]"

def truncateTextToTokens (text : String) (maxTokens : ℤ) (marker : String) (estimator : String → ℕ) (keep : Keep) :
    String :=
  if maxTokens ≤ 0 then ""
  else if estimator text ≤ maxTokens then text
  else
    -- a marker that would leave no room is dropped
    let effectiveMarker := if maxTokens ≤ estimator marker then "" else marker
    let target := max 1 (maxTokens - estimator effectiveMarker)
    let n := Bisect.last (fun mid => decide ((estimator (slice keep text mid) : ℤ) ≤ target)) 0 text.length
    match keep with
    | .head => slice .head text n ++ effectiveMarker
    | .tail => if n = 0 then effectiveMarker else effectiveMarker ++ slice .tail text n

/-! ### The heuristic -/

theorem otherCount_eq (text : String) : otherCount text = text.toList.countP fun c => !isCjk c := by
  have hsplit := List.length_eq_countP_add_countP isCjk (l := text.toList)
  simp only [Bool.not_eq_true, Bool.decide_eq_false] at hsplit
  rw [String.length_toList] at hsplit
  unfold otherCount cjkCount
  omega

@[simp] theorem estimateTokens_empty : estimateTokens "" = 0 := rfl

theorem estimateTokens_eq (text : String) : estimateTokens text = cjkCount text + otherCount text / 4 := by
  unfold estimateTokens
  split
  · next h =>
    subst h
    rfl
  · rfl

/-- A literal text is that of its characters, which are counted at less cost. -/
theorem cjkCount_ofList (cs : List Char) : cjkCount (String.ofList cs) = cs.countP isCjk := by
  rw [cjkCount, String.toList_ofList]

theorem otherCount_ofList (cs : List Char) : otherCount (String.ofList cs) = cs.countP fun c => !isCjk c := by
  rw [otherCount_eq, String.toList_ofList]

theorem cjkCount_append (s t : String) : cjkCount (s ++ t) = cjkCount s + cjkCount t := by
  simp only [cjkCount, String.toList_append, List.countP_append]

theorem otherCount_append (s t : String) : otherCount (s ++ t) = otherCount s + otherCount t := by
  simp only [otherCount_eq, String.toList_append, List.countP_append]

theorem estimateTokens_append_le (s t : String) : estimateTokens (s ++ t) ≤ estimateTokens s + estimateTokens t + 1 := by
  simp only [estimateTokens_eq, cjkCount_append, otherCount_append]
  omega

/-- A text from which characters are taken needs no more tokens. -/
theorem estimateTokens_mono {s t : String} (h : s.toList.Sublist t.toList) : estimateTokens s ≤ estimateTokens t := by
  have hcjk : cjkCount s ≤ cjkCount t := h.countP_le
  have hother : otherCount s ≤ otherCount t := by
    rw [otherCount_eq, otherCount_eq]
    exact h.countP_le
  rw [estimateTokens_eq, estimateTokens_eq]
  omega

theorem toList_strip_sublist (s : String) : (Text.strip s).toList.Sublist s.toList := by
  have hstart : ∀ cs : List Char, (Text.stripStart cs).Sublist cs := fun cs => List.dropWhile_sublist Text.isSpace
  rw [Text.strip, String.toList_ofList]
  have hboth := (hstart (Text.stripStart s.toList).reverse).reverse
  rw [List.reverse_reverse] at hboth
  exact hboth.trans (hstart s.toList)

/-- A text without its white space at the ends needs no more tokens. -/
theorem estimateTokens_strip_le (s : String) : estimateTokens (Text.strip s) ≤ estimateTokens s :=
  estimateTokens_mono (toList_strip_sublist s)

/-! ### The ends of a text -/

/-- A part that a text begins with, or one that it ends with. -/
def IsEnd (keep : Keep) (part text : String) : Prop :=
  match keep with
  | .head => part.toList <+: text.toList
  | .tail => part.toList <:+ text.toList

/-- The longest such part that needs no more tokens than there is room for. -/
structure Longest (keep : Keep) (text : String) (room : ℤ) (part : String) : Prop where
  isEnd : IsEnd keep part text
  fits : (estimateTokens part : ℤ) ≤ room
  longest : ∀ other : String, IsEnd keep other text → (estimateTokens other : ℤ) ≤ room →
    other.length ≤ part.length

@[simp] theorem toList_slice_head (text : String) (n : ℕ) : (slice .head text n).toList = text.toList.take n :=
  String.toList_ofList

@[simp] theorem toList_slice_tail (text : String) (n : ℕ) :
    (slice .tail text n).toList = text.toList.drop (text.length - n) := String.toList_ofList

theorem slice_tail_zero (text : String) : slice .tail text 0 = "" := by
  simp [slice, Text.takeEnd, ← String.length_toList]

theorem isEnd_slice (keep : Keep) (text : String) (n : ℕ) : IsEnd keep (slice keep text n) text := by
  cases keep with
  | head =>
    show (slice .head text n).toList <+: text.toList
    rw [toList_slice_head]
    exact List.take_prefix n _
  | tail =>
    show (slice .tail text n).toList <:+ text.toList
    rw [toList_slice_tail]
    exact List.drop_suffix _ _

theorem length_slice (keep : Keep) {text : String} {n : ℕ} (h : n ≤ text.length) :
    (slice keep text n).length = n := by
  rw [← String.length_toList]
  cases keep with
  | head =>
    simp only [toList_slice_head, List.length_take, String.length_toList]
    omega
  | tail =>
    simp only [toList_slice_tail, List.length_drop, String.length_toList]
    omega

theorem IsEnd.length_le {keep : Keep} {part text : String} (h : IsEnd keep part text) :
    part.length ≤ text.length := by
  rw [← String.length_toList, ← String.length_toList]
  cases keep with
  | head => exact List.IsPrefix.length_le h
  | tail => exact List.IsSuffix.length_le h

/-- An end of a text is the slice of its length. -/
theorem IsEnd.eq_slice {keep : Keep} {part text : String} (h : IsEnd keep part text) :
    part = slice keep text part.length := by
  apply String.ext
  cases keep with
  | head =>
    rw [toList_slice_head, ← String.length_toList]
    exact List.prefix_iff_eq_take.1 h
  | tail =>
    rw [toList_slice_tail, ← String.length_toList, ← String.length_toList]
    exact List.suffix_iff_eq_drop.1 h

/-- A slice is part of a longer one at the same end. -/
theorem slice_sublist (keep : Keep) (text : String) {m n : ℕ} (h : m ≤ n) :
    (slice keep text m).toList.Sublist (slice keep text n).toList := by
  cases keep with
  | head =>
    rw [toList_slice_head, toList_slice_head]
    exact (List.take_prefix_take_left h).sublist
  | tail =>
    rw [toList_slice_tail, toList_slice_tail]
    exact (List.drop_suffix_drop_left text.toList (by omega)).sublist

/-- **The bisection finds the longest slice**: a longer slice needs no fewer
tokens, and the empty one none. -/
theorem longest_slice (keep : Keep) (text : String) {room : ℤ} (hroom : 0 ≤ room) :
    Longest keep text room (slice keep text
      (Bisect.last (fun mid => decide ((estimateTokens (slice keep text mid) : ℤ) ≤ room)) 0 text.length)) := by
  set fits := fun mid => decide ((estimateTokens (slice keep text mid) : ℤ) ≤ room) with hfits
  have hmono : ∀ m n, m ≤ n → fits n = true → fits m = true := by
    intro m n hle hn
    have hshorter : estimateTokens (slice keep text m) ≤ estimateTokens (slice keep text n) :=
      estimateTokens_mono (slice_sublist keep text hle)
    simp only [hfits, decide_eq_true_eq] at hn ⊢
    omega
  have hnothing : estimateTokens (slice keep text 0) = 0 := by
    cases keep with
    | head => rfl
    | tail => rw [slice_tail_zero, estimateTokens_empty]
  have hzero : fits 0 = true := by
    simp only [hfits, decide_eq_true_eq, hnothing]
    exact_mod_cast hroom
  have hend : Bisect.last fits 0 text.length ≤ text.length := Bisect.last_le (Nat.zero_le _)
  refine ⟨isEnd_slice keep text _, ?_, ?_⟩
  · have hlast : fits (Bisect.last fits 0 text.length) = true := Bisect.holds_last hzero
    simpa only [hfits, decide_eq_true_eq] using hlast
  · intro other hother hroom
    have hholds : fits other.length = true := by
      simp only [hfits, decide_eq_true_eq]
      rwa [← hother.eq_slice]
    rw [length_slice keep hend]
    exact Bisect.le_last hmono hother.length_le hholds

/-! ### Truncation -/

/-- The marker in place of the rest of a text. -/
def marked (keep : Keep) (part marker : String) : String :=
  match keep with
  | .head => part ++ marker
  | .tail => marker ++ part

theorem estimateTokens_marked_le (keep : Keep) (part marker : String) :
    estimateTokens (marked keep part marker) ≤ estimateTokens part + estimateTokens marker + 1 := by
  cases keep with
  | head => exact estimateTokens_append_le part marker
  | tail =>
    have happend := estimateTokens_append_le marker part
    show estimateTokens (marker ++ part) ≤ _
    omega

/-- The marker of a truncated text: none where it would leave no room. -/
def effectiveMarker (marker : String) (maxTokens : ℤ) : String :=
  if maxTokens ≤ estimateTokens marker then "" else marker

/-- What the marker leaves of the budget. -/
def roomLeft (marker : String) (maxTokens : ℤ) : ℤ :=
  max 1 (maxTokens - estimateTokens (effectiveMarker marker maxTokens))

theorem effectiveMarker_lt (marker : String) {maxTokens : ℤ} (hpos : 0 < maxTokens) :
    (estimateTokens (effectiveMarker marker maxTokens) : ℤ) < maxTokens := by
  unfold effectiveMarker
  split
  · rw [estimateTokens_empty]
    exact_mod_cast hpos
  · omega

/-- What is left of a text that does not fit: its longest end within the room
that the marker leaves, and the marker. -/
theorem truncateTextToTokens_cut (text marker : String) {maxTokens : ℤ} (keep : Keep) (hpos : 0 < maxTokens)
    (hlong : ¬ (estimateTokens text : ℤ) ≤ maxTokens) :
    ∃ part, Longest keep text (roomLeft marker maxTokens) part ∧
      truncateTextToTokens text maxTokens marker estimateTokens keep =
        marked keep part (effectiveMarker marker maxTokens) := by
  have hroom : 0 ≤ roomLeft marker maxTokens := by
    unfold roomLeft
    omega
  refine ⟨_, longest_slice keep text hroom, ?_⟩
  unfold truncateTextToTokens
  rw [if_neg (by omega), if_neg hlong]
  set n := Bisect.last (fun mid => decide ((estimateTokens (slice keep text mid) : ℤ) ≤ roomLeft marker maxTokens))
    0 text.length with hn
  cases keep with
  | head => rfl
  | tail =>
    show (if n = 0 then effectiveMarker marker maxTokens else effectiveMarker marker maxTokens ++ slice .tail text n) =
      effectiveMarker marker maxTokens ++ slice .tail text n
    split
    · next hnone =>
      -- `text[-0:]` would be the whole text, and nothing is sliced
      rw [hnone, slice_tail_zero, String.append_empty]
    · rfl

/-- **A truncated text fits its budget** up to one token. -/
theorem truncateTextToTokens_le (text marker : String) {maxTokens : ℤ} (keep : Keep) (hpos : 0 < maxTokens) :
    (estimateTokens (truncateTextToTokens text maxTokens marker estimateTokens keep) : ℤ) ≤ maxTokens + 1 := by
  by_cases hfits : (estimateTokens text : ℤ) ≤ maxTokens
  · unfold truncateTextToTokens
    rw [if_neg (by omega), if_pos hfits]
    omega
  · obtain ⟨part, hpart, heq⟩ := truncateTextToTokens_cut text marker keep hpos hfits
    have happend := estimateTokens_marked_le keep part (effectiveMarker marker maxTokens)
    have hmarker := effectiveMarker_lt marker hpos
    have hslice := hpart.fits
    have hleft : roomLeft marker maxTokens + estimateTokens (effectiveMarker marker maxTokens) = maxTokens := by
      unfold roomLeft
      omega
    rw [heq]
    omega

/-- What a truncation makes of a text: the text where it fits, and else its
longest end with the marker, which is over the budget by a token at most. -/
structure Truncates (text marker : String) (maxTokens : ℤ) (keep : Keep) (result : String) : Prop where
  whole : (estimateTokens text : ℤ) ≤ maxTokens → result = text
  cut : ¬ (estimateTokens text : ℤ) ≤ maxTokens →
    ∃ part, Longest keep text (roomLeft marker maxTokens) part ∧
      result = marked keep part (effectiveMarker marker maxTokens)
  near : (estimateTokens result : ℤ) ≤ maxTokens + 1

/-- **Truncation is maximal**, and exact up to one token. -/
theorem truncation_maximal (text marker : String) (maxTokens : ℤ) (keep : Keep) (hpos : 0 < maxTokens) :
    Truncates text marker maxTokens keep (truncateTextToTokens text maxTokens marker estimateTokens keep) := by
  refine ⟨?_, ?_, truncateTextToTokens_le text marker keep hpos⟩
  · intro hfits
    unfold truncateTextToTokens
    rw [if_neg (by omega), if_pos hfits]
  · exact truncateTextToTokens_cut text marker keep hpos

/-- The marker takes one token of two, and the other pays for the last seven
letters. -/
theorem truncation_of_twelve : estimateTokens "abcdefghijkl" = 3 ∧ estimateTokens "...." = 1 ∧
    Truncates "abcdefghijkl" "...." 2 .tail (truncateTextToTokens "abcdefghijkl" 2 "...." estimateTokens .tail) := by
  refine ⟨by decide +kernel, by decide +kernel, ?_⟩
  exact truncation_maximal "abcdefghijkl" "...." 2 .tail (by decide)

end ContextBudget
end AgentCore
