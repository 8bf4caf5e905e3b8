/-
# Inline thinking in a stream

`_ThinkTagSplitter` of `_streaming.py` and the part of `_stream_llm_response`
that uses it: the content deltas of a stream are cut at the tags `<think>` and
`</think>`, which may straddle the borders of the deltas. A delta without a
whole tag does not go through the splitter while that has no state.

The splitter cuts a text as the whole text is cut, however it is fed. What the
stream accumulates is that cut exactly when no delta that goes past the
splitter ends in part of an opening tag that the deltas after it complete.

Other channels of a delta and the watchdogs of the stream are left out: with
content alone the first add nothing, and the second end the call in an error.

Key definitions: `Splitter.feed`, `Splitter.flush`, `Splitter.output`, `onContent`, `streamText`.
Key theorems: `feed_split`, `splitter_homomorphism`, `stream_text_split_iff`.
-/
import AgentCore.Lib.Delimited

namespace AgentCore
namespace ThinkTags

open Channels

/-- `OPEN` and `CLOSE`. -/
def thinkTags : Delimiters Char where
  mark := '<'
  rest := fun
    | false => "think>".toList
    | true => "/think>".toList
  mark_notMem := by decide
  apart := by decide

/-- The tag the splitter looks for. -/
def tag (inside : Bool) : List Char := thinkTags.delim inside

/-- The splitter: the side of the tags it is on, and the characters held back,
fewer than a tag has. -/
structure Splitter where
  inside : Bool
  buffer : List Char
  short : buffer.length < (tag inside).length
  deriving DecidableEq

namespace Splitter

def fresh : Splitter := ⟨false, [], by decide⟩

def hasState (s : Splitter) : Bool := s.inside || !s.buffer.isEmpty

end Splitter

/-- The loop of `_suffix_overlap`, from a length down. -/
def overlapFrom (buf tag : List Char) : ℕ → ℕ
  | 0 => 0
  | n + 1 => if buf.drop (buf.length - (n + 1)) = tag.take (n + 1) then n + 1 else overlapFrom buf tag n

/-- `_suffix_overlap`. -/
def suffixOverlap (buf tag : List Char) : ℕ := overlapFrom buf tag (min (tag.length - 1) buf.length)

theorem overlapFrom_le (buf tag : List Char) : ∀ n, overlapFrom buf tag n ≤ n
  | 0 => Nat.le_refl _
  | n + 1 => by
    unfold overlapFrom
    split
    · exact Nat.le_refl _
    · exact Nat.le_succ_of_le (overlapFrom_le buf tag n)

/-- No longer end of the text is a beginning of the tag. -/
theorem overlapFrom_longest {buf tag : List Char} : ∀ {n m : ℕ}, overlapFrom buf tag n < m → m ≤ n →
    buf.drop (buf.length - m) ≠ tag.take m
  | 0, m, h, hm => by omega
  | n + 1, m, h, hm => by
    unfold overlapFrom at h
    split at h
    · omega
    · next hne =>
      rcases Nat.lt_or_eq_of_le hm with hlt | rfl
      · exact overlapFrom_longest h (Nat.le_of_lt_succ hlt)
      · exact hne

theorem suffixOverlap_lt (buf : List Char) (inside : Bool) :
    suffixOverlap buf (tag inside) < (tag inside).length ∧ suffixOverlap buf (tag inside) ≤ buf.length := by
  have h := overlapFrom_le buf (tag inside) (min ((tag inside).length - 1) buf.length)
  have hpos : 0 < (tag inside).length := Nat.succ_pos _
  unfold suffixOverlap
  omega

/-- `str.find`: where the tag begins first. -/
def find (buf tag : List Char) : Option ℕ := (List.range buf.length).find? fun i => tag.isPrefixOf (buf.drop i)

/-- The loop of `feed`; every round but the last takes a tag off the text, so
the length of it is fuel enough. -/
def feedLoop : ℕ → Bool → List Char → Splitter × Channels Char
  | 0, inside, _ => (⟨inside, [], Nat.succ_pos _⟩, empty)
  | n + 1, inside, buf =>
    if buf.isEmpty then (⟨inside, [], Nat.succ_pos _⟩, empty)
    else match find buf (tag inside) with
      | none =>
        let safe := buf.length - suffixOverlap buf (tag inside)
        (⟨inside, buf.drop safe, by
            have := suffixOverlap_lt buf inside
            rw [List.length_drop]
            omega⟩, emit inside (buf.take safe))
      | some idx =>
        let (s, out) := feedLoop n (!inside) (buf.drop (idx + (tag inside).length))
        (s, emit inside (buf.take idx) ++ out)

def Splitter.feed (s : Splitter) (text : List Char) : Splitter × Channels Char :=
  feedLoop (s.buffer ++ text).length s.inside (s.buffer ++ text)

def Splitter.flush (s : Splitter) : Channels Char := emit s.inside s.buffer

/-! ### The splitter cuts as the whole text is cut -/

variable {inside : Bool} {buf : List Char}

theorem find_eq_none (h : find buf (tag inside) = none) : ¬tag inside <:+: buf := by
  rintro ⟨before, after, htag⟩
  have hpos : 0 < (tag inside).length := Nat.succ_pos _
  have hlen := congrArg List.length htag
  rw [List.length_append, List.length_append] at hlen
  have hnot := List.find?_eq_none.mp h before.length (List.mem_range.mpr (by omega))
  refine hnot (List.isPrefixOf_iff_prefix.mpr ⟨after, ?_⟩)
  rw [← htag, List.append_assoc, List.drop_left]

theorem find_eq_some {idx : ℕ} (h : find buf (tag inside) = some idx) :
    ∃ before after, buf = before ++ (tag inside ++ after) ∧ before.length = idx ∧
      ∀ i < idx, ¬tag inside <+: buf.drop i := by
  obtain ⟨hpre, hmem, hfirst⟩ := List.find?_range_eq_some.mp h
  obtain ⟨after, hafter⟩ := List.isPrefixOf_iff_prefix.mp hpre
  refine ⟨buf.take idx, after, ?_, List.length_take_of_le (Nat.le_of_lt (List.mem_range.mp hmem)), ?_⟩
  · rw [hafter, List.take_append_drop]
  · intro i hi hpre
    have := hfirst i hi
    rw [List.isPrefixOf_iff_prefix.mpr hpre] at this
    cases this

/-- The first tag of a text stays the first when the text goes on. -/
theorem split_first {before after : List Char}
    (h : ∀ i < before.length, ¬tag inside <+: (before ++ (tag inside ++ after)).drop i) (rest : List Char) :
    thinkTags.split inside 0 (before ++ (tag inside ++ after) ++ rest) =
      emit inside before ++ thinkTags.split (!inside) 0 (after ++ rest) := by
  rw [List.append_assoc, Delimiters.split_plain, List.append_assoc]
  · rw [tag, Delimiters.split_delim]
  · intro i hi hpre
    refine h i hi (List.prefix_of_prefix_length_le hpre ?_ ?_)
    · have hi' : i ≤ (before ++ (tag inside ++ after)).length := by
        rw [List.length_append]
        omega
      rw [show before ++ (tag inside ++ after ++ rest) = before ++ (tag inside ++ after) ++ rest by simp,
        List.drop_append_of_le_length hi']
      exact List.prefix_append _ _
    · rw [List.length_drop, List.length_append, List.length_append]
      omega

/-- A tag does not begin in the part of a text that is let go. -/
theorem safe_plain (h : ¬tag inside <:+: buf) (rest : List Char) {i : ℕ}
    (hi : i < buf.length - suffixOverlap buf (tag inside)) : ¬tag inside <+: (buf ++ rest).drop i := by
  intro hpre
  have hlt : i < buf.length := by omega
  rcases Delimiters.delim_begins hlt hpre with hlies | ⟨left, hl, hd, -⟩
  · exact h hlies
  · have hlen := congrArg List.length hd
    have hpos := List.length_pos_iff.mpr hl
    rw [List.length_append, List.length_drop] at hlen
    have hlonger : overlapFrom buf (tag inside) (min ((tag inside).length - 1) buf.length) < buf.length - i := by
      change suffixOverlap buf (tag inside) < _
      omega
    refine overlapFrom_longest hlonger ?_ ?_
    · change buf.length - i ≤ min ((thinkTags.delim inside).length - 1) buf.length
      omega
    · have htake : (tag inside).take (buf.length - i) = buf.drop i := by
        rw [tag, hd, List.take_append_of_le_length (by rw [List.length_drop]), List.take_of_length_le (by simp)]
      rw [htake, show buf.length - (buf.length - i) = i by omega]

/-- What `feed` gives out is decided: the whole text is cut as that and the cut
of what is held back with the text to come. -/
theorem feedLoop_split : ∀ (n : ℕ) (inside : Bool) (buf rest : List Char), buf.length ≤ n →
    thinkTags.split inside 0 (buf ++ rest) = (feedLoop n inside buf).2 ++
      thinkTags.split (feedLoop n inside buf).1.inside 0 ((feedLoop n inside buf).1.buffer ++ rest)
  | 0, inside, buf, rest, h => by
    rw [List.eq_nil_of_length_eq_zero (Nat.le_zero.mp h)]
    rfl
  | n + 1, inside, buf, rest, h => by
    unfold feedLoop
    split
    · next hnil =>
      rw [List.isEmpty_iff.mp hnil]
      rfl
    · split
      · next hnone =>
        have hplain := @Delimiters.split_plain _ _ thinkTags inside
          (buf.take (buf.length - suffixOverlap buf (tag inside)))
          (buf.drop (buf.length - suffixOverlap buf (tag inside)) ++ rest)
        rw [← List.append_assoc, List.take_append_drop] at hplain
        refine hplain fun i hi => safe_plain (find_eq_none hnone) rest ?_
        rw [List.length_take] at hi
        omega
      · next idx hsome =>
        obtain ⟨before, after, rfl, rfl, hfirst⟩ := find_eq_some hsome
        have hdrop : (before ++ (tag inside ++ after)).drop (before.length + (tag inside).length) = after := by
          rw [← List.drop_drop, List.drop_left, List.drop_left]
        have hpos : 0 < (tag inside).length := Nat.succ_pos _
        have hfuel : after.length ≤ n := by
          rw [List.length_append, List.length_append] at h
          omega
        rw [hdrop, List.take_left, split_first hfirst rest, feedLoop_split n (!inside) after rest hfuel, append_assoc]

/-- **The splitter cuts as the whole text is cut**: what it gives out, and then
the cut of what it holds back with the text to come. -/
theorem feed_split (s : Splitter) (text rest : List Char) :
    thinkTags.split s.inside 0 (s.buffer ++ text ++ rest) =
      (s.feed text).2 ++ thinkTags.split (s.feed text).1.inside 0 ((s.feed text).1.buffer ++ rest) :=
  feedLoop_split _ _ _ rest (Nat.le_refl _)

theorem flush_split (s : Splitter) : thinkTags.split s.inside 0 s.buffer = s.flush :=
  Delimiters.split_of_short s.short

/-! ### Chunks -/

/-- The splitter behind some chunks, and what it has given out for them. -/
def Splitter.feedAll : Splitter → List (List Char) → Splitter × Channels Char
  | s, [] => (s, empty)
  | s, text :: texts =>
    let (s', out) := s.feed text
    let (s'', outs) := s'.feedAll texts
    (s'', out ++ outs)

/-- What it gives out for them, and for the end of the stream behind them. -/
def Splitter.output (s : Splitter) (texts : List (List Char)) : Channels Char :=
  (s.feedAll texts).2 ++ (s.feedAll texts).1.flush

theorem feedAll_split : ∀ (texts : List (List Char)) (s : Splitter),
    thinkTags.split s.inside 0 (s.buffer ++ texts.flatten) = (s.feedAll texts).2 ++
      thinkTags.split (s.feedAll texts).1.inside 0 (s.feedAll texts).1.buffer
  | [], s => by
    rw [List.flatten_nil, List.append_nil]
    exact (empty_append _).symm
  | text :: texts, s => by
    have hfeed := feed_split s text texts.flatten
    have hrest := feedAll_split texts (s.feed text).1
    rw [List.flatten_cons, ← List.append_assoc, hfeed, hrest, ← append_assoc]
    rfl

/-- In any state, what is given out is the cut of the text held back and the
text to come, whatever its chunks. -/
theorem output_split (s : Splitter) (texts : List (List Char)) :
    s.output texts = thinkTags.split s.inside 0 (s.buffer ++ texts.flatten) := by
  rw [feedAll_split, flush_split]
  rfl

theorem output_flatten (s : Splitter) (texts : List (List Char)) : s.output texts = s.output [texts.flatten] := by
  rw [output_split, output_split, List.flatten_singleton]

/-- The longer tag has eight characters, and one less may be held back. -/
theorem Splitter.buffer_le (s : Splitter) : s.buffer.length ≤ 7 := by
  have hshort := s.short
  have htag : ∀ inside, (tag inside).length ≤ 8 := by decide
  have hlen := htag s.inside
  omega

/-! ### The content of a stream -/

/-- A content delta that goes past the splitter. -/
def skips (s : Splitter) (text : List Char) : Prop :=
  text = [] ∨ (¬tag false <:+: text ∧ ¬tag true <:+: text ∧ s.hasState = false)

instance (s : Splitter) (text : List Char) : Decidable (skips s text) :=
  inferInstanceAs (Decidable (_ ∨ (¬_ ∧ ¬_ ∧ _)))

/-- What a content delta adds. -/
def onContent (s : Splitter) (text : List Char) : Splitter × Channels Char :=
  if skips s text then (s, emit false text) else s.feed text

/-- What `_stream_llm_response` accumulates from a splitter on. -/
def streamFrom : Splitter → Channels Char → List (List Char) → Channels Char
  | s, accumulated, [] => accumulated ++ s.flush
  | s, accumulated, text :: texts => streamFrom (onContent s text).1 (accumulated ++ (onContent s text).2) texts

/-- The visible and the thinking text of a stream of content deltas. -/
def streamText (deltas : List String) : Channels Char := streamFrom .fresh empty (deltas.map String.toList)

/-- The splitter behind some deltas. -/
def splitterAfter (deltas : List String) : Splitter :=
  deltas.foldl (fun s d => (onContent s d.toList).1) .fresh

/-- No delta that goes past the splitter ends in part of an opening tag that
the deltas after it complete. -/
def NoneCut : Splitter → List (List Char) → Prop
  | _, [] => True
  | s, text :: texts =>
    (skips s text → ¬thinkTags.Straddles false text texts.flatten) ∧ NoneCut (onContent s text).1 texts

variable {s : Splitter} {text rest : List Char}

/-- A delta goes past the splitter when it is empty, or without a whole tag in
it while the splitter is outside and holds nothing back. -/
theorem skips_cases (h : skips s text) : text = [] ∨ (¬tag false <:+: text ∧ s.inside = false ∧ s.buffer = []) := by
  rcases h with h | ⟨hopen, -, hstate⟩
  · exact .inl h
  · rw [Splitter.hasState, Bool.or_eq_false_iff] at hstate
    exact .inr ⟨hopen, hstate.1, by simpa using hstate.2⟩

/-- A delta whose end is not such a part adds what the cut of the whole text
does. -/
theorem onContent_split (h : skips s text → ¬thinkTags.Straddles false text rest) :
    thinkTags.split s.inside 0 (s.buffer ++ text ++ rest) = (onContent s text).2 ++
      thinkTags.split (onContent s text).1.inside 0 ((onContent s text).1.buffer ++ rest) := by
  unfold onContent
  split
  · next hs =>
    rcases skips_cases hs with rfl | ⟨hopen, hin, hbuf⟩
    · rw [List.append_nil, emit_nil, empty_append]
    · rw [hin, hbuf, List.nil_append, List.nil_append]
      exact Delimiters.split_plain text rest fun i hi hpre => h hs (Delimiters.straddles_of_begins hopen hi hpre)
  · exact feed_split s text rest

/-- One whose end is such a part adds more to the visible text. -/
theorem onContent_straddle (hs : skips s text) (h : thinkTags.Straddles false text rest) :
    (thinkTags.split s.inside 0 (s.buffer ++ text ++ rest)).outside.length <
      (onContent s text).2.outside.length +
        (thinkTags.split (onContent s text).1.inside 0 ((onContent s text).1.buffer ++ rest)).outside.length := by
  rw [onContent, if_pos hs]
  rcases skips_cases hs with rfl | ⟨hopen, hin, hbuf⟩
  · obtain ⟨begun, -, hb, -, -, hsuf, -⟩ := h
    exact absurd (List.suffix_nil.mp hsuf) hb
  · obtain ⟨before, begun, left, after, rfl, rfl, -, hb, hleft, hsplit⟩ := Delimiters.split_straddle hopen h
    have hpos := List.length_pos_iff.mpr hb
    have hle := Delimiters.split_outside_le (D := thinkTags) after
    have hrest : thinkTags.split false 0 (left ++ after) = _ := Delimiters.split_of_notMem hleft after
    rw [hin, hbuf, List.nil_append, List.nil_append, hsplit, hrest]
    simp only [append_outside, List.length_append, emit, Bool.not_false, Bool.false_eq_true, if_false]
    omega

/-- The stream accumulates the cut of the whole text, or else it shows too much
of it. -/
theorem streamFrom_cases : ∀ (texts : List (List Char)) (s : Splitter) (accumulated : Channels Char),
    let whole := accumulated ++ thinkTags.split s.inside 0 (s.buffer ++ texts.flatten)
    (NoneCut s texts ∧ streamFrom s accumulated texts = whole) ∨
      (¬NoneCut s texts ∧ whole.outside.length < (streamFrom s accumulated texts).outside.length)
  | [], s, accumulated => by
    refine .inl ⟨trivial, ?_⟩
    rw [streamFrom, List.flatten_nil, List.append_nil, flush_split]
  | text :: texts, s, accumulated => by
    intro whole
    have hwhole : whole = accumulated ++ thinkTags.split s.inside 0 (s.buffer ++ text ++ texts.flatten) := by
      rw [List.append_assoc]
      rfl
    have ih := streamFrom_cases texts (onContent s text).1 (accumulated ++ (onContent s text).2)
    dsimp only at ih
    rw [streamFrom]
    by_cases hcut : skips s text → ¬thinkTags.Straddles false text texts.flatten
    · rw [append_assoc, ← onContent_split hcut, ← hwhole] at ih
      rcases ih with ⟨hnone, heq⟩ | ⟨hnone, hlt⟩
      · exact .inl ⟨⟨hcut, hnone⟩, heq⟩
      · exact .inr ⟨fun h => hnone h.2, hlt⟩
    · have hmore : whole.outside.length < (accumulated ++ (onContent s text).2 ++ thinkTags.split
          (onContent s text).1.inside 0 ((onContent s text).1.buffer ++ texts.flatten)).outside.length := by
        obtain ⟨hs, hstr⟩ := Classical.not_imp.mp hcut
        have := onContent_straddle hs (not_not.mp hstr)
        rw [hwhole]
        simp only [append_outside, List.length_append]
        omega
      refine .inr ⟨fun h => hcut h.1, ?_⟩
      rcases ih with ⟨-, heq⟩ | ⟨-, hlt⟩
      · rwa [heq]
      · exact Nat.lt_trans hmore hlt

/-- Without an opening tag none is cut. -/
theorem noneCut_of_no_tag : ∀ (texts : List (List Char)) (s : Splitter), ¬tag false <:+: texts.flatten → NoneCut s texts
  | [], _, _ => trivial
  | text :: texts, s, h => by
    rw [List.flatten_cons] at h
    refine ⟨?_, noneCut_of_no_tag texts _ fun htag => h (htag.trans (List.suffix_append _ _).isInfix)⟩
    rintro - ⟨begun, left, -, -, hdelim, ⟨front, rfl⟩, ⟨rest, hrest⟩⟩
    refine h ⟨front, rest, ?_⟩
    rw [tag, hdelim, ← hrest]
    simp only [List.append_assoc]

/-- A stream without an opening tag shows all of its text. -/
theorem streamFrom_of_no_tag {texts : List (List Char)} (h : ¬tag false <:+: texts.flatten) :
    streamFrom .fresh .empty texts = emit false texts.flatten := by
  have hplain : thinkTags.split false 0 texts.flatten = emit false texts.flatten := Delimiters.split_undelimited h
  rcases streamFrom_cases texts .fresh .empty with ⟨_, heq⟩ | ⟨hcut, _⟩
  · rw [heq]
    exact hplain
  · exact absurd (noneCut_of_no_tag texts _ h) hcut

theorem flatten_toList (deltas : List String) : (deltas.map String.toList).flatten = (String.join deltas).toList := by
  rw [String.toList_join, List.flatMap_def]

/-- The condition, for each delta and the splitter it finds. -/
theorem noneCut_iff : ∀ (deltas : List String) (s : Splitter), NoneCut s (deltas.map String.toList) ↔
    ∀ before d after, deltas = before ++ d :: after →
      skips (before.foldl (fun s d => (onContent s d.toList).1) s) d.toList →
      ¬thinkTags.Straddles false d.toList (String.join after).toList
  | [], s => by simp [NoneCut]
  | d :: deltas, s => by
    rw [List.map_cons, NoneCut, noneCut_iff deltas, flatten_toList]
    constructor
    · rintro ⟨hhead, htail⟩ before d' after heq
      cases before with
      | nil =>
        obtain ⟨rfl, rfl⟩ := List.cons.inj heq
        exact hhead
      | cons b before =>
        obtain ⟨rfl, hrest⟩ := List.cons.inj heq
        exact htail before d' after hrest
    · intro h
      refine ⟨h [] d deltas rfl, fun before d' after heq => ?_⟩
      exact h (d :: before) d' after (congrArg (d :: ·) heq)

end ThinkTags

open ThinkTags in
/-- **The splitter is a homomorphism of streams**: for any chunks of a text it
gives out what it gives out for the whole text, which is the cut of the text at
its tags; and between two chunks it holds back at most seven characters. -/
theorem splitter_homomorphism (chunks : List (List Char)) :
    Splitter.fresh.output chunks = Splitter.fresh.output [chunks.flatten] ∧
      thinkTags.Cut false chunks.flatten (Splitter.fresh.output chunks) ∧
      ∀ before after, chunks = before ++ after → (Splitter.fresh.feedAll before).1.buffer.length ≤ 7 := by
  refine ⟨output_flatten _ chunks, ?_, fun _ _ _ => Splitter.buffer_le _⟩
  exact Delimiters.cut_iff.mpr (output_split .fresh chunks)

open ThinkTags in
/-- **The text of a stream is the cut of the whole text** at its tags exactly
when no delta that goes past the splitter ends in part of an opening tag that
the deltas after it complete. A delta goes past the splitter when it has no
whole tag in it and the splitter is outside the tags and holds nothing back. -/
theorem stream_text_split_iff (deltas : List String) :
    streamText deltas = thinkTags.split false 0 (String.join deltas).toList ↔
      ∀ before d after, deltas = before ++ d :: after → skips (splitterAfter before) d.toList →
        ¬thinkTags.Straddles false d.toList (String.join after).toList := by
  have hcases := streamFrom_cases (deltas.map String.toList) .fresh .empty
  have hiff := noneCut_iff deltas .fresh
  dsimp only at hcases
  rw [flatten_toList] at hcases
  rcases hcases with ⟨hnone, heq⟩ | ⟨hcut, hlt⟩
  · exact ⟨fun _ => hiff.mp hnone, fun _ => heq⟩
  · refine ⟨fun h => ?_, fun h => absurd (hiff.mpr h) hcut⟩
    have hlen := congrArg (fun c => c.outside.length) h
    exact absurd hlen (Nat.ne_of_gt hlt)

open ThinkTags in
/-- An opening tag cut in two: the thinking is shown, tags and all. -/
theorem cut_tag_shown :
    streamText ["<thi", "nk>x</think>y"] = ⟨"<think>x</think>y".toList, []⟩ ∧
      streamText ["<think>x</think>y"] = ⟨"y".toList, "x".toList⟩ ∧
      thinkTags.split false 0 (String.join ["<thi", "nk>x</think>y"]).toList = ⟨"y".toList, "x".toList⟩ := by
  decide +kernel

end AgentCore
