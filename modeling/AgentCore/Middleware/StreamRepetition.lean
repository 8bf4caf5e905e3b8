/-
# Repetition in a stream

`StreamRepetitionDetectorMiddleware` of `stream_repetition.py`, with the loop of
the proxy that feeds it: a stream is aborted when its text ends in enough copies of
a pattern. The text is scanned only when enough characters have come in since the
last scan, and not before it has some length.

The scan finds the least pattern there is, and the scans come often enough that a
stream which has become periodic goes on for a bounded number of characters. The
interval between two scans may be negative, and then every chunk is scanned.

The state of a call is kept in the call's metadata under its index. The log is left
out.

Key definitions: `StreamRepetitionDetectorMiddleware`, `scanTail`, `onChunk`, `stream`.
Key theorems: `scanTail_eq_some`, `scanTail_eq_none`, `stream_bounded`,
`repetition_detected`.
-/
import Mathlib.Data.Int.Order.Basic
import Mathlib.Logic.Function.Basic
import AgentCore.Lib.Repeats

namespace AgentCore.Middleware.StreamRepetition

open Repeats

abbrev Chars := List Char

/-- The settings, as the constructor leaves them. -/
structure StreamRepetitionDetectorMiddleware where
  minPatternLen : ℕ
  maxPatternLen : ℕ
  minRepeats : ℕ
  minTextLen : ℕ
  checkInterval : ℤ
  pattern_pos : 1 ≤ minPatternLen
  pattern_le : minPatternLen ≤ maxPatternLen
  two_le_repeats : 2 ≤ minRepeats
  fits : minPatternLen * minRepeats ≤ minTextLen

/-- The constructor. -/
def init (minPatternLen maxPatternLen minRepeats minTextLen checkInterval : ℤ) :
    Except String StreamRepetitionDetectorMiddleware :=
  if h₁ : minPatternLen < 1 then .error "min_pattern_len must be >= 1"
  else if h₂ : maxPatternLen < minPatternLen then .error "max_pattern_len must be >= min_pattern_len"
  else if h₃ : minRepeats < 2 then .error "min_repeats must be >= 2 (1 repeat = no repeat)"
  else .ok {
    minPatternLen := minPatternLen.toNat
    maxPatternLen := maxPatternLen.toNat
    minRepeats := minRepeats.toNat
    minTextLen := (if minTextLen < minPatternLen * minRepeats then minPatternLen * minRepeats else minTextLen).toNat
    checkInterval := checkInterval
    pattern_pos := by omega
    pattern_le := by omega
    two_le_repeats := by omega
    fits := by
      rw [← Int.toNat_mul (by omega) (by omega)]
      split
      · exact Nat.le_refl _
      · omega }

/-- The state of one call. -/
structure CallState where
  charsSinceCheck : ℕ := 0
  detected : Bool := false
  deriving DecidableEq

/-- `ctx.metadata`, as far as the middleware uses it. -/
structure Metadata where
  state : ℤ → CallState := fun _ => {}
  patternLen : Option ℕ := none
  repeats : Option ℕ := none

namespace StreamRepetitionDetectorMiddleware

variable (mw : StreamRepetitionDetectorMiddleware)

/-- The copies of the last `patLen` characters at the end of the text. -/
def repeats (text : Chars) (patLen : ℕ) : ℕ :=
  1 + copies (text.drop (text.length - patLen)) text text.length (text.length - patLen)

/-- `_scan_tail`. -/
def scanTail (text : Chars) : Option (ℕ × ℕ) :=
  let maxScan := min mw.maxPatternLen (text.length / mw.minRepeats)
  if maxScan < mw.minPatternLen then none
  else
    ((List.range' mw.minPatternLen (maxScan + 1 - mw.minPatternLen)).find? fun patLen =>
      mw.minRepeats ≤ repeats text patLen).map fun patLen => (patLen, repeats text patLen)

/-- `on_chunk`, `fullText` ending in the content of the delta. -/
def onChunk (metadata : Metadata) (callIndex : ℤ) (content : Option Chars) (fullText : Chars) : Metadata × Bool :=
  let state := metadata.state callIndex
  if state.detected then (metadata, true)
  else if fullText.length < mw.minTextLen then (metadata, false)
  else
    let charsSinceCheck := state.charsSinceCheck + (content.getD []).length
    let put (st : CallState) : Metadata := { metadata with state := Function.update metadata.state callIndex st }
    if (charsSinceCheck : ℤ) < mw.checkInterval then (put { state with charsSinceCheck }, false)
    else
      match mw.scanTail fullText with
      | none => (put { state with charsSinceCheck := 0 }, false)
      | some (patLen, repeats) =>
        ({ put { charsSinceCheck := 0, detected := true } with patternLen := some patLen, repeats := some repeats }, true)

/-- The loop of `LLMProxy.stream` over the contents of the deltas: the text when the
stream is over, and whether it was aborted. -/
def stream (callIndex : ℤ) : Metadata → Chars → List (Option Chars) → Chars × Bool
  | _, fullText, [] => (fullText, false)
  | metadata, fullText, content :: contents =>
    let fullText := fullText ++ content.getD []
    let out := mw.onChunk metadata callIndex content fullText
    if out.2 then (fullText, true) else stream callIndex out.1 fullText contents

end StreamRepetitionDetectorMiddleware

/-! ### The scan -/

open StreamRepetitionDetectorMiddleware

variable {mw : StreamRepetitionDetectorMiddleware}

theorem le_repeats_iff {text : Chars} {patLen k : ℕ} (hp : 1 ≤ patLen) (hlen : patLen ≤ text.length) :
    k ≤ repeats text patLen ↔ EndsIn k (text.rtake patLen) text := by
  have hw : text.drop (text.length - patLen) ≠ [] := by
    intro h
    have := congrArg List.length h
    rw [List.length_drop, List.length_nil] at this
    omega
  have hsplit : text = text.take (text.length - patLen) ++ text.rtake patLen := (List.take_append_drop ..).symm
  unfold repeats
  cases k with
  | zero => simp [endsIn_zero]
  | succ k =>
    have hrec : k ≤ copies (text.drop (text.length - patLen)) text text.length (text.length - patLen) ↔
        EndsIn k (text.rtake patLen) (text.take (text.length - patLen)) :=
      le_copies_iff hw (by omega) (by omega)
    rw [Nat.add_comm 1, Nat.add_le_add_iff_right, hrec, endsIn_succ]
    constructor
    · exact fun h => ⟨_, hsplit, h⟩
    · rintro ⟨l', hl', h⟩
      have heq : text.take (text.length - patLen) ++ text.rtake patLen = l' ++ text.rtake patLen := by
        rw [← hsplit]
        exact hl'
      rwa [List.append_cancel_right heq]

/-- The text ends in enough copies of its last `p` characters, and `p` is within the
bounds. -/
def Repeating (mw : StreamRepetitionDetectorMiddleware) (text : Chars) (p : ℕ) : Prop :=
  mw.minPatternLen ≤ p ∧ p ≤ mw.maxPatternLen ∧ p ≤ text.length ∧ EndsIn mw.minRepeats (text.rtake p) text

theorem Repeating.le_scan {text : Chars} {p : ℕ} (h : Repeating mw text p) : p ≤ text.length / mw.minRepeats := by
  have hr := mw.two_le_repeats
  have hle := h.2.2.2.length_le
  have hlen : (text.rtake p).length = p := by
    unfold List.rtake
    rw [List.length_drop]
    have := h.2.2.1
    omega
  rw [hlen] at hle
  rw [Nat.le_div_iff_mul_le (by omega), Nat.mul_comm]
  exact hle

/-- The lengths that are tried are those that a repeating pattern can have. -/
theorem repeating_iff {text : Chars} {p : ℕ} : Repeating mw text p ↔
    (mw.minPatternLen ≤ p ∧ p ≤ min mw.maxPatternLen (text.length / mw.minRepeats)) ∧
      mw.minRepeats ≤ repeats text p := by
  have hp := mw.pattern_pos
  constructor
  · intro h
    have hscan := h.le_scan
    have h1 := h.1
    have h2 := h.2.1
    refine ⟨⟨h1, by omega⟩, ?_⟩
    rw [le_repeats_iff (by omega) h.2.2.1]
    exact h.2.2.2
  · rintro ⟨⟨h1, h2⟩, hr⟩
    have hdiv : text.length / mw.minRepeats ≤ text.length := Nat.div_le_self ..
    have hlen : p ≤ text.length := by omega
    rw [le_repeats_iff (by omega) hlen] at hr
    exact ⟨h1, by omega, hlen, hr⟩

/-- The scan finds the least length of a repeating pattern, with as many copies as
there are. -/
theorem scanTail_eq_some {text : Chars} {p n : ℕ} : mw.scanTail text = some (p, n) ↔
    Repeating mw text p ∧ (∀ q < p, ¬ Repeating mw text q) ∧ ∀ k, k ≤ n ↔ EndsIn k (text.rtake p) text := by
  have hpos := mw.pattern_pos
  unfold scanTail
  simp only
  by_cases hroom : min mw.maxPatternLen (text.length / mw.minRepeats) < mw.minPatternLen
  · rw [if_pos hroom]
    refine iff_of_false (by simp) ?_
    rintro ⟨hp, -⟩
    have := (repeating_iff.mp hp).1
    omega
  · rw [if_neg hroom, Option.map_eq_some_iff]
    simp only [List.find?_range'_eq_some, List.mem_range'_1, decide_eq_true_eq, Bool.not_eq_true', decide_eq_false_iff_not]
    constructor
    · rintro ⟨p', ⟨hrep, ⟨h1, h2⟩, hleast⟩, heq⟩
      obtain ⟨rfl, rfl⟩ := Prod.mk.inj heq
      have hp : Repeating mw text p' := repeating_iff.mpr ⟨⟨h1, by omega⟩, hrep⟩
      exact ⟨hp, fun q hq hrq => hleast q hrq.1 hq (repeating_iff.mp hrq).2, fun k => le_repeats_iff (by omega) hp.2.2.1⟩
    · rintro ⟨hp, hleast, hmax⟩
      obtain ⟨⟨h1, h2⟩, hrep⟩ := repeating_iff.mp hp
      have hn : repeats text p = n := by
        have hboth : ∀ k, k ≤ repeats text p ↔ k ≤ n := fun k =>
          (le_repeats_iff (by omega) hp.2.2.1).trans (hmax k).symm
        exact Nat.le_antisymm ((hboth _).mp (Nat.le_refl _)) ((hboth _).mpr (Nat.le_refl _))
      refine ⟨p, ⟨hrep, ⟨h1, by omega⟩, fun q hq hlt hrq => ?_⟩, by rw [hn]⟩
      exact hleast q hlt (repeating_iff.mpr ⟨⟨hq, by omega⟩, hrq⟩)

theorem scanTail_eq_none {text : Chars} : mw.scanTail text = none ↔ ∀ p, ¬ Repeating mw text p := by
  unfold scanTail
  simp only
  by_cases hroom : min mw.maxPatternLen (text.length / mw.minRepeats) < mw.minPatternLen
  · rw [if_pos hroom]
    refine iff_of_true rfl fun p hp => ?_
    have := (repeating_iff.mp hp).1
    omega
  · rw [if_neg hroom, Option.map_eq_none_iff, List.find?_eq_none]
    simp only [List.mem_range'_1, decide_eq_true_eq]
    constructor
    · intro hall p hp
      obtain ⟨⟨h1, h2⟩, hrep⟩ := repeating_iff.mp hp
      exact hall p ⟨h1, by omega⟩ hrep
    · rintro hno p ⟨h1, h2⟩ hrep
      exact hno p (repeating_iff.mpr ⟨⟨h1, by omega⟩, hrep⟩)

/-- A text that has been periodic for long enough is found to repeat. -/
theorem repeating_of_periodic {text : Chars} {p s : ℕ} (h1 : mw.minPatternLen ≤ p) (h2 : p ≤ mw.maxPatternLen)
    (hper : Periodic p s text) (hlen : s + mw.minRepeats * p ≤ text.length) : mw.scanTail text ≠ none := by
  have htwo := mw.two_le_repeats
  have hmul : 2 * p ≤ mw.minRepeats * p := Nat.mul_le_mul_right p htwo
  intro hnone
  exact scanTail_eq_none.mp hnone p ⟨h1, h2, by omega, endsIn_of_periodic hper hlen⟩

/-! ### One chunk -/

variable {metadata : Metadata} {callIndex : ℤ} {content : Option Chars} {fullText : Chars}

/-- A chunk that does not abort the stream: it is too early, or the characters are
counted, or the scan finds nothing. -/
theorem onChunk_goesOn (h : (mw.onChunk metadata callIndex content fullText).2 = false) :
    ∃ st, (mw.onChunk metadata callIndex content fullText).1.state callIndex = st ∧ st.detected = false ∧
      (fullText.length < mw.minTextLen ∨
        (st.charsSinceCheck : ℤ) < mw.checkInterval ∧
          st.charsSinceCheck = (metadata.state callIndex).charsSinceCheck + (content.getD []).length ∨
        mw.scanTail fullText = none) := by
  unfold onChunk at h ⊢
  simp only at h ⊢
  cases hd : (metadata.state callIndex).detected with
  | true =>
    rw [hd] at h
    cases h
  | false =>
    rw [hd] at h
    simp only [Bool.false_eq_true, if_false] at h ⊢
    by_cases hshort : fullText.length < mw.minTextLen
    · rw [if_pos hshort]
      exact ⟨_, rfl, hd, .inl hshort⟩
    · rw [if_neg hshort] at h ⊢
      split
      · next hcount => exact ⟨_, Function.update_self .., rfl, .inr (.inl ⟨hcount, rfl⟩)⟩
      · next hcount =>
        rw [if_neg hcount] at h
        cases hscan : mw.scanTail fullText with
        | none => exact ⟨_, Function.update_self .., rfl, .inr (.inr rfl)⟩
        | some m =>
          rw [hscan] at h
          cases h

theorem onChunk_aborts (hd : (metadata.state callIndex).detected = false)
    (h : (mw.onChunk metadata callIndex content fullText).2 = true) : mw.scanTail fullText ≠ none := by
  unfold onChunk at h
  simp only [hd, Bool.false_eq_true, if_false] at h
  by_cases hshort : fullText.length < mw.minTextLen
  · rw [if_pos hshort] at h
    cases h
  · rw [if_neg hshort] at h
    intro hnone
    rw [hnone] at h
    split at h
    · cases h
    · cases h

/-! ### A stream -/

/-- A stream that is not aborted is read to its end. -/
theorem stream_length_le {contents : List (Option Chars)} (h : (mw.stream callIndex metadata fullText contents).2 = false) :
    (mw.stream callIndex metadata fullText contents).1 = fullText ++ (contents.map (·.getD [])).flatten := by
  induction contents generalizing metadata fullText with
  | nil => simp [stream]
  | cons content contents ih =>
    unfold stream at h ⊢
    simp only at h ⊢
    by_cases hout : (mw.onChunk metadata callIndex content (fullText ++ content.getD [])).2 = true
    · rw [if_pos hout] at h
      cases h
    · rw [if_neg hout] at h ⊢
      rw [ih h]
      simp

/-- Where a stream is aborted the scan finds something. -/
theorem stream_sound {contents : List (Option Chars)} (hd : (metadata.state callIndex).detected = false)
    (h : (mw.stream callIndex metadata fullText contents).2 = true) :
    mw.scanTail (mw.stream callIndex metadata fullText contents).1 ≠ none := by
  induction contents generalizing metadata fullText with
  | nil => cases h
  | cons content contents ih =>
    unfold stream at h ⊢
    simp only at h ⊢
    by_cases hout : (mw.onChunk metadata callIndex content (fullText ++ content.getD [])).2 = true
    · rw [if_pos hout]
      exact onChunk_aborts hd hout
    · rw [if_neg hout] at h ⊢
      obtain ⟨st, hst, hdet, -⟩ := onChunk_goesOn (Bool.eq_false_iff.mpr hout)
      exact ih (hst ▸ hdet) h

/-- The characters of the contents. -/
def whole (contents : List (Option Chars)) : Chars := (contents.map (·.getD [])).flatten

/-- Once every scan would find something, the next one is at most an interval and a
chunk away. -/
theorem stream_ripe {contents : List (Option Chars)} {c : ℕ} (hc : ∀ content ∈ contents, (content.getD []).length ≤ c)
    (hmin : mw.minTextLen ≤ fullText.length)
    (hripe : ∀ t, t <+: fullText ++ whole contents → fullText.length ≤ t.length → mw.scanTail t ≠ none) :
    ((mw.stream callIndex metadata fullText contents).1.length : ℤ) ≤ fullText.length +
      max 0 (mw.checkInterval - (metadata.state callIndex).charsSinceCheck) + c := by
  induction contents generalizing metadata fullText with
  | nil =>
    simp only [stream]
    omega
  | cons content contents ih =>
    have hlen : (content.getD []).length ≤ c := hc content (by simp)
    have happ : (fullText ++ content.getD []).length = fullText.length + (content.getD []).length := List.length_append
    have hwhole : fullText ++ whole (content :: contents) = (fullText ++ content.getD []) ++ whole contents := by
      simp [whole]
    unfold stream
    simp only
    by_cases hout : (mw.onChunk metadata callIndex content (fullText ++ content.getD [])).2 = true
    · rw [if_pos hout]
      simp only
      omega
    · rw [if_neg hout]
      obtain ⟨st, hst, -, hshort | ⟨hcount, hsum⟩ | hnone⟩ := onChunk_goesOn (Bool.eq_false_iff.mpr hout)
      · omega
      · generalize (mw.onChunk metadata callIndex content (fullText ++ content.getD [])).1 = next at hst ⊢
        have hnext : ((mw.stream callIndex next (fullText ++ content.getD []) contents).1.length : ℤ) ≤
            (fullText ++ content.getD []).length + max 0 (mw.checkInterval - (next.state callIndex).charsSinceCheck) + c :=
          ih (fun x hx => hc x (by simp [hx])) (by omega) fun t ht hle => hripe t (by rwa [hwhole]) (by omega)
        rw [hst] at hnext
        omega
      · refine absurd hnone (hripe _ ?_ (by omega))
        rw [hwhole]
        exact List.prefix_append ..

/-- What the stream has come to when it is over, if its text is periodic from `s` on. -/
theorem stream_bounded {contents : List (Option Chars)} {c s p : ℕ} (h1 : mw.minPatternLen ≤ p) (h2 : p ≤ mw.maxPatternLen)
    (hc : ∀ content ∈ contents, (content.getD []).length ≤ c) (hper : Periodic p s (fullText ++ whole contents))
    (hstart : fullText.length < max mw.minTextLen (s + mw.minRepeats * p)) :
    ((mw.stream callIndex metadata fullText contents).1.length : ℤ) ≤
      max (mw.minTextLen : ℤ) (s + mw.minRepeats * p) + max 0 mw.checkInterval + 2 * c := by
  have hcast : (mw.minRepeats : ℤ) * p = ((mw.minRepeats * p : ℕ) : ℤ) := by push_cast; rfl
  rw [hcast]
  induction contents generalizing metadata fullText with
  | nil =>
    simp only [stream]
    omega
  | cons content contents ih =>
    have hlen : (content.getD []).length ≤ c := hc content (by simp)
    have happ : (fullText ++ content.getD []).length = fullText.length + (content.getD []).length := List.length_append
    have hwhole : fullText ++ whole (content :: contents) = (fullText ++ content.getD []) ++ whole contents := by
      simp [whole]
    rw [hwhole] at hper
    have hc' : ∀ x ∈ contents, (x.getD []).length ≤ c := fun x hx => hc x (by simp [hx])
    unfold stream
    simp only
    by_cases hout : (mw.onChunk metadata callIndex content (fullText ++ content.getD [])).2 = true
    · rw [if_pos hout]
      simp only
      omega
    · rw [if_neg hout]
      by_cases hripe : max mw.minTextLen (s + mw.minRepeats * p) ≤ (fullText ++ content.getD []).length
      · have hfound : ∀ t, t <+: (fullText ++ content.getD []) ++ whole contents →
            (fullText ++ content.getD []).length ≤ t.length → mw.scanTail t ≠ none := by
          intro t ht hle
          have hpt : Periodic p s t := by
            rw [List.prefix_iff_eq_take.mp ht]
            exact hper.take _
          exact repeating_of_periodic h1 h2 hpt (by omega)
        generalize (mw.onChunk metadata callIndex content (fullText ++ content.getD [])).1 = next
        have hbound : ((mw.stream callIndex next (fullText ++ content.getD []) contents).1.length : ℤ) ≤
            (fullText ++ content.getD []).length + max 0 (mw.checkInterval - (next.state callIndex).charsSinceCheck) + c :=
          stream_ripe hc' (by omega) hfound
        omega
      · exact ih hc' hper (by omega)

/-! ### Soundness and completeness -/

/-- The constructor admits these settings, and leaves them as they are. -/
theorem init_eq_ok (mw : StreamRepetitionDetectorMiddleware) :
    init mw.minPatternLen mw.maxPatternLen mw.minRepeats mw.minTextLen mw.checkInterval = .ok mw := by
  have h1 := mw.pattern_pos
  have h2 := mw.pattern_le
  have h3 := mw.two_le_repeats
  have h4 : ¬ (mw.minTextLen : ℤ) < mw.minPatternLen * mw.minRepeats := by
    have := mw.fits
    exact_mod_cast not_lt.mpr this
  unfold init
  rw [dif_neg (by omega), dif_neg (by omega), dif_neg (by omega)]
  simp only [if_neg h4, Int.toNat_natCast]

/-- The scan finds exactly the least repeating pattern and its copies. -/
def ScanExact (mw : StreamRepetitionDetectorMiddleware) : Prop :=
  ∀ text : Chars, (∀ p n, mw.scanTail text = some (p, n) ↔
      Repeating mw text p ∧ (∀ q < p, ¬ Repeating mw text q) ∧ ∀ k, k ≤ n ↔ EndsIn k (text.rtake p) text) ∧
    (mw.scanTail text = none ↔ ∀ p, ¬ Repeating mw text p)

/-- A stream of chunks of at most `c` characters whose text is periodic from `s` on is
aborted before its length exceeds that from which every scan succeeds by `slack` and
two chunks. -/
def AbortsWithin (mw : StreamRepetitionDetectorMiddleware) (slack : ℤ) : Prop :=
  ∀ (metadata : Metadata) (callIndex : ℤ) (contents : List (Option Chars)) (c s p : ℕ),
    metadata.state callIndex = {} → mw.minPatternLen ≤ p → p ≤ mw.maxPatternLen →
    (∀ content ∈ contents, (content.getD []).length ≤ c) → Periodic p s (whole contents) →
      ((mw.stream callIndex metadata [] contents).1.length : ℤ) ≤
          max (mw.minTextLen : ℤ) (s + mw.minRepeats * p) + slack + 2 * c ∧
        (max (mw.minTextLen : ℤ) (s + mw.minRepeats * p) + slack + 2 * c < (whole contents).length →
          (mw.stream callIndex metadata [] contents).2 = true)

/-- A stream is aborted at a text in which the scan finds something. -/
def AbortsFound (mw : StreamRepetitionDetectorMiddleware) : Prop :=
  ∀ (metadata : Metadata) (callIndex : ℤ) (contents : List (Option Chars)), metadata.state callIndex = {} →
    (mw.stream callIndex metadata [] contents).2 = true →
      mw.scanTail (mw.stream callIndex metadata [] contents).1 ≠ none

theorem repetition_detected (mw : StreamRepetitionDetectorMiddleware) :
    ScanExact mw ∧ AbortsWithin mw (max 0 mw.checkInterval) ∧ AbortsFound mw := by
  refine ⟨fun text => ⟨fun p n => scanTail_eq_some, scanTail_eq_none⟩, ?_, ?_⟩
  · intro metadata callIndex contents c s p _ h1 h2 hc hper
    have hpos : 1 * 2 ≤ mw.minTextLen := (Nat.mul_le_mul mw.pattern_pos mw.two_le_repeats).trans mw.fits
    have hbound : ((mw.stream callIndex metadata [] contents).1.length : ℤ) ≤
        max (mw.minTextLen : ℤ) (s + mw.minRepeats * p) + max 0 mw.checkInterval + 2 * c :=
      stream_bounded h1 h2 hc hper (by simp only [List.length_nil]; omega)
    refine ⟨hbound, fun hlong => ?_⟩
    by_contra hgoes
    have hall := stream_length_le (Bool.eq_false_iff.mpr hgoes)
    have hwhole : (mw.stream callIndex metadata [] contents).1 = whole contents := hall
    rw [hwhole] at hbound
    omega
  · intro metadata callIndex contents hfresh h
    exact stream_sound (by rw [hfresh]) h

/-- Settings under which every chunk is scanned. -/
def everyChunk : StreamRepetitionDetectorMiddleware where
  minPatternLen := 1
  maxPatternLen := 1
  minRepeats := 2
  minTextLen := 2
  checkInterval := -100
  pattern_pos := by decide
  pattern_le := by decide
  two_le_repeats := by decide
  fits := by decide

/-- A negative interval does not bring a scan forward. -/
theorem not_abortsWithin_negative : ∃ mw : StreamRepetitionDetectorMiddleware, ¬ AbortsWithin mw mw.checkInterval := by
  refine ⟨everyChunk, fun h => ?_⟩
  have hper : Periodic 1 2 (whole [some ['a'], some ['b'], some ['c'], some ['c']]) := by
    intro i h1 h2
    have h3 : i + 1 < 4 := h2
    obtain rfl : i = 2 := by omega
    rfl
  have hbound := (h {} 0 [some ['a'], some ['b'], some ['c'], some ['c']] 1 2 1 rfl (by decide) (by decide)
    (by decide) hper).1
  have hlen : (everyChunk.stream 0 {} [] [some ['a'], some ['b'], some ['c'], some ['c']]).1.length = 4 := by
    decide +kernel
  rw [hlen] at hbound
  revert hbound
  decide

end AgentCore.Middleware.StreamRepetition
