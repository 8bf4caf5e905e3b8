/-
# Turns that repeat their text

`TextRepetitionGuard` of `components/observers/text_repetition_guard.py` compares the text of a
turn, as the set of its word pairs, with the texts of the last turns, and counts the turns in
a row that are near to one of them. It hints once in a row, and stops the loop where it may.
Texts that are too short do not count at all. The row is a fact about the turns alone (`row`),
and so is what the guard answers (`repeated_texts_noticed`); a text that comes again word for word is
never overlooked (`length_le_row`).

The arithmetic of the similarity is a parameter, and so are the lower-case letters of Unicode
and the language the hint is put in.

Key definitions: `onTurnEnd`, `answers`, `row`.
Key theorem: `repeated_texts_noticed`.
-/
import AgentCore.Lib.Window
import AgentCore.Loop.Turn
import AgentCore.Text
import Mathlib.Data.Finset.Card
import Mathlib.Data.Finset.Lattice.Basic
import Mathlib.Algebra.Order.Ring.Rat
import Mathlib.Data.Rat.Cast.Order

namespace AgentCore.Observers.TextRepetitionGuard

open Loop (Intervention)

/-- Quotients of counts as floating-point numbers. -/
structure Ratios (F : Type) where
  zero : F
  one : F
  div : ℕ → ℕ → F
  div_self : ∀ {n}, 0 < n → div n n = one

structure Python (F : Type) where
  ratios : Ratios F
  lower : String → String
  /-- The template of the language of a text, with the threshold and the number of turns. -/
  localisedHint : String → F → ℕ → String

/-- The hint comes with the second turn of a row or later, and no later than a stop. -/
structure Guard (F : Type) where
  windowSize : ℕ := 4
  similarityThreshold : F
  minChars : ℤ := 60
  shingleSize : ℤ := 2
  injectAfter : ℕ := 4
  stopAfter : ℕ := 6
  enableStop : Bool := false
  /-- Stripped. -/
  hintMessage : String := ""
  two_le : 2 ≤ injectAfter
  inject_le_stop : injectAfter ≤ stopAfter

structure State where
  history : List (Finset String) := []
  consecutiveMatches : ℕ := 0
  hintInjected : Bool := false

/-! ### Texts -/

/-- A character of `_PUNCT_RE`. -/
def isPunct (c : Char) : Bool :=
  let n := c.toNat
  (33 ≤ n && n ≤ 47) || (58 ≤ n && n ≤ 64) || (91 ≤ n && n ≤ 96) || (123 ≤ n && n ≤ 126)

/-- `_PUNCT_RE.sub(" ", text)`, the run of punctuation being read having left its blank. -/
def withoutPunct : Bool → List Char → List Char
  | _, [] => []
  | inside, c :: cs =>
    if isPunct c then (if inside then withoutPunct true cs else ' ' :: withoutPunct true cs)
    else c :: withoutPunct false cs

/-- `str.split()`. -/
def tokens (cs : List Char) : List String := ((cs.splitOnP Text.isSpace).filter (· ≠ [])).map String.ofList

/-- `_shingles`. -/
def shingles (text : String) (n : ℤ) : Finset String :=
  let words := tokens (withoutPunct false text.toList)
  if n ≤ 1 ∨ words.length < n then words.toFinset
  else ((List.range (words.length - n.toNat + 1)).map fun i => Text.join " " ((words.drop i).take n.toNat)).toFinset

section Source

variable {F : Type} [LE F] [DecidableLE F] (py : Python F) (g : Guard F)

/-- `_normalise`. -/
def normalise (text : String) : String :=
  String.ofList (Text.collapseSpaces false (py.lower (Text.strip text)).toList)

/-- `_jaccard`. -/
def jaccard (a b : Finset String) : F :=
  if a = ∅ ∧ b = ∅ then py.ratios.one
  else if a = ∅ ∨ b = ∅ then py.ratios.zero
  else
    let inter := (a ∩ b).card
    let union := a.card + b.card - inter
    if union = 0 then py.ratios.zero else py.ratios.div inter union

def similar (current prior : Finset String) : Bool := decide (g.similarityThreshold ≤ jaccard py current prior)

def stop : Intervention := { stopReason := "cross_turn_repetition" }

def hint (aiText : String) (streak : ℕ) : Intervention where
  injectMessages :=
    [if g.hintMessage = "" then py.localisedHint aiText g.similarityThreshold streak else g.hintMessage]

def onTurnEnd (s : State) (aiText : String) : State × Option Intervention :=
  let text := normalise py aiText
  if (text.length : ℤ) < g.minChars then (s, none)
  else
    let current := shingles text g.shingleSize
    let matched := s.history.any fun prior => similar py g current prior
    let history := Window.push g.windowSize s.history current
    if matched = false then (⟨history, 1, false⟩, none)
    else
      let consecutiveMatches := s.consecutiveMatches + 1
      if g.enableStop = true ∧ g.stopAfter ≤ consecutiveMatches then
        (⟨history, consecutiveMatches, s.hintInjected⟩, some stop)
      else if g.injectAfter ≤ consecutiveMatches ∧ s.hintInjected = false then
        (⟨history, consecutiveMatches, true⟩, some (hint py g aiText consecutiveMatches))
      else (⟨history, consecutiveMatches, s.hintInjected⟩, none)

/-- What the guard answers at the ends of the turns of a loop. -/
def answers : State → List String → List (Option Intervention)
  | _, [] => []
  | s, aiText :: turns => (onTurnEnd py g s aiText).2 :: answers (onTurnEnd py g s aiText).1 turns

/-! ### What it should answer -/

/-- Long enough to count. -/
def counts (aiText : String) : Bool := decide (g.minChars ≤ ((normalise py aiText).length : ℤ))

/-- The texts that count, the last one first. -/
def kept (turns : List String) : List (Finset String) :=
  ((turns.filter (counts py g)).map fun aiText => shingles (normalise py aiText) g.shingleSize).reverse

/-- The texts in a row, the last one first, each of them but the first of the row being near to
one of those in the window before it. -/
def row : List (Finset String) → ℕ
  | [] => 0
  | current :: earlier => if (earlier.take g.windowSize).any (similar py g current) then row earlier + 1 else 1

/-- The answer at the end of the turn with this text, after others. -/
def due (past : List String) (aiText : String) : Option Intervention :=
  if counts py g aiText = false then none
  else
    let k := row py g (kept py g (past ++ [aiText]))
    if g.enableStop = true ∧ g.stopAfter ≤ k then some stop
    else if k = g.injectAfter then some (hint py g aiText k)
    else none

end Source

variable {F : Type} [LE F] [DecidableLE F] {py : Python F} {g : Guard F} {s : State} {past : List String}

/-! ### Rows -/

theorem row_pos (current : Finset String) (earlier : List (Finset String)) : 1 ≤ row py g (current :: earlier) := by
  unfold row
  split
  · exact Nat.le_add_left ..
  · exact Nat.le_refl 1

omit [LE F] [DecidableLE F] in
theorem kept_concat_counts (past : List String) {aiText : String} (h : counts py g aiText = true) :
    kept py g (past ++ [aiText]) = shingles (normalise py aiText) g.shingleSize :: kept py g past := by
  unfold kept
  rw [List.filter_append, List.filter_cons_of_pos h, List.filter_nil, List.map_append, List.reverse_append]
  rfl

omit [LE F] [DecidableLE F] in
theorem kept_concat_short (past : List String) {aiText : String} (h : counts py g aiText = false) :
    kept py g (past ++ [aiText]) = kept py g past := by
  unfold kept
  rw [List.filter_append, List.filter_cons_of_neg (by rw [h]; exact Bool.false_ne_true), List.filter_nil, List.append_nil]

theorem any_rtake_reverse {β : Type} (p : β → Bool) (l : List β) (n : ℕ) : (l.reverse.rtake n).any p = (l.take n).any p := by
  rw [List.rtake_eq_reverse_take_reverse, List.reverse_reverse, List.any_reverse]

/-- The state after these turns. -/
structure Tells (py : Python F) (g : Guard F) (s : State) (past : List String) : Prop where
  history : s.history = (kept py g past).reverse.rtake g.windowSize
  matches_eq : s.consecutiveMatches = row py g (kept py g past)
  injected : s.hintInjected = true ↔
    g.injectAfter ≤ row py g (kept py g past) ∧ ¬(g.enableStop = true ∧ g.stopAfter ≤ g.injectAfter)

theorem tells_start : Tells py g {} [] where
  history := by
    rw [show kept py g [] = [] from rfl, List.reverse_nil, List.rtake_nil]
  matches_eq := rfl
  injected := by
    have htwo := g.two_le
    refine iff_of_false Bool.false_ne_true fun h => ?_
    have hzero : row py g (kept py g []) = 0 := rfl
    omega

/-- The text that counts is near to one in the window exactly if it goes on with a row. -/
theorem any_history (h : Tells py g s past) (current : Finset String) :
    (s.history.any fun prior => similar py g current prior) = ((kept py g past).take g.windowSize).any (similar py g current) := by
  rw [h.history]
  exact any_rtake_reverse _ _ _

theorem push_history (h : Tells py g s past) (current : Finset String) :
    Window.push g.windowSize s.history current = (current :: kept py g past).reverse.rtake g.windowSize := by
  rw [h.history, Window.push_rtake, List.reverse_cons]

theorem due_short (past : List String) {aiText : String} (h : counts py g aiText = false) : due py g past aiText = none :=
  if_pos h

theorem due_counts (past : List String) {aiText : String} (h : counts py g aiText = true) {k : ℕ}
    (hk : row py g (kept py g (past ++ [aiText])) = k) : due py g past aiText =
      if g.enableStop = true ∧ g.stopAfter ≤ k then some stop
      else if k = g.injectAfter then some (hint py g aiText k) else none := by
  subst hk
  exact if_neg (by rw [h]; nofun)

/-- A text that counts, when it is the first of a row. -/
theorem spec_first (h : Tells py g s past) {aiText : String} (hcounts : counts py g aiText = true)
    (hfirst : (s.history.any fun prior => similar py g (shingles (normalise py aiText) g.shingleSize) prior) = false) :
    Tells py g ⟨Window.push g.windowSize s.history (shingles (normalise py aiText) g.shingleSize), 1, false⟩
      (past ++ [aiText]) ∧ due py g past aiText = none := by
  have htwo := g.two_le
  have hle := g.inject_le_stop
  have hkept := kept_concat_counts (g := g) past hcounts
  have hrow : row py g (kept py g (past ++ [aiText])) = 1 := by
    rw [any_history h] at hfirst
    rw [hkept, row, hfirst]
    rfl
  refine ⟨⟨?_, hrow.symm, ?_⟩, ?_⟩
  · rw [hkept]
    exact push_history h _
  · rw [hrow]
    exact iff_of_false Bool.false_ne_true fun hno => by omega
  · rw [due_counts past hcounts hrow, if_neg (fun hstop => by omega), if_neg (by omega)]

/-- A text that counts, when it goes on with a row. -/
theorem spec_matched (h : Tells py g s past) {aiText : String} (hcounts : counts py g aiText = true)
    (hmatched : (s.history.any fun prior => similar py g (shingles (normalise py aiText) g.shingleSize) prior) = true) :
    row py g (kept py g (past ++ [aiText])) = s.consecutiveMatches + 1 ∧ 1 ≤ s.consecutiveMatches := by
  rw [any_history h] at hmatched
  rw [kept_concat_counts past hcounts, row, if_pos hmatched, h.matches_eq]
  refine ⟨rfl, ?_⟩
  cases hbefore : kept py g past with
  | nil =>
    rw [hbefore, List.take_nil] at hmatched
    cases hmatched
  | cons current earlier => exact row_pos current earlier

/-- A turn leads to a state that tells its row, and to the answer that is due. -/
theorem onTurnEnd_spec (h : Tells py g s past) (aiText : String) :
    Tells py g (onTurnEnd py g s aiText).1 (past ++ [aiText]) ∧ (onTurnEnd py g s aiText).2 = due py g past aiText := by
  unfold onTurnEnd
  dsimp only
  cases hcounts : counts py g aiText with
  | false =>
    have hshort : ((normalise py aiText).length : ℤ) < g.minChars := Int.not_le.mp (of_decide_eq_false hcounts)
    rw [if_pos hshort, due_short past hcounts]
    refine ⟨⟨?_, ?_, ?_⟩, rfl⟩
    all_goals rw [kept_concat_short past hcounts]
    · exact h.history
    · exact h.matches_eq
    · exact h.injected
  | true =>
    have hlong : ¬ ((normalise py aiText).length : ℤ) < g.minChars := Int.not_lt.mpr (of_decide_eq_true hcounts)
    rw [if_neg hlong]
    cases hmatched : s.history.any fun prior => similar py g (shingles (normalise py aiText) g.shingleSize) prior with
    | false =>
      obtain ⟨htells, hdue⟩ := spec_first h hcounts hmatched
      rw [if_pos rfl, hdue]
      exact ⟨htells, rfl⟩
    | true =>
      obtain ⟨hrow, hpos⟩ := spec_matched h hcounts hmatched
      have hhistory : Window.push g.windowSize s.history (shingles (normalise py aiText) g.shingleSize) =
          (kept py g (past ++ [aiText])).reverse.rtake g.windowSize := by
        rw [kept_concat_counts past hcounts]
        exact push_history h _
      have hinjected := h.injected
      have hle := g.inject_le_stop
      rw [← h.matches_eq] at hinjected
      rw [if_neg nofun, due_counts past hcounts hrow]
      by_cases hstop : g.enableStop = true ∧ g.stopAfter ≤ s.consecutiveMatches + 1
      · rw [if_pos hstop, if_pos hstop]
        refine ⟨⟨hhistory, hrow.symm, ?_⟩, rfl⟩
        rw [hinjected, hrow]
        -- the hint of a row that is stopped came before, unless they are due together
        refine and_congr_left fun hno => ?_
        have hlt : g.injectAfter < g.stopAfter := Nat.lt_of_not_le fun hsame => hno ⟨hstop.1, hsame⟩
        omega
      rw [if_neg hstop, if_neg hstop]
      have hapart : ¬(g.enableStop = true ∧ g.stopAfter ≤ g.injectAfter) ∨ s.consecutiveMatches + 1 < g.injectAfter := by
        by_cases hlt : s.consecutiveMatches + 1 < g.injectAfter
        · exact .inr hlt
        · exact .inl fun hno => hstop ⟨hno.1, by omega⟩
      by_cases hhint : g.injectAfter ≤ s.consecutiveMatches + 1 ∧ s.hintInjected = false
      · have heq : s.consecutiveMatches + 1 = g.injectAfter := by
          have hnot : ¬ g.injectAfter ≤ s.consecutiveMatches := fun hno => by
            rw [hinjected.mpr ⟨hno, hapart.resolve_right (by omega)⟩] at hhint
            cases hhint.2
          omega
        rw [if_pos hhint, if_pos heq]
        refine ⟨⟨hhistory, hrow.symm, ?_⟩, rfl⟩
        rw [hrow]
        exact iff_of_true rfl ⟨hhint.1, hapart.resolve_right (by omega)⟩
      · have hne : s.consecutiveMatches + 1 ≠ g.injectAfter := fun heq => by
          refine hhint ⟨heq.ge, ?_⟩
          rw [← Bool.not_eq_true, hinjected]
          exact fun hno => by omega
        rw [if_neg hhint, if_neg hne]
        refine ⟨⟨hhistory, hrow.symm, ?_⟩, rfl⟩
        rw [hinjected, hrow]
        exact and_congr_left fun _ => by omega

/-- By induction on the turns to come. -/
theorem answers_due (h : Tells py g s past) (turns : List String) : answers py g s turns =
    turns.zipIdx.map fun turn => due py g (past ++ turns.take turn.2) turn.1 := by
  induction turns generalizing s past with
  | nil => rfl
  | cons aiText turns ih =>
    obtain ⟨htells, hdue⟩ := onTurnEnd_spec h aiText
    rw [answers, hdue, ih htells, List.zipIdx_cons, List.map_cons, List.take_zero, List.append_nil, Nat.zero_add,
      List.zipIdx_succ, List.map_map]
    congr 1
    refine List.map_congr_left fun turn _ => ?_
    rw [Function.comp_apply, List.take_succ_cons, List.append_assoc, List.singleton_append]

/-! ### What is never overlooked -/

omit [LE F] [DecidableLE F] in
theorem jaccard_self (a : Finset String) : jaccard py a a = py.ratios.one := by
  unfold jaccard
  by_cases hempty : a = ∅
  · rw [if_pos ⟨hempty, hempty⟩]
  · have hpos : 0 < a.card := Finset.card_pos.mpr (Finset.nonempty_iff_ne_empty.mpr hempty)
    rw [if_neg (fun h => hempty h.1), if_neg (fun h => hempty (h.elim id id))]
    dsimp only
    rw [Finset.inter_self, Nat.add_sub_cancel, if_neg hpos.ne', py.ratios.div_self hpos]

/-- Of `n` equal texts, the last stands in a row of at least `n`. -/
theorem length_le_row (hwindow : 0 < g.windowSize) (hthreshold : g.similarityThreshold ≤ py.ratios.one)
    (current : Finset String) (earlier : List (Finset String)) (n : ℕ) :
    n + 1 ≤ row py g (List.replicate n current ++ current :: earlier) := by
  induction n with
  | zero => exact row_pos current earlier
  | succ n ih =>
    have hnext : ∃ rest, List.replicate n current ++ current :: earlier = current :: rest := by
      cases n with
      | zero => exact ⟨earlier, rfl⟩
      | succ n => exact ⟨_, rfl⟩
    obtain ⟨rest, hrest⟩ := hnext
    have hmatched : ((current :: rest).take g.windowSize).any (similar py g current) = true := by
      rw [← Nat.succ_pred_eq_of_pos hwindow, List.take_succ_cons, List.any_cons, similar, jaccard_self,
        decide_eq_true hthreshold]
      rfl
    rw [List.replicate_succ, List.cons_append, hrest, row, if_pos hmatched, ← hrest]
    exact Nat.succ_le_succ ih

/-- In a row, each text but the first is near to one in the window before it. -/
theorem similar_of_row {texts : List (Finset String)} {i : ℕ} (h : i + 1 < row py g texts) :
    ∃ current, texts[i]? = some current ∧ ∃ prior ∈ (texts.drop (i + 1)).take g.windowSize, similar py g current prior = true := by
  induction texts generalizing i with
  | nil => cases h
  | cons current earlier ih =>
    rw [row] at h
    split at h
    · rename_i hmatched
      cases i with
      | zero =>
        obtain ⟨prior, hprior, hsimilar⟩ := List.any_eq_true.mp hmatched
        exact ⟨current, rfl, prior, hprior, hsimilar⟩
      | succ i => exact ih (Nat.lt_of_succ_lt_succ h)
    · omega

/-- A row has been as long as any number before. -/
theorem row_reached {m : ℕ} (hpos : 1 ≤ m) (turns : List String) (h : m ≤ row py g (kept py g turns)) :
    ∃ past aiText after, turns = past ++ aiText :: after ∧ counts py g aiText = true ∧
      row py g (kept py g (past ++ [aiText])) = m ∧ row py g (kept py g turns) = m + after.countP (counts py g) := by
  induction turns using List.reverseRecOn with
  | nil => exact absurd h (Nat.not_le_of_lt hpos)
  | append_singleton turns aiText ih =>
    have hlonger : m ≤ row py g (kept py g turns) →
        row py g (kept py g (turns ++ [aiText])) = row py g (kept py g turns) + [aiText].countP (counts py g) →
        ∃ past aiText' after, turns ++ [aiText] = past ++ aiText' :: after ∧ counts py g aiText' = true ∧
          row py g (kept py g (past ++ [aiText'])) = m ∧
          row py g (kept py g (turns ++ [aiText])) = m + after.countP (counts py g) := by
      intro hm hrow
      obtain ⟨past, aiText', after, rfl, hcounts, heq, hlast⟩ := ih hm
      refine ⟨past, aiText', after ++ [aiText], by rw [List.append_assoc, List.cons_append], hcounts, heq, ?_⟩
      rw [hrow, hlast, List.countP_append, Nat.add_assoc]
    cases hcounts : counts py g aiText with
    | false =>
      rw [kept_concat_short turns hcounts] at h hlonger ⊢
      refine hlonger h ?_
      rw [List.countP_singleton, hcounts]
      rfl
    | true =>
      by_cases heq : row py g (kept py g (turns ++ [aiText])) = m
      · exact ⟨turns, aiText, [], rfl, hcounts, heq, by rw [heq]; rfl⟩
      have hrow : row py g (kept py g (turns ++ [aiText])) = row py g (kept py g turns) + 1 := by
        rw [kept_concat_counts turns hcounts, row] at h heq ⊢
        split at h
        · rename_i hmatched
          rw [if_pos hmatched]
        · rename_i hfirst
          rw [if_neg hfirst] at heq
          omega
      refine hlonger (by omega) ?_
      rw [hrow, List.countP_singleton, hcounts]
      rfl

omit [LE F] [DecidableLE F] in
theorem kept_copies (past : List String) {aiText : String} (h : counts py g aiText = true) (n : ℕ) :
    kept py g (past ++ List.replicate n aiText ++ [aiText]) =
      List.replicate n (shingles (normalise py aiText) g.shingleSize) ++
        shingles (normalise py aiText) g.shingleSize :: kept py g past := by
  induction n with
  | zero => rw [List.replicate_zero, List.append_nil, kept_concat_counts past h, List.replicate_zero, List.nil_append]
  | succ n ih =>
    rw [List.replicate_succ', ← List.append_assoc, kept_concat_counts _ h, ih, List.replicate_succ, List.cons_append]

theorem due_row {aiText : String} (h : due py g past aiText ≠ none) :
    g.injectAfter ≤ row py g (kept py g (past ++ [aiText])) := by
  have hle := g.inject_le_stop
  cases hcounts : counts py g aiText with
  | false => exact absurd (due_short past hcounts) h
  | true =>
    rw [due_counts past hcounts rfl] at h
    split at h
    · omega
    split at h
    · omega
    · exact absurd rfl h

/-- The guard complains of a row. -/
theorem due_similar {aiText : String} (h : due py g past aiText ≠ none) {i : ℕ} (hi : i + 1 < g.injectAfter) :
    ∃ current, (kept py g (past ++ [aiText]))[i]? = some current ∧
      ∃ prior ∈ ((kept py g (past ++ [aiText])).drop (i + 1)).take g.windowSize, similar py g current prior = true :=
  similar_of_row (Nat.lt_of_lt_of_le hi (due_row h))

/-- **Repeated texts are noticed**: the guard answers by the row alone; it complains only of
texts each of which is near to one of the last ones; and a text that comes for the `n + 1`st
time in a row has been hinted at in this row, or is stopped at, if `n + 1` is enough. -/
theorem repeated_texts_noticed (py : Python F) (g : Guard F) (hwindow : 0 < g.windowSize)
    (hthreshold : g.similarityThreshold ≤ py.ratios.one) :
    (∀ turns, answers py g {} turns = turns.zipIdx.map fun turn => due py g (turns.take turn.2) turn.1) ∧
    (∀ past aiText, due py g past aiText ≠ none → ∀ i, i + 1 < g.injectAfter →
      ∃ current, (kept py g (past ++ [aiText]))[i]? = some current ∧
        ∃ prior ∈ ((kept py g (past ++ [aiText])).drop (i + 1)).take g.windowSize, similar py g current prior = true) ∧
    ∀ past aiText n, counts py g aiText = true → g.injectAfter ≤ n + 1 →
      (g.enableStop = true → g.stopAfter ≤ n + 1 → due py g (past ++ List.replicate n aiText) aiText = some stop) ∧
      ((g.enableStop = true → g.injectAfter < g.stopAfter) →
        ∃ before again after, past ++ List.replicate n aiText ++ [aiText] = before ++ again :: after ∧
          due py g before again = some (hint py g again g.injectAfter) ∧
          row py g (kept py g (past ++ List.replicate n aiText ++ [aiText])) = g.injectAfter + after.countP (counts py g)) := by
  refine ⟨answers_due tells_start, fun _ _ h _ => due_similar h, fun past aiText n hcounts hn => ?_⟩
  have hrow := length_le_row hwindow hthreshold (shingles (normalise py aiText) g.shingleSize) (kept py g past) n
  rw [← kept_copies past hcounts n] at hrow
  constructor
  · intro hstops hstop
    rw [due_counts _ hcounts rfl, if_pos ⟨hstops, Nat.le_trans hstop hrow⟩]
  · intro hapart
    obtain ⟨before, again, after, heq, hagain, hreached, hlonger⟩ :=
      row_reached (Nat.le_trans (Nat.le_succ 1) g.two_le) _ (Nat.le_trans hn hrow)
    refine ⟨before, again, after, heq, ?_, hlonger⟩
    rw [due_counts before hagain hreached, if_neg (fun hstop => Nat.not_le_of_lt (hapart hstop.1) hstop.2), if_pos rfl]

/-! ### A coordinator that waits -/

/-- Exact quotients, letters of ASCII, and the hint in English for the threshold of 85 %. -/
def exact : Python ℚ where
  ratios := ⟨0, 1, fun m n => m / n, fun h => div_self (Nat.cast_ne_zero.mpr h.ne')⟩
  lower := String.toLower
  localisedHint _ _ n :=
    "Your last several responses are near-duplicates of earlier turns " ++
      "(≥85% word similarity for " ++ toString n ++ " turns in a row). You appear to " ++
      "be stuck waiting for inputs that will not arrive. Make progress " ++
      "with the information you already have: write a partial report, " ++
      "choose a different tool, or call your terminal/finalize action."

def byDefault : Guard ℚ where
  similarityThreshold := 17 / 20
  two_le := by decide
  inject_le_stop := by decide

def waiting : String := "Still waiting for the reports of the other agents; I will check again soon."

/-- The fourth time it is hinted at. -/
theorem repeated_texts_noticed_waiting :
    (answers exact byDefault {} (List.replicate 3 waiting ++ [waiting])).map Option.isSome = [false, false, false, true] ∧
    ∃ before again after, [] ++ List.replicate 3 waiting ++ [waiting] = before ++ again :: after ∧
      due exact byDefault before again = some (hint exact byDefault again 4) ∧
      row exact byDefault (kept exact byDefault ([] ++ List.replicate 3 waiting ++ [waiting])) =
        4 + after.countP (counts exact byDefault) := by
  have hthreshold : byDefault.similarityThreshold ≤ exact.ratios.one := by decide +kernel
  have hcounts : counts exact byDefault waiting = true := by decide +kernel
  refine ⟨by decide +kernel, ?_⟩
  exact ((repeated_texts_noticed exact byDefault (by decide) hthreshold).2.2 [] waiting 3 hcounts (by decide)).2 nofun

end AgentCore.Observers.TextRepetitionGuard
