/-
# Repairing truncated JSON

`repair_truncated_json`: a text that does not decode loses its dangling commas (a
comma with a closing bracket behind it, a comma at the end), gets the quote and the
brackets that it lacks, and is returned if it decodes then. The two loops over the
text keep track of strings; the pattern for the dangling commas does not, so a
complete literal with such a comma in it comes out shorter (`comma_in_literal_lost`).
Every other literal is kept (`repair_sound_iff`): nothing else is taken off but an
end without quotes, and the rest is put behind the text.

The decoder is a parameter.

Key definitions: `repairTruncatedJson`, `Dangling`.
Key theorem: `repair_sound_iff`.
-/
import AgentCore.Lib.JsonLiterals
import AgentCore.Loop.ToolCallParser

namespace AgentCore.Loop.ToolCallRepair

open JsonLiterals ToolCallParser

def isClosing (c : Char) : Bool := c = '\x7d' ∨ c = ']'

/-- `re.sub(r",\s*([}\]])", r"\1", text)`. The space behind a comma holds no comma,
so it can be dropped when the rest is done. -/
def dropDangling : Chars → Chars
  | [] => []
  | c :: t =>
    if c = ',' ∧ (t.dropWhile Text.isSpace).head?.any isClosing then (dropDangling t).dropWhile Text.isSpace
    else c :: dropDangling t

/-- `re.sub(r",\s*$", "", text)`. -/
def dropTrailing : Chars → Chars
  | [] => []
  | c :: t => if c = ',' ∧ t.all Text.isSpace then [] else c :: dropTrailing t

/-- The first loop: whether the text ends in a string; a quote behind a backslash
does not count. -/
def endsInString : Option Char → Bool → Chars → Bool
  | _, inString, [] => inString
  | prev, inString, c :: t => endsInString (some c) (if c = '"' ∧ prev ≠ some '\\' then !inString else inString) t

/-- The second loop: the brackets that are still to be closed, the last one first. -/
def openBrackets : Option Char → Bool → Chars → Chars → Chars
  | _, _, stack, [] => stack
  | prev, inString, stack, c :: t =>
    if c = '"' ∧ prev ≠ some '\\' then openBrackets (some c) (!inString) stack t
    else if inString = false ∧ c = '\x7b' then openBrackets (some c) inString ('\x7d' :: stack) t
    else if inString = false ∧ c = '[' then openBrackets (some c) inString (']' :: stack) t
    else if inString = false ∧ isClosing c ∧ stack.head? = some c then openBrackets (some c) inString stack.tail t
    else openBrackets (some c) inString stack t

variable {F : Type} (loads : Chars → Decoded F)

/-- A text that decodes is returned, and something else is tried where one does not. -/
def ifDecodes (text : Chars) (orElse : Except PyError (Option Chars)) : Except PyError (Option Chars) :=
  match loads text with
  | .value _ => .ok (some text)
  | .malformed => orElse
  | .tooDeep => .error .recursionError

/-- The text with what it lacks: the quote of an open string, the brackets. -/
def closeOpen (text : Chars) : Chars :=
  let quoted := dropTrailing (if endsInString none false text then text ++ ['"'] else text)
  quoted ++ openBrackets none false [] quoted

/-- `repair_truncated_json`. -/
def repairTruncatedJson (raw : Chars) : Except PyError (Option Chars) :=
  let raw := strip raw
  if raw = [] then .ok none
  else
    ifDecodes loads raw <|
      let text := dropTrailing (dropDangling raw)
      ifDecodes loads text (ifDecodes loads (closeOpen text) (.ok none))

/-! ### What is taken off at the end -/

variable {loads} {raw out t x y : Chars}

theorem dropTrailing_split : ∀ t : Chars, ∃ y, '"' ∉ y ∧ t = dropTrailing t ++ y
  | [] => ⟨[], List.not_mem_nil, rfl⟩
  | c :: t => by
    rw [dropTrailing]
    by_cases hcut : c = ',' ∧ t.all Text.isSpace
    · rw [if_pos hcut]
      refine ⟨c :: t, fun hquote => ?_, rfl⟩
      rcases List.mem_cons.mp hquote with hc | hmem
      · exact absurd (hc.trans hcut.1) (by decide)
      · exact absurd (List.all_eq_true.mp hcut.2 _ hmem) (by decide)
    · rw [if_neg hcut]
      obtain ⟨y, hy, ht⟩ := dropTrailing_split t
      exact ⟨y, hy, congrArg (c :: ·) ht⟩

@[simp] theorem literals_dropTrailing (t : Chars) : literals (dropTrailing t) = literals t := by
  obtain ⟨y, hy, ht⟩ := dropTrailing_split t
  calc literals (dropTrailing t) = literals (dropTrailing t ++ y) := (literals_append_of_notMem hy _).symm
    _ = literals t := by rw [← ht]

theorem quote_notMem_of_space {w : Chars} (hw : ∀ c ∈ w, Text.isSpace c = true) : '"' ∉ w :=
  fun hmem => absurd (hw _ hmem) (by decide)

@[simp] theorem literals_strip (raw : Chars) : literals (strip raw) = literals raw := by
  obtain ⟨w, w', hw, hw', hraw⟩ := Trim.trim_split (p := Text.isSpace) raw
  have hfront := quote_notMem_of_space hw
  have hback := quote_notMem_of_space hw'
  calc literals (strip raw) = literals (strip raw ++ w') := (literals_append_of_notMem hback _).symm
    _ = literals (w ++ (strip raw ++ w')) := (literals_of_notMem_append hfront _).symm
    _ = literals raw := congrArg literals hraw.symm

/-- Closing what is open leaves the literals. -/
theorem literals_closeOpen (text : Chars) : literals text <+: literals (closeOpen text) := by
  have hquoted : literals text <+: literals (if endsInString none false text then text ++ ['"'] else text) := by
    by_cases hopen : endsInString none false text = true
    · rw [if_pos hopen]
      exact literals_prefix_append text ['"']
    · rw [if_neg hopen]
  rw [← literals_dropTrailing (if endsInString none false text then text ++ ['"'] else text)] at hquoted
  exact hquoted.trans (literals_prefix_append _ _)

/-! ### Dangling commas in a text -/

/-- A comma with a closing bracket behind it, but for space. -/
def Dangling (b : Chars) : Prop :=
  ∃ front w back c, b = front ++ ',' :: (w ++ c :: back) ∧ (∀ x ∈ w, Text.isSpace x = true) ∧ isClosing c = true

/-- A closing bracket comes next, but for space. -/
def ClosingNext (t : Chars) : Prop := (t.dropWhile Text.isSpace).head?.any isClosing = true

theorem isSpace_of_isClosing {c : Char} (h : isClosing c = true) : Text.isSpace c = false := by
  simp only [isClosing, decide_eq_true_eq] at h
  rcases h with rfl | rfl
  · decide
  · decide

theorem closingNext_iff : ClosingNext t ↔
    ∃ w back c, t = w ++ c :: back ∧ (∀ x ∈ w, Text.isSpace x = true) ∧ isClosing c = true := by
  unfold ClosingNext
  constructor
  · intro h
    cases hd : t.dropWhile Text.isSpace with
    | nil =>
      rw [hd] at h
      cases h
    | cons c back =>
      rw [hd] at h
      refine ⟨t.takeWhile Text.isSpace, back, c, ?_, fun _ hx => List.mem_takeWhile_imp hx, h⟩
      rw [← hd, List.takeWhile_append_dropWhile]
  · rintro ⟨w, back, c, rfl, hw, hc⟩
    rw [List.dropWhile_append_of_pos hw, List.dropWhile_cons_of_neg (by simp [isSpace_of_isClosing hc])]
    exact hc

theorem dropDangling_cut (h : ClosingNext t) : dropDangling (',' :: t) = (dropDangling t).dropWhile Text.isSpace := by
  rw [dropDangling]
  exact if_pos ⟨rfl, h⟩

theorem dropDangling_keep {c : Char} (h : ¬(c = ',' ∧ ClosingNext t)) :
    dropDangling (c :: t) = c :: dropDangling t := by
  rw [dropDangling]
  exact if_neg h

theorem dropDangling_cons {c : Char} (hc : c ≠ ',') (t : Chars) : dropDangling (c :: t) = c :: dropDangling t :=
  dropDangling_keep fun h => hc h.1

/-- A quote ends the search for a closing bracket. -/
theorem closingNext_append_quote (b rest : Chars) : ClosingNext (b ++ '"' :: rest) ↔ ClosingNext b := by
  have hdrop : (b ++ '"' :: rest).dropWhile Text.isSpace = b.dropWhile Text.isSpace ++ '"' :: rest :=
    Trim.dropWhile_append (by decide) b rest
  unfold ClosingNext
  rw [hdrop]
  cases b.dropWhile Text.isSpace with
  | nil => simp [isClosing]
  | cons c back => simp

theorem dropDangling_append_quote : ∀ b rest : Chars,
    dropDangling (b ++ '"' :: rest) = dropDangling b ++ '"' :: dropDangling rest
  | [], rest => dropDangling_cons (by decide) rest
  | c :: b, rest => by
    have ih := dropDangling_append_quote b rest
    rw [List.cons_append]
    by_cases hcut : c = ',' ∧ ClosingNext b
    · obtain ⟨rfl, hnext⟩ := hcut
      rw [dropDangling_cut ((closingNext_append_quote b rest).mpr hnext), dropDangling_cut hnext, ih]
      exact Trim.dropWhile_append (by decide) (dropDangling b) (dropDangling rest)
    · have hkeep : ¬(c = ',' ∧ ClosingNext (b ++ '"' :: rest)) := by rwa [closingNext_append_quote]
      rw [dropDangling_keep hkeep, dropDangling_keep hcut, ih]
      rfl

theorem dangling_cons {c : Char} : Dangling (c :: t) ↔ (c = ',' ∧ ClosingNext t) ∨ Dangling t := by
  constructor
  · rintro ⟨front, w, back, d, hsplit, hw, hd⟩
    cases front with
    | nil =>
      obtain ⟨rfl, rfl⟩ := List.cons.inj hsplit
      exact .inl ⟨rfl, closingNext_iff.mpr ⟨w, back, d, rfl, hw, hd⟩⟩
    | cons x front =>
      obtain ⟨-, rfl⟩ := List.cons.inj hsplit
      exact .inr ⟨front, w, back, d, rfl, hw, hd⟩
  · rintro (⟨rfl, hnext⟩ | ⟨front, w, back, d, rfl, hw, hd⟩)
    · obtain ⟨w, back, d, rfl, hw, hd⟩ := closingNext_iff.mp hnext
      exact ⟨[], w, back, d, rfl, hw, hd⟩
    · exact ⟨c :: front, w, back, d, rfl, hw, hd⟩

theorem not_dangling_nil : ¬Dangling [] := by
  rintro ⟨front, w, back, c, hsplit, -, -⟩
  cases front with
  | nil => cases hsplit
  | cons x front => cases hsplit

/-- A text without a dangling comma stays as it is. -/
theorem dropDangling_of_not : ∀ {b : Chars}, ¬Dangling b → dropDangling b = b
  | [], _ => rfl
  | c :: b, h => by
    rw [dangling_cons, not_or] at h
    rw [dropDangling_keep h.1, dropDangling_of_not h.2]

/-! ### Dangling commas in a literal -/

/-- The code point of a comma. -/
def comma : ℕ := ','.toNat

/-- Space taken off a literal leaves one, with as many commas at most. -/
theorem units_dropWhile {b : Chars} {e : List ℕ} (h : Units b e) :
    ∃ e', Units (b.dropWhile Text.isSpace) e' ∧ e'.count comma ≤ e.count comma := by
  induction h with
  | nil => exact ⟨[], .nil, Nat.le_refl _⟩
  | @plain c b e hquote hslash hctrl hb ih =>
    by_cases hspace : Text.isSpace c = true
    · obtain ⟨e', he', hcount⟩ := ih
      rw [List.dropWhile_cons_of_pos hspace]
      exact ⟨e', he', hcount.trans List.count_le_count_cons⟩
    · rw [List.dropWhile_cons_of_neg hspace]
      exact ⟨_, .plain hquote hslash hctrl hb, Nat.le_refl _⟩
  | letter hc hb _ => exact ⟨_, .letter hc hb, Nat.le_refl _⟩
  | unit hn hb _ => exact ⟨_, .unit hn hb, Nat.le_refl _⟩

theorem ne_comma_of_unescape {c x : Char} (h : PyJson.unescape c = some x) : c ≠ ',' := by
  rintro rfl
  cases h

theorem ne_comma_of_hexDigit {c : Char} (h : (PyJson.hexDigit c).isSome) : c ≠ ',' := by
  rintro rfl
  revert h
  decide

theorem dangling_cons_of_ne {c : Char} (hc : c ≠ ',') : Dangling (c :: t) ↔ Dangling t := by
  rw [dangling_cons]
  simp only [hc, false_and, false_or]

/-- A literal without its dangling commas is one, and has fewer commas if there was
a dangling one. -/
theorem units_dropDangling {b : Chars} {e : List ℕ} (h : Units b e) :
    ∃ e', Units (dropDangling b) e' ∧ e'.count comma ≤ e.count comma ∧
      (Dangling b → e'.count comma < e.count comma) := by
  induction h with
  | nil => exact ⟨[], .nil, Nat.le_refl _, fun h => absurd h not_dangling_nil⟩
  | @plain c b e hquote hslash hctrl _ ih =>
    obtain ⟨e', he', hle, hlt⟩ := ih
    by_cases hcut : c = ',' ∧ ClosingNext b
    · obtain ⟨rfl, hnext⟩ := hcut
      obtain ⟨e₁, he₁, hcount⟩ := units_dropWhile he'
      have hfewer : e₁.count comma < (comma :: e).count comma := by
        rw [List.count_cons_self]
        omega
      rw [dropDangling_cut hnext]
      exact ⟨e₁, he₁, hfewer.le, fun _ => hfewer⟩
    · rw [dropDangling_keep hcut, dangling_cons]
      refine ⟨_, .plain hquote hslash hctrl he', ?_, fun hd => ?_⟩
      · simp only [List.count_cons]
        omega
      · have hcount := hlt (hd.resolve_left hcut)
        simp only [List.count_cons]
        omega
  | @letter c x b e hc _ ih =>
    obtain ⟨e', he', hle, hlt⟩ := ih
    have hne := ne_comma_of_unescape hc
    rw [dropDangling_cons (by decide), dropDangling_cons hne, dangling_cons_of_ne (by decide), dangling_cons_of_ne hne]
    refine ⟨_, .letter hc he', ?_, fun hd => ?_⟩
    · simp only [List.count_cons]
      omega
    · have hcount := hlt hd
      simp only [List.count_cons]
      omega
  | @unit a b c d n t e hn _ ih =>
    obtain ⟨e', he', hle, hlt⟩ := ih
    obtain ⟨ha, hb, hc, hd⟩ := JsonGrammar.hex4_digits (Option.isSome_of_eq_some hn)
    have ha' := ne_comma_of_hexDigit ha
    have hb' := ne_comma_of_hexDigit hb
    have hc' := ne_comma_of_hexDigit hc
    have hd' := ne_comma_of_hexDigit hd
    rw [dropDangling_cons (by decide), dropDangling_cons (by decide), dropDangling_cons ha', dropDangling_cons hb',
      dropDangling_cons hc', dropDangling_cons hd', dangling_cons_of_ne (by decide), dangling_cons_of_ne (by decide),
      dangling_cons_of_ne ha', dangling_cons_of_ne hb', dangling_cons_of_ne hc', dangling_cons_of_ne hd']
    refine ⟨_, .unit hn he', ?_, fun hdangling => ?_⟩
    · simp only [List.count_cons]
      omega
    · have hcount := hlt hdangling
      simp only [List.count_cons]
      omega

/-- What becomes of a literal: it is kept, or it had a dangling comma and stands for
something else. -/
inductive Outcome : Literal → Literal → Prop
  | kept {l : Literal} (h : ¬Dangling l.written) : Outcome l l
  | changed {l l' : Literal} (h : Dangling l.written) (hvalue : l'.value ≠ l.value) : Outcome l l'

/-- The literals of the text without dangling commas are those of the text, each with
its outcome; more may stand behind them. -/
theorem literals_dropDangling (t : Chars) :
    ∃ news more, literals (dropDangling t) = news ++ more ∧ List.Forall₂ Outcome (literals t) news := by
  induction t using literals_induct with
  | nil => exact ⟨[], [], rfl, .nil⟩
  | plain c t hc ih =>
    obtain ⟨news, more, hnews, hall⟩ := ih
    refine ⟨news, more, ?_, by rwa [literals_plain hc]⟩
    by_cases hcut : c = ',' ∧ ClosingNext t
    · obtain ⟨rfl, hnext⟩ := hcut
      have hspace := quote_notMem_of_space (w := (dropDangling t).takeWhile Text.isSpace) fun _ hx =>
        List.mem_takeWhile_imp hx
      have hrest := literals_of_notMem_append hspace ((dropDangling t).dropWhile Text.isSpace)
      rw [List.takeWhile_append_dropWhile] at hrest
      rw [dropDangling_cut hnext, ← hrest, hnews]
    · rw [dropDangling_keep hcut, literals_plain hc, hnews]
  | closed b e rest hb ih =>
    obtain ⟨news, more, hnews, hall⟩ := ih
    obtain ⟨e', he', -, hlt⟩ := units_dropDangling hb
    have hliterals : literals (dropDangling ('"' :: (b ++ '"' :: rest))) =
        ⟨dropDangling b, joinPairs e'⟩ :: literals (dropDangling rest) := by
      rw [dropDangling_cons (by decide), dropDangling_append_quote, literals_closed he']
    refine ⟨⟨dropDangling b, joinPairs e'⟩ :: news, more, by rw [hliterals, hnews]; rfl, ?_⟩
    rw [literals_closed hb]
    refine .cons ?_ hall
    by_cases hd : Dangling b
    · refine .changed hd fun hvalue => ?_
      have hcount : (joinPairs e').count comma = (joinPairs e).count comma := congrArg (List.count comma) hvalue
      rw [count_joinPairs (by decide), count_joinPairs (by decide)] at hcount
      exact absurd hcount (hlt hd).ne
    · have hsame := dropDangling_of_not hd
      rw [hsame] at he' ⊢
      have he : e' = e := by
        have hread := he'.read []
        rw [hb.read [], Option.some.injEq, Prod.mk.injEq] at hread
        exact hread.1.symm
      rw [he]
      exact .kept hd
  | unclosed t ht =>
    refine ⟨[], literals (dropDangling ('"' :: t)), rfl, ?_⟩
    rw [literals_open ht]
    exact .nil

/-- The values stay, at the front, exactly where every literal is kept. -/
theorem values_kept_iff {ls news : List Literal} (h : List.Forall₂ Outcome ls news) (more : List Literal) :
    ls.map Literal.value <+: (news ++ more).map Literal.value ↔ ∀ l ∈ ls, ¬Dangling l.written := by
  induction h with
  | nil => simp
  | @cons l l' ls news hl _ ih =>
    simp only [List.map_cons, List.cons_append, List.cons_prefix_cons, List.forall_mem_cons, ih]
    cases hl with
    | kept hd => simp [hd]
    | changed hd hvalue => simp [hd, Ne.symm hvalue]

/-! ### The repaired text -/

theorem ifDecodes_some {text : Chars} {orElse : Except PyError (Option Chars)}
    (h : ifDecodes loads text orElse = .ok (some out)) :
    (out = text ∧ ∃ v, loads text = .value v) ∨ (loads text = .malformed ∧ orElse = .ok (some out)) := by
  unfold ifDecodes at h
  cases hl : loads text with
  | value v =>
    rw [hl] at h
    exact .inl ⟨(Option.some.inj (Except.ok.inj h)).symm, v, rfl⟩
  | malformed =>
    rw [hl] at h
    exact .inr ⟨rfl, h⟩
  | tooDeep =>
    rw [hl] at h
    cases h

theorem ifDecodes_error {text : Chars} {orElse : Except PyError (Option Chars)} {e : PyError}
    (h : ifDecodes loads text orElse = .error e) : (∃ t, loads t = .tooDeep) ∨ orElse = .error e := by
  unfold ifDecodes at h
  cases hl : loads text with
  | value v =>
    rw [hl] at h
    cases h
  | malformed =>
    rw [hl] at h
    exact .inr h
  | tooDeep => exact .inl ⟨text, hl⟩

/-- The repair raises only where the decoder does. -/
theorem repair_raises {e : PyError} (h : repairTruncatedJson loads raw = .error e) : ∃ t, loads t = .tooDeep := by
  unfold repairTruncatedJson at h
  dsimp only at h
  by_cases hnil : strip raw = []
  · rw [if_pos hnil] at h
    cases h
  rw [if_neg hnil] at h
  rcases ifDecodes_error h with ht | h
  · exact ht
  rcases ifDecodes_error h with ht | h
  · exact ht
  rcases ifDecodes_error h with ht | h
  · exact ht
  · cases h

/-- What is returned decodes; it is the stripped text, or it begins with the literals
of the text without dangling commas. -/
theorem repair_cases (h : repairTruncatedJson loads raw = .ok (some out)) : (∃ v, loads out = .value v) ∧
    (out = strip raw ∨ loads (strip raw) = .malformed ∧ literals (dropDangling (strip raw)) <+: literals out) := by
  unfold repairTruncatedJson at h
  dsimp only at h
  by_cases hnil : strip raw = []
  · rw [if_pos hnil] at h
    cases h
  rw [if_neg hnil] at h
  rcases ifDecodes_some h with ⟨rfl, hv⟩ | ⟨hraw, h⟩
  · exact ⟨hv, .inl rfl⟩
  rcases ifDecodes_some h with ⟨rfl, hv⟩ | ⟨-, h⟩
  · refine ⟨hv, .inr ⟨hraw, ?_⟩⟩
    rw [literals_dropTrailing]
  rcases ifDecodes_some h with ⟨rfl, hv⟩ | ⟨-, h⟩
  · refine ⟨hv, .inr ⟨hraw, ?_⟩⟩
    have hclosed := literals_closeOpen (dropTrailing (dropDangling (strip raw)))
    rwa [literals_dropTrailing] at hclosed
  · cases h

/-- A repaired text decodes, and every literal that was complete before stands for
the same in it, exactly where the text decodes as it is or no literal of it has a
dangling comma. -/
theorem repair_sound_iff (h : repairTruncatedJson loads raw = .ok (some out)) : (∃ v, loads out = .value v) ∧
    (values raw <+: values out ↔ (∃ v, loads (strip raw) = .value v) ∨ ∀ l ∈ literals raw, ¬Dangling l.written) := by
  obtain ⟨hdecodes, hout⟩ := repair_cases h
  refine ⟨hdecodes, ?_⟩
  unfold values
  rcases hout with rfl | ⟨hraw, hprefix⟩
  · rw [literals_strip]
    exact iff_of_true List.prefix_rfl (.inl hdecodes)
  · obtain ⟨news, more, hnews, hall⟩ := literals_dropDangling (strip raw)
    obtain ⟨rest, hrest⟩ := hprefix
    rw [hnews, List.append_assoc] at hrest
    rw [literals_strip] at hall
    have hnot : ¬∃ v, loads (strip raw) = .value v := by
      rintro ⟨v, hv⟩
      rw [hraw] at hv
      cases hv
    rw [← hrest, values_kept_iff hall]
    simp only [hnot, false_or]

/-- A document cut off in a list. -/
def cutDocument : Chars := "\x7b\"a\": \"x\", \"b\": [1, ".toList

def closedDocument : Chars := "\x7b\"a\": \"x\", \"b\": [1]\x7d".toList

theorem repair_sound_iff_cut : (∃ v, plain.loads closedDocument = .value v) ∧
    (values cutDocument <+: values closedDocument ↔
      (∃ v, plain.loads (strip cutDocument) = .value v) ∨ ∀ l ∈ literals cutDocument, ¬Dangling l.written) := by
  have hrepair : repairTruncatedJson plain.loads cutDocument = .ok (some closedDocument) := by decide +kernel
  exact repair_sound_iff hrepair

/-- A document cut off in a string, with a comma before a brace in the string before
it. -/
def commaDocument : Chars := "\x7b\"a\": \"x, \x7d\", \"b\": \"y".toList

/-- The comma in the literal is lost. -/
theorem comma_in_literal_lost : (PyJson.loads ToolCalls.noFloats (commaDocument ++ "\"\x7d".toList)).isSome ∧
    repairTruncatedJson plain.loads commaDocument = .ok (some "\x7b\"a\": \"x\x7d\", \"b\": \"y\"\x7d".toList) ∧
      ¬values commaDocument <+: values "\x7b\"a\": \"x\x7d\", \"b\": \"y\"\x7d".toList := by
  refine ⟨by decide +kernel, by decide +kernel, by decide +kernel⟩

end AgentCore.Loop.ToolCallRepair
