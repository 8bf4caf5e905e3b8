/-
# Tool calls cut off before their closing tag

`_balance_json_object` reads a text character by character: how deep the braces
are, and whether it stands in a string or behind a backslash. On an object text,
whatever stands behind it, it comes to the end of the object (`balance_object`):
scanning a text of the JSON grammar ends at the depth it began at.

So an unclosed `<tool_call>` with an object in it gives what the closed one gives
(`unclosed_as_closed`), where no other format takes the text first: the Seed format
is taken by its markers alone, and these may stand in a string of the object
(`seed_markers_take_the_call`).

Key definitions: `Scans`, `NoOtherFormat`.
Key theorems: `balance_object`, `balance_loads`, `truncated_as_closed`.
-/
import AgentCore.Lib.JsonGrammar
import AgentCore.Loop.ToolCallParser

namespace AgentCore.Loop.TruncatedCall

open Blocks JsonGrammar ToolCallParser

/-! ### Scanning a text of the grammar -/

/-- Scanning `t` leads from one depth and state to another, whatever stands behind
`t`. -/
def Scans (depth : ℕ) (scan : Scan) (t : Chars) (depth' : ℕ) (scan' : Scan) : Prop :=
  ∀ rest, balanceFrom depth scan (t ++ rest) = (balanceFrom depth' scan' rest).map (· + t.length)

section Scans

variable {depth depth' depth'' : ℕ} {scan scan' scan'' : Scan} {t t' : Chars}

theorem Scans.nil : Scans depth scan [] depth scan := by
  intro rest
  simp

theorem Scans.append (h : Scans depth scan t depth' scan') (h' : Scans depth' scan' t' depth'' scan'') :
    Scans depth scan (t ++ t') depth'' scan'' := by
  intro rest
  rw [List.append_assoc, h, h', Option.map_map]
  congr 1
  funext n
  show n + t'.length + t.length = n + (t ++ t').length
  rw [List.length_append]
  omega

theorem Scans.cons {c : Char} (h : Scans depth scan [c] depth' scan') (h' : Scans depth' scan' t depth'' scan'') :
    Scans depth scan (c :: t) depth'' scan'' := h.append h'

/-- A character outside strings that is no quote and no brace. -/
theorem scans_plain {c : Char} (hquote : c ≠ '"') (hopen : c ≠ '\x7b') (hclose : c ≠ '\x7d') :
    Scans depth .outside [c] depth .outside := by
  intro rest
  show balanceFrom depth .outside (c :: rest) = _
  rw [balanceFrom, if_neg hquote, if_neg hopen, if_neg hclose]
  rfl

theorem scans_plains : ∀ {t : Chars}, (∀ c ∈ t, c ≠ '"' ∧ c ≠ '\x7b' ∧ c ≠ '\x7d') →
    Scans depth .outside t depth .outside
  | [], _ => .nil
  | c :: t, h => by
    obtain ⟨hquote, hopen, hclose⟩ := h c List.mem_cons_self
    have ht := scans_plains fun d hd => h d (List.mem_cons_of_mem c hd)
    exact (scans_plain hquote hopen hclose).cons ht

/-- The symbols of arrays and members. -/
theorem scans_symbol (c : Char) (h : c ∈ [',', ':', '[', ']']) : Scans depth .outside [c] depth .outside := by
  have hplain : c ≠ '"' ∧ c ≠ '\x7b' ∧ c ≠ '\x7d' := by
    simp only [List.mem_cons, List.not_mem_nil, or_false] at h
    rcases h with rfl | rfl | rfl | rfl
    · decide
    · decide
    · decide
    · decide
  exact scans_plain hplain.1 hplain.2.1 hplain.2.2

theorem scans_quote : Scans depth .outside ['"'] depth .inString := by
  intro rest
  rfl

theorem scans_unquote : Scans depth .inString ['"'] depth .outside := by
  intro rest
  rfl

theorem scans_inString {c : Char} (hquote : c ≠ '"') (hslash : c ≠ '\\') :
    Scans depth .inString [c] depth .inString := by
  intro rest
  show balanceFrom depth .inString (c :: rest) = _
  rw [balanceFrom, if_neg hslash, if_neg hquote]
  rfl

theorem scans_escape (c : Char) : Scans depth .inString ['\\', c] depth .inString := by
  intro rest
  show (((balanceFrom depth .inString rest).map (· + 1)).map (· + 1)) = _
  rw [Option.map_map]
  rfl

theorem scans_open : Scans depth .outside ['\x7b'] (depth + 1) .outside := by
  intro rest
  rfl

/-- A brace that does not close the outermost one. -/
theorem scans_close : Scans (depth + 2) .outside ['\x7d'] (depth + 1) .outside := by
  intro rest
  rfl

end Scans

theorem hexDigit_plain {c : Char} (h : (PyJson.hexDigit c).isSome) : c ≠ '"' ∧ c ≠ '\\' := by
  constructor
  · rintro rfl
    revert h
    decide
  · rintro rfl
    revert h
    decide

theorem scans_hexDigit {depth : ℕ} {c : Char} (h : (PyJson.hexDigit c).isSome) :
    Scans depth .inString [c] depth .inString :=
  scans_inString (hexDigit_plain h).1 (hexDigit_plain h).2

/-- A string is left at its closing quote. -/
theorem scans_string {depth : ℕ} {t : Chars} (h : StringBody t) : Scans depth .inString t depth .outside := by
  induction h with
  | close => exact scans_unquote
  | plain hquote hslash _ _ ih => exact (scans_inString hquote hslash).cons ih
  | @letter c t _ _ ih => exact (scans_escape c).append ih
  | unit hunit _ ih =>
    obtain ⟨ha, hb, hc, hd⟩ := hex4_digits hunit
    have hdigits := (scans_hexDigit hc).cons ((scans_hexDigit hd).cons ih)
    exact (scans_escape 'u').append ((scans_hexDigit ha).cons ((scans_hexDigit hb).cons hdigits))

theorem scans_space {depth : ℕ} {w : Chars} (h : Space w) : Scans depth .outside w depth .outside := by
  refine scans_plains fun c hc => ⟨?_, ?_, ?_⟩
  · rintro rfl
    exact absurd (h _ hc) (by decide)
  · rintro rfl
    exact absurd (h _ hc) (by decide)
  · rintro rfl
    exact absurd (h _ hc) (by decide)

theorem scans_number {depth : ℕ} {t : Chars} (h : IsNumber t) : Scans depth .outside t depth .outside := by
  have hall := List.all_eq_true.mp h.1
  refine scans_plains fun c hc => ⟨?_, ?_, ?_⟩
  · rintro rfl
    exact absurd (hall _ hc) (by decide)
  · rintro rfl
    exact absurd (hall _ hc) (by decide)
  · rintro rfl
    exact absurd (hall _ hc) (by decide)

theorem scans_literal {depth : ℕ} {t : Chars} (h : t ∈ literalTexts) : Scans depth .outside t depth .outside := by
  have hplain : literalTexts.all (fun t => t.all fun c => c ≠ '"' ∧ c ≠ '\x7b' ∧ c ≠ '\x7d') = true := by decide
  have hall := List.all_eq_true.mp hplain t h
  exact scans_plains fun c hc => by simpa using List.all_eq_true.mp hall c hc

/-- Below a brace, scanning a text of the grammar ends where it began: at the same
depth, outside strings. -/
theorem scans_derives {kind : Kind} {t : Chars} (h : Derives kind t) :
    ∀ depth, Scans (depth + 1) .outside t (depth + 1) .outside := by
  induction h with
  | number h => exact fun _ => scans_number h
  | literal h => exact fun _ => scans_literal h
  | string h => exact fun _ => scans_quote.cons (scans_string h)
  | emptyArray hw =>
    intro depth
    exact (scans_symbol '[' (by decide)).cons ((scans_space hw).append (scans_symbol ']' (by decide)))
  | array hw _ hw' ih =>
    intro depth
    have hinner := (scans_space hw).append ((ih depth).append ((scans_space hw').append (scans_symbol ']' (by decide))))
    exact (scans_symbol '[' (by decide)).cons hinner
  | ofObject _ ih => exact ih
  | emptyObject hw => exact fun depth => scans_open.cons ((scans_space hw).append scans_close)
  | object hw _ hw' ih =>
    intro depth
    have hinner := (scans_space hw).append ((ih (depth + 1)).append ((scans_space hw').append scans_close))
    exact scans_open.cons hinner
  | element _ ih => exact ih
  | elements _ hw hw' _ iht ihr =>
    intro depth
    have hrest := (scans_symbol ',' (by decide)).cons ((scans_space hw').append (ihr depth))
    exact (iht depth).append ((scans_space hw).append hrest)
  | member hk hw hw' _ ih =>
    intro depth
    have hvalue := (scans_symbol ':' (by decide)).cons ((scans_space hw').append (ih depth))
    exact scans_quote.cons ((scans_string hk).append ((scans_space hw).append hvalue))
  | single _ ih => exact ih
  | members _ hw hw' _ iht ihr =>
    intro depth
    have hrest := (scans_symbol ',' (by decide)).cons ((scans_space hw').append (ihr depth))
    exact (iht depth).append ((scans_space hw).append hrest)

/-- An object is a brace, a text that is scanned below it, and its closing brace. -/
theorem object_inner {s : Chars} (h : Derives .object s) :
    ∃ inner, s = '\x7b' :: (inner ++ ['\x7d']) ∧ Scans 1 .outside inner 1 .outside := by
  cases h with
  | @emptyObject w hw => exact ⟨w, rfl, scans_space hw⟩
  | @object w t w' hw ht hw' =>
    refine ⟨w ++ (t ++ w'), by simp, ?_⟩
    exact (scans_space hw).append ((scans_derives ht 0).append (scans_space hw'))

/-- `_balance_json_object` returns the end of the object that stands at the
beginning of the text. -/
theorem balance_object {s : Chars} (h : Derives .object s) (t : Chars) :
    balanceJsonObject (s ++ t) 0 = some s.length := by
  obtain ⟨inner, rfl, hinner⟩ := object_inner h
  have hopen : Scans 0 .outside ('\x7b' :: inner) 1 .outside := scans_open.cons hinner
  have hend : balanceFrom 1 .outside ('\x7d' :: t) = some 1 := rfl
  unfold balanceJsonObject
  rw [if_neg (by simp), List.drop_zero, ← List.cons_append, List.append_assoc, hopen]
  simp only [List.singleton_append, hend, Option.map_some, Option.some.injEq, List.length_append, List.length_cons,
    List.length_nil]
  omega

/-- So it does on whatever the decoder reads between braces. -/
theorem balance_loads {F : Type} {ft : PyJson.FloatText F} {inner : Chars}
    (h : (PyJson.loads ft ('\x7b' :: (inner ++ ['\x7d']))).isSome) (t : Chars) :
    balanceJsonObject ('\x7b' :: (inner ++ ['\x7d']) ++ t) 0 = some (inner.length + 2) := by
  have hobject := balance_object (object_of_loads ft inner h) t
  simpa using hobject

/-! ### The unclosed call and the closed one -/

section Unclosed

variable {F : Type} {py : Python F} {p ws s t text : Chars} {names : List Chars}

def openTag : Chars := "<tool_call>".toList

def closeTag : Chars := "</tool_call>".toList

variable (p ws s t) in
/-- A tool call without its closing tag. -/
def unclosed : Chars := p ++ (openTag ++ (ws ++ (s ++ t)))

variable (p ws s) in
def closed : Chars := p ++ (openTag ++ (ws ++ (s ++ closeTag)))

variable (py text names) in
/-- No format that is asked first takes the text: its marker is not there or it
finds no call, and the markers of the Seed format, which is taken by them alone, are
not there. -/
structure NoOtherFormat : Prop where
  mcp : mcpMarked text = false ∨ McpIdle names text
  fc : fcMarked text = false ∨ FcIdle py names text
  seed : seedMarked py text = false

theorem has_iff {marker : String} : has marker text = true ↔ marker.toList <:+: text := by
  unfold has
  rw [List.any_eq_true]
  constructor
  · rintro ⟨s, hs, hpre⟩
    have hsuffix : s <:+ text := (List.mem_tails _ _).mp hs
    exact (List.isPrefixOf_iff_prefix.mp hpre).isInfix.trans hsuffix.isInfix
  · intro hin
    obtain ⟨s, hpre, hs⟩ := List.infix_iff_prefix_suffix.mp hin
    exact ⟨s, (List.mem_tails _ _).mpr hs, List.isPrefixOf_iff_prefix.mpr hpre⟩

theorem lit_literal {m : String} {r : Chars} : lit (literal m) text = some r ↔ text = m.toList ++ r :=
  exactly_eq_some

/-- Where a literal does not stand. -/
theorem lit_literal_eq_none {m : String} : lit (literal m) text = none ↔ ¬m.toList <+: text := exactly_eq_none

/-- No tag begins in a text without one, whatever tag stands behind it. -/
theorem tag_not_prefix {x : Char} {xs front rest : Chars} (hx : x ∉ xs) (h : ¬(x :: xs) <:+: front) :
    ∀ s, s <:+ front → s ≠ [] → ¬(x :: xs) <+: s ++ x :: rest :=
  not_prefix_of_clear (Cut.Clear.of_not_infix_tail h hx)

theorem strip_object (h : Derives .object s) : strip s = s := by
  obtain ⟨inner, rfl, -⟩ := object_inner h
  refine Trim.trim_of_ends ?_ ?_
  · rw [List.dropWhile_cons_of_neg (by decide)]
  · simp only [List.reverse_cons, List.reverse_append, List.reverse_nil, List.nil_append, List.cons_append]
    rw [List.dropWhile_cons_of_neg (by decide)]

/-- No closing tag is found in an object that holds none, with or without space
before it. -/
theorem closes_in_object (h : Derives .object s) (hclose : ¬closeTag <:+: s) :
    ∀ s', s' <:+ s → s' ≠ [] → toolCallRe.closes (s' ++ closeTag) = none := by
  intro s' hs' hne
  obtain ⟨inner, rfl, -⟩ := object_inner h
  obtain ⟨a, rfl⟩ : ∃ a, s' = a ++ ['\x7d'] := by
    have hlast : s'.getLast hne = '\x7d' := by
      rw [hs'.getLast hne]
      simp
    exact ⟨s'.dropLast, by rw [← hlast, List.dropLast_append_getLast]⟩
  have hdrop : ((a ++ ['\x7d']) ++ closeTag).dropWhile Text.isSpace =
      (a.dropWhile Text.isSpace ++ ['\x7d']) ++ closeTag := by
    rw [List.append_assoc, List.append_assoc]
    exact Trim.dropWhile_append (by decide) a closeTag
  have hsuffix : a.dropWhile Text.isSpace ++ ['\x7d'] <:+ '\x7b' :: (inner ++ ['\x7d']) := by
    obtain ⟨passed, hpassed⟩ := List.dropWhile_suffix (l := a) Text.isSpace
    refine List.IsSuffix.trans ⟨passed, ?_⟩ hs'
    rw [← List.append_assoc, hpassed]
  show lit (literal "</tool_call>") (((a ++ ['\x7d']) ++ closeTag).dropWhile Text.isSpace) = none
  rw [hdrop, lit_literal_eq_none]
  exact tag_not_prefix (by decide) hclose _ hsuffix (by simp)

/-- The closed call holds the object. -/
theorem closed_inners (h : Derives .object s) (hws : ∀ c ∈ ws, Text.isSpace c = true) (hp : ¬openTag <:+: p)
    (hclose : ¬closeTag <:+: s) : toolCallRe.inners (closed p ws s) = [s] := by
  obtain ⟨inner, hinner, -⟩ := object_inner h
  have hopen : ∀ x, toolCallRe.at? x = (lit (literal "<tool_call>") x).map fun r => ((), r.dropWhile Text.isSpace) :=
    fun _ => rfl
  have hclear : ∀ f, f <:+ p → f ≠ [] → toolCallRe.at? (f ++ (openTag ++ (ws ++ (s ++ closeTag)))) = none := by
    intro f hf hne
    rw [hopen, Option.map_eq_none_iff, lit_literal_eq_none]
    exact tag_not_prefix (by decide) hp f hf hne
  have hat : toolCallRe.at? (openTag ++ (ws ++ (s ++ closeTag))) = some ((), s ++ closeTag) := by
    have hdrop : (ws ++ (s ++ closeTag)).dropWhile Text.isSpace = s ++ closeTag := by
      rw [List.dropWhile_append_of_pos hws, hinner, List.cons_append, List.dropWhile_cons_of_neg (by decide)]
    have htag : lit (literal "<tool_call>") (openTag ++ (ws ++ (s ++ closeTag))) = some (ws ++ (s ++ closeTag)) :=
      lit_literal.mpr rfl
    rw [hopen, htag, Option.map_some, hdrop]
  have hend : toolCallRe.closes closeTag = some [] := by
    decide
  have hblock : toolCallRe.blockAt? (openTag ++ (ws ++ (s ++ closeTag))) = some ((), s, []) := by
    unfold Pattern.blockAt?
    rw [hat, Option.bind_some, upTo_of_clear hend (closes_in_object h hclose)]
    rfl
  unfold Pattern.inners closed
  rw [Pattern.found_clear hclear, Pattern.found_block hblock]
  rfl

theorem closed_calls (h : Derives .object s) (hws : ∀ c ∈ ws, Text.isSpace c = true) (hp : ¬openTag <:+: p)
    (hclose : ¬closeTag <:+: s) :
    parseJsonToolCalls py (closed p ws s) names = jsonCalls py names [s] := by
  unfold parseJsonToolCalls
  rw [closed_inners h hws hp hclose]

/-- The unclosed tag is found, with the brace behind it. -/
theorem dangling_tail (hws : ∀ c ∈ ws, Text.isSpace c = true) (hp : ¬openTag <:+: p) (inner t : Chars) :
    danglingOpen.tail? (unclosed p ws ('\x7b' :: inner) t) = some (inner ++ t) := by
  have hread : ∀ x, danglingOpen.at? x =
      (((lit (literal "<tool_call>") x).map fun r => ((), r)).bind fun y =>
        (some (y.2.takeWhile Text.isSpace, y.2.dropWhile Text.isSpace)).map fun z => ((), z.2)).bind
          fun z => (lit [fun d : Char => decide (d = '\x7b')] z.2).map fun r => ((), r) :=
    fun _ => rfl
  have hclear : ∀ f, f <:+ p → f ≠ [] →
      danglingOpen.at? (f ++ (openTag ++ (ws ++ ('\x7b' :: inner ++ t)))) = none := by
    intro f hf hne
    have hnone : lit (literal "<tool_call>") (f ++ (openTag ++ (ws ++ ('\x7b' :: inner ++ t)))) = none := by
      rw [lit_literal_eq_none]
      exact tag_not_prefix (by decide) hp f hf hne
    rw [hread, hnone]
    rfl
  have hat : danglingOpen.at? (openTag ++ (ws ++ ('\x7b' :: inner ++ t))) = some ((), inner ++ t) := by
    have htag : lit (literal "<tool_call>") (openTag ++ (ws ++ ('\x7b' :: inner ++ t))) =
        some (ws ++ ('\x7b' :: inner ++ t)) := lit_literal.mpr rfl
    have hdrop : (ws ++ ('\x7b' :: inner ++ t)).dropWhile Text.isSpace = '\x7b' :: inner ++ t := by
      rw [List.dropWhile_append_of_pos hws, List.cons_append, List.dropWhile_cons_of_neg (by decide)]
    rw [hread, htag, Option.map_some, Option.bind_some, Option.map_some, Option.bind_some, hdrop]
    rfl
  unfold unclosed
  rw [Opening.tail?_clear hclear, Opening.tail?_of_at? hat]

theorem balance_behind (front x : Chars) :
    balanceJsonObject (front ++ x) front.length = (balanceJsonObject x 0).map (front.length + ·) := by
  unfold balanceJsonObject
  rw [List.getElem?_append_right (Nat.le_refl _), Nat.sub_self, List.drop_left, List.drop_zero]
  by_cases hbrace : x[0]? ≠ some '\x7b'
  · rw [if_pos hbrace, if_pos hbrace]
    rfl
  · rw [if_neg hbrace, if_neg hbrace, Option.map_map]
    congr 1
    funext n
    simp

theorem body_behind (front s t : Chars) :
    ((front ++ (s ++ t)).take (front.length + s.length)).drop front.length = s := by
  rw [← List.append_assoc, List.take_left' (List.length_append), List.drop_left]

/-- What a call says, without its id. -/
def said (c : Call F) : Chars × PyJson.Value F := (c.name, c.args)

/-- The object behind an unclosed tag is decoded as the one in a closed block is. -/
theorem unclosed_calls (h : Derives .object s) (hws : ∀ c ∈ ws, Text.isSpace c = true) (hp : ¬openTag <:+: p)
    (t : Chars) :
    (parseDanglingJsonToolCall py (unclosed p ws s t) names).map (·.map said) = jsonCalls py names [s] := by
  obtain ⟨inner, hinner, -⟩ := object_inner h
  have htext : unclosed p ws s t = (p ++ (openTag ++ ws)) ++ (s ++ t) := by
    simp [unclosed]
  have htail : danglingOpen.tail? (unclosed p ws s t) = some ((inner ++ ['\x7d']) ++ t) :=
    hinner ▸ dangling_tail hws hp _ t
  have hstart : (unclosed p ws s t).length - (((inner ++ ['\x7d']) ++ t).length + 1) = (p ++ (openTag ++ ws)).length := by
    rw [htext, hinner]
    simp only [List.length_append, List.length_cons]
    omega
  unfold parseDanglingJsonToolCall
  rw [htail]
  dsimp only
  rw [hstart, htext, balance_behind, balance_object h, Option.map_some]
  dsimp only
  rw [body_behind, jsonCalls, jsonCalls, strip_object h]
  cases py.loads s with
  | tooDeep => rfl
  | malformed => rfl
  | value v =>
    dsimp only
    cases payloadCall py names v with
    | error e => rfl
    | ok found =>
      cases found with
      | none => rfl
      | some c => rfl

/-! ### The other formats -/

theorem orNext_of_idle {marked : Bool} {calls next : Except PyError (List (Call F))}
    (h : marked = false ∨ calls = .ok []) : orNext marked calls next = next := by
  unfold orNext
  rcases h with h | h
  · rw [h]
    rfl
  · rw [h]
    cases marked with
    | false => rfl
    | true => rfl

theorem orNext_nil {calls : Except PyError (List (Call F))} : orNext true calls (.ok []) = calls := by
  match calls with
  | .error e => rfl
  | .ok [] => rfl
  | .ok (c :: cs) => rfl

/-- Without a closing tag the Qwen format finds nothing. -/
theorem qwen_idle (hclose : ¬closeTag <:+: text) : parseQwenXml py text names = .ok [] := by
  have hread : ∀ s, (qwenToolCallRe py).closes s =
      ((((lit (literal "</function>") s).map fun r => ((), r)).bind fun y =>
        (some (y.2.takeWhile Text.isSpace, y.2.dropWhile Text.isSpace)).map fun z => ((), z.2)).bind fun z =>
          ((lit (literal "</tool_call>") z.2).map fun r => ((), r)).map fun r => ((), r.2)).map Prod.snd := fun _ => rfl
  have hnone : ∀ s, s <:+ text → (qwenToolCallRe py).closes s = none := by
    intro s hs
    rw [hread]
    cases htag : lit (literal "</function>") s with
    | none => rfl
    | some behind =>
      have hsuffix : behind.dropWhile Text.isSpace <:+ text := by
        have hbehind : behind <:+ s := ⟨_, (lit_literal.mp htag).symm⟩
        exact (List.dropWhile_suffix _).trans (hbehind.trans hs)
      have hclosing : lit (literal "</tool_call>") (behind.dropWhile Text.isSpace) = none := by
        rw [lit_literal_eq_none]
        exact fun hpre => hclose (hpre.isInfix.trans hsuffix.isInfix)
      simp only [Option.map_some, Option.bind_some, hclosing, Option.map_none]
  have hfound : (qwenToolCallRe py).found text = [] := Pattern.found_of_no_closing hnone
  unfold parseQwenXml
  rw [hfound]
  rfl

theorem parseText_unclosed (hclose : ¬closeTag <:+: text) (hopen : openTag <:+: text)
    (hother : NoOtherFormat py text names) : parseText py text names = parseDanglingJsonToolCall py text names := by
  have hnil : text ≠ [] := by
    rintro rfl
    exact absurd (List.infix_nil.mp hopen) (by decide)
  have hdangling : danglingMarked text = true := by
    have hhas : has "<tool_call>" text = true := has_iff.mpr hopen
    have hnot : has "</tool_call>" text = false := by
      rw [← Bool.not_eq_true, has_iff]
      exact hclose
    unfold danglingMarked
    rw [hhas, hnot]
    rfl
  have hmcp : mcpMarked text = false ∨ parseMcpToolCalls py text names = .ok [] :=
    hother.mcp.imp_right parseMcp_eq_nil_iff.mpr
  have hfc : fcMarked text = false ∨ parseFcWrapped py text names = .ok [] :=
    hother.fc.imp_right (fcCalls_eq_nil_iff _ 0).mpr
  unfold parseText
  rw [if_neg hnil, orNext_of_idle hmcp, orNext_of_idle (.inr (qwen_idle hclose)), orNext_of_idle hfc, hother.seed,
    if_neg (by simp), hdangling, orNext_nil]

end Unclosed

/-- An unclosed `<tool_call>` that carries a complete JSON object gives what the
closed one gives, name and arguments, where no other format takes the text. -/
theorem unclosed_as_closed {F : Type} (py : Python F) (names : List Chars) {p ws s t : Chars} (h : Derives .object s)
    (hws : ∀ c ∈ ws, Text.isSpace c = true) (hp : ¬openTag <:+: p) (hclose : ¬closeTag <:+: unclosed p ws s t)
    (hother : NoOtherFormat py (unclosed p ws s t) names) :
    (parseText py (unclosed p ws s t) names).map (·.map said) = parseJsonToolCalls py (closed p ws s) names := by
  have hs : s <:+: unclosed p ws s t := ⟨p ++ (openTag ++ ws), t, by simp [unclosed]⟩
  have hopen : openTag <:+: unclosed p ws s t := ⟨p, ws ++ (s ++ t), by simp [unclosed]⟩
  rw [parseText_unclosed hclose hopen hother, unclosed_calls h hws hp,
    closed_calls h hws hp fun hin => hclose (hin.trans hs)]

/-- Truncated calls parse as closed ones: the scanner comes to the end of the object,
whatever stands behind it, and the call is the one of the closed block. -/
theorem truncated_as_closed {s : Chars} (h : Derives .object s) :
    (∀ t, balanceJsonObject (s ++ t) 0 = some s.length) ∧
      ∀ {F : Type} (py : Python F) (names : List Chars) (p ws t : Chars), (∀ c ∈ ws, Text.isSpace c = true) →
        ¬openTag <:+: p → ¬closeTag <:+: unclosed p ws s t → NoOtherFormat py (unclosed p ws s t) names →
          (parseText py (unclosed p ws s t) names).map (·.map said) = parseJsonToolCalls py (closed p ws s) names :=
  ⟨balance_object h, fun py names _ _ _ hws hp hclose hother => unclosed_as_closed py names h hws hp hclose hother⟩

/-- A call with a brace in one of its strings. -/
def bracedCall : Chars := '\x7b' :: ("\"tool\": \"t\", \"args\": \x7b\"a\": \"\x7d\"\x7d".toList ++ ['\x7d'])

theorem derives_bracedCall : Derives .object bracedCall :=
  object_of_loads ToolCalls.noFloats _ (by decide +kernel)

theorem truncated_as_closed_braced :
    balanceJsonObject (bracedCall ++ "\x7d".toList) 0 = some bracedCall.length ∧
      (parseText plain (unclosed "So: ".toList "\n".toList bracedCall " then".toList) ["t".toList]).map (·.map said) =
        parseJsonToolCalls plain (closed "So: ".toList "\n".toList bracedCall) ["t".toList] :=
  ⟨(truncated_as_closed derives_bracedCall).1 _,
    (truncated_as_closed derives_bracedCall).2 plain _ _ _ _ (List.all_eq_true.mp (by decide)) (by decide +kernel)
       (by decide +kernel) ⟨.inl (by decide +kernel), .inl (by decide +kernel), by decide +kernel⟩⟩

/-- A call with the markers of the Seed format in its strings. -/
def seedMarkedCall : Chars :=
  let args := "\x7b\"a\": \"<function name=\", \"b\": \"<parameter name=\"\x7d"
  '\x7b' :: (("\"tool\": \"t\", \"args\": " ++ args).toList ++ ['\x7d'])

/-- The Seed format is taken by its markers, though it finds no call: the unclosed
call is lost, and the closed one is not. -/
theorem seed_markers_take_the_call : Derives .object seedMarkedCall ∧
    (parseText plain (unclosed [] [] seedMarkedCall []) ["t".toList]).map (·.map Call.name) = .ok [] ∧
      (parseJsonToolCalls plain (closed [] [] seedMarkedCall) ["t".toList]).map (·.map Prod.fst) = .ok ["t".toList] := by
  refine ⟨?_, by decide +kernel, by decide +kernel⟩
  exact object_of_loads ToolCalls.noFloats _ (by decide +kernel)

end AgentCore.Loop.TruncatedCall
