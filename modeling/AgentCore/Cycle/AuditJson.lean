/-
# JSON of an auditor

`_try_parse_json` and `_extract_fenced_json` of `components/cycle/builders.py`: the
object that an auditor has put between Markdown fences, or else the one between the
first brace and the last. The fence that closes the block is looked for in the JSON
text as well, and of what `json.loads` raises only a syntax error is caught. So an
object is recovered exactly where its text holds no fence and the decoder does not
raise on it (`recovered_iff`); what is cut off at a fence is no JSON text.

Key definitions: `tryParseJson`, `extractFencedJson`, `IsText`, `Recovered`.
Key theorems: `dumps_isText`, `recovered_iff`.
-/
import AgentCore.Lib.Cut
import AgentCore.Lib.JsonDepth
import AgentCore.Lib.Trim
import AgentCore.Loop.Arguments
import AgentCore.Text

namespace AgentCore
namespace Cycle

open PyJson

/-- Three backticks. -/
def fence : List Char := ['\x60', '\x60', '\x60']

/-- The marker of `_extract_fenced_json`. -/
def jsonFence : List Char := fence ++ "json".toList

def extractFencedJson (raw : List Char) : Option (List Char) :=
  (Cut.afterFirst jsonFence raw).bind fun rest => (Cut.beforeFirst fence rest).map (Trim.trim Text.isSpace)

/-- From the first opening brace to the last closing one. -/
def widestBraces (raw : List Char) : Option (List Char) :=
  let found := ((raw.dropWhile (· ≠ '\x7b')).reverse.dropWhile (· ≠ '\x7d')).reverse
  if found = [] then none else some found

/-- The second value that `_try_parse_json` returns. -/
inductive ParseError
  /-- `empty response` -/
  | emptyResponse
  /-- `fenced block did not parse: {exc!s}` -/
  | fencedDidNotParse (text : List Char)
  /-- `fenced JSON was not an object` -/
  | fencedNotObject
  /-- `no JSON object found` -/
  | noObjectFound
  /-- `bare JSON did not parse: {exc!s}` -/
  | bareDidNotParse (text : List Char)
  /-- `JSON was not an object` -/
  | notObject
  deriving DecidableEq

inductive Parsed (F : Type)
  | data (kvs : List (List Char × Value F))
  | failed (e : ParseError)
  /-- What is not caught: an integer with too many digits, a nesting too deep. -/
  | raised (e : LoadsError)

section Parsing

variable {F : Type} (ft : FloatText F)

def readObject (room : ℕ) (text : List Char) (didNotParse other : ParseError) : Parsed F :=
  match decodeIn ft room text with
  | .error (.valueError .malformed) => .failed didNotParse
  | .error e => .raised e
  | .ok (.obj kvs) => .data kvs
  | .ok _ => .failed other

/-- `_try_parse_json`, on a stack with room for so many containers. -/
def tryParseJson (room : ℕ) (raw : List Char) : Parsed F :=
  if raw = [] then .failed .emptyResponse
  else
    match extractFencedJson raw with
    | some fenced => readObject ft room fenced (.fencedDidNotParse fenced) .fencedNotObject
    | none =>
      match widestBraces raw with
      | none => .failed .noObjectFound
      | some text => readObject ft room text (.bareDidNotParse text) .notObject

/-! ### Recovery -/

/-- The JSON text of an object, from brace to brace. The decoder may still meet an
integer with too many digits in it. -/
structure IsText (js : List Char) (kvs : List (List Char × Value F)) : Prop where
  braces : ∃ inner, js = '\x7b' :: (inner ++ ['\x7d'])
  wellFormed : decode ft js ≠ .error .malformed
  stands : ∀ v, decode ft js = .ok v → v = .obj kvs

/-- A marker with a fence behind it. -/
def HasFence (raw : List Char) : Prop := ∃ a b c, raw = a ++ (jsonFence ++ (b ++ (fence ++ c)))

/-- The object is recovered from its text, wherever that is fenced, and wherever it
stands without a fence between the first brace and the last. -/
structure Recovered (room : ℕ) (js : List Char) (kvs : List (List Char × Value F)) : Prop where
  fenced : ∀ p q, ¬ jsonFence <:+: p →
    tryParseJson ft room (p ++ (jsonFence ++ '\n' :: (js ++ '\n' :: (fence ++ q)))) = .data kvs
  bare : ∀ a b, '\x7b' ∉ a → '\x7d' ∉ b → ¬ HasFence (a ++ (js ++ b)) →
    tryParseJson ft room (a ++ (js ++ b)) = .data kvs

end Parsing

theorem jsonFence_unbordered : ∀ i < jsonFence.length, 0 < i → ¬ jsonFence.drop i <+: jsonFence := by decide

theorem afterFirst_jsonFence {p : List Char} (hp : ¬ jsonFence <:+: p) (rest : List Char) :
    Cut.afterFirst jsonFence (p ++ (jsonFence ++ rest)) = some rest := by
  rw [Cut.afterFirst_of_clear (Cut.Clear.of_unbordered hp jsonFence_unbordered)]
  exact Cut.afterFirst_self (by decide) rest

/-- The block of a text without fences is this text. -/
theorem extractFencedJson_eq {p js : List Char} (hp : ¬ jsonFence <:+: p) (hjs : ¬ fence <:+: js) (q : List Char) :
    extractFencedJson (p ++ (jsonFence ++ '\n' :: (js ++ '\n' :: (fence ++ q)))) =
      some (Trim.trim Text.isSpace ('\n' :: (js ++ ['\n']))) := by
  have hline : Cut.Clear fence ['\n'] (fence ++ q) := Cut.Clear.of_notMem (by decide)
  have hbody : Cut.Clear fence (js ++ ['\n']) (fence ++ q) :=
    Cut.Clear.append (Cut.Clear.of_not_infix hjs (by decide)) hline
  have hfirst : Cut.Clear fence ['\n'] (js ++ ['\n'] ++ (fence ++ q)) := Cut.Clear.of_notMem (by decide)
  have hclear : Cut.Clear fence ('\n' :: (js ++ ['\n'])) (fence ++ q) := hfirst.append hbody
  have hsplit : '\n' :: (js ++ '\n' :: (fence ++ q)) = '\n' :: (js ++ ['\n']) ++ (fence ++ q) := by simp
  unfold extractFencedJson
  rw [afterFirst_jsonFence hp, Option.bind_some, hsplit, Cut.beforeFirst_of_clear (by decide) hclear, Option.map_some]

theorem hasFence_of_extract {raw fenced : List Char} (h : extractFencedJson raw = some fenced) : HasFence raw := by
  obtain ⟨rest, hrest, h⟩ := Option.bind_eq_some_iff.mp h
  obtain ⟨front, hfront, -⟩ := Option.map_eq_some_iff.mp h
  obtain ⟨a, ha⟩ := Cut.afterFirst_eq_some hrest
  obtain ⟨back, hback⟩ := Cut.beforeFirst_eq_some hfront
  exact ⟨a, front, back, by rw [ha, hback]⟩

theorem extractFencedJson_of_not_hasFence {raw : List Char} (h : ¬ HasFence raw) : extractFencedJson raw = none := by
  cases hraw : extractFencedJson raw with
  | none => rfl
  | some fenced => exact absurd (hasFence_of_extract hraw) h

/-- What stands between the first brace and the last. -/
theorem widestBraces_eq {a b : List Char} (ha : '\x7b' ∉ a) (hb : '\x7d' ∉ b) (inner : List Char) :
    widestBraces (a ++ ('\x7b' :: (inner ++ ['\x7d']) ++ b)) = some ('\x7b' :: (inner ++ ['\x7d'])) := by
  have hopen : ∀ c ∈ a, decide (c ≠ '\x7b') = true := fun c hc =>
    decide_eq_true fun h : c = '\x7b' => ha (h ▸ hc)
  have hclose : ∀ c ∈ b.reverse, decide (c ≠ '\x7d') = true := fun c hc =>
    decide_eq_true fun h : c = '\x7d' => hb (h ▸ List.mem_reverse.mp hc)
  have hfront : (a ++ ('\x7b' :: (inner ++ ['\x7d']) ++ b)).dropWhile (· ≠ '\x7b') =
      '\x7b' :: (inner ++ ['\x7d']) ++ b := by
    rw [List.dropWhile_append_of_pos hopen]
    rfl
  have hback : (('\x7b' :: (inner ++ ['\x7d'])) ++ b).reverse.dropWhile (· ≠ '\x7d') =
      ('\x7b' :: (inner ++ ['\x7d'])).reverse := by
    rw [List.reverse_append, List.dropWhile_append_of_pos hclose, List.reverse_cons, List.reverse_append]
    rfl
  unfold widestBraces
  dsimp only
  rw [hfront, hback, List.reverse_reverse, if_neg (List.cons_ne_nil _ _)]

theorem isNumberChar_of_isSpace {c : Char} (h : Text.isSpace c = true) : isNumberChar c = false := by
  by_contra hno
  rw [Bool.not_eq_false] at hno
  unfold isNumberChar Char.isDigit at hno
  unfold Text.isSpace at h
  simp only [Bool.or_eq_true, Bool.and_eq_true, beq_iff_eq, decide_eq_true_eq] at hno h
  rcases hno with ((((hdigit | rfl) | rfl) | rfl) | rfl) | rfl
  · have hlow : 48 ≤ c.toNat := hdigit.1
    have hhigh : c.toNat ≤ 57 := hdigit.2
    omega
  · exact absurd h (by decide)
  · exact absurd h (by decide)
  · exact absurd h (by decide)
  · exact absurd h (by decide)
  · exact absurd h (by decide)

section Texts

variable {F : Type} {ft : FloatText F} {room : ℕ} {js : List Char} {kvs : List (List Char × Value F)}

/-- White space around the text of an object is taken off. -/
theorem trim_text (h : IsText ft js kvs) : Trim.trim Text.isSpace ('\n' :: (js ++ ['\n'])) = js := by
  obtain ⟨inner, rfl⟩ := h.braces
  have hfirst : ∀ t, ('\x7b' :: t).dropWhile Text.isSpace = '\x7b' :: t := fun t =>
    List.dropWhile_cons_of_neg (by decide)
  have hlast : ('\x7b' :: (inner ++ ['\x7d']) ++ ['\n']).reverse.dropWhile Text.isSpace =
      ('\x7b' :: (inner ++ ['\x7d'])).reverse := by
    rw [List.reverse_append, List.reverse_singleton, List.singleton_append,
      List.dropWhile_cons_of_pos (by decide), List.reverse_cons, List.reverse_append]
    rfl
  rw [Trim.trim_cons (by decide)]
  unfold Trim.trim
  rw [List.cons_append, hfirst, ← List.cons_append, hlast, List.reverse_reverse]

theorem readObject_eq_data {text : List Char} {e e' : ParseError} :
    readObject ft room text e e' = .data kvs ↔ reach ft text ≤ room ∧ decode ft text = .ok (.obj kvs) := by
  rw [← decodeIn_eq_ok]
  unfold readObject
  constructor
  · intro h
    cases hread : decodeIn ft room text with
    | error e =>
      rw [hread] at h
      cases e with
      | recursionError => cases h
      | valueError fault => cases fault <;> cases h
    | ok v =>
      rw [hread] at h
      cases v with
      | obj kvs' =>
        rw [Parsed.data.inj h]
      | null | bool | int | float | str | arr => cases h
  · intro h
    rw [h]

/-- A text that is cut in front of a fence is no JSON text. -/
theorem cut_not_decoded (h : IsText ft js kvs) {front back : List Char} (hjs : js = front ++ '\x60' :: back)
    (v : Value F) : decode ft (Trim.trim Text.isSpace ('\n' :: front)) ≠ .ok v := by
  intro hdecode
  obtain ⟨w, w', hw, hw', hsplit⟩ := Trim.trim_split front (p := Text.isSpace)
  rw [Trim.trim_cons (by decide)] at hdecode
  generalize Trim.trim Text.isSpace front = cut at hdecode hsplit
  obtain ⟨inner, hinner⟩ := h.braces
  -- nothing is taken off in front, as the object begins there
  have hnil : w = [] := by
    cases w with
    | nil => rfl
    | cons c w =>
      rw [hinner, hsplit] at hjs
      have hc : '\x7b' = c := (List.cons.inj hjs).1
      exact absurd (hw c List.mem_cons_self) (hc ▸ by decide)
  have hjs' : js = cut ++ (w' ++ '\x60' :: back) := by rw [hjs, hsplit, hnil, List.nil_append, List.append_assoc]
  have hends : Ends (w' ++ '\x60' :: back) := by
    cases w' with
    | nil => exact Ends.cons (by decide) back
    | cons c w' => exact Ends.cons (isNumberChar_of_isSpace (hw' c List.mem_cons_self)) _
  have hspace : ¬ JsonGrammar.Space (w' ++ '\x60' :: back) := fun hspace =>
    absurd (hspace '\x60' (List.mem_append_right _ List.mem_cons_self)) (by decide)
  have hmalformed := malformed_of_decode hdecode hends hspace
  rw [← hjs'] at hmalformed
  exact h.wellFormed hmalformed

theorem moreMembers_close [DecidableEq F] (ft : FloatText F) (st : Style) : ∀ kvs : List (List Char × Value F),
    ∃ u, moreMembers ft st kvs = u ++ ['\x7d']
  | [] => ⟨[], rfl⟩
  | kv :: kvs => by
    obtain ⟨u, hu⟩ := moreMembers_close ft st kvs
    rw [moreMembers, hu]
    exact ⟨',' :: (st.gap ++ ('"' :: (escapeRest st kv.1 ++ (':' :: (st.gap ++ (dumps ft st kv.2 ++ u)))))), by simp⟩

/-- What is dumped of an object is a text of it, in every style and with integers of
any size. -/
theorem dumps_isText [DecidableEq F] (st : Style) (h : (Value.obj kvs).Keyed) :
    IsText ft (dumps ft st (.obj kvs)) kvs where
  braces := by
    cases kvs with
    | nil => exact ⟨[], rfl⟩
    | cons kv kvs =>
      obtain ⟨u, hu⟩ := moreMembers_close ft st kvs
      rw [dumps, hu]
      exact ⟨'"' :: (escapeRest st kv.1 ++ (':' :: (st.gap ++ (dumps ft st kv.2 ++ u)))), by simp⟩
  wellFormed := by
    rw [decode_dumps h]
    intro hmalformed
    split at hmalformed
    · cases hmalformed
    · cases hmalformed
  stands := by
    intro v hv
    rw [decode_dumps h] at hv
    split at hv
    · exact (Except.ok.inj hv).symm
    · cases hv

/-- A fence in the text of an object ends the block there. -/
theorem not_recovered_of_fence (h : IsText ft js kvs) (hin : fence <:+: js) : ¬ Recovered ft room js kvs := by
  intro hrec
  obtain ⟨u, v, hjs⟩ := hin
  have hdata := hrec.fenced [] [] (by decide)
  -- the first fence behind the marker stands in the object
  have hsplit : '\n' :: (js ++ '\n' :: (fence ++ [])) = '\n' :: u ++ (fence ++ (v ++ '\n' :: (fence ++ []))) := by
    rw [← hjs]
    simp
  have hfence : fence ≠ [] := by decide
  obtain ⟨found, back, hfound, hpre, hback⟩ :=
    Cut.beforeFirst_prefix hfence ('\n' :: u) (v ++ '\n' :: (fence ++ []))
  rw [← hsplit] at hfound hback
  obtain ⟨front, rfl⟩ : ∃ front, found = '\n' :: front := by
    cases found with
    | nil => exact absurd (List.cons.inj hback).1 (by decide)
    | cons c front => exact ⟨front, by rw [(List.cons.inj hback).1]⟩
  obtain ⟨rest, hrest⟩ := (List.cons_prefix_cons.mp hpre).2
  have hcut : ∃ back, js = front ++ '\x60' :: back := by
    have htail : js ++ '\n' :: (fence ++ []) = front ++ (fence ++ back) := (List.cons.inj hback).2
    have hlong : front ++ (rest ++ (fence ++ v) ++ '\n' :: (fence ++ [])) = front ++ (fence ++ back) := by
      rw [← htail, ← hjs, ← hrest]
      simp
    rw [List.append_cancel_left_eq] at hlong
    have hne : rest ++ (fence ++ v) ≠ [] := by simp [fence]
    obtain ⟨c, t, hct⟩ := List.exists_cons_of_ne_nil hne
    rw [hct] at hlong
    refine ⟨t, ?_⟩
    rw [← (List.cons.inj hlong).1, ← hct, ← hjs, ← hrest]
    simp
  obtain ⟨back', hjs'⟩ := hcut
  have hfenced : extractFencedJson ([] ++ (jsonFence ++ '\n' :: (js ++ '\n' :: (fence ++ [])))) =
      some (Trim.trim Text.isSpace ('\n' :: front)) := by
    unfold extractFencedJson
    rw [afterFirst_jsonFence (by decide), Option.bind_some, hfound, Option.map_some]
  unfold tryParseJson at hdata
  rw [if_neg (by simp [jsonFence, fence]), hfenced] at hdata
  exact cut_not_decoded h hjs' _ (readObject_eq_data.mp hdata).2

/-- The block of a text without fences is read as this text is. -/
theorem tryParseJson_fenced (h : IsText ft js kvs) (hjs : ¬ fence <:+: js) {p : List Char} (hp : ¬ jsonFence <:+: p)
    (q : List Char) : ∃ e e',
      tryParseJson ft room (p ++ (jsonFence ++ '\n' :: (js ++ '\n' :: (fence ++ q)))) = readObject ft room js e e' := by
  unfold tryParseJson
  rw [if_neg (by simp [jsonFence, fence]), extractFencedJson_eq hp hjs q, trim_text h]
  exact ⟨_, _, rfl⟩

/-- Without a fence around it, an object that the decoder reads is always recovered. -/
theorem bare_recovered (h : IsText ft js kvs) (hroom : reach ft js ≤ room) (hread : decode ft js = .ok (.obj kvs))
    {a b : List Char} (ha : '\x7b' ∉ a) (hb : '\x7d' ∉ b) (hno : ¬ HasFence (a ++ (js ++ b))) :
    tryParseJson ft room (a ++ (js ++ b)) = .data kvs := by
  obtain ⟨inner, hinner⟩ := h.braces
  unfold tryParseJson
  rw [if_neg (by simp [hinner]), extractFencedJson_of_not_hasFence hno]
  dsimp only
  rw [hinner, widestBraces_eq ha hb inner, ← hinner]
  exact readObject_eq_data.mpr ⟨hroom, hread⟩

/-- **Fenced audit JSON** is recovered exactly where its text has no fence in it, no
integer with too many digits, and no nesting that the stack has no room for. -/
theorem recovered_iff (h : IsText ft js kvs) : Recovered ft room js kvs ↔
    ¬ fence <:+: js ∧ decode ft js ≠ .error .digits ∧ reach ft js ≤ room := by
  constructor
  · intro hrec
    have hjs : ¬ fence <:+: js := fun hin => not_recovered_of_fence h hin hrec
    obtain ⟨e, e', hparse⟩ := tryParseJson_fenced h hjs (p := []) (by decide) []
    rw [hrec.fenced [] [] (by decide)] at hparse
    obtain ⟨hroom, hread⟩ := readObject_eq_data.mp hparse.symm
    rw [hread]
    exact ⟨hjs, nofun, hroom⟩
  · rintro ⟨hjs, hdigits, hroom⟩
    have hread : decode ft js = .ok (.obj kvs) := by
      cases hdecode : decode ft js with
      | error fault =>
        cases fault with
        | malformed => exact absurd hdecode h.wellFormed
        | digits => exact absurd hdecode hdigits
      | ok v => rw [h.stands v hdecode]
    refine ⟨fun p q hp => ?_, fun a b ha hb hno => bare_recovered h hroom hread ha hb hno⟩
    obtain ⟨e, e', hparse⟩ := tryParseJson_fenced h hjs hp q
    rw [hparse]
    exact readObject_eq_data.mpr ⟨hroom, hread⟩

end Texts

def compact : Style := { ensureAscii := false, spaced := false }

def successMembers : List (List Char × Value Unit) := [("verdict".toList, .str "success".toList)]

theorem success_recovered :
    Recovered ToolCalls.noFloats 1000 (dumps ToolCalls.noFloats compact (.obj successMembers)) successMembers ↔
      ¬ fence <:+: dumps ToolCalls.noFloats compact (.obj successMembers) ∧
        decode ToolCalls.noFloats (dumps ToolCalls.noFloats compact (.obj successMembers)) ≠ .error .digits ∧
        reach ToolCalls.noFloats (dumps ToolCalls.noFloats compact (.obj successMembers)) ≤ 1000 :=
  recovered_iff (dumps_isText compact (.obj _ (by decide) (by simpa [successMembers] using .str _)))

/-- An audit that quotes a fence. -/
def quotingMembers : List (List Char × Value Unit) := [("summary".toList, .str "use \x60\x60\x60".toList)]

/-- It is cut off inside its string. -/
theorem quoting_lost :
    IsText ToolCalls.noFloats (dumps ToolCalls.noFloats compact (.obj quotingMembers)) quotingMembers ∧
      ¬ Recovered ToolCalls.noFloats 1000 (dumps ToolCalls.noFloats compact (.obj quotingMembers)) quotingMembers := by
  have htext : IsText ToolCalls.noFloats (dumps ToolCalls.noFloats compact (.obj quotingMembers)) quotingMembers :=
    dumps_isText compact (.obj _ (by decide) (by simpa [quotingMembers] using .str _))
  exact ⟨htext, not_recovered_of_fence htext (by decide +kernel)⟩

end Cycle
end AgentCore
