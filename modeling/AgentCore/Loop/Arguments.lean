/-
# The arguments of a tool call

A provider's tool call is read twice: `to_openai_tool_calls` of
`model_profile.py` writes it into the history, and
`_normalize_native_tool_call` of `tool_call_parser.py` hands it to the
executor. Each has its own fallbacks for arguments that are a dictionary, a
text, something else or not there at all. A text that is no JSON is one of them,
but the `RecursionError` of one that is nested too deep is caught by neither.

A raw value is what Python holds for a piece of the provider's answer, so its
dictionaries have distinct keys. How much room a call finds on its stack for
nested containers is a number of its own.

Key definitions: `toOpenaiToolCall`, `normalizeNativeToolCall`, `Agree`, `Fits`.
Key theorem: `history_arguments_eq_dispatched`.
-/
import AgentCore.Lib.JsonDepth
import AgentCore.Text

namespace AgentCore
namespace ToolCalls

open PyJson

variable {F : Type} (ft : FloatText F)

/-- A value Python holds. -/
abbrev Raw (F : Type) := { v : Value F // v.Keyed }

/-- `bool` of a value, `isZero` being that of a float. -/
def truthy (isZero : F → Bool) : Value F → Bool
  | .null => false
  | .bool b => b
  | .int n => n ≠ 0
  | .float x => !isZero x
  | .str s => s ≠ []
  | .arr xs => !xs.isEmpty
  | .obj kvs => !kvs.isEmpty

/-- `x or ""` of a value that may be missing. -/
def orEmpty (isZero : F → Bool) (v : Option (Raw F)) : Value F :=
  match v with
  | none => .str []
  | some v => if truthy isZero v.1 then v.1 else .str []

/-- The `function` of a call, by its keys. -/
structure FunctionPart (F : Type) where
  name : Option (Raw F)
  arguments : Option (Raw F)

/-- A tool call by its keys: the wire shape has a `function`, the parsed shape
`name` and `args`. -/
structure NativeCall (F : Type) where
  id : Option (Raw F)
  function : Option (FunctionPart F)
  name : Option (Raw F)
  args : Option (Raw F)

/-- The call as a history records it. -/
structure HistoryCall (F : Type) where
  id : Value F
  name : Value F
  arguments : List Char

/-- The call as the executor gets it. -/
structure DispatchedCall (F : Type) where
  id : Value F
  name : Value F
  args : Value F

def emptyObject : List Char := "\x7b\x7d".toList

/-- `json.dumps(raw, ensure_ascii=False)`. -/
def plainStyle : Style := ⟨false, true⟩

def isBlank (cs : List Char) : Bool := cs.all Text.isSpace

/-- `_arguments_json`; none is what it raises. -/
def argumentsJson [DecidableEq F] (room : ℕ) (raw : Value F) : Option (List Char) :=
  match raw with
  | .obj kvs => dumpsIn ft plainStyle room (.obj kvs)
  | .str text =>
    if isBlank text then some emptyObject
    else
      match decodeIn ft room text with
      | .ok (.obj _) => some text
      | .ok _ => some emptyObject
      | .error (.valueError _) => some emptyObject
      | .error .recursionError => none
  | _ => some emptyObject

/-- `d.get(key, default)`. -/
def getOr (v : Option (Raw F)) (default : Value F) : Value F :=
  match v with
  | none => default
  | some v => v.1

/-- One call of `to_openai_tool_calls`. A call without arguments of its own that
has a `function` is read from there. -/
def toOpenaiToolCall [DecidableEq F] (room : ℕ) (isZero : F → Bool) (tc : NativeCall F) : Option (HistoryCall F) :=
  let args := getOr tc.args .null
  match args, tc.function with
  | .null, some fn =>
    (argumentsJson ft room (getOr fn.arguments (.str emptyObject))).map fun arguments =>
      { id := orEmpty isZero tc.id
        name := getOr fn.name (.str [])
        arguments }
  | args, _ =>
    (argumentsJson ft room args).map fun arguments =>
      { id := orEmpty isZero tc.id
        name := getOr tc.name (.str [])
        arguments }

/-- `json.loads` of a text that is not blank, with the fallback for one that
cannot be read; none is a `RecursionError`. -/
def loadsOrEmpty (room : ℕ) (text : List Char) : Option (Value F) :=
  if isBlank text then some (.obj [])
  else
    match decodeIn ft room text with
    | .ok v => some v
    | .error (.valueError _) => some (.obj [])
    | .error .recursionError => none

/-- `_normalize_native_tool_call`; none is what it raises. -/
def normalizeNativeToolCall (room : ℕ) (isZero : F → Bool) (tc : NativeCall F) : Option (DispatchedCall F) :=
  match tc.function with
  | some fn =>
    let args : Option (Value F) :=
      match getOr fn.arguments (.str []) with
      | .str text => loadsOrEmpty ft room text
      | .obj kvs => some (.obj kvs)
      | _ => some (.obj [])
    args.map fun args =>
      { id := orEmpty isZero tc.id
        name := orEmpty isZero fn.name
        args := match args with
          | .obj kvs => .obj kvs
          | _ => .obj [] }
  | none =>
    some
      { id := orEmpty isZero tc.id
        name := orEmpty isZero tc.name
        args := match tc.args with
          | none => .obj []
          | some v => if truthy isZero v.1 then v.1 else .obj [] }

/-! ### Agreement -/

/-- Both readings return, with room for so many containers each, and the text in
the history stands for the object that is handed to the tool. -/
def Agree [DecidableEq F] (room room' : ℕ) (isZero : F → Bool) (tc : NativeCall F) : Prop :=
  ∃ recorded dispatched, toOpenaiToolCall ft room isZero tc = some recorded ∧
    normalizeNativeToolCall ft room' isZero tc = some dispatched ∧
    ∃ kvs, decode ft recorded.arguments = .ok (.obj kvs) ∧ dispatched.args = .obj kvs

/-- The stack has room for what is read or written of the arguments: of none at
all, the `{}` of the history. -/
def Fits (room room' : ℕ) (arguments : Option (Raw F)) : Prop :=
  match arguments with
  | none => 1 ≤ room
  | some ⟨.str text, _⟩ => isBlank text = true ∨ reach ft text ≤ room ∧ reach ft text ≤ room'
  | some ⟨.obj kvs, _⟩ => (Value.obj kvs).writable room = true
  | some _ => True

variable {ft}

/-! ### Blank texts -/

theorem ne_of_isSpace {c d : Char} (hc : Text.isSpace c = true) (hd : Text.isSpace d = false) : c ≠ d := by
  rintro rfl
  rw [hc] at hd
  exact Bool.noConfusion hd

theorem isNumberChar_of_isSpace {c : Char} (hc : Text.isSpace c = true) : isNumberChar c = false := by
  have hdigit : c.isDigit = false := by
    cases hd : c.isDigit with
    | false => rfl
    | true =>
      have hrange : 48 ≤ c.toNat ∧ c.toNat ≤ 57 := by
        unfold Char.isDigit at hd
        obtain ⟨h1, h2⟩ := Bool.and_eq_true_iff.mp hd
        exact ⟨UInt32.le_iff_toNat_le.mp (of_decide_eq_true h1), UInt32.le_iff_toNat_le.mp (of_decide_eq_true h2)⟩
      unfold Text.isSpace at hc
      simp only [Bool.or_eq_true, Bool.and_eq_true, decide_eq_true_eq, beq_iff_eq] at hc
      omega
  have hplus := ne_of_isSpace hc (by decide : Text.isSpace '+' = false)
  have hminus := ne_of_isSpace hc (by decide : Text.isSpace '-' = false)
  have hdot := ne_of_isSpace hc (by decide : Text.isSpace '.' = false)
  have he := ne_of_isSpace hc (by decide : Text.isSpace 'e' = false)
  have hE := ne_of_isSpace hc (by decide : Text.isSpace 'E' = false)
  simp [isNumberChar, hdigit, hplus, hminus, hdot, he, hE]

theorem literal_of_isSpace {c : Char} (hc : Text.isSpace c = true) (cs : List Char) : literal ft (c :: cs) = none := by
  have hskip : ∀ (d : Char) (ds : List Char), Text.isSpace d = false → (d :: ds).isPrefixOf? (c :: cs) = none := by
    intro d ds hd
    have hne : (d == c) = false := by simpa using (ne_of_isSpace hc hd).symm
    rw [List.isPrefixOf?, hne]
    rfl
  unfold literal literals
  rw [List.findSome?_eq_none_iff]
  intro l hl
  simp only [List.mem_cons, List.not_mem_nil, or_false] at hl
  rcases hl with rfl | rfl | rfl | rfl | rfl | rfl
  all_goals exact congrArg (Option.map _) (hskip _ _ (by decide))

theorem scalar_of_isSpace {c : Char} (hc : Text.isSpace c = true) (cs : List Char) : scalar ft (c :: cs) = none := by
  have hnum : isNumberChar c = false := isNumberChar_of_isSpace hc
  have hnumber : number ft (c :: cs) = none := by
    unfold number
    rw [List.takeWhile_cons_of_neg (by rw [hnum]; exact Bool.false_ne_true)]
    rfl
  unfold scalar
  rw [hnumber, literal_of_isSpace hc]
  rfl

/-- A blank text is no JSON text. -/
theorem loads_of_isBlank {text : List Char} (h : isBlank text = true) : loads ft text = none := by
  unfold loads
  dsimp only
  have hsub : ∀ c ∈ skipSpace text, Text.isSpace c = true := by
    intro c hc
    exact List.all_eq_true.mp h c ((List.dropWhile_suffix _).subset hc)
  cases hcs : skipSpace text with
  | nil => rfl
  | cons c cs =>
    have hc : Text.isSpace c = true := hsub c (hcs ▸ List.mem_cons_self)
    rw [List.length_cons, value, if_neg (ne_of_isSpace hc (by decide)), if_neg (ne_of_isSpace hc (by decide)),
      if_neg (ne_of_isSpace hc (by decide)), scalar_of_isSpace hc]
    rfl

/-! ### Both readings agree -/

theorem decode_emptyObject : decode ft emptyObject = .ok (.obj []) := rfl

theorem reach_emptyObject : reach ft emptyObject = 1 := rfl

variable (ft) in
/-- The object the arguments of a text stand for, its stack being large enough. -/
def objectOf (text : List Char) : List (List Char × Value F) :=
  match decode ft text with
  | .ok (.obj kvs) => kvs
  | _ => []

section Readings

variable {room : ℕ} {text : List Char}

/-- Within its room, the history's text stands for the object. -/
theorem argumentsJson_text [DecidableEq F] (h : isBlank text = false) (hroom : reach ft text ≤ room) :
    ∃ recorded, argumentsJson ft room (.str text) = some recorded ∧
      decode ft recorded = .ok (.obj (objectOf ft text)) := by
  have hin : decodeIn ft room text = (decode ft text).mapError .valueError := if_neg (Nat.not_lt.mpr hroom)
  rw [argumentsJson, if_neg (by rw [h]; exact Bool.false_ne_true), hin]
  unfold objectOf
  cases hd : decode ft text with
  | error e => exact ⟨emptyObject, rfl, decode_emptyObject⟩
  | ok v =>
    cases v with
    | obj kvs => exact ⟨text, rfl, hd⟩
    | null | bool | int | float | str | arr => exact ⟨emptyObject, rfl, decode_emptyObject⟩

theorem argumentsJson_none [DecidableEq F] (h : isBlank text = false) (hroom : room < reach ft text) :
    argumentsJson ft room (.str text) = none := by
  rw [argumentsJson, if_neg (by rw [h]; exact Bool.false_ne_true), decodeIn_eq_recursionError.mpr hroom]

/-- What the executor reads of a text. -/
theorem loadsOrEmpty_text (h : isBlank text = false) (hroom : reach ft text ≤ room) :
    loadsOrEmpty ft room text = some (match decode ft text with | .ok v => v | .error _ => .obj []) := by
  have hin : decodeIn ft room text = (decode ft text).mapError .valueError := if_neg (Nat.not_lt.mpr hroom)
  rw [loadsOrEmpty, if_neg (by rw [h]; exact Bool.false_ne_true), hin]
  cases decode ft text with
  | error e => rfl
  | ok v => rfl

theorem loadsOrEmpty_none (h : isBlank text = false) (hroom : room < reach ft text) :
    loadsOrEmpty ft room text = none := by
  rw [loadsOrEmpty, if_neg (by rw [h]; exact Bool.false_ne_true), decodeIn_eq_recursionError.mpr hroom]

end Readings

section Calls

variable [DecidableEq F] {room room' : ℕ} {isZero : F → Bool} {tc : NativeCall F} {fn : FunctionPart F}

/-- What the two readings of a call of the wire shape come to. -/
theorem agree_iff_readings (hargs : tc.args = none) (hfn : tc.function = some fn) :
    Agree ft room room' isZero tc ↔
      ∃ text args kvs, argumentsJson ft room (getOr fn.arguments (.str emptyObject)) = some text ∧
        (match getOr fn.arguments (.str []) with
          | .str text => loadsOrEmpty ft room' text
          | .obj kvs => some (.obj kvs)
          | _ => some (.obj [])) = some args ∧
        decode ft text = .ok (.obj kvs) ∧ (match args with | .obj kvs => Value.obj kvs | _ => .obj []) = .obj kvs := by
  unfold Agree toOpenaiToolCall normalizeNativeToolCall
  rw [hargs, hfn]
  dsimp only [getOr]
  constructor
  · rintro ⟨recorded, dispatched, hr, hd, kvs, hdec, hkvs⟩
    obtain ⟨text, htext, rfl⟩ := Option.map_eq_some_iff.mp hr
    obtain ⟨args, ha, rfl⟩ := Option.map_eq_some_iff.mp hd
    exact ⟨text, args, kvs, htext, ha, hdec, hkvs⟩
  · rintro ⟨text, args, kvs, htext, ha, hdec, hkvs⟩
    exact ⟨_, _, by rw [htext]; rfl, by rw [ha]; rfl, kvs, hdec, hkvs⟩

/-- **A text** of arguments, blank or not. -/
theorem agree_text_iff (hargs : tc.args = none) (hfn : tc.function = some fn) {text : List Char}
    (htext : fn.arguments.map (·.1) = some (.str text)) :
    Agree ft room room' isZero tc ↔ isBlank text = true ∨ reach ft text ≤ room ∧ reach ft text ≤ room' := by
  obtain ⟨raw, hraw, hv⟩ := Option.map_eq_some_iff.mp htext
  have hget : ∀ default, getOr fn.arguments default = .str text := fun default => by rw [hraw, getOr, hv]
  rw [agree_iff_readings hargs hfn, hget, hget]
  cases hblank : isBlank text with
  | true =>
    have hjson : argumentsJson ft room (.str text) = some emptyObject := if_pos hblank
    have hload : loadsOrEmpty ft room' text = some (.obj []) := if_pos hblank
    exact ⟨fun _ => .inl rfl, fun _ => ⟨_, _, [], hjson, hload, decode_emptyObject, rfl⟩⟩
  | false =>
    constructor
    · rintro ⟨recorded, args, kvs, hjson, hload, -, -⟩
      refine .inr ⟨?_, ?_⟩
      · by_contra hdeep
        rw [argumentsJson_none hblank (Nat.not_le.mp hdeep)] at hjson
        cases hjson
      · by_contra hdeep
        dsimp only at hload
        rw [loadsOrEmpty_none hblank (Nat.not_le.mp hdeep)] at hload
        cases hload
    · rintro (h | ⟨hroom, hroom'⟩)
      · cases h
      · obtain ⟨recorded, hjson, hdec⟩ := argumentsJson_text hblank hroom
        refine ⟨recorded, _, _, hjson, loadsOrEmpty_text hblank hroom', hdec, ?_⟩
        unfold objectOf
        cases decode ft text with
        | error e => rfl
        | ok v => cases v <;> rfl

/-- **History and executor see the same arguments** exactly where the stack has
room for them: for every call of the wire shape, with arguments of any kind or
none, both then return, and the text recorded in the history stands for the
object handed to the tool. -/
theorem history_arguments_eq_dispatched (room room' : ℕ) (isZero : F → Bool) (tc : NativeCall F)
    (fn : FunctionPart F) (hargs : tc.args = none) (hfn : tc.function = some fn) :
    Agree ft room room' isZero tc ↔ Fits ft room room' fn.arguments := by
  cases harguments : fn.arguments with
  | none =>
    rw [agree_iff_readings hargs hfn, harguments]
    have hload : loadsOrEmpty ft room' [] = some (.obj []) := rfl
    constructor
    · rintro ⟨text, args, kvs, hjson, -⟩
      by_contra hroom
      rw [getOr, argumentsJson_none rfl (by rw [reach_emptyObject]; exact Nat.not_le.mp hroom)] at hjson
      cases hjson
    · intro hroom
      have hdefault : reach ft emptyObject ≤ room := hroom
      obtain ⟨recorded, hjson, hdec⟩ := argumentsJson_text rfl hdefault
      exact ⟨recorded, _, [], hjson, hload, hdec, rfl⟩
  | some raw =>
    obtain ⟨v, hkeyed⟩ := raw
    cases v with
    | str text =>
      have htext : fn.arguments.map Subtype.val = some (.str text) := by rw [harguments]; rfl
      rw [agree_text_iff hargs hfn htext]
      rfl
    | obj kvs =>
      rw [agree_iff_readings hargs hfn, harguments]
      constructor
      · rintro ⟨text, args, kvs', hjson, -⟩
        by_contra hwrite
        have hno : ¬ (Value.obj kvs).writable room = true := hwrite
        rw [getOr, argumentsJson, dumpsIn, if_neg hno] at hjson
        cases hjson
      · intro hwrite
        have hjson : argumentsJson ft room (.obj kvs) = some (dumps ft plainStyle (.obj kvs)) := if_pos hwrite
        have hprint := hkeyed.printable (Value.writable_iff.mp hwrite).1
        exact ⟨_, _, kvs, hjson, rfl, decode_of_loads (loads_dumps hprint), rfl⟩
    | null | bool | int | float | arr =>
      rw [agree_iff_readings hargs hfn, harguments]
      exact ⟨fun _ => trivial, fun _ => ⟨emptyObject, .obj [], [], rfl, rfl, decode_emptyObject, rfl⟩⟩

end Calls

/-- Floats for calls that have none. -/
def noFloats : FloatText Unit := ⟨(), (), (), fun _ => [], fun _ => (), fun _ h => absurd rfl h, fun _ h => absurd rfl h⟩

/-- A call whose arguments are a text. -/
def textCall (arguments : List Char) : NativeCall Unit :=
  { id := some ⟨.str "c1".toList, .str _⟩, name := none, args := none
    function := some ⟨some ⟨.str "ls".toList, .str _⟩, some ⟨.str arguments, .str _⟩⟩ }

/-- A text that is cut off is `{}` for both. -/
theorem history_arguments_eq_dispatched_malformed :
    Agree noFloats 1000 1000 (fun _ => true) (textCall "\x7b\"a\":".toList) :=
  (history_arguments_eq_dispatched 1000 1000 (fun _ => true) (textCall "\x7b\"a\":".toList)
    ⟨some ⟨.str "ls".toList, .str _⟩, some ⟨.str "\x7b\"a\":".toList, .str _⟩⟩ rfl rfl).mpr
    (Or.inr ⟨by decide +kernel, by decide +kernel⟩)

theorem isBlank_openers (n : ℕ) : isBlank (List.replicate (n + 1) '[') = false := by
  rw [isBlank, List.replicate_succ, List.all_cons]
  rfl

/-- Neither reads a text that is nested too deep. -/
theorem textCall_raises {room : ℕ} {text : List Char} (hblank : isBlank text = false)
    (hdeep : room < reach noFloats text) :
    toOpenaiToolCall noFloats room (fun _ => true) (textCall text) = none ∧
      normalizeNativeToolCall noFloats room (fun _ => true) (textCall text) = none :=
  ⟨congrArg (Option.map _) (argumentsJson_none hblank hdeep),
    congrArg (Option.map _) (loadsOrEmpty_none hblank hdeep)⟩

/-- Opening brackets alone, which are no JSON. -/
def brackets : List Char := List.replicate 200000 '['

theorem nested_arguments_raise :
    toOpenaiToolCall noFloats 1000 (fun _ => true) (textCall brackets) = none ∧
      normalizeNativeToolCall noFloats 1000 (fun _ => true) (textCall brackets) = none ∧
      ¬ Agree noFloats 1000 1000 (fun _ => true) (textCall brackets) := by
  have hdeep : 1000 < reach noFloats brackets := by
    rw [brackets, reach_openers]
    decide
  have hblank : isBlank brackets = false := isBlank_openers 199999
  obtain ⟨hrecorded, hdispatched⟩ := textCall_raises hblank hdeep
  refine ⟨hrecorded, hdispatched, ?_⟩
  rintro ⟨recorded, -, hr, -⟩
  rw [hrecorded] at hr
  cases hr

end ToolCalls
end AgentCore
