/-
# Tool calls read out of a text

`MultiFormatToolCallParser.parse_text`: tool calls that a model wrote into its
text, in one of five formats. Each format has a marker that must stand in the
text; the first format whose marker does and that finds a call is taken, but the
Seed format is taken even where it finds none. `_parse_json_tool_calls` reads the
format of closed blocks.

The JSON decoder is a parameter, and so are the word characters beyond ASCII, the
truth of a float and the text of a value that is no string. The decoder may
refuse a text (its `ValueError`, which is caught), or run into the recursion limit
of the interpreter, which is not. The log is left out.

Key definitions: `parseText`, `parseJsonToolCalls`, `Fails`.
Key theorem: `parse_text_safe_iff`.
-/
import Mathlib.Data.List.Nodup
import AgentCore.Lib.Json
import AgentCore.Loop.Arguments
import AgentCore.Loop.LeakedReasoning

namespace AgentCore.Loop.ToolCallParser

open Blocks PyJson

abbrev Chars := List Char

inductive PyError
  | typeError | recursionError
  deriving DecidableEq, Repr

/-- What `json.loads` comes to. -/
inductive Decoded (F : Type)
  | value (v : Value F)
  | malformed
  | tooDeep

/-- The parts of Python that are parameters: `json.loads`, the characters of `\w`
beyond ASCII, the truth of a float, and `str` of a value, which is `none` where it
raises. -/
structure Python (F : Type) where
  loads : Chars → Decoded F
  wordBeyond : Char → Bool
  truthyFloat : F → Bool
  str : Value F → Option Chars

/-- A parsed tool call. -/
structure Call (F : Type) where
  name : Chars
  args : Value F
  id : String

def strip (t : Chars) : Chars := Trim.trim Text.isSpace t

variable {F : Type} (py : Python F)

/-! ### The patterns -/

/-- `\w`. -/
def isWord (c : Char) : Bool := if c.toNat < 128 then c.isAlphanum || c == '_' else py.wordBeyond c

/-- The tests of a literal. -/
def literal (s : String) : List (Char → Bool) := s.toList.map fun c => fun d => d = c

/-- The tests of a literal, without regard to case. -/
def ignoreCase (s : String) : List (Char → Bool) := LeakedReasoning.tests s

def isLt (c : Char) : Bool := c = '<'

/-- A word between two literals, captured. -/
def wordTag (opening : Reader Char Unit) (p : Char → Bool) (ps : List (Char → Bool)) : Opening Char Chars :=
  .closedBy (opening.andThen (fun _ word => word) (.many1 (isWord py))) p ps

/-- `_TOOL_CALL_RE`. -/
def toolCallRe : Pattern Char Unit := padded isLt (literal "tool_call>") (literal "</tool_call>") Text.isSpace

/-- `_MCP_USE_TOOL_RE`. -/
def mcpUseToolRe : Pattern Char Unit :=
  padded isLt (ignoreCase "use_mcp_tool>") (ignoreCase "</use_mcp_tool>") Text.isSpace

/-- The pattern of `_extract_xml_value`. -/
def xmlValueRe (tag : String) : Pattern Char Unit :=
  padded isLt (ignoreCase (tag ++ ">")) (ignoreCase ("</" ++ tag ++ ">")) Text.isSpace

/-- Two literals with any amount of white space between them, captured as nothing. -/
def spacedText (a b : String) : Reader Char Unit :=
  ((Reader.text (literal a)).andThen (fun _ _ => ()) (.many Text.isSpace)).andThen (fun _ _ => ()) (.text (literal b))

/-- Two literals with some white space between them. -/
def apartText (a b : String) : Reader Char Unit :=
  ((Reader.text (literal a)).andThen (fun _ _ => ()) (.many1 Text.isSpace)).andThen (fun _ _ => ()) (.text (literal b))

def isGt (c : Char) : Bool := c = '>'

/-- `_QWEN_TOOL_CALL_RE`. -/
def qwenToolCallRe : Pattern Char Chars where
  toOpening := wordTag py (spacedText "<tool_call>" "<function=") isGt []
  closes t := ((spacedText "</function>" "</tool_call>").read t).map Prod.snd
  closes_suffix := by
    intro t r h
    obtain ⟨m, hm, rfl⟩ := Option.map_eq_some_iff.mp h
    exact (spacedText "</function>" "</tool_call>").suffix hm

/-- A pattern that one literal closes. -/
def closedByText (o : Opening Char Chars) (closing : String) : Pattern Char Chars where
  toOpening := o
  closes := lit (literal closing)
  closes_suffix := by
    intro t r h
    obtain ⟨front, rfl, -⟩ := lit_eq_some.mp h
    exact List.suffix_append front r

/-- `_QWEN_PARAM_RE`. -/
def qwenParamRe : Pattern Char Chars :=
  closedByText (wordTag py (.text (literal "<parameter=")) isGt []) "</parameter>"

/-- `_SEED_FUNCTION_RE`. -/
def seedFunctionRe : Pattern Char Chars :=
  closedByText (wordTag py (apartText "<function" "name=\"") (· = '"') [isGt]) "</function>"

/-- `_SEED_PARAM_RE`. -/
def seedParamRe : Pattern Char Chars :=
  closedByText
    (.closedBy
      (((apartText "<parameter" "name=\"").andThen (fun _ word => word) (.many1 (isWord py))).andThen (fun word _ => word)
        ((Reader.text (literal "\"")).andThen (fun _ _ => ()) (.many (· ≠ '>')))) isGt [])
    "</parameter>"

/-- `_SEED_TAG_HINT_RE.search`: behind the tag a run of word characters and
colons, in which the word stands. -/
def seedTagHint (text : Chars) : Bool :=
  text.tails.any fun t =>
    "<seed".toList.isPrefixOf t &&
      (((t.drop 5).takeWhile fun c => c = ':' || isWord py c).tails.any "tool".toList.isPrefixOf)

/-- `_FC_WRAPPED_RE`; the brackets are part of what is captured. -/
def fcWrappedRe : Pattern Char Unit where
  toOpening := .closedBy ((Reader.text (literal "<|FunctionCallBegin|>")).andThen (fun _ _ => ()) (.many Text.isSpace))
    (· = '[') []
  closes t := ((spacedText "]" "<|FunctionCallEnd|>").read t).map Prod.snd
  closes_suffix := by
    intro t r h
    obtain ⟨m, hm, rfl⟩ := Option.map_eq_some_iff.mp h
    exact (spacedText "]" "<|FunctionCallEnd|>").suffix hm

/-- What `_DANGLING_TOOL_CALL_RE` begins with, up to the brace. -/
def danglingOpen : Opening Char Unit :=
  .closedBy ((Reader.text (literal "<tool_call>")).andThen (fun _ _ => ()) (.many Text.isSpace)) (· = '\x7b') []

/-! ### Values -/

/-- `bool` of a value. -/
def truthy : Value F → Bool
  | .null => false
  | .bool b => b
  | .int n => n ≠ 0
  | .float x => py.truthyFloat x
  | .str s => !s.isEmpty
  | .arr xs => !xs.isEmpty
  | .obj kvs => !kvs.isEmpty

def field (key : String) (kvs : List (Chars × Value F)) : Option (Value F) :=
  (kvs.find? fun kv => kv.1 = key.toList).map Prod.snd

def isDict : Value F → Bool
  | .obj _ => true
  | _ => false

/-- A value that a set can be asked for. -/
def hashable : Value F → Bool
  | .arr _ => false
  | .obj _ => false
  | _ => true

/-- `args if isinstance(args, dict) else {}` of `payload.get("args", {})`. -/
def argsOf (payload : List (Chars × Value F)) : Value F :=
  match field "args" payload with
  | some (.obj kvs) => .obj kvs
  | _ => .obj []

/-- `str(payload.get("tool", "") or "").strip()`. -/
def toolName (payload : List (Chars × Value F)) : Except PyError Chars :=
  match field "tool" payload with
  | none => .ok []
  | some (.str s) => .ok (strip s)
  | some v =>
    if truthy py v then
      match py.str v with
      | some s => .ok (strip s)
      | none => .error .recursionError
    else .ok []

/-- The call of a decoded `{"tool": …, "args": …}`. -/
def payloadCall (names : List Chars) : Value F → Except PyError (Option (Chars × Value F))
  | .obj payload => (toolName py payload).map fun name =>
      if name ≠ [] ∧ name ∈ names then some (name, argsOf payload) else none
  | _ => .ok none

/-- `_coerce_param_value`. -/
def coerceParamValue (raw : Chars) : Except PyError (Value F) :=
  match py.loads raw with
  | .value v => .ok v
  | .malformed => .ok (.str raw)
  | .tooDeep => .error .recursionError

/-! ### The formats -/

/-- The arguments of one block of the Qwen or the Seed format. -/
def paramArgs : List (Chars × Chars) → List (Chars × Value F) → Except PyError (List (Chars × Value F))
  | [], args => .ok args
  | m :: ms, args =>
    match coerceParamValue py (strip m.2) with
    | .error e => .error e
    | .ok v => paramArgs ms (setKey m.1 v args)

/-- The loop over the blocks of the Qwen or the Seed format, from a number on. -/
def xmlCalls (names : List Chars) (paramRe : Pattern Char Chars) (idPrefix : String) :
    ℕ → List (Chars × Chars) → Except PyError (List (Call F))
  | _, [] => .ok []
  | i, m :: ms =>
    if m.1 ∉ names then xmlCalls names paramRe idPrefix (i + 1) ms
    else
      match paramArgs py (paramRe.found m.2) [] with
      | .error e => .error e
      | .ok args => (xmlCalls names paramRe idPrefix (i + 1) ms).map (⟨m.1, .obj args, idPrefix ++ toString i⟩ :: ·)

/-- `_parse_qwen_xml`. -/
def parseQwenXml (text : Chars) (names : List Chars) : Except PyError (List (Call F)) :=
  xmlCalls py names (qwenParamRe py) "qwen_tc_" 0 ((qwenToolCallRe py).found text)

/-- `_parse_seed_xml`. -/
def parseSeedXml (text : Chars) (names : List Chars) : Except PyError (List (Call F)) :=
  xmlCalls py names (seedParamRe py) "seed_tc_" 0 ((seedFunctionRe py).found text)

/-- `_extract_xml_value`. -/
def extractXmlValue (body : Chars) (tag : String) : Chars :=
  match (xmlValueRe tag).inners body with
  | [] => []
  | inner :: _ => strip inner

/-- The arguments of one `<use_mcp_tool>` block. -/
def mcpArguments (body : Chars) : Except PyError (Value F) :=
  let raw := extractXmlValue body "arguments"
  if raw = [] then .ok (.obj [])
  else
    match py.loads raw with
    | .value (.obj kvs) => .ok (.obj kvs)
    | .value _ => .ok (.obj [])
    | .malformed => .ok (.obj [])
    | .tooDeep => .error .recursionError

/-- The loop over the `<use_mcp_tool>` blocks, from a number on. -/
def mcpCalls : ℕ → List Chars → Except PyError (List (Call F))
  | _, [] => .ok []
  | i, body :: bodies =>
    let serverName := extractXmlValue body "server_name"
    let toolName := extractXmlValue body "tool_name"
    if serverName = [] ∨ toolName = [] then mcpCalls (i + 1) bodies
    else
      match mcpArguments py body with
      | .error e => .error e
      | .ok arguments =>
        (mcpCalls (i + 1) bodies).map
          (⟨"use_mcp_tool".toList, .obj [("server_name".toList, .str serverName), ("tool_name".toList, .str toolName),
            ("arguments".toList, arguments)], "mcp_tc_" ++ toString i⟩ :: ·)

/-- `_parse_mcp_tool_calls`. -/
def parseMcpToolCalls (text : Chars) (names : List Chars) : Except PyError (List (Call F)) :=
  if "use_mcp_tool".toList ∉ names then .ok [] else mcpCalls py 0 (mcpUseToolRe.inners text)

/-- `call.get("parameters") or call.get("arguments") or {}`. -/
def fcArgs (kvs : List (Chars × Value F)) : Value F :=
  match (field "parameters" kvs).filter (truthy py) with
  | some v => v
  | none => ((field "arguments" kvs).filter (truthy py)).getD (.obj [])

/-- One object of a wrapped list: its call, if it is one. Looking up a list or an
object in the set of names raises. -/
def fcCall (names : List Chars) (kvs : List (Chars × Value F)) : Except PyError (Option (Chars × Value F)) :=
  let name := (field "name" kvs).getD (.str [])
  if hashable name = false then .error .typeError
  else
    match name with
    | .str s => .ok (if s ∈ names ∧ isDict (fcArgs py kvs) then some (s, fcArgs py kvs) else none)
    | _ => .ok none

/-- The loop over the items of one wrapped list; `idx` counts the calls so far. -/
def fcItems (names : List Chars) : List (Value F) → ℕ → Except PyError (List (Call F))
  | [], _ => .ok []
  | .obj kvs :: vs, idx =>
    match fcCall py names kvs with
    | .error e => .error e
    | .ok none => fcItems names vs idx
    | .ok (some c) => (fcItems names vs (idx + 1)).map (⟨c.1, c.2, "fc_tc_" ++ toString idx⟩ :: ·)
  | _ :: vs, idx => fcItems names vs idx

/-- The loop over the wrapped lists. -/
def fcCalls (names : List Chars) : List Chars → ℕ → Except PyError (List (Call F))
  | [], _ => .ok []
  | inner :: inners, idx =>
    match py.loads ('[' :: (inner ++ [']'])) with
    | .tooDeep => .error .recursionError
    | .value (.arr vs) =>
      match fcItems py names vs idx with
      | .error e => .error e
      | .ok calls => (fcCalls names inners (idx + calls.length)).map (calls ++ ·)
    | _ => fcCalls names inners idx

/-- `_parse_fc_wrapped`. -/
def parseFcWrapped (text : Chars) (names : List Chars) : Except PyError (List (Call F)) :=
  fcCalls py names (fcWrappedRe.inners text) 0

/-- The state of `_balance_json_object` between two characters. -/
inductive Scan
  | outside | inString | escaped
  deriving DecidableEq, Repr

/-- The loop of `_balance_json_object`: how many characters there are up to the
brace that closes the first one. -/
def balanceFrom : ℕ → Scan → Chars → Option ℕ
  | _, _, [] => none
  | depth, .escaped, _ :: t => (balanceFrom depth .inString t).map (· + 1)
  | depth, .inString, c :: t =>
    if c = '\\' then (balanceFrom depth .escaped t).map (· + 1)
    else if c = '"' then (balanceFrom depth .outside t).map (· + 1)
    else (balanceFrom depth .inString t).map (· + 1)
  | depth, .outside, c :: t =>
    if c = '"' then (balanceFrom depth .inString t).map (· + 1)
    else if c = '\x7b' then (balanceFrom (depth + 1) .outside t).map (· + 1)
    else if c = '\x7d' then
      if depth - 1 = 0 then some 1 else (balanceFrom (depth - 1) .outside t).map (· + 1)
    else (balanceFrom depth .outside t).map (· + 1)

/-- `_balance_json_object`. -/
def balanceJsonObject (text : Chars) (start : ℕ) : Option ℕ :=
  if text[start]? ≠ some '\x7b' then none else (balanceFrom 0 .outside (text.drop start)).map (start + ·)

/-- `_parse_dangling_json_tool_call`. -/
def parseDanglingJsonToolCall (text : Chars) (names : List Chars) : Except PyError (List (Call F)) :=
  match danglingOpen.tail? text with
  | none => .ok []
  | some behind =>
    let bodyStart := text.length - (behind.length + 1)
    match balanceJsonObject text bodyStart with
    | none => .ok []
    | some stop =>
      match py.loads ((text.take stop).drop bodyStart) with
      | .tooDeep => .error .recursionError
      | .malformed => .ok []
      | .value v => (payloadCall py names v).map fun found =>
          match found with
          | some c => [⟨c.1, c.2, "dangling_tc_0"⟩]
          | none => []

/-- `marker in text`. -/
def has (marker : String) (text : Chars) : Bool := text.tails.any marker.toList.isPrefixOf

/-- A format that is taken where its marker stands in the text and it finds a
call. -/
def orNext (marked : Bool) (calls next : Except PyError (List (Call F))) : Except PyError (List (Call F)) :=
  if marked then
    match calls with
    | .error e => .error e
    | .ok [] => next
    | .ok (c :: cs) => .ok (c :: cs)
  else next

def mcpMarked (text : Chars) : Bool := has "<use_mcp_tool>" text

def qwenMarked (text : Chars) : Bool := has "<tool_call>" text && has "<function=" text

def fcMarked (text : Chars) : Bool := has "<|FunctionCallBegin|>" text

def seedMarked (text : Chars) : Bool :=
  has "<function name=\"" text && (has "<parameter name=\"" text || seedTagHint py text)

def danglingMarked (text : Chars) : Bool := has "<tool_call>" text && !has "</tool_call>" text

/-- `parse_text`. -/
def parseText (text : Chars) (names : List Chars) : Except PyError (List (Call F)) :=
  if text = [] then .ok []
  else
    orNext (mcpMarked text) (parseMcpToolCalls py text names) <|
    orNext (qwenMarked text) (parseQwenXml py text names) <|
    orNext (fcMarked text) (parseFcWrapped py text names) <|
    if seedMarked py text then parseSeedXml py text names
    else orNext (danglingMarked text) (parseDanglingJsonToolCall py text names) (.ok [])

/-- The loop over the closed `<tool_call>` blocks. -/
def jsonCalls (names : List Chars) : List Chars → Except PyError (List (Chars × Value F))
  | [] => .ok []
  | inner :: inners =>
    match py.loads (strip inner) with
    | .tooDeep => .error .recursionError
    | .malformed => jsonCalls names inners
    | .value v =>
      match payloadCall py names v with
      | .error e => .error e
      | .ok found => (jsonCalls names inners).map (found.toList ++ ·)

/-- `_parse_json_tool_calls`; its calls have no id. -/
def parseJsonToolCalls (text : Chars) (names : List Chars) : Except PyError (List (Chars × Value F)) :=
  jsonCalls py names (toolCallRe.inners text)

/-! ### What is raised -/

section Fails

variable {py} {names : List Chars} {text : Chars}

variable (py names) in
/-- A value of a parameter of a known tool nests too deep for the decoder. -/
def XmlFails (paramRe : Pattern Char Chars) (blocks : List (Chars × Chars)) : Prop :=
  ∃ m ∈ blocks, m.1 ∈ names ∧ ∃ pm ∈ paramRe.found m.2, py.loads (strip pm.2) = .tooDeep

variable (py names text) in
/-- The arguments of a complete `<use_mcp_tool>` block nest too deep. -/
def McpFails : Prop :=
  "use_mcp_tool".toList ∈ names ∧ ∃ body ∈ mcpUseToolRe.inners text, extractXmlValue body "server_name" ≠ [] ∧
    extractXmlValue body "tool_name" ≠ [] ∧ extractXmlValue body "arguments" ≠ [] ∧
      py.loads (extractXmlValue body "arguments") = .tooDeep

variable (py text) in
/-- A wrapped list nests too deep, or holds an object whose name is a list or an
object. -/
def FcFails : Prop :=
  ∃ inner ∈ fcWrappedRe.inners text, py.loads ('[' :: (inner ++ [']'])) = .tooDeep ∨
    ∃ vs, py.loads ('[' :: (inner ++ [']'])) = .value (.arr vs) ∧
      ∃ kvs, .obj kvs ∈ vs ∧ hashable ((field "name" kvs).getD (.str [])) = false

variable (py text) in
/-- The balanced object behind an unclosed tag nests too deep, or its tool is no
string and cannot be written as one. -/
def DanglingFails : Prop :=
  ∃ behind, danglingOpen.tail? text = some behind ∧
    ∃ stop, balanceJsonObject text (text.length - (behind.length + 1)) = some stop ∧
      (py.loads ((text.take stop).drop (text.length - (behind.length + 1))) = .tooDeep ∨
        ∃ payload, py.loads ((text.take stop).drop (text.length - (behind.length + 1))) = .value (.obj payload) ∧
          toolName py payload = .error .recursionError)

variable (names text) in
/-- Each `<use_mcp_tool>` block misses a part, where the tool is known at all. -/
def McpIdle : Prop :=
  "use_mcp_tool".toList ∈ names → ∀ body ∈ mcpUseToolRe.inners text,
    extractXmlValue body "server_name" = [] ∨ extractXmlValue body "tool_name" = []

variable (names) in
/-- No block names a known tool. -/
def XmlIdle (blocks : List (Chars × Chars)) : Prop := ∀ m ∈ blocks, m.1 ∉ names

variable (py names text) in
/-- The wrapped lists decode, or are malformed, and no object in them is a call. -/
def FcIdle : Prop :=
  ∀ inner ∈ fcWrappedRe.inners text, py.loads ('[' :: (inner ++ [']'])) ≠ .tooDeep ∧
    ∀ vs, py.loads ('[' :: (inner ++ [']'])) = .value (.arr vs) → ∀ kvs, .obj kvs ∈ vs → fcCall py names kvs = .ok none

variable (py text names) in
/-- The first format that is taken, or one before it, raises. -/
def Fails : Prop :=
  text ≠ [] ∧
    ((mcpMarked text = true ∧ McpFails py names text) ∨
      ((mcpMarked text = false ∨ McpIdle names text) ∧
        ((qwenMarked text = true ∧ XmlFails py names (qwenParamRe py) ((qwenToolCallRe py).found text)) ∨
          ((qwenMarked text = false ∨ XmlIdle names ((qwenToolCallRe py).found text)) ∧
            ((fcMarked text = true ∧ FcFails py text) ∨
              ((fcMarked text = false ∨ FcIdle py names text) ∧
                ((seedMarked py text = true ∧ XmlFails py names (seedParamRe py) ((seedFunctionRe py).found text)) ∨
                  (seedMarked py text = false ∧ danglingMarked text = true ∧ DanglingFails py text))))))))

/-- An error is raised. -/
def Raises {β : Type} (r : Except PyError β) : Prop := ∃ e, r = .error e

@[simp] theorem raises_error {β : Type} (e : PyError) : Raises (.error e : Except PyError β) := ⟨e, rfl⟩

@[simp] theorem not_raises_ok {β : Type} (b : β) : ¬Raises (.ok b : Except PyError β) := by
  rintro ⟨e, he⟩
  cases he

@[simp] theorem raises_map {β γ : Type} (f : β → γ) (r : Except PyError β) : Raises (r.map f) ↔ Raises r := by
  cases r with
  | error e => exact iff_of_true ⟨e, rfl⟩ ⟨e, rfl⟩
  | ok b => exact iff_of_false (not_raises_ok _) (not_raises_ok _)

theorem raises_orNext {marked : Bool} {calls next : Except PyError (List (Call F))} :
    Raises (orNext marked calls next) ↔
      (marked = true ∧ Raises calls) ∨ ((marked = false ∨ calls = .ok []) ∧ Raises next) := by
  unfold orNext
  cases marked with
  | false => simp
  | true =>
    match calls with
    | .error e => simp
    | .ok [] => simp
    | .ok (c :: cs) => simp

theorem raises_coerce {raw : Chars} : Raises (coerceParamValue py raw) ↔ py.loads raw = .tooDeep := by
  unfold coerceParamValue
  cases py.loads raw with
  | value v => simp
  | malformed => simp
  | tooDeep => simp

theorem raises_paramArgs : ∀ (ms : List (Chars × Chars)) (args : List (Chars × Value F)),
    Raises (paramArgs py ms args) ↔ ∃ m ∈ ms, py.loads (strip m.2) = .tooDeep
  | [], args => by simp [paramArgs]
  | m :: ms, args => by
    unfold paramArgs
    have hm : Raises (coerceParamValue py (strip m.2)) ↔ _ := raises_coerce
    cases hc : coerceParamValue py (strip m.2) with
    | error e =>
      have hdeep : py.loads (strip m.2) = .tooDeep := hm.mp ⟨e, hc⟩
      simp [hdeep]
    | ok v =>
      have hdeep : py.loads (strip m.2) ≠ .tooDeep := fun h => by
        obtain ⟨e, he⟩ := hm.mpr h
        rw [hc] at he
        cases he
      dsimp only
      rw [raises_paramArgs ms]
      simp [hdeep]

theorem raises_xmlCalls {paramRe : Pattern Char Chars} {idPrefix : String} : ∀ (i : ℕ) (ms : List (Chars × Chars)),
    Raises (xmlCalls py names paramRe idPrefix i ms) ↔ XmlFails py names paramRe ms
  | i, [] => by simp [xmlCalls, XmlFails]
  | i, m :: ms => by
    have ih : Raises (xmlCalls py names paramRe idPrefix (i + 1) ms) ↔ _ := raises_xmlCalls (i + 1) ms
    unfold XmlFails at ih ⊢
    rw [List.exists_mem_cons_iff, ← ih]
    conv_lhs => unfold xmlCalls
    by_cases hname : m.1 ∈ names
    · rw [if_neg (not_not.mpr hname)]
      have hargs : Raises (paramArgs py _ _) ↔ _ := raises_paramArgs (paramRe.found m.2) []
      cases hp : paramArgs py (paramRe.found m.2) [] with
      | error e => simp [hname, hargs.mp ⟨e, hp⟩]
      | ok args =>
        have hshallow : ¬∃ pm ∈ paramRe.found m.2, py.loads (strip pm.2) = .tooDeep := by
          rw [← hargs, hp]
          exact not_raises_ok _
        simp only [raises_map, hshallow, and_false, false_or]
    · rw [if_pos hname]
      simp only [hname, false_and, false_or]

theorem raises_mcpArguments {body : Chars} : Raises (mcpArguments py body) ↔
    extractXmlValue body "arguments" ≠ [] ∧ py.loads (extractXmlValue body "arguments") = .tooDeep := by
  unfold mcpArguments
  by_cases hraw : extractXmlValue body "arguments" = []
  · simp [hraw]
  · simp only [hraw, if_false, ne_eq, not_false_eq_true, true_and]
    cases py.loads (extractXmlValue body "arguments") with
    | value v => cases v <;> simp
    | malformed => simp
    | tooDeep => simp

theorem raises_mcpCalls : ∀ (i : ℕ) (bodies : List Chars), Raises (mcpCalls py i bodies) ↔
    ∃ body ∈ bodies, extractXmlValue body "server_name" ≠ [] ∧ extractXmlValue body "tool_name" ≠ [] ∧
      extractXmlValue body "arguments" ≠ [] ∧ py.loads (extractXmlValue body "arguments") = .tooDeep
  | i, [] => by simp [mcpCalls]
  | i, body :: bodies => by
    rw [List.exists_mem_cons_iff, ← raises_mcpCalls (i + 1) bodies]
    conv_lhs => unfold mcpCalls
    dsimp only
    by_cases hskip : extractXmlValue body "server_name" = [] ∨ extractXmlValue body "tool_name" = []
    · rw [if_pos hskip]
      rcases hskip with h | h
      · simp [h]
      · simp [h]
    · rw [if_neg hskip]
      rw [not_or] at hskip
      have hargs : Raises (mcpArguments py body) ↔ _ := raises_mcpArguments
      cases hm : mcpArguments py body with
      | error e => simp [hskip.1, hskip.2, hargs.mp ⟨e, hm⟩]
      | ok arguments =>
        have hnot : ¬(extractXmlValue body "arguments" ≠ [] ∧
            py.loads (extractXmlValue body "arguments") = .tooDeep) := by
          rw [← hargs, hm]
          exact not_raises_ok _
        simp only [raises_map, hnot, and_false, false_or]

theorem raises_parseMcp : Raises (parseMcpToolCalls py text names) ↔ McpFails py names text := by
  unfold parseMcpToolCalls McpFails
  by_cases hname : "use_mcp_tool".toList ∈ names
  · rw [if_neg (not_not.mpr hname), raises_mcpCalls]
    simp only [hname, true_and]
  · rw [if_pos hname]
    simp only [not_raises_ok, hname, false_and]

theorem raises_fcCall {kvs : List (Chars × Value F)} :
    Raises (fcCall py names kvs) ↔ hashable ((field "name" kvs).getD (.str [])) = false := by
  unfold fcCall
  generalize (field "name" kvs).getD (.str []) = name
  dsimp only
  by_cases h : hashable name = false
  · rw [if_pos h]
    simp [h]
  · rw [if_neg h]
    cases name <;> simp [hashable] at h ⊢

theorem raises_fcItems : ∀ (vs : List (Value F)) (idx : ℕ), Raises (fcItems py names vs idx) ↔
    ∃ kvs, .obj kvs ∈ vs ∧ hashable ((field "name" kvs).getD (.str [])) = false
  | [], idx => by simp [fcItems]
  | .obj kvs :: vs, idx => by
    have hcall : Raises (fcCall py names kvs) ↔ _ := raises_fcCall
    unfold fcItems
    cases hc : fcCall py names kvs with
    | error e => exact iff_of_true ⟨e, rfl⟩ ⟨kvs, List.mem_cons_self, hcall.mp ⟨e, hc⟩⟩
    | ok found =>
      have hhash : ¬hashable ((field "name" kvs).getD (.str [])) = false := by
        rw [← hcall, hc]
        exact not_raises_ok _
      have hrest : (∃ kvs', .obj kvs' ∈ (.obj kvs :: vs : List (Value F)) ∧
          hashable ((field "name" kvs').getD (.str [])) = false) ↔
          ∃ kvs', .obj kvs' ∈ vs ∧ hashable ((field "name" kvs').getD (.str [])) = false := by
        refine exists_congr fun kvs' => ⟨fun ⟨hm, hh⟩ => ⟨?_, hh⟩, fun ⟨hm, hh⟩ => ⟨List.mem_cons_of_mem _ hm, hh⟩⟩
        rcases List.mem_cons.mp hm with he | hm
        · cases he
          exact absurd hh hhash
        · exact hm
      rw [hrest]
      cases found with
      | none => exact raises_fcItems vs idx
      | some c =>
        dsimp only
        rw [raises_map]
        exact raises_fcItems vs (idx + 1)
  | .null :: vs, idx | .bool _ :: vs, idx | .int _ :: vs, idx | .float _ :: vs, idx | .str _ :: vs, idx
  | .arr _ :: vs, idx => by simpa [fcItems] using raises_fcItems vs idx

theorem raises_fcCalls : ∀ (inners : List Chars) (idx : ℕ), Raises (fcCalls py names inners idx) ↔
    ∃ inner ∈ inners, py.loads ('[' :: (inner ++ [']'])) = .tooDeep ∨
      ∃ vs, py.loads ('[' :: (inner ++ [']'])) = .value (.arr vs) ∧
        ∃ kvs, .obj kvs ∈ vs ∧ hashable ((field "name" kvs).getD (.str [])) = false
  | [], idx => by simp [fcCalls]
  | inner :: inners, idx => by
    rw [List.exists_mem_cons_iff]
    conv_lhs => unfold fcCalls
    generalize py.loads ('[' :: (inner ++ [']'])) = decoded
    match decoded with
    | .tooDeep => simp
    | .malformed => simpa using raises_fcCalls inners idx
    | .value (.arr vs) =>
      have hitems : Raises (fcItems py names vs idx) ↔ _ := raises_fcItems vs idx
      dsimp only
      cases hi : fcItems py names vs idx with
      | error e => exact iff_of_true ⟨e, rfl⟩ (.inl (.inr ⟨vs, rfl, hitems.mp ⟨e, hi⟩⟩))
      | ok calls =>
        have hnone : ¬∃ kvs, .obj kvs ∈ vs ∧ hashable ((field "name" kvs).getD (.str [])) = false := by
          rw [← hitems, hi]
          exact not_raises_ok _
        rw [raises_map, raises_fcCalls inners]
        simp [hnone]
    | .value .null | .value (.bool _) | .value (.int _) | .value (.float _) | .value (.str _) | .value (.obj _) =>
      simpa using raises_fcCalls inners idx

theorem toolName_error {payload : List (Chars × Value F)} {e : PyError} (h : toolName py payload = .error e) :
    e = .recursionError := by
  unfold toolName at h
  split at h
  · cases h
  · cases h
  · split at h
    · split at h
      · cases h
      · cases h
        rfl
    · cases h

theorem raises_payloadCall {v : Value F} : Raises (payloadCall py names v) ↔
    ∃ payload, v = .obj payload ∧ toolName py payload = .error .recursionError := by
  cases v with
  | obj payload =>
    unfold payloadCall
    rw [raises_map]
    constructor
    · rintro ⟨e, he⟩
      exact ⟨payload, rfl, toolName_error he ▸ he⟩
    · rintro ⟨payload', he, hname⟩
      cases he
      exact ⟨_, hname⟩
  | null => simp [payloadCall]
  | bool _ => simp [payloadCall]
  | int _ => simp [payloadCall]
  | float _ => simp [payloadCall]
  | str _ => simp [payloadCall]
  | arr _ => simp [payloadCall]

theorem raises_dangling : Raises (parseDanglingJsonToolCall py text names) ↔ DanglingFails py text := by
  unfold parseDanglingJsonToolCall DanglingFails
  cases danglingOpen.tail? text with
  | none => simp
  | some behind =>
    simp only [Option.some.injEq, exists_eq_left']
    cases balanceJsonObject text (text.length - (behind.length + 1)) with
    | none => simp
    | some stop =>
      simp only [Option.some.injEq, exists_eq_left']
      cases py.loads ((text.take stop).drop (text.length - (behind.length + 1))) with
      | tooDeep => simp
      | malformed => simp
      | value v =>
        dsimp only
        rw [raises_map, raises_payloadCall]
        simp

/-! #### Formats that find nothing -/

theorem map_cons_ne_nil (c : Call F) (r : Except PyError (List (Call F))) : r.map (c :: ·) ≠ .ok [] := by
  intro h
  cases r with
  | error e => cases h
  | ok calls => cases h

theorem map_nil_append (r : Except PyError (List (Call F))) : r.map ([] ++ ·) = r := by
  cases r with
  | error e => rfl
  | ok calls => rfl

theorem xmlCalls_eq_nil_iff {paramRe : Pattern Char Chars} {idPrefix : String} :
    ∀ (i : ℕ) (ms : List (Chars × Chars)), xmlCalls py names paramRe idPrefix i ms = .ok [] ↔ XmlIdle names ms
  | i, [] => by simp [xmlCalls, XmlIdle]
  | i, m :: ms => by
    have ih : xmlCalls py names paramRe idPrefix (i + 1) ms = .ok [] ↔ _ := xmlCalls_eq_nil_iff (i + 1) ms
    unfold XmlIdle at ih ⊢
    rw [List.forall_mem_cons, ← ih]
    conv_lhs => unfold xmlCalls
    by_cases hname : m.1 ∈ names
    · rw [if_neg (not_not.mpr hname)]
      refine iff_of_false (fun h => ?_) fun h => h.1 hname
      cases hp : paramArgs py (paramRe.found m.2) [] with
      | error e =>
        rw [hp] at h
        cases h
      | ok args =>
        rw [hp] at h
        exact map_cons_ne_nil _ _ h
    · rw [if_pos hname]
      simp only [hname, not_false_eq_true, true_and]

theorem mcpCalls_eq_nil_iff : ∀ (i : ℕ) (bodies : List Chars), mcpCalls py i bodies = .ok [] ↔
    ∀ body ∈ bodies, extractXmlValue body "server_name" = [] ∨ extractXmlValue body "tool_name" = []
  | i, [] => by simp [mcpCalls]
  | i, body :: bodies => by
    rw [List.forall_mem_cons, ← mcpCalls_eq_nil_iff (i + 1) bodies]
    conv_lhs => unfold mcpCalls
    dsimp only
    by_cases hskip : extractXmlValue body "server_name" = [] ∨ extractXmlValue body "tool_name" = []
    · rw [if_pos hskip]
      simp only [hskip, true_and]
    · rw [if_neg hskip]
      refine iff_of_false (fun h => ?_) fun h => hskip h.1
      cases hm : mcpArguments py body with
      | error e =>
        rw [hm] at h
        cases h
      | ok arguments =>
        rw [hm] at h
        exact map_cons_ne_nil _ _ h

theorem parseMcp_eq_nil_iff : parseMcpToolCalls py text names = .ok [] ↔ McpIdle names text := by
  unfold parseMcpToolCalls McpIdle
  by_cases hname : "use_mcp_tool".toList ∈ names
  · rw [if_neg (not_not.mpr hname), mcpCalls_eq_nil_iff]
    simp only [hname, forall_const]
  · rw [if_pos hname]
    exact iff_of_true rfl fun h => absurd h hname

theorem fcItems_eq_nil_iff : ∀ (vs : List (Value F)) (idx : ℕ),
    fcItems py names vs idx = .ok [] ↔ ∀ kvs, .obj kvs ∈ vs → fcCall py names kvs = .ok none
  | [], idx => by simp [fcItems]
  | .obj kvs :: vs, idx => by
    have ih := fcItems_eq_nil_iff vs
    unfold fcItems
    simp only [List.mem_cons, Value.obj.injEq]
    cases hc : fcCall py names kvs with
    | error e =>
      refine iff_of_false (fun h => by cases h) fun h => ?_
      have hnone := h kvs (.inl rfl)
      rw [hc] at hnone
      cases hnone
    | ok found =>
      cases found with
      | none =>
        rw [ih idx]
        refine ⟨fun h kvs' hm => ?_, fun h kvs' hm => h kvs' (.inr hm)⟩
        rcases hm with rfl | hm
        · exact hc
        · exact h kvs' hm
      | some c =>
        refine iff_of_false (map_cons_ne_nil _ _) fun h => ?_
        have hnone := h kvs (.inl rfl)
        rw [hc] at hnone
        cases hnone
  | .null :: vs, idx | .bool _ :: vs, idx | .int _ :: vs, idx | .float _ :: vs, idx | .str _ :: vs, idx
  | .arr _ :: vs, idx => by simpa [fcItems] using fcItems_eq_nil_iff vs idx

theorem fcCalls_eq_nil_iff : ∀ (inners : List Chars) (idx : ℕ), fcCalls py names inners idx = .ok [] ↔
    ∀ inner ∈ inners, py.loads ('[' :: (inner ++ [']'])) ≠ .tooDeep ∧
      ∀ vs, py.loads ('[' :: (inner ++ [']'])) = .value (.arr vs) →
        ∀ kvs, .obj kvs ∈ vs → fcCall py names kvs = .ok none
  | [], idx => by simp [fcCalls]
  | inner :: inners, idx => by
    rw [List.forall_mem_cons]
    conv_lhs => unfold fcCalls
    generalize py.loads ('[' :: (inner ++ [']'])) = decoded
    match decoded with
    | .tooDeep => simp
    | .malformed => simpa using fcCalls_eq_nil_iff inners idx
    | .value (.arr vs) =>
      have hitems : fcItems py names vs idx = .ok [] ↔ _ := fcItems_eq_nil_iff vs idx
      have hrest := fcCalls_eq_nil_iff inners
      simp only [ne_eq, reduceCtorEq, not_false_eq_true, true_and, Decoded.value.injEq, Value.arr.injEq, forall_eq', ←
        hitems]
      cases hi : fcItems py names vs idx with
      | error e => simp
      | ok calls =>
        dsimp only
        cases calls with
        | nil =>
          rw [map_nil_append]
          simpa using hrest idx
        | cons c cs =>
          refine iff_of_false (fun h => ?_) fun h => by cases h.1
          cases hr : fcCalls py names inners (idx + (c :: cs).length) with
          | error e =>
            rw [hr] at h
            cases h
          | ok later =>
            rw [hr] at h
            cases h
    | .value .null | .value (.bool _) | .value (.int _) | .value (.float _) | .value (.str _) | .value (.obj _) =>
      simpa using fcCalls_eq_nil_iff inners idx

/-- Where `parse_text` raises. -/
theorem raises_parseText : Raises (parseText py text names) ↔ Fails py names text := by
  unfold parseText Fails
  by_cases htext : text = []
  · rw [if_pos htext]
    simp [htext]
  rw [if_neg htext]
  have hqwen : Raises (parseQwenXml py text names) ↔
      XmlFails py names (qwenParamRe py) ((qwenToolCallRe py).found text) := raises_xmlCalls 0 _
  have hseed : Raises (parseSeedXml py text names) ↔
      XmlFails py names (seedParamRe py) ((seedFunctionRe py).found text) := raises_xmlCalls 0 _
  have hfc : Raises (parseFcWrapped py text names) ↔ FcFails py text := raises_fcCalls _ 0
  have hlast : Raises (if seedMarked py text then parseSeedXml py text names
      else orNext (danglingMarked text) (parseDanglingJsonToolCall py text names) (.ok [])) ↔
      (seedMarked py text = true ∧ XmlFails py names (seedParamRe py) ((seedFunctionRe py).found text)) ∨
        (seedMarked py text = false ∧ danglingMarked text = true ∧ DanglingFails py text) := by
    cases seedMarked py text with
    | true => simpa using hseed
    | false => simp [raises_orNext, raises_dangling]
  have hqwenIdle : parseQwenXml py text names = .ok [] ↔ XmlIdle names ((qwenToolCallRe py).found text) :=
    xmlCalls_eq_nil_iff 0 _
  have hfcIdle : parseFcWrapped py text names = .ok [] ↔ FcIdle py names text := fcCalls_eq_nil_iff _ 0
  rw [raises_orNext, raises_parseMcp, raises_orNext, hqwen, raises_orNext, hfc, hlast, parseMcp_eq_nil_iff, hqwenIdle,
    hfcIdle]
  simp only [ne_eq, htext, not_false_eq_true, true_and]

end Fails

/-! ### What is returned -/

/-- What the callers of `parse_text` rely on. -/
structure Sound (names : List Chars) (calls : List (Call F)) : Prop where
  named : ∀ c ∈ calls, c.name ∈ names
  dict : ∀ c ∈ calls, isDict c.args = true
  distinct : (calls.map Call.id).Nodup

section Sound

variable {py} {names : List Chars} {text : Chars}

/-- The ids of `n` places, counted from `i` on. -/
def counted (idPrefix : String) (i n : ℕ) : List String := (List.range' i n).map fun j => idPrefix ++ toString j

theorem counted_nodup (idPrefix : String) (i n : ℕ) : (counted idPrefix i n).Nodup :=
  List.Nodup.map (Text.append_toString_injective idPrefix) List.nodup_range'

theorem counted_succ (idPrefix : String) (i n : ℕ) :
    counted idPrefix i (n + 1) = (idPrefix ++ toString i) :: counted idPrefix (i + 1) n := by
  simp only [counted, List.range'_succ, List.map_cons]

theorem counted_add (idPrefix : String) (i m n : ℕ) :
    counted idPrefix i (m + n) = counted idPrefix i m ++ counted idPrefix (i + m) n := by
  simp only [counted, ← List.map_append, List.range'_append_1]

/-- Calls of known tools, whose ids are among the given ones and in their order. -/
structure Numbered (names : List Chars) (ids : List String) (calls : List (Call F)) : Prop where
  named : ∀ c ∈ calls, c.name ∈ names
  dict : ∀ c ∈ calls, isDict c.args = true
  ids : (calls.map Call.id).Sublist ids

namespace Numbered

variable {ids ids' : List String} {calls calls' : List (Call F)}

theorem sound (h : Numbered names ids calls) (hids : ids.Nodup) : Sound names calls :=
  ⟨h.named, h.dict, h.ids.nodup hids⟩

/-- No calls. -/
theorem of_nil (h : (.ok [] : Except PyError (List (Call F))) = .ok calls) : Numbered names ids calls := by
  have hnil : calls = [] := (Except.ok.inj h).symm
  subst hnil
  exact ⟨by simp, by simp, by simp⟩

theorem skip (h : Numbered names ids calls) (id : String) : Numbered names (id :: ids) calls :=
  ⟨h.named, h.dict, h.ids.cons id⟩

theorem append (h : Numbered names ids calls) (h' : Numbered names ids' calls') :
    Numbered names (ids ++ ids') (calls ++ calls') where
  named c hc := (List.mem_append.mp hc).elim (h.named c) (h'.named c)
  dict c hc := (List.mem_append.mp hc).elim (h.dict c) (h'.dict c)
  ids := by
    rw [List.map_append]
    exact h.ids.append h'.ids

theorem one {c : Call F} (hname : c.name ∈ names) (hdict : isDict c.args = true) : Numbered names [c.id] [c] :=
  ⟨by simpa using hname, by simpa using hdict, by simp⟩

theorem cons {c : Call F} (hname : c.name ∈ names) (hdict : isDict c.args = true) (h : Numbered names ids calls) :
    Numbered names (c.id :: ids) (c :: calls) := (one hname hdict).append h

end Numbered

theorem map_eq_ok {β γ : Type} {f : β → γ} {r : Except PyError β} {c : γ} (h : r.map f = .ok c) :
    ∃ b, r = .ok b ∧ f b = c := by
  cases r with
  | error e => cases h
  | ok b => exact ⟨b, rfl, Except.ok.inj h⟩

theorem xmlCalls_numbered {paramRe : Pattern Char Chars} {idPrefix : String} :
    ∀ {ms : List (Chars × Chars)} {i : ℕ} {calls : List (Call F)},
      xmlCalls py names paramRe idPrefix i ms = .ok calls → Numbered names (counted idPrefix i ms.length) calls
  | [], _, _, h => .of_nil h
  | m :: ms, i, calls, h => by
    unfold xmlCalls at h
    rw [List.length_cons, counted_succ]
    by_cases hname : m.1 ∈ names
    · rw [if_neg (not_not.mpr hname)] at h
      cases hp : paramArgs py (paramRe.found m.2) [] with
      | error e =>
        rw [hp] at h
        cases h
      | ok args =>
        rw [hp] at h
        obtain ⟨later, hlater, rfl⟩ := map_eq_ok h
        exact .cons (c := ⟨m.1, .obj args, _⟩) hname rfl (xmlCalls_numbered hlater)
    · rw [if_pos hname] at h
      exact (xmlCalls_numbered h).skip _

theorem mcpCalls_numbered (hname : "use_mcp_tool".toList ∈ names) :
    ∀ {bodies : List Chars} {i : ℕ} {calls : List (Call F)},
      mcpCalls py i bodies = .ok calls → Numbered names (counted "mcp_tc_" i bodies.length) calls
  | [], _, _, h => .of_nil h
  | body :: bodies, i, calls, h => by
    unfold mcpCalls at h
    rw [List.length_cons, counted_succ]
    dsimp only at h
    by_cases hskip : extractXmlValue body "server_name" = [] ∨ extractXmlValue body "tool_name" = []
    · rw [if_pos hskip] at h
      exact (mcpCalls_numbered hname h).skip _
    · rw [if_neg hskip] at h
      cases hm : mcpArguments py body with
      | error e =>
        rw [hm] at h
        cases h
      | ok arguments =>
        rw [hm] at h
        obtain ⟨later, hlater, rfl⟩ := map_eq_ok h
        exact .cons (c := ⟨_, .obj _, _⟩) hname rfl (mcpCalls_numbered hname hlater)

/-- What a wrapped list gives is a call only with a known name and a dictionary. -/
theorem fcCall_found {kvs : List (Chars × Value F)} {c : Chars × Value F} (h : fcCall py names kvs = .ok (some c)) :
    c.1 ∈ names ∧ isDict c.2 = true := by
  unfold fcCall at h
  generalize (field "name" kvs).getD (.str []) = name at h
  dsimp only at h
  by_cases hhash : hashable name = false
  · rw [if_pos hhash] at h
    cases h
  · rw [if_neg hhash] at h
    split at h
    · split at h
      · rename_i s hs
        have hc : (s, fcArgs py kvs) = c := Option.some.inj (Except.ok.inj h)
        rw [← hc]
        exact hs
      · cases h
    · cases h

theorem fcItems_numbered : ∀ {vs : List (Value F)} {idx : ℕ} {calls : List (Call F)},
    fcItems py names vs idx = .ok calls → Numbered names (counted "fc_tc_" idx calls.length) calls
  | [], _, _, h => .of_nil h
  | .obj kvs :: vs, idx, calls, h => by
    unfold fcItems at h
    cases hc : fcCall py names kvs with
    | error e =>
      rw [hc] at h
      cases h
    | ok found =>
      rw [hc] at h
      cases found with
      | none => exact fcItems_numbered h
      | some c =>
        obtain ⟨later, hlater, rfl⟩ := map_eq_ok h
        have hfound := fcCall_found hc
        rw [List.length_cons, counted_succ]
        exact .cons (c := ⟨c.1, c.2, _⟩) hfound.1 hfound.2 (fcItems_numbered hlater)
  | .null :: vs, idx, calls, h | .bool _ :: vs, idx, calls, h | .int _ :: vs, idx, calls, h
  | .float _ :: vs, idx, calls, h | .str _ :: vs, idx, calls, h | .arr _ :: vs, idx, calls, h => by
    rw [fcItems] at h
    · exact fcItems_numbered h
    · intro kvs he
      cases he

theorem fcCalls_numbered : ∀ {inners : List Chars} {idx : ℕ} {calls : List (Call F)},
    fcCalls py names inners idx = .ok calls → Numbered names (counted "fc_tc_" idx calls.length) calls
  | [], _, _, h => .of_nil h
  | inner :: inners, idx, calls, h => by
    unfold fcCalls at h
    generalize py.loads ('[' :: (inner ++ [']'])) = decoded at h
    match decoded, h with
    | .value (.arr vs), h =>
      dsimp only at h
      cases hi : fcItems py names vs idx with
      | error e =>
        rw [hi] at h
        cases h
      | ok here =>
        rw [hi] at h
        obtain ⟨later, hlater, rfl⟩ := map_eq_ok h
        rw [List.length_append, counted_add]
        exact (fcItems_numbered hi).append (fcCalls_numbered hlater)
    | .malformed, h => exact fcCalls_numbered h
    | .value .null, h | .value (.bool _), h | .value (.int _), h | .value (.float _), h | .value (.str _), h
    | .value (.obj _), h => exact fcCalls_numbered h

theorem isDict_argsOf (payload : List (Chars × Value F)) : isDict (argsOf payload) = true := by
  unfold argsOf
  split
  · rfl
  · rfl

/-- A decoded object is a call only with a known name, and its arguments are a
dictionary. -/
theorem payloadCall_found {v : Value F} {c : Chars × Value F} (h : payloadCall py names v = .ok (some c)) :
    c.1 ∈ names ∧ isDict c.2 = true := by
  cases v with
  | obj payload =>
    obtain ⟨name, -, hfound⟩ := map_eq_ok h
    by_cases hname : name ≠ [] ∧ name ∈ names
    · rw [if_pos hname] at hfound
      have hc : (name, argsOf payload) = c := Option.some.inj hfound
      rw [← hc]
      exact ⟨hname.2, isDict_argsOf payload⟩
    · rw [if_neg hname] at hfound
      cases hfound
  | null | bool _ | int _ | float _ | str _ | arr _ => cases h

variable (names) in
/-- What is returned, if anything is, is sound. -/
def Gives (r : Except PyError (List (Call F))) : Prop := ∀ calls, r = .ok calls → Sound names calls

theorem Gives.nil : Gives (F := F) names (.ok []) :=
  fun _ h => (Numbered.of_nil h).sound List.nodup_nil

theorem Gives.orNext {marked : Bool} {calls next : Except PyError (List (Call F))} (hc : Gives names calls)
    (hn : Gives names next) : Gives names (orNext marked calls next) := by
  unfold ToolCallParser.orNext
  cases marked with
  | false => exact hn
  | true =>
    match calls, hc with
    | .error e, _ => exact fun _ h => by cases h
    | .ok [], _ => exact hn
    | .ok (c :: cs), hc => exact hc

theorem gives_xml {paramRe : Pattern Char Chars} {idPrefix : String} {ms : List (Chars × Chars)} :
    Gives names (xmlCalls py names paramRe idPrefix 0 ms) :=
  fun _ h => (xmlCalls_numbered h).sound (counted_nodup _ _ _)

theorem gives_mcp : Gives names (parseMcpToolCalls py text names) := by
  unfold parseMcpToolCalls
  by_cases hname : "use_mcp_tool".toList ∈ names
  · rw [if_neg (not_not.mpr hname)]
    exact fun _ h => (mcpCalls_numbered hname h).sound (counted_nodup _ _ _)
  · rw [if_pos hname]
    exact .nil

theorem gives_fc : Gives names (parseFcWrapped py text names) :=
  fun _ h => (fcCalls_numbered h).sound (counted_nodup _ _ _)

theorem gives_dangling : Gives names (parseDanglingJsonToolCall py text names) := by
  unfold parseDanglingJsonToolCall
  cases danglingOpen.tail? text with
  | none => exact .nil
  | some behind =>
    dsimp only
    cases balanceJsonObject text (text.length - (behind.length + 1)) with
    | none => exact .nil
    | some stop =>
      dsimp only
      cases py.loads ((text.take stop).drop (text.length - (behind.length + 1))) with
      | tooDeep => exact fun _ h => by cases h
      | malformed => exact .nil
      | value v =>
        intro calls h
        obtain ⟨found, hfound, rfl⟩ := map_eq_ok h
        cases found with
        | none => exact Gives.nil _ rfl
        | some c =>
          have hc := payloadCall_found hfound
          exact (Numbered.one (c := ⟨c.1, c.2, "dangling_tc_0"⟩) hc.1 hc.2).sound (by simp)

theorem gives_parseText : Gives names (parseText py text names) := by
  unfold parseText
  by_cases htext : text = []
  · rw [if_pos htext]
    exact .nil
  · rw [if_neg htext]
    refine gives_mcp.orNext (gives_xml.orNext (gives_fc.orNext ?_))
    by_cases hseed : seedMarked py text = true
    · rw [if_pos hseed]
      exact gives_xml
    · rw [if_neg hseed]
      exact gives_dangling.orNext .nil

end Sound

/-- `parse_text` returns, and returns calls of known tools with dictionaries and
distinct ids, exactly where no format that it comes to fails. -/
theorem parse_text_safe_iff (text : Chars) (names : List Chars) :
    (∃ calls, parseText py text names = .ok calls ∧ Sound names calls) ↔ ¬Fails py names text := by
  rw [← raises_parseText]
  cases hr : parseText py text names with
  | error e => exact iff_of_false (fun ⟨_, h, _⟩ => by cases h) fun h => h ⟨e, rfl⟩
  | ok calls => exact iff_of_true ⟨calls, rfl, gives_parseText calls hr⟩ (not_raises_ok calls)

/-- Python on texts without floats that nest as deep as its decoder goes. -/
def plain : Python Unit where
  loads t :=
    match PyJson.loads ToolCalls.noFloats t with
    | some v => .value v
    | none => .malformed
  wordBeyond _ := false
  truthyFloat _ := true
  str _ := none

/-- The error, if one is raised. -/
def raised {β : Type} : Except PyError β → Option PyError
  | .error e => some e
  | .ok _ => none

theorem raised_eq_some_iff {β : Type} {r : Except PyError β} {e : PyError} : raised r = some e ↔ r = .error e := by
  cases r with
  | error e' => simp [raised]
  | ok b => simp [raised]

/-- A list where a name is expected cannot be looked up in the set of names: the
call raises, and nothing is returned. -/
theorem list_name_raises :
    parseText plain "<|FunctionCallBegin|>[\x7b\"name\": []\x7d]<|FunctionCallEnd|>".toList ["t".toList] =
      .error .typeError := by
  rw [← raised_eq_some_iff]
  decide +kernel

end AgentCore.Loop.ToolCallParser
