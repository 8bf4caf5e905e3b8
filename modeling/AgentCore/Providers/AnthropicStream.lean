/-
# Responses of the Anthropic adapter

A provider message reaches the loop whole, through `_to_llm_response` of
`anthropic.py`, or as an event stream that `AnthropicClient.stream` turns into
deltas and `_stream_llm_response` of `_streaming.py` puts together again.

A text is a list of characters. The input of a tool call is a dictionary that
Python holds, so that it can be dumped. Left out are the watchdogs of the stream
and the callback, the retry without thinking blocks, and whether the usage was
estimated; a stream without its terminator raises, as does one with nothing in
it.

Key definitions: `toLlmResponse`, `stream`, `assemble`, `streamLlmResponse`.
-/
import AgentCore.Loop.ThinkTags
import AgentCore.Loop.Arguments
import AgentCore.Providers.Stream
import AgentCore.Lib.Indexed

namespace AgentCore
namespace AnthropicStream

open PyJson ToolCalls ThinkTags

abbrev Chars := List Char

/-- A dictionary that can be dumped. -/
structure Input (F : Type) where
  kvs : List (List Char × Value F)
  printable : (Value.obj kvs).Printable

/-- A content block of a provider message. -/
inductive RawBlock (F : Type)
  | text (text : Chars)
  | thinking (thinking signature : Chars)
  | redactedThinking (data : String)
  | toolUse (id name : String) (input : Input F)

structure RawUsage where
  inputTokens : Option ℤ
  outputTokens : Option ℤ
  cacheReadInputTokens : Option ℤ
  cacheCreationInputTokens : Option ℤ
  ephemeral1hInputTokens : Option ℤ
  thinkingTokens : Option ℤ
  deriving DecidableEq, Repr

structure RawMessage (F : Type) where
  content : List (RawBlock F)
  stopReason : String
  stopDetails : List (String × String)
  usage : Option RawUsage
  model : String

/-- A block of a response. -/
inductive RespBlock (F : Type)
  | text (text : Chars)
  | thinking (thinking signature : Chars)
  | redactedThinking (data : String)
  | toolUse (id name : String) (input : Value F)

inductive RespContent (F : Type)
  | text (s : Chars)
  | blocks (bs : List (RespBlock F))

/-- A tool call with its arguments as JSON text. -/
structure Call where
  id : String
  name : String
  arguments : Chars
  deriving DecidableEq, Repr

structure Response (F : Type) where
  content : RespContent F
  toolCalls : List Call
  reasoningContent : Chars
  finishReason : String
  model : String
  usage : List (String × ℤ)
  stopDetails : List (String × String)

/-! ### Shared by both paths -/

/-- `_anthropic_usage_dict`. -/
def anthropicUsageDict (inputTokens outputTokens cacheRead cacheWrite reasoning : Option ℤ) : List (String × ℤ) :=
  let read := cacheRead.getD 0
  let write := cacheWrite.getD 0
  let inp := inputTokens.getD 0
  let out := outputTokens.getD 0
  (inputTokens.map fun n => ("prompt_tokens", n)).toList ++
    (outputTokens.map fun n => ("completion_tokens", n)).toList ++
    (if cacheRead.isSome || cacheWrite.isSome then
      [("cache_read_tokens", read), ("cache_write_tokens", write), ("cached_tokens", read + write),
        ("cache_creation_tokens", write)]
    else []) ++
    (reasoning.map fun n => ("reasoning_tokens", n)).toList ++
    if inp ≠ 0 ∨ out ≠ 0 then [("total_tokens", inp + out)] else []

/-- `_anthropic_cache_write_tokens`. -/
def anthropicCacheWriteTokens (u : RawUsage) : Option ℤ :=
  match u.cacheCreationInputTokens, u.ephemeral1hInputTokens with
  | none, none => none
  | raw, extension => some (max 0 (raw.getD 0) + max 0 (extension.getD 0))

def truncationMarkers : List String :=
  ["length", "max_completion_tokens", "max_output_tokens", "max_tokens", "model_length", "output_limit"]

/-- `normalize_finish_reason`. -/
def normalizeFinishReason (value : String) : String :=
  let text := Text.strip value
  if truncationMarkers.contains (Providers.lower text) then "length" else text

/-! ### A whole message -/

variable {F : Type} (ft : FloatText F)

/-- The block recorded for a block of the message. -/
def RawBlock.out : RawBlock F → RespBlock F
  | .text s => .text s
  | .thinking t sig => .thinking t sig
  | .redactedThinking data => .redactedThinking data
  | .toolUse id name input => .toolUse id name (.obj input.kvs)

def RawBlock.text? : RawBlock F → Option Chars
  | .text s => some s
  | _ => none

def RawBlock.thinking? : RawBlock F → Option Chars
  | .thinking t _ => some t
  | _ => none

def RawBlock.call? [DecidableEq F] : RawBlock F → Option Call
  | .toolUse id name input => some ⟨id, name, dumps ft plainStyle (.obj input.kvs)⟩
  | _ => none

/-- A block of the model's reasoning, readable or not. -/
def RespBlock.isThinking : RespBlock F → Bool
  | .thinking _ _ => true
  | .redactedThinking _ => true
  | _ => false

/-- `"\n".join(parts)`. -/
def joinLines (parts : List Chars) : Chars := ['\n'].intercalate parts

def texts (m : RawMessage F) : List Chars := m.content.filterMap RawBlock.text?

def thinkings (m : RawMessage F) : List Chars := m.content.filterMap RawBlock.thinking?

def hasThinking (m : RawMessage F) : Bool := (m.content.map RawBlock.out).any RespBlock.isThinking

def usageOf (u : Option RawUsage) : List (String × ℤ) :=
  anthropicUsageDict (u.bind RawUsage.inputTokens) (u.bind RawUsage.outputTokens) (u.bind RawUsage.cacheReadInputTokens)
    (u.bind anthropicCacheWriteTokens) (u.bind RawUsage.thinkingTokens)

/-- `_to_llm_response`. -/
def toLlmResponse [DecidableEq F] (m : RawMessage F) : Response F where
  content := if hasThinking m then .blocks (m.content.map RawBlock.out) else .text (joinLines (texts m))
  toolCalls := m.content.filterMap (RawBlock.call? ft)
  reasoningContent := joinLines (thinkings m)
  finishReason := normalizeFinishReason m.stopReason
  model := m.model
  usage := usageOf m.usage
  stopDetails := m.stopDetails

/-! ### The deltas of an event stream -/

inductive Event (F : Type)
  | messageStart (model : String) (usage : Option RawUsage)
  | contentBlockStart (index : ℕ) (block : RawBlock F)
  | textDelta (index : ℕ) (text : Chars)
  | thinkingDelta (index : ℕ) (thinking : Chars)
  | signatureDelta (index : ℕ) (signature : Chars)
  | inputJsonDelta (index : ℕ) (partialJson : Chars)
  | messageDelta (stopReason : String) (stopDetails : List (String × String)) (usage : Option RawUsage)
  | messageStop
  | activity
  | other

/-- A tool-call delta; an id or a name it does not have is empty. -/
structure CallDelta where
  index : ℕ
  id : String := ""
  name : String := ""
  arguments : Chars := []
  deriving DecidableEq, Repr

structure Delta (F : Type) where
  content : Chars := []
  reasoningContent : Chars := []
  toolCallDeltas : List CallDelta := []
  usage : List (String × ℤ) := []
  finishReason : String := ""
  model : String := ""
  reasoningBlocks : List (RespBlock F) := []
  stopDetails : List (String × String) := []

/-- A block being rebuilt. -/
inductive OpenBlock (F : Type)
  | text (text : Chars)
  | thinking (thinking signature : Chars)
  | redactedThinking (data : String)
  | toolUse (id name : String) (input : Value F) (partialJson : Option Chars)

/-- What `AnthropicClient.stream` keeps between events. -/
structure StreamState (F : Type) where
  inputTokens : Option ℤ := none
  outputTokens : Option ℤ := none
  cacheRead : Option ℤ := none
  cacheWrite : Option ℤ := none
  reasoningTokens : Option ℤ := none
  model : String := ""
  stopReason : String := ""
  stopDetails : List (String × String) := []
  blocks : List (ℕ × OpenBlock F) := []
  sawMessageStop : Bool := false

/-- The block a start event opens. -/
def RawBlock.opened : RawBlock F → OpenBlock F
  | .text s => .text s
  | .thinking t sig => .thinking t sig
  | .redactedThinking data => .redactedThinking data
  | .toolUse id name input => .toolUse id name (.obj input.kvs) none

def OpenBlock.addText (chunk : Chars) : OpenBlock F → OpenBlock F
  | .text s => .text (s ++ chunk)
  | b => b

def OpenBlock.addThinking (chunk : Chars) : OpenBlock F → OpenBlock F
  | .thinking t sig => .thinking (t ++ chunk) sig
  | b => b

def OpenBlock.addSignature (chunk : Chars) : OpenBlock F → OpenBlock F
  | .thinking t sig => .thinking t (sig ++ chunk)
  | b => b

def OpenBlock.addJson (chunk : Chars) : OpenBlock F → OpenBlock F
  | .toolUse id name input partialJson => .toolUse id name input (some (partialJson.getD [] ++ chunk))
  | b => b

/-- The later of two counts. -/
def later (old new : Option ℤ) : Option ℤ := new.orElse fun _ => old

def onMessageStart (st : StreamState F) (model : String) (usage : Option RawUsage) : StreamState F :=
  let st := { st with model := if model ≠ "" then model else st.model }
  match usage with
  | none => st
  | some u =>
    { st with
      inputTokens := u.inputTokens
      cacheRead := later st.cacheRead u.cacheReadInputTokens
      cacheWrite := later st.cacheWrite (anthropicCacheWriteTokens u) }

def onMessageDelta (st : StreamState F) (stopReason : String) (stopDetails : List (String × String))
    (usage : Option RawUsage) : StreamState F :=
  let st :=
    { st with
      stopReason := if stopReason ≠ "" then stopReason else st.stopReason
      stopDetails := if stopDetails ≠ [] then stopDetails else st.stopDetails }
  match usage with
  | none => st
  | some u =>
    { st with
      outputTokens := later st.outputTokens u.outputTokens
      reasoningTokens := later st.reasoningTokens u.thinkingTokens }

/-- One event, and the deltas it yields. -/
def onEvent (st : StreamState F) : Event F → StreamState F × List (Delta F)
  | .messageStart model usage => (onMessageStart st model usage, [])
  | .contentBlockStart i b =>
    let st' := { st with blocks := Indexed.set i b.opened st.blocks }
    match b with
    | .toolUse id name _ => (st', [{ toolCallDeltas := [{ index := i, id := id, name := name }] }])
    | _ => (st', [])
  | .textDelta i chunk =>
    ({ st with blocks := Indexed.modify i (OpenBlock.addText chunk) st.blocks }, [{ content := chunk }])
  | .thinkingDelta i chunk =>
    ({ st with blocks := Indexed.modify i (OpenBlock.addThinking chunk) st.blocks }, [{ reasoningContent := chunk }])
  | .signatureDelta i chunk => ({ st with blocks := Indexed.modify i (OpenBlock.addSignature chunk) st.blocks }, [])
  | .inputJsonDelta i chunk =>
    ({ st with blocks := Indexed.modify i (OpenBlock.addJson chunk) st.blocks },
      [{ toolCallDeltas := [{ index := i, arguments := chunk }] }])
  | .messageDelta stopReason stopDetails usage => (onMessageDelta st stopReason stopDetails usage, [])
  | .messageStop => ({ st with sawMessageStop := true }, [])
  | .activity => (st, [{}])
  | .other => (st, [])

def onEvents : StreamState F → List (Event F) → StreamState F × List (Delta F)
  | st, [] => (st, [])
  | st, e :: evs =>
    let (st', ds) := onEvent st e
    let (st'', ds') := onEvents st' evs
    (st'', ds ++ ds')

/-- The block at the end of the stream, its JSON fragments read. -/
def OpenBlock.closed : OpenBlock F → RespBlock F
  | .text s => .text s
  | .thinking t sig => .thinking t sig
  | .redactedThinking data => .redactedThinking data
  | .toolUse id name input none => .toolUse id name input
  | .toolUse id name _ (some json) => .toolUse id name ((loads ft json).getD (.obj []))

/-- The delta that ends a stream. -/
def terminalDelta (st : StreamState F) : Delta F :=
  let ordered := (Indexed.ordered st.blocks).map (OpenBlock.closed ft)
  { usage := anthropicUsageDict st.inputTokens st.outputTokens st.cacheRead st.cacheWrite st.reasoningTokens
    finishReason := normalizeFinishReason st.stopReason
    model := st.model
    reasoningBlocks := if ordered.any RespBlock.isThinking then ordered else []
    stopDetails := st.stopDetails }

/-- `AnthropicClient.stream`: the deltas, or nothing for a stream that is cut
off. -/
def stream (evs : List (Event F)) : Option (List (Delta F)) :=
  let (st, ds) := onEvents {} evs
  if st.sawMessageStop then some (ds ++ [terminalDelta ft st]) else none

/-! ### The response of the deltas -/

/-- What the text deltas have come to. -/
structure TextState where
  splitter : Splitter := .fresh
  accumulated : Chars := []
  thinking : Chars := []

/-- A delta's visible text and reasoning. -/
def TextState.add (ts : TextState) (content reasoning : Chars) : TextState :=
  let r := onContent ts.splitter content
  { splitter := r.1
    accumulated := ts.accumulated ++ r.2.outside
    thinking := ts.thinking ++ (reasoning ++ r.2.inside) }

/-- What the splitter still holds is added at the end. -/
def TextState.finish (ts : TextState) : Chars × Chars :=
  (ts.accumulated ++ ts.splitter.flush.outside, ts.thinking ++ ts.splitter.flush.inside)

/-- `StreamToolCalls.feed` of one delta. -/
def feedCall (slots : List (ℕ × Call)) (d : CallDelta) : List (ℕ × Call) :=
  Indexed.modify d.index
    (fun slot =>
      { id := if d.id ≠ "" then d.id else slot.id
        name := slot.name ++ d.name
        arguments := slot.arguments ++ d.arguments })
    (Indexed.setDefault d.index ⟨"", "", []⟩ slots)

/-- What `_stream_llm_response` keeps between deltas. -/
structure Assembly (F : Type) where
  text : TextState := {}
  slots : List (ℕ × Call) := []
  usage : List (String × ℤ) := []
  finishReason : String := ""
  model : String := ""
  reasoningBlocks : List (RespBlock F) := []
  stopDetails : List (String × String) := []

def onDelta (a : Assembly F) (d : Delta F) : Assembly F where
  text := a.text.add d.content d.reasoningContent
  slots := d.toolCallDeltas.foldl feedCall a.slots
  usage := if d.usage ≠ [] then d.usage else a.usage
  finishReason := if d.finishReason ≠ "" then d.finishReason else a.finishReason
  model := if d.model ≠ "" then d.model else a.model
  reasoningBlocks :=
    match d.reasoningBlocks with
    | [] => a.reasoningBlocks
    | b :: bs => b :: bs
  stopDetails := if d.stopDetails ≠ [] then d.stopDetails else a.stopDetails

/-- The visible text without the white space it begins with. -/
def withoutLead (s : Chars) : Chars := if isBlank s then [] else Text.stripStart s

/-- `_has_text_block`. -/
def hasTextBlock (bs : List (RespBlock F)) : Bool :=
  bs.any fun b =>
    match b with
    | .text s => !isBlank s
    | _ => false

def assembledContent (blocks : List (RespBlock F)) (visible : Chars) : RespContent F :=
  match blocks with
  | [] => .text visible
  | b :: bs => if !isBlank visible && !hasTextBlock (b :: bs) then .blocks (b :: bs ++ [.text visible]) else .blocks (b :: bs)

/-- `_assembled_response`. -/
def assembledResponse (a : Assembly F) : Response F :=
  let (accumulated, thinking) := a.text.finish
  { content := assembledContent a.reasoningBlocks (withoutLead accumulated)
    toolCalls := (Indexed.ordered a.slots).filter fun c => c.name ≠ ""
    reasoningContent := thinking
    finishReason := a.finishReason
    model := a.model
    usage := a.usage
    stopDetails := a.stopDetails }

def assemble (ds : List (Delta F)) : Response F := assembledResponse (ds.foldl onDelta {})

def contentBlank : RespContent F → Bool
  | .text s => isBlank s
  | .blocks bs => bs.all fun b =>
    match b with
    | .text s => isBlank s
    | _ => false

/-- `is_wholly_empty_response`. -/
def isWhollyEmpty (r : Response F) : Bool :=
  r.toolCalls.isEmpty && !Providers.isRejection r.finishReason && isBlank r.reasoningContent && r.usage.isEmpty &&
    r.stopDetails.isEmpty && contentBlank r.content

/-- `_stream_llm_response` of the event stream: nothing where it raises. -/
def streamLlmResponse (evs : List (Event F)) : Option (Response F) :=
  (stream ft evs).bind fun ds =>
    let r := assemble ds
    if isWhollyEmpty r then none else some r

end AnthropicStream
end AgentCore
