/-
# The Responses adapter

`_parse_responses_output` and `_to_responses_input` of `openai_responses.py`.
The output of a turn is stored as a list of blocks in the provider's order, and
the next request replays them: text is held back and sent as one message before
the next reasoning item or call.

An item sent can be read as an output item again (`InputItem.asOutput`). The
pieces of an output are its reasoning, its calls and its non-empty texts;
replaying sends them in order, with the texts that stand next to each other
joined.

Key definitions: `toResponsesInput`, `parseResponsesOutput`, `joinTexts`.
Key theorem: `responses_replay`.
-/
import AgentCore.Providers.Wire

namespace AgentCore
namespace Wire
namespace Responses

/-! ### Sending a history -/

/-- A `function_call` item. -/
structure CallItem where
  callId : String
  name : String
  arguments : String
  deriving DecidableEq, Repr

/-- An item of the `input` list. The `id` and the encrypted content of a
reasoning item are left out when empty. -/
inductive InputItem
  | functionCallOutput (callId output : String)
  | message (text : String)
  | reasoning (id : String) (summary : List String) (encryptedContent : String)
  | functionCall (call : CallItem)
  | plain (role : Role) (content : String)
  deriving DecidableEq, Repr

def emptyArguments : String := "\x7b\x7d"

/-- `_to_responses_function_call`. -/
def toResponsesFunctionCall (src : CallSource) : Option CallItem :=
  let callId := strOr src.callId src.id
  let name := strOr src.name src.function.name
  if callId = "" ∨ name = "" then none
  else
    let arguments := src.arguments.getD (src.function.arguments.getD "")
    some ⟨callId, name, strOr arguments emptyArguments⟩

/-- `_flush_text`. -/
def flushText (pending : List String) : List InputItem :=
  let body := Text.join "\n" (pending.filter (· ≠ ""))
  if body ≠ "" then [.message body] else []

/-- The items of a list content, and whether a call was among them. -/
def replayBlocks : List Block → List String → List InputItem × Bool
  | [], pending => (flushText pending, false)
  | .reasoning id summary encryptedContent :: bs, pending =>
    let rest := replayBlocks bs []
    (flushText pending ++ .reasoning id summary encryptedContent :: rest.1, rest.2)
  | .text s :: bs, pending => replayBlocks bs (pending ++ [s])
  | .functionCall src :: bs, pending =>
    match toResponsesFunctionCall src with
    | some call => (flushText pending ++ .functionCall call :: (replayBlocks bs []).1, true)
    | none => replayBlocks bs pending
  | .thinking _ _ :: bs, pending => replayBlocks bs pending
  | .redactedThinking _ :: bs, pending => replayBlocks bs pending
  | .toolUse _ :: bs, pending => replayBlocks bs pending
  | .other _ :: bs, pending => replayBlocks bs pending

/-- The items of a content, and whether a call was among them. -/
def replayContent : Content → List InputItem × Bool
  | .blocks bs => replayBlocks bs []
  | c => (flushText [textOf c], false)

/-- The items of an assistant message. Its calls are taken from `tool_calls`
only where the content has none. -/
def assistantItems (m : Message) : List InputItem :=
  let replayed := replayContent m.content
  if replayed.2 then replayed.1
  else replayed.1 ++ (m.toolCalls.filterMap fun tc => toResponsesFunctionCall (sourceOf tc)).map .functionCall

/-- The items of one message. -/
def messageItems (m : Message) : List InputItem :=
  match m.role with
  | .tool => [.functionCallOutput m.toolCallId (textOf m.content)]
  | .assistant => assistantItems m
  | role => [.plain role (textOf m.content)]

/-- `_to_responses_input`. -/
def toResponsesInput (messages : List Message) : List InputItem := messages.flatMap messageItems

/-! ### Reading an output -/

/-- A part of a message item. -/
inductive Part
  | outputText (text : String)
  | refusal (refusal : String)
  | other
  deriving DecidableEq, Repr

/-- An item of the `output` list. A summary entry without text is `none`. -/
inductive OutputItem
  | reasoning (id : String) (summary : List (Option String)) (encryptedContent : String)
  | message (parts : List Part)
  | functionCall (callId id name arguments : String)
  | other
  deriving DecidableEq, Repr

structure RawResponse where
  status : String
  output : List OutputItem
  outputText : String

/-- What is read off an output; the finish reason, the model and the usage are
left out. -/
structure Parsed where
  content : Content
  toolCalls : List ToolCall
  reasoningContent : String
  refusal : Option String
  deriving DecidableEq, Repr

/-- The text a part adds. -/
def Part.text? : Part → Option String
  | .outputText s => some s
  | .refusal s => some s
  | .other => none

def Part.refusal? : Part → Option String
  | .refusal s => some s
  | _ => none

/-- The blocks recorded for an item. -/
def OutputItem.blocks : OutputItem → List Block
  | .reasoning id summary encryptedContent => [.reasoning id (summary.filterMap (·)) encryptedContent]
  | .message parts => (parts.filterMap Part.text?).map .text
  | .functionCall callId id name arguments =>
    [.functionCall { callId := strOr callId id, name := name, arguments := some (strOr arguments emptyArguments) }]
  | .other => []

def OutputItem.texts : OutputItem → List String
  | .message parts => parts.filterMap Part.text?
  | _ => []

def OutputItem.refusals : OutputItem → List String
  | .message parts => parts.filterMap Part.refusal?
  | _ => []

def OutputItem.summaries : OutputItem → List String
  | .reasoning _ summary _ => summary.filterMap (·)
  | _ => []

def OutputItem.call? : OutputItem → Option ToolCall
  | .functionCall callId id name arguments => some ⟨strOr callId id, name, strOr arguments emptyArguments⟩
  | _ => none

/-- `_parse_responses_output`, nothing for a response that failed. -/
def parseResponsesOutput (raw : RawResponse) : Option Parsed :=
  if raw.status = "failed" then none
  else
    let texts := raw.output.flatMap OutputItem.texts
    let blocks := raw.output.flatMap OutputItem.blocks
    let refusals := raw.output.flatMap OutputItem.refusals
    let flat := raw.outputText ≠ "" ∧ texts = []
    let texts := if flat then texts ++ [raw.outputText] else texts
    let blocks := if flat then blocks ++ [.text raw.outputText] else blocks
    some
      { content := if blocks ≠ [] then .blocks blocks else .text (Text.join "\n" texts)
        toolCalls := raw.output.filterMap OutputItem.call?
        reasoningContent := Text.join "\n" (raw.output.flatMap OutputItem.summaries)
        refusal := if refusals ≠ [] then some (Text.join "\n" refusals) else none }

/-- The assistant message that stores a parsed output. -/
def storedMessage (p : Parsed) : Message := { role := .assistant, content := p.content, toolCalls := p.toolCalls }

/-- An item sent, read as an output item. -/
def InputItem.asOutput : InputItem → OutputItem
  | .message s => .message [.outputText s]
  | .reasoning id summary encryptedContent => .reasoning id (summary.map some) encryptedContent
  | .functionCall call => .functionCall call.callId "" call.name call.arguments
  | .functionCallOutput _ _ => .other
  | .plain _ _ => .other

/-! ### What an output says -/

/-- A piece of an output in provider order. -/
inductive Piece
  | text (s : String)
  | reasoning (id : String) (summary : List String) (encryptedContent : String)
  | call (call : CallItem)
  deriving DecidableEq, Repr

/-- The pieces of an item; an empty text is none. -/
def OutputItem.pieces : OutputItem → List Piece
  | .reasoning id summary encryptedContent => [.reasoning id (summary.filterMap (·)) encryptedContent]
  | .message parts => ((parts.filterMap Part.text?).filter (· ≠ "")).map .text
  | .functionCall callId id name arguments => [.call ⟨strOr callId id, name, strOr arguments emptyArguments⟩]
  | .other => []

/-- Texts that nothing separates are joined by a newline. -/
def joinTexts : List Piece → List Piece
  | [] => []
  | .text s :: ps =>
    match joinTexts ps with
    | .text t :: qs => .text (s ++ "\n" ++ t) :: qs
    | qs => .text s :: qs
  | .reasoning id summary encryptedContent :: ps => .reasoning id summary encryptedContent :: joinTexts ps
  | .call c :: ps => .call c :: joinTexts ps

/-- The item a piece is sent as. -/
def Piece.item : Piece → InputItem
  | .text s => .message s
  | .reasoning id summary encryptedContent => .reasoning id summary encryptedContent
  | .call c => .functionCall c

/-- The block a piece is stored as. -/
def Piece.block : Piece → Block
  | .text s => .text s
  | .reasoning id summary encryptedContent => .reasoning id summary encryptedContent
  | .call c => .functionCall { callId := c.callId, name := c.name, arguments := some c.arguments }

/-- The pieces a block stands for. -/
def blockPieces : Block → List Piece
  | .text s => if s ≠ "" then [.text s] else []
  | .reasoning id summary encryptedContent => [.reasoning id summary encryptedContent]
  | .functionCall src => ((toResponsesFunctionCall src).map Piece.call).toList
  | .thinking _ _ => []
  | .redactedThinking _ => []
  | .toolUse _ => []
  | .other _ => []

/-- A function call has an id and a name. -/
def OutputItem.Named : OutputItem → Prop
  | .functionCall callId _ name _ => callId ≠ "" ∧ name ≠ ""
  | _ => True

instance : ∀ item : OutputItem, Decidable item.Named
  | .functionCall callId _ name _ => inferInstanceAs (Decidable (callId ≠ "" ∧ name ≠ ""))
  | .reasoning _ _ _ => .isTrue trivial
  | .message _ => .isTrue trivial
  | .other => .isTrue trivial

/-! ### Joining -/

/-- Nothing stands before the first separator. -/
def Cut (ps : List Piece) : Prop := ∀ s qs, joinTexts ps ≠ .text s :: qs

theorem cut_nil : Cut [] := fun _ _ h => nomatch h

theorem joinTexts_text {s : String} {ps : List Piece} (h : Cut ps) :
    joinTexts (.text s :: ps) = .text s :: joinTexts ps := by
  rw [joinTexts]
  split
  · next t qs heq => exact absurd heq (h t qs)
  · rfl

theorem joinTexts_texts {rest : List Piece} (hrest : Cut rest) : ∀ (s : String) (ts : List String),
    joinTexts ((s :: ts).map Piece.text ++ rest) = .text (Text.join "\n" (s :: ts)) :: joinTexts rest
  | s, [] => by
    have hjoin : Text.join "\n" [s] = s := String.intercalate_singleton
    rw [hjoin]
    exact joinTexts_text hrest
  | s, t :: ts => by
    have hjoin : Text.join "\n" (s :: t :: ts) = s ++ "\n" ++ Text.join "\n" (t :: ts) :=
      String.intercalate_cons_cons
    have ih := joinTexts_texts hrest t ts
    rw [hjoin, List.map_cons, List.cons_append, joinTexts, ih]

theorem join_ne_empty {s : String} (hs : s ≠ "") (ts : List String) : Text.join "\n" (s :: ts) ≠ "" := by
  cases ts with
  | nil =>
    have hjoin : Text.join "\n" [s] = s := String.intercalate_singleton
    rw [hjoin]
    exact hs
  | cons t ts =>
    have hjoin : Text.join "\n" (s :: t :: ts) = s ++ "\n" ++ Text.join "\n" (t :: ts) :=
      String.intercalate_cons_cons
    rw [hjoin]
    intro h
    rw [String.append_eq_empty_iff, String.append_eq_empty_iff] at h
    exact hs h.1.1

/-- The texts held back are sent as one message before a separator. -/
theorem flushText_append {rest : List Piece} (hrest : Cut rest) (pending : List String) :
    (joinTexts ((pending.filter (· ≠ "")).map Piece.text ++ rest)).map Piece.item =
      flushText pending ++ (joinTexts rest).map Piece.item := by
  unfold flushText
  dsimp only
  cases hp : pending.filter (· ≠ "") with
  | nil => rfl
  | cons s ts =>
    have hs : s ≠ "" := by
      have hmem : s ∈ pending.filter (· ≠ "") := hp ▸ List.mem_cons_self
      exact of_decide_eq_true (List.mem_filter.mp hmem).2
    rw [if_pos (join_ne_empty hs ts), joinTexts_texts hrest]
    rfl

theorem filter_append_text (pending : List String) (s : String) (ps : List Piece) :
    ((pending ++ [s]).filter (· ≠ "")).map Piece.text ++ ps =
      (pending.filter (· ≠ "")).map Piece.text ++ (blockPieces (.text s) ++ ps) := by
  rw [List.filter_append, List.map_append, List.append_assoc]
  by_cases hs : s = ""
  · subst hs
    rfl
  · have hpieces : blockPieces (.text s) = [.text s] := if_pos hs
    rw [hpieces, List.filter_cons_of_pos (by simpa using hs)]
    rfl

/-- Replaying blocks sends their pieces, joined. -/
theorem replayBlocks_items : ∀ (bs : List Block) (pending : List String),
    (replayBlocks bs pending).1 =
      (joinTexts ((pending.filter (· ≠ "")).map Piece.text ++ bs.flatMap blockPieces)).map Piece.item
  | [], pending => by
    rw [List.flatMap_nil, flushText_append cut_nil]
    exact (List.append_nil _).symm
  | .reasoning id summary encryptedContent :: bs, pending => by
    have hcut : Cut (.reasoning id summary encryptedContent :: bs.flatMap blockPieces) := fun _ _ h => nomatch h
    have hnil : (replayBlocks bs []).1 = (joinTexts (bs.flatMap blockPieces)).map Piece.item := replayBlocks_items bs []
    rw [replayBlocks, hnil]
    exact (flushText_append hcut pending).symm
  | .text s :: bs, pending => by
    rw [replayBlocks, replayBlocks_items bs, filter_append_text]
    rfl
  | .functionCall src :: bs, pending => by
    rw [replayBlocks, List.flatMap_cons]
    cases hc : toResponsesFunctionCall src with
    | none =>
      have hpieces : blockPieces (.functionCall src) = [] := by rw [blockPieces, hc]; rfl
      rw [hpieces]
      exact replayBlocks_items bs pending
    | some call =>
      have hpieces : blockPieces (.functionCall src) = [.call call] := by rw [blockPieces, hc]; rfl
      have hcut : Cut (.call call :: bs.flatMap blockPieces) := fun _ _ h => nomatch h
      have hnil : (replayBlocks bs []).1 = (joinTexts (bs.flatMap blockPieces)).map Piece.item := replayBlocks_items bs []
      dsimp only
      rw [hpieces, hnil]
      exact (flushText_append hcut pending).symm
  | .thinking _ _ :: bs, pending => replayBlocks_items bs pending
  | .redactedThinking _ :: bs, pending => replayBlocks_items bs pending
  | .toolUse _ :: bs, pending => replayBlocks_items bs pending
  | .other _ :: bs, pending => replayBlocks_items bs pending

/-- The calls recorded in the blocks that can be sent. -/
def blockCalls (bs : List Block) : List CallItem :=
  bs.filterMap fun b =>
    match b with
    | .functionCall src => toResponsesFunctionCall src
    | _ => none

theorem blockCalls_unsent {src : CallSource} (bs : List Block) (h : toResponsesFunctionCall src = none) :
    blockCalls (.functionCall src :: bs) = blockCalls bs :=
  List.filterMap_cons_none h

theorem blockCalls_sent {src : CallSource} {call : CallItem} (bs : List Block)
    (h : toResponsesFunctionCall src = some call) :
    blockCalls (.functionCall src :: bs) = call :: blockCalls bs :=
  List.filterMap_cons_some h

/-- Whether a call was replayed. -/
theorem replayBlocks_saw : ∀ (bs : List Block) (pending : List String),
    (replayBlocks bs pending).2 = !(blockCalls bs).isEmpty
  | [], _ => rfl
  | .reasoning _ _ _ :: bs, _ => replayBlocks_saw bs []
  | .text s :: bs, pending => replayBlocks_saw bs (pending ++ [s])
  | .functionCall src :: bs, pending => by
    rw [replayBlocks]
    cases hc : toResponsesFunctionCall src with
    | none =>
      rw [blockCalls_unsent bs hc]
      exact replayBlocks_saw bs pending
    | some call =>
      rw [blockCalls_sent bs hc]
      rfl
  | .thinking _ _ :: bs, pending => replayBlocks_saw bs pending
  | .redactedThinking _ :: bs, pending => replayBlocks_saw bs pending
  | .toolUse _ :: bs, pending => replayBlocks_saw bs pending
  | .other _ :: bs, pending => replayBlocks_saw bs pending

/-! ### Replaying an output -/

theorem strOr_empty (a : String) : strOr a "" = a := by
  unfold strOr
  by_cases h : a = ""
  · rw [if_neg (not_not_intro h), h]
  · exact if_pos h

theorem strOr_arguments_ne (a : String) : strOr a emptyArguments ≠ "" := by
  unfold strOr
  by_cases h : a = ""
  · rw [if_neg (not_not_intro h)]
    decide
  · rw [if_pos h]
    exact h

/-- A recorded call is sent as it was. -/
theorem toResponsesFunctionCall_recorded (call : CallItem) (hid : call.callId ≠ "") (hname : call.name ≠ "")
    (hargs : call.arguments ≠ "") :
    toResponsesFunctionCall { callId := call.callId, name := call.name, arguments := some call.arguments } = some call := by
  unfold toResponsesFunctionCall
  dsimp only
  rw [strOr_of_ne hid, strOr_of_ne hname, if_neg (not_or.mpr ⟨hid, hname⟩)]
  dsimp only [Option.getD_some]
  rw [strOr_of_ne hargs]

/-- The blocks of an item stand for its pieces. -/
theorem blockPieces_blocks {item : OutputItem} (h : item.Named) : item.blocks.flatMap blockPieces = item.pieces := by
  cases item with
  | reasoning id summary encryptedContent => rfl
  | other => rfl
  | message parts =>
    unfold OutputItem.blocks OutputItem.pieces
    dsimp only
    generalize parts.filterMap Part.text? = texts
    induction texts with
    | nil => rfl
    | cons s texts ih =>
      have happ := filter_append_text [] s ((texts.filter (· ≠ "")).map Piece.text)
      rw [List.map_cons, List.flatMap_cons, ih, ← List.singleton_append, List.filter_append, List.map_append]
      exact happ.symm
  | functionCall callId id name arguments =>
    have hrec := toResponsesFunctionCall_recorded ⟨callId, name, strOr arguments emptyArguments⟩ h.1 h.2
      (strOr_arguments_ne arguments)
    dsimp only at hrec
    unfold OutputItem.blocks OutputItem.pieces
    dsimp only
    rw [strOr_of_ne h.1, List.flatMap_cons, List.flatMap_nil, List.append_nil, blockPieces, hrec]
    rfl

theorem flatMap_blockPieces : ∀ {output : List OutputItem}, (∀ item ∈ output, item.Named) →
    (output.flatMap OutputItem.blocks).flatMap blockPieces = output.flatMap OutputItem.pieces
  | [], _ => rfl
  | item :: output, h => by
    have hrest := flatMap_blockPieces fun x hx => h x (List.mem_cons_of_mem item hx)
    rw [List.flatMap_cons, List.flatMap_append, hrest, blockPieces_blocks (h item List.mem_cons_self),
      List.flatMap_cons]

/-- An output whose blocks hold no call has none. -/
theorem calls_eq_nil : ∀ {output : List OutputItem}, (∀ item ∈ output, item.Named) →
    blockCalls (output.flatMap OutputItem.blocks) = [] → output.filterMap OutputItem.call? = []
  | [], _, _ => rfl
  | item :: output, h, hcalls => by
    have hsplit : blockCalls ((item :: output).flatMap OutputItem.blocks) =
        blockCalls item.blocks ++ blockCalls (output.flatMap OutputItem.blocks) := by
      rw [List.flatMap_cons]
      exact List.filterMap_append
    rw [hsplit, List.append_eq_nil_iff] at hcalls
    have hrest := calls_eq_nil (fun x hx => h x (List.mem_cons_of_mem item hx)) hcalls.2
    cases item with
    | reasoning | message | other => exact hrest
    | functionCall callId id name arguments =>
      have hnamed : callId ≠ "" ∧ name ≠ "" := h _ List.mem_cons_self
      have hrec := toResponsesFunctionCall_recorded ⟨callId, name, strOr arguments emptyArguments⟩ hnamed.1
        hnamed.2 (strOr_arguments_ne arguments)
      have hone : blockCalls (OutputItem.functionCall callId id name arguments).blocks =
          [⟨callId, name, strOr arguments emptyArguments⟩] := by
        unfold OutputItem.blocks
        dsimp only
        rw [strOr_of_ne hnamed.1]
        exact List.filterMap_cons_some hrec
      rw [hone] at hcalls
      exact absurd hcalls.1 (List.cons_ne_nil _ _)

theorem texts_eq_nil {output : List OutputItem} (h : output.flatMap OutputItem.blocks = []) :
    output.flatMap OutputItem.texts = [] := by
  rw [List.flatMap_eq_nil_iff] at h ⊢
  intro item hitem
  have hblocks := h item hitem
  cases item with
  | reasoning | functionCall | other => rfl
  | message parts => exact List.map_eq_nil_iff.mp hblocks

/-- An assistant message whose calls stand in its blocks is sent as its pieces. -/
theorem messageItems_blocks {m : Message} {bs : List Block} (hrole : m.role = .assistant) (hbs : m.content = .blocks bs)
    (hcalls : blockCalls bs = [] → m.toolCalls = []) :
    messageItems m = (joinTexts (bs.flatMap blockPieces)).map Piece.item := by
  have hitems : (replayBlocks bs []).1 = (joinTexts (bs.flatMap blockPieces)).map Piece.item := replayBlocks_items bs []
  unfold messageItems assistantItems
  rw [hrole, hbs]
  dsimp only [replayContent]
  rw [replayBlocks_saw, hitems]
  by_cases hnil : blockCalls bs = []
  · rw [hnil, hcalls hnil]
    exact List.append_nil _
  · have hsaw : (!(blockCalls bs).isEmpty) = true := by
      rw [Bool.not_eq_true', List.isEmpty_eq_false_iff]
      exact hnil
    rw [if_pos hsaw]

/-- What is read off a response that did not fail and whose `output_text` is the
text of its messages. -/
theorem parseResponsesOutput_eq {raw : RawResponse} (hstatus : raw.status ≠ "failed")
    (hflat : raw.output.flatMap OutputItem.texts = [] → raw.outputText = "") :
    ∃ p, parseResponsesOutput raw = some p ∧ p.toolCalls = raw.output.filterMap OutputItem.call? ∧
      p.content = if raw.output.flatMap OutputItem.blocks ≠ [] then .blocks (raw.output.flatMap OutputItem.blocks)
        else .text "" := by
  have hnot : ¬(raw.outputText ≠ "" ∧ raw.output.flatMap OutputItem.texts = []) := fun h => h.1 (hflat h.2)
  unfold parseResponsesOutput
  rw [if_neg hstatus]
  refine ⟨_, rfl, rfl, ?_⟩
  dsimp only
  rw [if_neg hnot, if_neg hnot]
  by_cases hblocks : raw.output.flatMap OutputItem.blocks = []
  · rw [if_neg (not_not_intro hblocks), if_neg (not_not_intro hblocks), texts_eq_nil hblocks]
    rfl
  · rw [if_pos hblocks, if_pos hblocks]

theorem blockList_content {p : Parsed} {bs : List Block} (h : p.content = if bs ≠ [] then .blocks bs else .text "") :
    p.content.blockList = bs := by
  by_cases hbs : bs = []
  · rw [h, if_neg (not_not_intro hbs), hbs]
    rfl
  · rw [h, if_pos hbs]
    rfl

/-- The stored message of an output is sent as the pieces of the output. -/
theorem toResponsesInput_stored {output : List OutputItem} (hnamed : ∀ item ∈ output, item.Named) {p : Parsed}
    (hcalls : p.toolCalls = output.filterMap OutputItem.call?)
    (hcontent : p.content = if output.flatMap OutputItem.blocks ≠ [] then .blocks (output.flatMap OutputItem.blocks)
      else .text "") :
    toResponsesInput [storedMessage p] = (joinTexts (output.flatMap OutputItem.pieces)).map Piece.item := by
  have hsingle : toResponsesInput [storedMessage p] = messageItems (storedMessage p) := List.append_nil _
  have hpieces := flatMap_blockPieces hnamed
  rw [hsingle]
  by_cases hblocks : output.flatMap OutputItem.blocks = []
  · rw [if_neg (not_not_intro hblocks)] at hcontent
    have hnone : p.toolCalls = [] := by
      rw [hcalls]
      exact calls_eq_nil hnamed (by rw [hblocks]; rfl)
    rw [← hpieces, hblocks]
    unfold messageItems assistantItems storedMessage
    dsimp only
    rw [hcontent, hnone]
    rfl
  · rw [if_pos hblocks] at hcontent
    rw [← hpieces]
    refine messageItems_blocks rfl hcontent fun hnil => ?_
    exact hcalls.trans (calls_eq_nil hnamed hnil)

/-! ### Reading the replay -/

/-- A call of a piece has arguments. -/
def Piece.Filled : Piece → Prop
  | .call c => c.arguments ≠ ""
  | _ => True

theorem filled_pieces (item : OutputItem) : ∀ p ∈ item.pieces, p.Filled := by
  intro p hp
  cases item with
  | reasoning id summary encryptedContent =>
    rw [List.mem_singleton.mp hp]
    trivial
  | other => exact absurd hp List.not_mem_nil
  | message parts =>
    obtain ⟨s, _, rfl⟩ := List.mem_map.mp hp
    trivial
  | functionCall callId id name arguments =>
    rw [List.mem_singleton.mp hp]
    exact strOr_arguments_ne arguments

theorem filled_joinTexts : ∀ {ps : List Piece}, (∀ p ∈ ps, p.Filled) → ∀ p ∈ joinTexts ps, p.Filled
  | [], _, _, hp => absurd hp List.not_mem_nil
  | .text s :: ps, h, p, hp => by
    have ih := filled_joinTexts fun q hq => h q (List.mem_cons_of_mem _ hq)
    rw [joinTexts] at hp
    split at hp
    · next t qs heq =>
      rcases List.mem_cons.mp hp with rfl | hq
      · trivial
      · exact ih p (heq ▸ List.mem_cons_of_mem _ hq)
    · rcases List.mem_cons.mp hp with rfl | hq
      · trivial
      · exact ih p hq
  | .reasoning _ _ _ :: ps, h, p, hp => by
    rcases List.mem_cons.mp hp with rfl | hq
    · trivial
    · exact filled_joinTexts (fun q hq => h q (List.mem_cons_of_mem _ hq)) p hq
  | .call c :: ps, h, p, hp => by
    rcases List.mem_cons.mp hp with rfl | hq
    · exact h _ List.mem_cons_self
    · exact filled_joinTexts (fun q hq => h q (List.mem_cons_of_mem _ hq)) p hq

/-- The item of a piece is read as its block. -/
theorem blocks_item {p : Piece} (h : p.Filled) : p.item.asOutput.blocks = [p.block] := by
  cases p with
  | text s => rfl
  | reasoning id summary encryptedContent =>
    have hsummary : (summary.map some).filterMap (·) = summary := by
      rw [List.filterMap_map]
      exact List.filterMap_some
    unfold Piece.item InputItem.asOutput OutputItem.blocks
    dsimp only
    rw [hsummary]
    rfl
  | call c =>
    have hargs : strOr c.arguments emptyArguments = c.arguments := strOr_of_ne h _
    unfold Piece.item InputItem.asOutput OutputItem.blocks
    dsimp only
    rw [strOr_empty, hargs]
    rfl

theorem blocks_items : ∀ {ps : List Piece}, (∀ p ∈ ps, p.Filled) →
    ((ps.map Piece.item).map InputItem.asOutput).flatMap OutputItem.blocks = ps.map Piece.block
  | [], _ => rfl
  | p :: ps, h => by
    have ih := blocks_items fun q hq => h q (List.mem_cons_of_mem p hq)
    rw [List.map_cons, List.map_cons, List.flatMap_cons, ih, blocks_item (h p List.mem_cons_self)]
    rfl

/-- Reasoning and calls, which joining leaves alone. -/
def Piece.isStep : Piece → Bool
  | .text _ => false
  | _ => true

theorem filter_joinTexts : ∀ ps : List Piece, (joinTexts ps).filter Piece.isStep = ps.filter Piece.isStep
  | [] => rfl
  | .text s :: ps => by
    have ih := filter_joinTexts ps
    have hskip : (Piece.text s :: ps).filter Piece.isStep = ps.filter Piece.isStep := rfl
    rw [hskip, ← ih, joinTexts]
    split
    · next t qs heq => rw [heq]; rfl
    · rfl
  | .reasoning id summary encryptedContent :: ps => congrArg (_ :: ·) (filter_joinTexts ps)
  | .call c :: ps => congrArg (_ :: ·) (filter_joinTexts ps)

/-- **An output replays in provider order.** The stored message of an output is
sent as its reasoning items and its calls in their order, with the non-empty
texts where they stood, those that nothing separates joined; and the items sent
are read as the same blocks up to that joining. -/
theorem responses_replay (raw : RawResponse) (hstatus : raw.status ≠ "failed") (hnamed : ∀ item ∈ raw.output, item.Named)
    (hflat : raw.output.flatMap OutputItem.texts = [] → raw.outputText = "") :
    ∃ p, parseResponsesOutput raw = some p ∧
      toResponsesInput [storedMessage p] = (joinTexts (raw.output.flatMap OutputItem.pieces)).map Piece.item ∧
      (joinTexts (raw.output.flatMap OutputItem.pieces)).filter Piece.isStep =
        (raw.output.flatMap OutputItem.pieces).filter Piece.isStep ∧
      ∃ again, parseResponsesOutput
          ⟨raw.status, (toResponsesInput [storedMessage p]).map InputItem.asOutput, ""⟩ = some again ∧
        again.content.blockList = (joinTexts (p.content.blockList.flatMap blockPieces)).map Piece.block := by
  obtain ⟨p, hp, hcalls, hcontent⟩ := parseResponsesOutput_eq hstatus hflat
  have hitems := toResponsesInput_stored hnamed hcalls hcontent
  have hfilled : ∀ q ∈ joinTexts (raw.output.flatMap OutputItem.pieces), q.Filled := by
    refine filled_joinTexts fun q hq => ?_
    obtain ⟨item, _, hq⟩ := List.mem_flatMap.mp hq
    exact filled_pieces item q hq
  obtain ⟨again, hagain, _, hcontent'⟩ := @parseResponsesOutput_eq
    ⟨raw.status, (toResponsesInput [storedMessage p]).map InputItem.asOutput, ""⟩ hstatus fun _ => rfl
  refine ⟨p, hp, hitems, filter_joinTexts _, again, hagain, ?_⟩
  rw [blockList_content hcontent', blockList_content hcontent, flatMap_blockPieces hnamed]
  dsimp only
  rw [hitems]
  exact blocks_items hfilled

/-- Two calls, each behind its own reasoning, with text in three parts. -/
def twoCalls : RawResponse where
  status := "completed"
  output := [.reasoning "r1" [some "s", none] "e1", .message [.outputText "a", .outputText ""], .message [.refusal "b"],
    .functionCall "c1" "" "f" "", .reasoning "r2" [] "", .functionCall "c2" "i2" "g" "1"]
  outputText := "a"

theorem responses_replay_twoCalls :
    (∀ item ∈ twoCalls.output, item.Named) ∧
    ∃ p, parseResponsesOutput twoCalls = some p ∧
      toResponsesInput [storedMessage p] = [.reasoning "r1" ["s"] "e1", .message "a\nb",
        .functionCall ⟨"c1", "f", emptyArguments⟩, .reasoning "r2" [] "", .functionCall ⟨"c2", "g", "1"⟩] := by
  have hnamed : ∀ item ∈ twoCalls.output, item.Named := by decide
  obtain ⟨p, hp, hitems, _⟩ := responses_replay twoCalls (by decide) hnamed (by decide)
  refine ⟨hnamed, p, hp, ?_⟩
  rw [hitems]
  decide +kernel

end Responses
end Wire
end AgentCore
