/-
# Pairing on the wire

A well-paired history is sent to a provider as messages (Anthropic) or as a flat
list of items (Responses). Each adapter leaves out the calls it cannot express
and sends every result, so the result of such a call answers nothing. The
Responses adapter also takes the calls of a turn from its content where that
holds any, whatever `tool_calls` says.

`_sanitize_tool_call_names` of `openai_chat.py` gives such a call a name instead;
behind it the Anthropic messages of every well-paired history are paired.

Key definitions: `Responses.turns`, `Responses.Paired`, `CallsKept`,
`sanitizeToolCallNames`.
Key theorems: `wire_paired_iff`, `sanitized_paired`.
-/
import AgentCore.Providers.Responses
import AgentCore.Providers.AnthropicWire
import AgentCore.Loop.Arguments

namespace AgentCore
namespace Wire

open Groups

/-! ### The turns of a Responses input -/

namespace Responses

def callId? : InputItem → Option String
  | .functionCall call => some call.callId
  | _ => none

def outputId? : InputItem → Option String
  | .functionCallOutput id _ => some id
  | _ => none

def isOutput : InputItem → Bool
  | .functionCallOutput _ _ => true
  | _ => false

/-- The input, cut into the items of each message. -/
def turns (h : List Message) : List (List InputItem) := h.map messageItems

theorem turns_flatten (h : List Message) : (turns h).flatten = toResponsesInput h := List.flatMap_def.symm

/-- The items of a message are results. -/
def onlyOutputs (turn : List InputItem) : Bool := !turn.isEmpty && turn.all isOutput

/-- A turn that holds no result, with the results beneath it answering its
calls. -/
def TurnPaired (head : List InputItem) (body : List (List InputItem)) : Prop :=
  head.filterMap outputId? = [] ∧ Matched (head.filterMap callId?) (body.flatMap fun turn => turn.filterMap outputId?)

/-- Every result answers a call of the turn directly above, and every call has
its one result there. -/
def Paired (ts : List (List InputItem)) : Prop := Grouped onlyOutputs TurnPaired ts

theorem flushText_ids (pending : List String) :
    (flushText pending).filterMap callId? = [] ∧ (flushText pending).filterMap outputId? = [] := by
  unfold flushText
  dsimp only
  split
  · exact ⟨rfl, rfl⟩
  · exact ⟨rfl, rfl⟩

/-- The blocks are sent with the calls they record and without results. -/
theorem replayBlocks_ids : ∀ (bs : List Block) (pending : List String),
    (replayBlocks bs pending).1.filterMap callId? = (blockCalls bs).map CallItem.callId ∧
      (replayBlocks bs pending).1.filterMap outputId? = []
  | [], pending => flushText_ids pending
  | .reasoning _ _ _ :: bs, pending => by
    obtain ⟨hc, ho⟩ := replayBlocks_ids bs []
    obtain ⟨hfc, hfo⟩ := flushText_ids pending
    rw [replayBlocks, List.filterMap_append, List.filterMap_append, hfc, hfo]
    exact ⟨hc, ho⟩
  | .text s :: bs, pending => replayBlocks_ids bs (pending ++ [s])
  | .functionCall src :: bs, pending => by
    rw [replayBlocks]
    cases hc : toResponsesFunctionCall src with
    | none =>
      rw [blockCalls_unsent bs hc]
      exact replayBlocks_ids bs pending
    | some call =>
      obtain ⟨hcs, ho⟩ := replayBlocks_ids bs []
      obtain ⟨hfc, hfo⟩ := flushText_ids pending
      dsimp only
      rw [blockCalls_sent bs hc, List.filterMap_append, List.filterMap_append, hfc, hfo]
      exact ⟨congrArg (call.callId :: ·) hcs, ho⟩
  | .thinking _ _ :: bs, pending => replayBlocks_ids bs pending
  | .redactedThinking _ :: bs, pending => replayBlocks_ids bs pending
  | .toolUse _ :: bs, pending => replayBlocks_ids bs pending
  | .other _ :: bs, pending => replayBlocks_ids bs pending

theorem replayContent_ids (c : Content) :
    (replayContent c).1.filterMap callId? = (blockCalls c.blockList).map CallItem.callId ∧
      (replayContent c).1.filterMap outputId? = [] := by
  cases c with
  | none => exact flushText_ids [""]
  | text s => exact flushText_ids [s]
  | blocks bs => exact replayBlocks_ids bs []

theorem replayContent_saw (c : Content) : (replayContent c).2 = !(blockCalls c.blockList).isEmpty := by
  cases c with
  | none => rfl
  | text s => rfl
  | blocks bs => exact replayBlocks_saw bs []

theorem toResponsesFunctionCall_named {tc : ToolCall} (hid : tc.id ≠ "") (hname : tc.name ≠ "") :
    ∃ call, toResponsesFunctionCall (sourceOf tc) = some call ∧ call.callId = tc.id := by
  have hsome : toResponsesFunctionCall (sourceOf tc) = some ⟨tc.id, tc.name, strOr tc.arguments emptyArguments⟩ :=
    if_neg (not_or.mpr ⟨hid, hname⟩)
  exact ⟨_, hsome, rfl⟩

/-- The calls sent of an assistant message: those of its content, or the named
ones of `tool_calls`. -/
def sentIds (m : Message) : List String :=
  if blockCalls m.content.blockList = [] then (namedCalls m).map (·.id)
  else (blockCalls m.content.blockList).map CallItem.callId

theorem assistantItems_calls {m : Message} (hid : ∀ tc ∈ m.toolCalls, tc.id ≠ "") :
    (assistantItems m).filterMap callId? = sentIds m := by
  have hids : (m.toolCalls.filterMap fun tc => toResponsesFunctionCall (sourceOf tc)).map CallItem.callId =
      (namedCalls m).map (·.id) :=
    filterMap_named (fun _ hname => if_pos (Or.inr hname)) (fun _ => toResponsesFunctionCall_named) hid
  have hcalls : ∀ calls : List CallItem, (calls.map InputItem.functionCall).filterMap callId? =
      calls.map CallItem.callId := by
    intro calls
    rw [List.filterMap_map]
    exact congrFun List.filterMap_eq_map calls
  have hc := (replayContent_ids m.content).1
  unfold assistantItems sentIds
  dsimp only
  rw [replayContent_saw]
  by_cases hnil : blockCalls m.content.blockList = []
  · rw [hnil] at hc
    rw [hnil, if_pos rfl, if_neg (by decide), List.filterMap_append, hc, hcalls, hids]
    rfl
  · have hsaw : (!(blockCalls m.content.blockList).isEmpty) = true := by
      rw [Bool.not_eq_true', List.isEmpty_eq_false_iff]
      exact hnil
    rw [if_pos hsaw, if_neg hnil]
    exact hc

theorem assistantItems_outputs (m : Message) : (assistantItems m).filterMap outputId? = [] := by
  have houts : ∀ calls : List CallItem, (calls.map InputItem.functionCall).filterMap outputId? = [] := by
    intro calls
    rw [List.filterMap_map]
    exact List.filterMap_eq_nil_iff.mpr fun _ _ => rfl
  have ho := (replayContent_ids m.content).2
  unfold assistantItems
  dsimp only
  split
  · exact ho
  · rw [List.filterMap_append, ho, houts]
    rfl

theorem messageItems_outputs {m : Message} (hm : isTool m = false) : (messageItems m).filterMap outputId? = [] := by
  unfold messageItems
  cases hrole : m.role with
  | tool =>
    unfold isTool at hm
    rw [hrole] at hm
    exact absurd hm (by decide)
  | assistant => exact assistantItems_outputs m
  | system | user => rfl

theorem messageItems_tool {m : Message} (hm : isTool m = true) :
    messageItems m = [.functionCallOutput m.toolCallId (textOf m.content)] := by
  have hrole : m.role = .tool := by simpa [isTool] using hm
  unfold messageItems
  rw [hrole]

theorem onlyOutputs_eq_false {turn : List InputItem} (h : turn.filterMap outputId? = []) : onlyOutputs turn = false := by
  cases turn with
  | nil => rfl
  | cons item turn =>
    have hitem := List.filterMap_eq_nil_iff.mp h item List.mem_cons_self
    have hout : isOutput item = false := by
      cases item with
      | functionCallOutput id output => exact absurd hitem (Option.some_ne_none id)
      | message | reasoning | functionCall | plain => rfl
    unfold onlyOutputs
    rw [List.all_cons, hout]
    rfl

/-- Only a tool message is sent as results. -/
theorem onlyOutputs_messageItems (m : Message) : onlyOutputs (messageItems m) = isTool m := by
  cases hm : isTool m with
  | true =>
    rw [messageItems_tool hm]
    rfl
  | false => exact onlyOutputs_eq_false (messageItems_outputs hm)

/-- The ids sent for the tool messages. -/
theorem outputs_tools : ∀ {body : List Message}, (∀ m ∈ body, isTool m = true) →
    (body.map messageItems).flatMap (fun turn => turn.filterMap outputId?) = body.map (·.toolCallId)
  | [], _ => rfl
  | m :: body, h => by
    have ih := outputs_tools fun x hx => h x (List.mem_cons_of_mem m hx)
    rw [List.map_cons, List.flatMap_cons, ih, messageItems_tool (h m List.mem_cons_self)]
    rfl

end Responses

/-! ### Both adapters -/

/-- The calls a Responses turn is sent with are those of `tool_calls`: each call
that its content records once and no other, or no call of `tool_calls` without a
name. -/
def CallsKept (m : Message) : Prop :=
  if Responses.blockCalls m.content.blockList = [] then ∀ tc ∈ m.toolCalls, tc.name ≠ ""
  else ((Responses.blockCalls m.content.blockList).map Responses.CallItem.callId).Perm (m.toolCalls.map (·.id))

instance (m : Message) : Decidable (CallsKept m) := by
  unfold CallsKept
  infer_instance

/-- Other calls match the same results when they are the same ids. -/
theorem Matched.congr_iff {calls calls' results : List String} (h : Matched calls results) :
    Matched calls' results ↔ calls'.Perm calls := by
  obtain ⟨hnodup, hperm⟩ := matched_iff.mp h
  rw [matched_iff]
  constructor
  · rintro ⟨_, hperm'⟩
    exact hperm'.trans hperm.symm
  · intro hp
    exact ⟨hp.nodup_iff.mpr hnodup, hp.trans hperm⟩

theorem sentIds_perm_iff (m : Message) : (Responses.sentIds m).Perm (m.toolCalls.map (·.id)) ↔ CallsKept m := by
  unfold Responses.sentIds CallsKept
  by_cases hnil : Responses.blockCalls m.content.blockList = []
  · rw [if_pos hnil, if_pos hnil]
    constructor
    · intro hperm tc htc
      have hlen : (namedCalls m).length = m.toolCalls.length := by
        have h := hperm.length_eq
        rwa [List.length_map, List.length_map] at h
      have hself : namedCalls m = m.toolCalls := List.filter_sublist.eq_of_length hlen
      rw [← hself] at htc
      exact of_decide_eq_true (List.mem_filter.mp htc).2
    · intro hname
      rw [namedCalls_eq hname]
  · rw [if_neg hnil, if_neg hnil]

/-- The turn of an answered message is paired exactly where its calls are kept. -/
theorem turnPaired_iff {x : Message} {body : List Message} (hx : isTool x = false) (hb : ∀ m ∈ body, isTool m = true)
    (hgood : AnsweredBy x body) (hid : ∀ id ∈ callIds x, id ≠ "") :
    Responses.TurnPaired (Responses.messageItems x) (body.map Responses.messageItems) ↔
      (isAssistant x = true → CallsKept x) := by
  unfold Responses.TurnPaired
  rw [Responses.outputs_tools hb]
  have hout := Responses.messageItems_outputs hx
  by_cases ha : isAssistant x = true
  · have hrole : x.role = .assistant := by simpa [isAssistant] using ha
    have hcalls : callIds x = x.toolCalls.map (·.id) := if_pos ha
    have hsent : (Responses.messageItems x).filterMap Responses.callId? = Responses.sentIds x := by
      unfold Responses.messageItems
      rw [hrole]
      refine Responses.assistantItems_calls fun tc htc => hid tc.id ?_
      rw [hcalls]
      exact List.mem_map_of_mem htc
    unfold AnsweredBy at hgood
    rw [hcalls] at hgood
    rw [hsent, hgood.congr_iff, sentIds_perm_iff]
    exact ⟨fun h _ => h.2, fun h => ⟨hout, h ha⟩⟩
  · have hcalls : callIds x = [] := if_neg ha
    have hnone : (Responses.messageItems x).filterMap Responses.callId? = [] := by
      unfold Responses.messageItems
      cases hrole : x.role with
      | assistant => exact absurd (by rw [isAssistant, hrole]; rfl) ha
      | tool | system | user => rfl
    unfold AnsweredBy at hgood
    rw [hcalls] at hgood
    rw [hnone]
    exact ⟨fun _ h => absurd h ha, fun _ => ⟨hout, hgood⟩⟩

/-- The Responses turns of a well-paired history are paired exactly where each
assistant message keeps its calls. -/
theorem responses_paired_iff {h : List Message} (hg : Grouped isTool AnsweredBy h)
    (hid : ∀ id ∈ h.flatMap callIds, id ≠ "") :
    Responses.Paired (Responses.turns h) ↔ ∀ m ∈ h, isAssistant m = true → CallsKept m := by
  unfold Responses.Paired Responses.turns
  rw [grouped_map Responses.onlyOutputs_messageItems]
  induction hg with
  | nil => exact ⟨fun _ m hm => absurd hm List.not_mem_nil, fun _ => .nil⟩
  | @group x body rest hx hb hgood hrest ih =>
    rw [List.flatMap_cons, List.flatMap_append] at hid
    have ih := ih fun id hm => hid id (List.mem_append_right _ (List.mem_append_right _ hm))
    have hturn := turnPaired_iff hx hb hgood fun id hm => hid id (List.mem_append_left _ hm)
    rw [grouped_cons hx hb hrest.takeWhile_eq_nil, ih, hturn]
    constructor
    · rintro ⟨hkx, hk⟩ m hm ha
      rcases List.mem_cons.mp hm with rfl | hm
      · exact hkx ha
      rcases List.mem_append.mp hm with hm | hm
      · -- a tool message is no assistant message
        have hrole : m.role = .tool := by simpa [isTool] using hb m hm
        rw [isAssistant, hrole] at ha
        exact absurd ha (by decide)
      · exact hk m hm ha
    · intro hk
      exact ⟨hk x List.mem_cons_self, fun m hm => hk m (List.mem_cons_of_mem x (List.mem_append_right _ hm))⟩

/-- **Pairing survives the wire exactly where every call can be expressed.** For
every well-paired history: Anthropic messages are built and paired exactly where
every call has a name and arguments nested no deeper than the stack has room for;
the items of the Responses input are paired, message by message, exactly where
each assistant message keeps its calls. -/
theorem wire_paired_iff {F : Type} (ft : PyJson.FloatText F) (room : ℕ) (h : List Message) (hh : WellPaired h) :
    ((∃ msgs, Anthropic.anthropicMessagesIn ft room h = some msgs ∧ Anthropic.Paired msgs) ↔
      ∀ m ∈ h, isAssistant m = true → ∀ tc ∈ m.toolCalls,
        tc.name ≠ "" ∧ PyJson.reach ft (Anthropic.rawArgs tc) ≤ room) ∧
    ((Responses.turns h).flatten = Responses.toResponsesInput h) ∧
    (Responses.Paired (Responses.turns h) ↔ ∀ m ∈ h, isAssistant m = true → CallsKept m) :=
  ⟨Anthropic.paired_in_iff ft hh, Responses.turns_flatten h, responses_paired_iff hh.grouped hh.nonempty⟩

/-- A call whose arguments are cut off, and one that its content records, with
their results in the other order. -/
def twoCallHistory : List Message :=
  [{ role := .user, content := .text "go" },
    { role := .assistant,
      content := .blocks [.functionCall { callId := "c2", name := "g" }, .text "b", .functionCall { callId := "c1", name := "f" }]
      toolCalls := [⟨"c1", "f", "\x7b"⟩, ⟨"c2", "g", ""⟩] },
    { role := .tool, toolCallId := "c2" }, { role := .tool, toolCallId := "c1", transient := true }]

theorem wire_paired_iff_twoCallHistory :
    WellPaired twoCallHistory ∧
      (∃ msgs, Anthropic.anthropicMessagesIn ToolCalls.noFloats 1 twoCallHistory = some msgs ∧ Anthropic.Paired msgs) ∧
      Responses.Paired (Responses.turns twoCallHistory) := by
  have hh : WellPaired twoCallHistory := ⟨by decide +kernel, by decide +kernel, by decide +kernel⟩
  obtain ⟨hant, _, hres⟩ := wire_paired_iff ToolCalls.noFloats 1 twoCallHistory hh
  exact ⟨hh, hant.mpr (by decide +kernel), hres.mpr (by decide +kernel)⟩

/-- A call without a name and its result. -/
def namelessHistory : List Message :=
  [{ role := .assistant, toolCalls := [⟨"c1", "", ""⟩] }, { role := .tool, toolCallId := "c1" }]

/-- Both adapters drop the call and send its result, which then stands first. -/
theorem nameless_call_orphans_result :
    WellPaired namelessHistory ∧
    (∃ msgs, Anthropic.anthropicMessagesIn ToolCalls.noFloats 1000 namelessHistory = some msgs ∧
      ¬Anthropic.Paired msgs) ∧
    Responses.toResponsesInput namelessHistory = [.functionCallOutput "c1" ""] ∧
    ¬Responses.Paired (Responses.turns namelessHistory) := by
  have hh : WellPaired namelessHistory := ⟨by decide +kernel, by decide +kernel, by decide +kernel⟩
  refine ⟨hh, ⟨_, rfl, ?_⟩, by decide +kernel, ?_⟩
  · intro hp
    have hlead := hp.takeWhile_eq_nil
    revert hlead
    decide +kernel
  · intro hp
    have hturn := hp.each ([], [[.functionCallOutput "c1" ""]]) (by decide +kernel)
    revert hturn
    unfold Responses.TurnPaired
    decide +kernel

/-! ### The repair of the Chat adapter -/

def placeholderToolName : String := "unknown_tool"

/-- The call with a name. -/
def sanitizeCall (tc : ToolCall) : ToolCall := if tc.name = "" then { tc with name := placeholderToolName } else tc

/-- `_sanitize_tool_call_names`. -/
def sanitizeMessage (m : Message) : Message := { m with toolCalls := m.toolCalls.map sanitizeCall }

def sanitizeToolCallNames (h : List Message) : List Message := h.map sanitizeMessage

theorem sanitizeCall_id (tc : ToolCall) : (sanitizeCall tc).id = tc.id := by
  unfold sanitizeCall
  split
  · rfl
  · rfl

theorem sanitizeCall_name (tc : ToolCall) : (sanitizeCall tc).name ≠ "" := by
  unfold sanitizeCall
  by_cases hname : tc.name = ""
  · rw [if_pos hname]
    exact (by decide : placeholderToolName ≠ "")
  · rw [if_neg hname]
    exact hname

theorem callIds_sanitizeMessage (m : Message) : callIds (sanitizeMessage m) = callIds m := by
  have hids : (m.toolCalls.map sanitizeCall).map (·.id) = m.toolCalls.map (·.id) := by
    rw [List.map_map]
    exact List.map_congr_left fun tc _ => sanitizeCall_id tc
  unfold callIds sanitizeMessage
  exact congrArg (fun ids => if isAssistant m then ids else []) hids

/-- Naming the calls keeps a history well paired. -/
theorem WellPaired.sanitize {h : List Message} (hh : WellPaired h) : WellPaired (sanitizeToolCallNames h) := by
  have hanswered : (fun x b => AnsweredBy (sanitizeMessage x) (b.map sanitizeMessage)) = AnsweredBy := by
    funext x b
    unfold AnsweredBy
    rw [callIds_sanitizeMessage, List.map_map]
    rfl
  have hids : (sanitizeToolCallNames h).flatMap callIds = h.flatMap callIds := by
    unfold sanitizeToolCallNames
    rw [List.flatMap_map]
    exact List.flatMap_congr fun m _ => callIds_sanitizeMessage m
  refine ⟨?_, ?_, ?_⟩
  · unfold sanitizeToolCallNames
    rw [grouped_map fun m => (rfl : isTool (sanitizeMessage m) = isTool m), hanswered]
    exact hh.grouped
  · rw [hids]
    exact hh.distinct
  · rw [hids]
    exact hh.nonempty

/-- Behind the repair of the Chat adapter the Anthropic messages of every
well-paired history are paired, where they are built. -/
theorem sanitized_paired {F : Type} (ft : PyJson.FloatText F) {h : List Message} (hh : WellPaired h) :
    Anthropic.Paired (Anthropic.anthropicMessages ft (sanitizeToolCallNames h)) := by
  rw [Anthropic.paired_iff ft hh.sanitize]
  intro m hm _ tc htc
  obtain ⟨m', _, rfl⟩ := List.mem_map.mp hm
  obtain ⟨tc', _, rfl⟩ := List.mem_map.mp htc
  exact sanitizeCall_name tc'

end Wire
end AgentCore
