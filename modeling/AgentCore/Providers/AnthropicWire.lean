/-
# Messages for the Anthropic adapter

`_to_anthropic_msg`, `_to_anthropic_tool_use` and `_merge_tool_results` of
`anthropic.py`. The calls of an assistant message come from `tool_calls`; a
`tool_use` block of its content only says where the call of that id stands. A
call without an id or a name is left out, and a message with nothing to send is
dropped. Arguments nested too deep for the stack raise out of the conversion, and
no message is sent.

The merged messages have the same groups as the messages before merging, by
what their results answer (`digest_mergeInto`).

Key definitions: `toAnthropicMsg`, `mergeToolResults`, `anthropicMessages`,
`anthropicMessagesIn`, `Paired`.
Key theorems: `paired_iff`, `paired_in_iff`.
-/
import AgentCore.Providers.Wire
import AgentCore.Lib.JsonDepth
import AgentCore.Lib.Keyed

namespace AgentCore
namespace Wire
namespace Anthropic

open PyJson Groups

variable {F : Type} (ft : FloatText F)

/-- A `tool_use` block. -/
structure ToolUse (F : Type) where
  id : String
  name : String
  input : List (List Char × Value F)

/-- A block of a message sent. -/
inductive OutBlock (F : Type)
  | toolResult (toolUseId content : String)
  | thinking (thinking signature : String)
  | redactedThinking (data : String)
  | text (text : String)
  | toolUse (call : ToolUse F)

inductive OutContent (F : Type)
  | text (s : String)
  | blocks (bs : List (OutBlock F))

inductive OutRole
  | user | assistant
  deriving DecidableEq, Repr

/-- A message sent. -/
structure OutMsg (F : Type) where
  role : OutRole
  content : OutContent F

/-! ### Converting a message -/

/-- `raw_args`. -/
def rawArgs (tc : ToolCall) : List Char := (strOr tc.arguments "\x7b\x7d").toList

/-- Arguments that are no JSON object are an empty one. -/
def inputOf {ε : Type} : Except ε (Value F) → List (List Char × Value F)
  | .ok (.obj kvs) => kvs
  | _ => []

/-- What `_to_anthropic_tool_use` returns, where it returns. -/
def toAnthropicToolUse (tc : ToolCall) : Option (ToolUse F) :=
  if tc.id = "" ∨ tc.name = "" then none else some ⟨tc.id, tc.name, inputOf (decode ft (rawArgs tc))⟩

/-- `_to_anthropic_tool_use` on a stack with room for so many containers; none is
the `RecursionError`. -/
def toAnthropicToolUseIn (room : ℕ) (tc : ToolCall) : Option (Option (ToolUse F)) :=
  if tc.id = "" ∨ tc.name = "" then some none
  else
    match decodeIn ft room (rawArgs tc) with
    | .error .recursionError => none
    | parsed => some (some ⟨tc.id, tc.name, inputOf parsed⟩)

/-- `d[call["id"]] = call`. -/
def setCall (calls : List (ToolUse F)) (call : ToolUse F) : List (ToolUse F) :=
  if call.id ∈ calls.map ToolUse.id then Keyed.update ToolUse.id (fun _ => call) call.id calls
  else calls ++ [call]

/-- The blocks of a list content, and the calls that have no block. -/
def contentBlocks : List Block → List (ToolUse F) → List (OutBlock F) × List (ToolUse F)
  | [], remaining => ([], remaining)
  | .thinking thinking signature :: bs, remaining =>
    let rest := contentBlocks bs remaining
    (.thinking thinking signature :: rest.1, rest.2)
  | .redactedThinking data :: bs, remaining =>
    let rest := contentBlocks bs remaining
    (.redactedThinking data :: rest.1, rest.2)
  | .text s :: bs, remaining =>
    let rest := contentBlocks bs remaining
    (if s ≠ "" then .text s :: rest.1 else rest.1, rest.2)
  | .toolUse id :: bs, remaining =>
    match Keyed.get? ToolUse.id remaining id with
    | some call =>
      let rest := contentBlocks bs (Keyed.pop ToolUse.id remaining id)
      (.toolUse call :: rest.1, rest.2)
    | none => contentBlocks bs remaining
  | .reasoning _ _ _ :: bs, remaining => contentBlocks bs remaining
  | .functionCall _ :: bs, remaining => contentBlocks bs remaining
  | .other _ :: bs, remaining => contentBlocks bs remaining

/-- The blocks of an assistant message with these `calls`. -/
def blocksOf (calls : List (ToolUse F)) (m : Message) : List (OutBlock F) :=
  let remaining := calls.foldl setCall []
  let converted :=
    match m.content with
    | .blocks bs => contentBlocks bs remaining
    | c => (if textOf c ≠ "" then [.text (textOf c)] else [], remaining)
  converted.1 ++ converted.2.map .toolUse

def assistantBlocks (m : Message) : List (OutBlock F) :=
  blocksOf (m.toolCalls.filterMap (toAnthropicToolUse ft)) m

/-- An assistant message with nothing to send is dropped. -/
def assistantMsg : List (OutBlock F) → Option (OutMsg F)
  | [] => none
  | b :: bs => some ⟨.assistant, .blocks (b :: bs)⟩

/-- What `_to_anthropic_msg` returns, where it returns. -/
def toAnthropicMsg (m : Message) : Option (OutMsg F) :=
  match m.role with
  | .tool => some ⟨.user, .blocks [.toolResult m.toolCallId (textOf m.content)]⟩
  | .assistant => assistantMsg (assistantBlocks ft m)
  | _ => some ⟨.user, .text (textOf m.content)⟩

/-- `_to_anthropic_msg`, with what `_to_anthropic_tool_use` raises. -/
def toAnthropicMsgIn (room : ℕ) (m : Message) : Option (Option (OutMsg F)) :=
  match m.role with
  | .tool => some (some ⟨.user, .blocks [.toolResult m.toolCallId (textOf m.content)]⟩)
  | .assistant => (m.toolCalls.mapM (toAnthropicToolUseIn ft room)).map fun uses =>
    assistantMsg (blocksOf (uses.filterMap id) m)
  | _ => some (some ⟨.user, .text (textOf m.content)⟩)

/-! ### Merging the results -/

def OutContent.blockList : OutContent F → List (OutBlock F)
  | .blocks bs => bs
  | .text _ => []

def isResult : OutBlock F → Bool
  | .toolResult _ _ => true
  | _ => false

/-- `only_results`. -/
def onlyResults (msg : OutMsg F) : Bool :=
  match msg.role, msg.content with
  | .user, .blocks bs => !bs.isEmpty && bs.all isResult
  | _, _ => false

/-- The message with the blocks of the next one behind its own. -/
def joinMsg (msg next : OutMsg F) : OutMsg F :=
  { msg with content := .blocks (msg.content.blockList ++ next.content.blockList) }

/-- Whether the next message is put together with the last one. -/
def joins (cur next : OutMsg F × Bool) : Bool := !next.2 && !cur.2 && onlyResults next.1 && onlyResults cur.1

/-- The messages from `cur` on, which is the last one put out so far. -/
def mergeInto (cur : OutMsg F × Bool) : List (OutMsg F × Bool) → List (OutMsg F × Bool)
  | [] => [cur]
  | next :: rest =>
    if joins cur next then mergeInto (joinMsg cur.1 next.1, false) rest
    else cur :: mergeInto next rest

/-- `_merge_tool_results`. -/
def mergeToolResults : List (OutMsg F × Bool) → List (OutMsg F × Bool)
  | [] => []
  | cur :: rest => mergeInto cur rest

/-- The messages of a request, where the conversion returns. -/
def anthropicMessages (h : List Message) : List (OutMsg F) :=
  (mergeToolResults (h.filterMap fun m => (toAnthropicMsg ft m).map fun msg => (msg, m.transient))).map Prod.fst

/-- The messages of a request; none is the `RecursionError`. -/
def anthropicMessagesIn (room : ℕ) (h : List Message) : Option (List (OutMsg F)) :=
  (h.mapM fun m => (toAnthropicMsgIn ft room m).map (Option.map fun msg => (msg, m.transient))).map fun converted =>
    (mergeToolResults (converted.filterMap id)).map Prod.fst

/-! ### Where the conversion returns -/

theorem mapM_eq_some_iff {α β : Type} {f : α → Option β} {g : α → β} {l : List α} {ys : List β}
    (hfg : ∀ x y, f x = some y → y = g x) :
    l.mapM f = some ys ↔ (∀ x ∈ l, ∃ y, f x = some y) ∧ ys = l.map g := by
  induction l generalizing ys with
  | nil => exact ⟨fun h => ⟨fun _ hx => absurd hx List.not_mem_nil, (Option.some.inj h).symm⟩, fun h => h.2 ▸ rfl⟩
  | cons x l ih =>
    rw [List.mapM_cons, List.forall_mem_cons]
    constructor
    · intro h
      obtain ⟨y, hy, h⟩ := Option.bind_eq_some_iff.mp h
      obtain ⟨zs, hzs, h⟩ := Option.bind_eq_some_iff.mp h
      obtain ⟨hall, rfl⟩ := ih.mp hzs
      refine ⟨⟨⟨y, hy⟩, hall⟩, ?_⟩
      rw [← Option.some.inj h, List.map_cons, hfg x y hy]
    · rintro ⟨⟨⟨y, hy⟩, hall⟩, rfl⟩
      rw [hy, ih.mpr ⟨hall, rfl⟩, List.map_cons, ← hfg x y hy]
      rfl

variable {ft} {room : ℕ}

/-- What the stack has room for in a call: it is left out, or its arguments are
read to their end. -/
def Convertible (ft : FloatText F) (room : ℕ) (tc : ToolCall) : Prop :=
  tc.id ≠ "" → tc.name ≠ "" → reach ft (rawArgs tc) ≤ room

theorem toAnthropicToolUseIn_eq_some {tc : ToolCall} {use : Option (ToolUse F)} :
    toAnthropicToolUseIn ft room tc = some use ↔ Convertible ft room tc ∧ use = toAnthropicToolUse ft tc := by
  unfold toAnthropicToolUseIn toAnthropicToolUse Convertible
  by_cases hnone : tc.id = "" ∨ tc.name = ""
  · rw [if_pos hnone, if_pos hnone]
    exact ⟨fun h => ⟨fun hid hname => absurd hnone (not_or.mpr ⟨hid, hname⟩), (Option.some.inj h).symm⟩,
      fun h => h.2 ▸ rfl⟩
  · rw [if_neg hnone, if_neg hnone]
    have hnamed := not_or.mp hnone
    by_cases hroom : room < reach ft (rawArgs tc)
    · rw [decodeIn_eq_recursionError.mpr hroom]
      exact ⟨fun h => (nomatch h), fun h => absurd (h.1 hnamed.1 hnamed.2) (Nat.not_le.mpr hroom)⟩
    · have hdecode : decodeIn ft room (rawArgs tc) = (decode ft (rawArgs tc)).mapError .valueError := if_neg hroom
      rw [hdecode]
      have hle : reach ft (rawArgs tc) ≤ room := Nat.not_lt.mp hroom
      cases decode ft (rawArgs tc) with
      | error e => exact ⟨fun h => ⟨fun _ _ => hle, (Option.some.inj h).symm⟩, fun h => h.2 ▸ rfl⟩
      | ok v =>
        cases v with
        | null | bool | int | float | str | arr | obj =>
          exact ⟨fun h => ⟨fun _ _ => hle, (Option.some.inj h).symm⟩, fun h => h.2 ▸ rfl⟩

theorem toAnthropicMsgIn_eq_some {m : Message} {msg : Option (OutMsg F)} :
    toAnthropicMsgIn ft room m = some msg ↔
      (isAssistant m = true → ∀ tc ∈ m.toolCalls, Convertible ft room tc) ∧ msg = toAnthropicMsg ft m := by
  unfold toAnthropicMsgIn toAnthropicMsg isAssistant
  cases m.role with
  | tool | system | user =>
    exact ⟨fun h => ⟨fun ha => absurd ha (by decide), (Option.some.inj h).symm⟩, fun h => h.2 ▸ rfl⟩
  | assistant =>
    have huses := @mapM_eq_some_iff _ _ (toAnthropicToolUseIn ft room) (toAnthropicToolUse ft) m.toolCalls
    have hconverted : ∀ tc, (∃ use, toAnthropicToolUseIn ft room tc = some use) ↔ Convertible ft room tc := fun tc =>
      ⟨fun ⟨_, h⟩ => (toAnthropicToolUseIn_eq_some.mp h).1, fun h => ⟨_, toAnthropicToolUseIn_eq_some.mpr ⟨h, rfl⟩⟩⟩
    have hblocks : ((m.toolCalls.map (toAnthropicToolUse ft)).filterMap id) =
        m.toolCalls.filterMap (toAnthropicToolUse ft) := List.filterMap_map
    constructor
    · intro h
      obtain ⟨uses, hsome, rfl⟩ := Option.map_eq_some_iff.mp h
      obtain ⟨hall, rfl⟩ := (huses fun _ _ h => (toAnthropicToolUseIn_eq_some.mp h).2).mp hsome
      exact ⟨fun _ tc htc => (hconverted tc).mp (hall tc htc), by rw [hblocks]; rfl⟩
    · rintro ⟨hall, rfl⟩
      have hsome := (huses fun _ _ h => (toAnthropicToolUseIn_eq_some.mp h).2).mpr
        ⟨fun tc htc => (hconverted tc).mpr (hall rfl tc htc), rfl⟩
      refine Option.map_eq_some_iff.mpr ⟨_, hsome, ?_⟩
      rw [hblocks]
      rfl

/-- The messages are built exactly where the stack has room for the arguments of
every call. -/
theorem anthropicMessagesIn_eq_some {h : List Message} {msgs : List (OutMsg F)} :
    anthropicMessagesIn ft room h = some msgs ↔
      (∀ m ∈ h, isAssistant m = true → ∀ tc ∈ m.toolCalls, Convertible ft room tc) ∧
        msgs = anthropicMessages ft h := by
  have hpairs := @mapM_eq_some_iff _ _
    (fun m => (toAnthropicMsgIn ft room m).map (Option.map fun msg => (msg, m.transient)))
    (fun m => (toAnthropicMsg ft m).map fun msg => (msg, m.transient)) h
  have hmsg : ∀ m pair, (toAnthropicMsgIn ft room m).map (Option.map fun msg => (msg, m.transient)) = some pair →
      pair = (toAnthropicMsg ft m).map fun msg => (msg, m.transient) := by
    intro m pair hm
    obtain ⟨msg, hmsg, rfl⟩ := Option.map_eq_some_iff.mp hm
    rw [(toAnthropicMsgIn_eq_some.mp hmsg).2]
  have hconverted : ∀ m, (∃ pair, (toAnthropicMsgIn ft room m).map (Option.map fun msg => (msg, m.transient)) = some pair) ↔
      (isAssistant m = true → ∀ tc ∈ m.toolCalls, Convertible ft room tc) := by
    intro m
    constructor
    · rintro ⟨pair, hm⟩
      obtain ⟨msg, hmsg, -⟩ := Option.map_eq_some_iff.mp hm
      exact (toAnthropicMsgIn_eq_some.mp hmsg).1
    · exact fun hall => ⟨_, Option.map_eq_some_iff.mpr ⟨_, toAnthropicMsgIn_eq_some.mpr ⟨hall, rfl⟩, rfl⟩⟩
  have hsent : ((h.map fun m => (toAnthropicMsg ft m).map fun msg => (msg, m.transient)).filterMap id) =
      h.filterMap fun m => (toAnthropicMsg ft m).map fun msg => (msg, m.transient) := List.filterMap_map
  unfold anthropicMessagesIn anthropicMessages
  constructor
  · intro hm
    obtain ⟨converted, hsome, rfl⟩ := Option.map_eq_some_iff.mp hm
    obtain ⟨hall, rfl⟩ := (hpairs hmsg).mp hsome
    exact ⟨fun m hm => (hconverted m).mp (hall m hm), by rw [hsent]⟩
  · rintro ⟨hall, rfl⟩
    have hsome := (hpairs hmsg).mpr ⟨fun m hm => (hconverted m).mpr (hall m hm), rfl⟩
    refine Option.map_eq_some_iff.mpr ⟨_, hsome, ?_⟩
    rw [hsent]

variable (ft)

/-! ### Pairing -/

def useId? : OutBlock F → Option String
  | .toolUse call => some call.id
  | _ => none

def resultId? : OutBlock F → Option String
  | .toolResult id _ => some id
  | _ => none

/-- The calls an assistant message makes. -/
def useIds (msg : OutMsg F) : List String := msg.content.blockList.filterMap useId?

/-- The results a message holds. -/
def resultIds (msg : OutMsg F) : List String := msg.content.blockList.filterMap resultId?

/-- A message that holds no result, with the messages of results beneath it
answering its calls. -/
def TurnPaired (head : OutMsg F) (results : List String) : Prop :=
  resultIds head = [] ∧ Matched (useIds head) results

/-- Every result answers a call of the assistant message directly above, and
every call has its one result there. -/
def Paired (msgs : List (OutMsg F)) : Prop :=
  Grouped onlyResults (fun head body => TurnPaired head (body.flatMap resultIds)) msgs

/-! ### What merging keeps -/

theorem resultIds_joinMsg (msg next : OutMsg F) : resultIds (joinMsg msg next) = resultIds msg ++ resultIds next :=
  List.filterMap_append

theorem onlyResults_iff {msg : OutMsg F} : onlyResults msg = true ↔
    msg.role = .user ∧ ∃ bs, msg.content = .blocks bs ∧ bs ≠ [] ∧ bs.all isResult = true := by
  obtain ⟨role, content⟩ := msg
  cases role with
  | assistant => exact ⟨fun h => (nomatch h), fun h => (nomatch h.1)⟩
  | user =>
    cases content with
    | text s => exact ⟨fun h => (nomatch h), fun ⟨_, bs, hbs, _⟩ => (nomatch hbs)⟩
    | blocks bs =>
      constructor
      · intro h
        obtain ⟨hne, hall⟩ := Bool.and_eq_true_iff.mp h
        rw [Bool.not_eq_true', List.isEmpty_eq_false_iff] at hne
        exact ⟨rfl, bs, rfl, hne, hall⟩
      · rintro ⟨_, bs', hbs, hne, hall⟩
        obtain rfl : bs = bs' := OutContent.blocks.inj hbs
        refine Bool.and_eq_true_iff.mpr ⟨?_, hall⟩
        rw [Bool.not_eq_true', List.isEmpty_eq_false_iff]
        exact hne

theorem onlyResults_joinMsg {msg next : OutMsg F} (h : onlyResults msg = true) (h' : onlyResults next = true) :
    onlyResults (joinMsg msg next) = true := by
  obtain ⟨hrole, bs, hbs, hne, hall⟩ := onlyResults_iff.mp h
  obtain ⟨_, bs', hbs', _, hall'⟩ := onlyResults_iff.mp h'
  refine onlyResults_iff.mpr ⟨hrole, bs ++ bs', ?_, ?_, ?_⟩
  · unfold joinMsg
    rw [hbs, hbs']
    rfl
  · exact fun hnil => hne (List.append_eq_nil_iff.mp hnil).1
  · rw [List.all_append, hall, hall']
    rfl

theorem results_of_joins {cur next : OutMsg F × Bool} (h : joins cur next = true) :
    onlyResults cur.1 = true ∧ onlyResults next.1 = true := by
  obtain ⟨h, hcur⟩ := Bool.and_eq_true_iff.mp h
  exact ⟨hcur, (Bool.and_eq_true_iff.mp h).2⟩

/-- Merging keeps the groups by what their results answer, and what the results
before the first of them answer. -/
theorem digest_mergeInto : ∀ (rest : List (OutMsg F × Bool)) (cur : OutMsg F × Bool),
    digest onlyResults resultIds ((mergeInto cur rest).map Prod.fst) =
        digest onlyResults resultIds (cur.1 :: rest.map Prod.fst) ∧
      lead onlyResults resultIds ((mergeInto cur rest).map Prod.fst) =
        lead onlyResults resultIds (cur.1 :: rest.map Prod.fst)
  | [], _ => ⟨rfl, rfl⟩
  | next :: rest, cur => by
    rw [mergeInto]
    by_cases hj : joins cur next = true
    · rw [if_pos hj]
      obtain ⟨hcur, hnext⟩ := results_of_joins hj
      have hjoin : onlyResults (joinMsg cur.1 next.1) = true := onlyResults_joinMsg hcur hnext
      obtain ⟨hd, hl⟩ := digest_mergeInto rest (joinMsg cur.1 next.1, false)
      constructor
      · rw [hd, digest_member hjoin, digest_member hcur, List.map_cons, digest_member hnext]
      · rw [hl, lead_member hjoin, lead_member hcur, List.map_cons, lead_member hnext, resultIds_joinMsg,
          List.append_assoc]
    · rw [if_neg hj, List.map_cons]
      obtain ⟨hd, hl⟩ := digest_mergeInto rest next
      cases hcur : onlyResults cur.1 with
      | true =>
        rw [digest_member hcur, digest_member hcur, lead_member hcur, lead_member hcur, hd, hl]
        exact ⟨rfl, rfl⟩
      | false =>
        rw [digest_head hcur, digest_head hcur, lead_head hcur, lead_head hcur, hd, hl]
        exact ⟨rfl, rfl⟩

theorem takeWhile_mergeInto : ∀ (rest : List (OutMsg F × Bool)) (cur : OutMsg F × Bool),
    ((mergeInto cur rest).map Prod.fst).takeWhile onlyResults = [] ↔ onlyResults cur.1 = false
  | [], cur => by
    cases hcur : onlyResults cur.1 with
    | true => simp [mergeInto, hcur]
    | false => simp [mergeInto, hcur]
  | next :: rest, cur => by
    rw [mergeInto]
    by_cases hj : joins cur next = true
    · obtain ⟨hcur, hnext⟩ := results_of_joins hj
      rw [if_pos hj, takeWhile_mergeInto rest, onlyResults_joinMsg hcur hnext, hcur]
    · rw [if_neg hj]
      cases hcur : onlyResults cur.1 with
      | true => simp [hcur]
      | false => simp [hcur]

theorem paired_iff_digest {msgs : List (OutMsg F)} : Paired msgs ↔
    msgs.takeWhile onlyResults = [] ∧ ∀ g ∈ digest onlyResults resultIds msgs, TurnPaired g.1 g.2 :=
  grouped_iff_digest fun _ _ => Iff.rfl

/-- Merging does not change whether messages are paired. -/
theorem paired_mergeToolResults (pairs : List (OutMsg F × Bool)) :
    Paired ((mergeToolResults pairs).map Prod.fst) ↔ Paired (pairs.map Prod.fst) := by
  cases pairs with
  | nil => exact Iff.rfl
  | cons cur rest =>
    have htake : ((cur :: rest).map Prod.fst).takeWhile onlyResults = [] ↔ onlyResults cur.1 = false := by
      cases hcur : onlyResults cur.1 with
      | true => simp [hcur]
      | false => simp [hcur]
    rw [paired_iff_digest, paired_iff_digest, mergeToolResults, takeWhile_mergeInto, (digest_mergeInto rest cur).1, htake]
    exact Iff.rfl

/-! ### The calls of a message -/

theorem foldl_setCall : ∀ (calls acc : List (ToolUse F)), ((acc ++ calls).map ToolUse.id).Nodup →
    calls.foldl setCall acc = acc ++ calls
  | [], acc, _ => (List.append_nil acc).symm
  | call :: calls, acc, h => by
    have hnew : call.id ∉ acc.map ToolUse.id := by
      rw [List.map_append, List.nodup_append] at h
      intro hmem
      exact h.2.2 _ hmem _ (List.mem_map_of_mem List.mem_cons_self) rfl
    have hstep : setCall acc call = acc ++ [call] := if_neg hnew
    have hassoc : acc ++ call :: calls = acc ++ [call] ++ calls := List.append_cons acc call calls
    rw [List.foldl_cons, hstep, hassoc]
    refine foldl_setCall calls (acc ++ [call]) ?_
    rwa [← hassoc]

/-- The blocks place some of the calls and leave the others. -/
theorem contentBlocks_ids : ∀ (bs : List Block) (remaining : List (ToolUse F)), (remaining.map ToolUse.id).Nodup →
    ((contentBlocks bs remaining).1.filterMap useId? ++ (contentBlocks bs remaining).2.map ToolUse.id).Perm
      (remaining.map ToolUse.id)
  | [], remaining, _ => List.Perm.refl _
  | .thinking _ _ :: bs, remaining, h => contentBlocks_ids bs remaining h
  | .redactedThinking _ :: bs, remaining, h => contentBlocks_ids bs remaining h
  | .text s :: bs, remaining, h => by
    have ih := contentBlocks_ids bs remaining h
    rw [contentBlocks]
    dsimp only
    by_cases hs : s ≠ ""
    · rw [if_pos hs]
      exact ih
    · rw [if_neg hs]
      exact ih
  | .toolUse id :: bs, remaining, h => by
    rw [contentBlocks]
    cases hg : Keyed.get? ToolUse.id remaining id with
    | none => exact contentBlocks_ids bs remaining h
    | some call =>
      obtain ⟨hmem, rfl⟩ := Keyed.get?_some hg
      have hpop : ((Keyed.pop ToolUse.id remaining call.id).map ToolUse.id).Nodup :=
        h.sublist ((Keyed.pop_sublist call.id).map ToolUse.id)
      have ih := contentBlocks_ids bs _ hpop
      exact (ih.cons call.id).trans ((Keyed.perm_cons_pop h hmem).map ToolUse.id).symm
  | .reasoning _ _ _ :: bs, remaining, h => contentBlocks_ids bs remaining h
  | .functionCall _ :: bs, remaining, h => contentBlocks_ids bs remaining h
  | .other _ :: bs, remaining, h => contentBlocks_ids bs remaining h

theorem filterMap_useId_toolUse (calls : List (ToolUse F)) :
    (calls.map OutBlock.toolUse).filterMap useId? = calls.map ToolUse.id := by
  rw [List.filterMap_map]
  exact congrFun List.filterMap_eq_map calls

theorem filterMap_useId_body (s : String) :
    (if s ≠ "" then [OutBlock.text s] else [] : List (OutBlock F)).filterMap useId? = [] := by
  by_cases hs : s ≠ ""
  · rw [if_pos hs]
    rfl
  · rw [if_neg hs]
    rfl

theorem toAnthropicToolUse_named {tc : ToolCall} (hid : tc.id ≠ "") (hname : tc.name ≠ "") :
    ∃ call, toAnthropicToolUse ft tc = some call ∧ call.id = tc.id := by
  unfold toAnthropicToolUse
  rw [if_neg (not_or.mpr ⟨hid, hname⟩)]
  exact ⟨_, rfl, rfl⟩

/-- An assistant message makes its named calls, each once. -/
theorem assistantBlocks_ids {m : Message} (hnodup : (m.toolCalls.map (·.id)).Nodup) (hid : ∀ tc ∈ m.toolCalls, tc.id ≠ "") :
    ((assistantBlocks ft m).filterMap useId?).Perm ((namedCalls m).map (·.id)) := by
  have hids : (m.toolCalls.filterMap (toAnthropicToolUse ft)).map ToolUse.id = (namedCalls m).map (·.id) :=
    filterMap_named (fun _ hname => if_pos (Or.inr hname)) (fun _ => toAnthropicToolUse_named ft) hid
  have hnodup' : ((m.toolCalls.filterMap (toAnthropicToolUse ft)).map ToolUse.id).Nodup := by
    rw [hids]
    exact hnodup.sublist (List.filter_sublist.map _)
  have hdict : (m.toolCalls.filterMap (toAnthropicToolUse ft)).foldl setCall [] =
      m.toolCalls.filterMap (toAnthropicToolUse ft) := foldl_setCall _ [] hnodup'
  unfold assistantBlocks blocksOf
  dsimp only
  rw [hdict, List.filterMap_append, filterMap_useId_toolUse]
  rw [← hids]
  split
  · exact contentBlocks_ids _ _ hnodup'
  · rw [filterMap_useId_body]
    exact List.Perm.refl _

/-! ### Pairing of a history -/

/-- All calls of a history. -/
def allCalls (h : List Message) : List ToolCall := h.flatMap fun m => if isAssistant m then m.toolCalls else []

/-- Each message with what it is sent as, the messages not merged yet. -/
def convertedMessages (h : List Message) : List (OutMsg F) := h.filterMap (toAnthropicMsg ft)

theorem paired_anthropicMessages (h : List Message) :
    Paired (anthropicMessages ft h) ↔ Paired (convertedMessages ft h) := by
  have hfst : (h.filterMap fun m => (toAnthropicMsg ft m).map fun msg => (msg, m.transient)).map Prod.fst =
      convertedMessages ft h := by
    rw [List.map_filterMap]
    refine List.filterMap_congr fun m _ => ?_
    cases toAnthropicMsg ft m with
    | none => rfl
    | some msg => rfl
  unfold anthropicMessages
  rw [paired_mergeToolResults, hfst]

theorem toAnthropicMsg_tool {m : Message} (h : isTool m = true) :
    toAnthropicMsg ft m = some ⟨.user, .blocks [.toolResult m.toolCallId (textOf m.content)]⟩ := by
  have hrole : m.role = .tool := by simpa [isTool] using h
  unfold toAnthropicMsg
  rw [hrole]

theorem contentBlocks_results : ∀ (bs : List Block) (remaining : List (ToolUse F)),
    (contentBlocks bs remaining).1.filterMap resultId? = []
  | [], _ => rfl
  | .thinking _ _ :: bs, remaining => contentBlocks_results bs remaining
  | .redactedThinking _ :: bs, remaining => contentBlocks_results bs remaining
  | .text s :: bs, remaining => by
    have ih := contentBlocks_results bs remaining
    rw [contentBlocks]
    dsimp only
    by_cases hs : s ≠ ""
    · rw [if_pos hs]
      exact ih
    · rw [if_neg hs]
      exact ih
  | .toolUse id :: bs, remaining => by
    rw [contentBlocks]
    cases Keyed.get? ToolUse.id remaining id with
    | none => exact contentBlocks_results bs remaining
    | some call => exact contentBlocks_results bs _
  | .reasoning _ _ _ :: bs, remaining => contentBlocks_results bs remaining
  | .functionCall _ :: bs, remaining => contentBlocks_results bs remaining
  | .other _ :: bs, remaining => contentBlocks_results bs remaining

theorem assistantBlocks_results (m : Message) : (assistantBlocks ft m).filterMap resultId? = [] := by
  have huses : ∀ calls : List (ToolUse F), (calls.map OutBlock.toolUse).filterMap resultId? = [] := by
    intro calls
    rw [List.filterMap_map]
    exact List.filterMap_eq_nil_iff.mpr fun _ _ => rfl
  unfold assistantBlocks blocksOf
  dsimp only
  rw [List.filterMap_append, huses, List.append_nil]
  split
  · exact contentBlocks_results _ _
  · dsimp only
    split
    · rfl
    · rfl

/-- The calls that are sent of a message. -/
def sentIds (m : Message) : List String := if isAssistant m then (namedCalls m).map (·.id) else []

/-- A message that is no tool message is dropped, making no call, or sent
without results and with its named calls. -/
theorem toAnthropicMsg_head {m : Message} (hm : isTool m = false) (hnodup : (callIds m).Nodup)
    (hid : ∀ id ∈ callIds m, id ≠ "") :
    (toAnthropicMsg ft m = none ∧ sentIds m = []) ∨
      ∃ msg, toAnthropicMsg ft m = some msg ∧ onlyResults msg = false ∧ resultIds msg = [] ∧
        (useIds msg).Perm (sentIds m) := by
  cases hrole : m.role with
  | tool =>
    unfold isTool at hm
    rw [hrole] at hm
    exact absurd hm (by decide)
  | system | user =>
    have hassistant : isAssistant m = false := by rw [isAssistant, hrole]; rfl
    refine Or.inr ⟨⟨.user, .text (textOf m.content)⟩, ?_, rfl, rfl, ?_⟩
    · rw [toAnthropicMsg, hrole]
    · rw [sentIds, hassistant]
      exact List.Perm.refl _
  | assistant =>
    have hassistant : isAssistant m = true := by rw [isAssistant, hrole]; rfl
    have hcalls : callIds m = m.toolCalls.map (·.id) := if_pos hassistant
    have hsent : sentIds m = (namedCalls m).map (·.id) := if_pos hassistant
    rw [hcalls] at hnodup hid
    have hids := assistantBlocks_ids ft hnodup fun tc htc => hid tc.id (List.mem_map_of_mem htc)
    have hresults := assistantBlocks_results ft m
    rw [← hsent] at hids
    rw [toAnthropicMsg, hrole]
    cases hblocks : assistantBlocks ft m with
    | nil =>
      rw [hblocks] at hids
      exact Or.inl ⟨rfl, List.nil_perm.mp hids⟩
    | cons b bs =>
      rw [hblocks] at hids hresults
      exact Or.inr ⟨_, rfl, rfl, hresults, hids⟩

/-- The tool messages are sent as their results. -/
theorem filterMap_tools : ∀ {body : List Message}, (∀ m ∈ body, isTool m = true) →
    (∀ msg ∈ body.filterMap (toAnthropicMsg ft), onlyResults msg = true) ∧
      (body.filterMap (toAnthropicMsg ft)).flatMap resultIds = body.map (·.toolCallId)
  | [], _ => ⟨fun _ h => absurd h List.not_mem_nil, rfl⟩
  | m :: body, h => by
    have hm := toAnthropicMsg_tool ft (h m List.mem_cons_self)
    obtain ⟨hall, hids⟩ := filterMap_tools fun x hx => h x (List.mem_cons_of_mem m hx)
    rw [List.filterMap_cons_some hm]
    constructor
    · intro msg hmsg
      rcases List.mem_cons.mp hmsg with rfl | hmsg
      · rfl
      · exact hall msg hmsg
    · rw [List.flatMap_cons, hids]
      rfl

theorem sentIds_eq {m : Message} (h : isAssistant m = true → ∀ tc ∈ m.toolCalls, tc.name ≠ "") :
    sentIds m = callIds m := by
  unfold sentIds callIds
  by_cases ha : isAssistant m = true
  · rw [if_pos ha, if_pos ha, namedCalls_eq (h ha)]
  · rw [if_neg ha, if_neg ha]

/-- Where every call has a name, the converted messages are paired. -/
theorem paired_of_named {h : List Message} (hg : Grouped isTool AnsweredBy h) (hid : ∀ id ∈ h.flatMap callIds, id ≠ "")
    (hname : ∀ m ∈ h, isAssistant m = true → ∀ tc ∈ m.toolCalls, tc.name ≠ "") : Paired (convertedMessages ft h) := by
  unfold convertedMessages
  induction hg with
  | nil => exact .nil
  | @group x body rest hx hb hgood _ ih =>
    rw [List.flatMap_cons, List.flatMap_append] at hid
    have hrest := ih (fun id hm => hid id (List.mem_append_right _ (List.mem_append_right _ hm)))
      fun m hm => hname m (List.mem_cons_of_mem x (List.mem_append_right _ hm))
    obtain ⟨hnodup, hperm⟩ := matched_iff.mp hgood
    have hsent : sentIds x = callIds x := sentIds_eq (hname x List.mem_cons_self)
    obtain ⟨hall, hids⟩ := filterMap_tools ft hb
    rw [List.filterMap_cons, List.filterMap_append]
    rcases toAnthropicMsg_head ft hx hnodup fun id hm => hid id (List.mem_append_left _ hm) with
      ⟨hnone, hnil⟩ | ⟨msg, hmsg, hheads, hres, huse⟩
    · -- a dropped message had no calls, so nothing stands beneath it
      rw [hsent] at hnil
      rw [hnil] at hperm
      have hbody : body = [] := List.map_eq_nil_iff.mp (List.nil_perm.mp hperm)
      rw [hnone, hbody]
      exact hrest
    · rw [hmsg]
      refine Grouped.group hheads hall ⟨hres, matched_iff.mpr ?_⟩ hrest
      rw [hids]
      rw [hsent] at huse
      exact ⟨huse.nodup_iff.mpr hnodup, huse.trans hperm⟩

/-- In paired messages every result answers a call. -/
theorem Paired.result_mem {msgs : List (OutMsg F)} (h : Paired msgs) :
    ∀ id ∈ msgs.flatMap resultIds, id ∈ msgs.flatMap useIds := by
  induction h with
  | nil => exact fun _ h => h
  | @group x body rest hx hb hgood _ ih =>
    intro id hid
    rw [List.flatMap_cons, hgood.1, List.nil_append, List.flatMap_append] at hid
    rw [List.flatMap_cons, List.flatMap_append]
    rcases List.mem_append.mp hid with hid | hid
    · exact List.mem_append_left _ ((matched_iff.mp hgood.2).2.mem_iff.mpr hid)
    · exact List.mem_append_right _ (List.mem_append_right _ (ih id hid))

theorem mem_resultIds_of_tool {h : List Message} {r : Message} (hr : r ∈ h) (htool : isTool r = true) :
    r.toolCallId ∈ (convertedMessages ft h).flatMap resultIds := by
  refine List.mem_flatMap.mpr ⟨_, List.mem_filterMap.mpr ⟨r, hr, toAnthropicMsg_tool ft htool⟩, ?_⟩
  exact List.mem_singleton.mpr rfl

/-- Every call of a well-paired history has a result. -/
theorem exists_result {h : List Message} (hg : Grouped isTool AnsweredBy h) :
    ∀ m ∈ h, ∀ id ∈ callIds m, ∃ r ∈ h, isTool r = true ∧ r.toolCallId = id := by
  induction hg with
  | nil => exact fun m hm => absurd hm List.not_mem_nil
  | @group x body rest hx hb hgood _ ih =>
    intro m hm id hid
    rcases List.mem_cons.mp hm with rfl | hm
    · obtain ⟨r, hr, rfl⟩ := List.mem_map.mp ((matched_iff.mp hgood).2.mem_iff.mp hid)
      exact ⟨r, List.mem_cons_of_mem _ (List.mem_append_left _ hr), hb r hr, rfl⟩
    · rcases List.mem_append.mp hm with hm | hm
      · have htool := hb m hm
        have hnone : callIds m = [] := by
          have hrole : m.role = .tool := by simpa [isTool] using htool
          unfold callIds isAssistant
          rw [hrole]
          rfl
        rw [hnone] at hid
        exact absurd hid List.not_mem_nil
      · obtain ⟨r, hr, htool, hr'⟩ := ih m hm id hid
        exact ⟨r, List.mem_cons_of_mem _ (List.mem_append_right _ hr), htool, hr'⟩

/-- Every call made is a named call of the history. -/
theorem named_of_mem_useIds {h : List Message} (hdistinct : (h.flatMap callIds).Nodup)
    (hid : ∀ id ∈ h.flatMap callIds, id ≠ "") :
    ∀ id ∈ (convertedMessages ft h).flatMap useIds, ∃ tc ∈ allCalls h, tc.name ≠ "" ∧ tc.id = id := by
  intro id hmem
  obtain ⟨msg, hmsg, hid'⟩ := List.mem_flatMap.mp hmem
  obtain ⟨m, hm, hconv⟩ := List.mem_filterMap.mp hmsg
  cases htool : isTool m with
  | true =>
    rw [toAnthropicMsg_tool ft htool] at hconv
    rw [← Option.some_inj.mp hconv] at hid'
    exact absurd hid' List.not_mem_nil
  | false =>
    have hnodup : (callIds m).Nodup := (List.nodup_flatMap.mp hdistinct).1 m hm
    have hne : ∀ id ∈ callIds m, id ≠ "" := fun id hid'' => hid id (List.mem_flatMap.mpr ⟨m, hm, hid''⟩)
    rcases toAnthropicMsg_head ft htool hnodup hne with ⟨hnone, _⟩ | ⟨msg', hmsg', _, _, huse⟩
    · rw [hnone] at hconv
      exact absurd hconv (Option.some_ne_none msg).symm
    · rw [hmsg'] at hconv
      rw [← Option.some_inj.mp hconv, huse.mem_iff] at hid'
      unfold sentIds at hid'
      by_cases ha : isAssistant m = true
      · rw [if_pos ha] at hid'
        obtain ⟨tc, htc, rfl⟩ := List.mem_map.mp hid'
        obtain ⟨htc, hname⟩ := List.mem_filter.mp htc
        refine ⟨tc, List.mem_flatMap.mpr ⟨m, hm, ?_⟩, of_decide_eq_true hname, rfl⟩
        rw [if_pos ha]
        exact htc
      · rw [if_neg ha] at hid'
        exact absurd hid' List.not_mem_nil

theorem allCalls_ids (h : List Message) : (allCalls h).map (·.id) = h.flatMap callIds := by
  unfold allCalls
  rw [List.map_flatMap]
  refine List.flatMap_congr fun m _ => ?_
  unfold callIds
  by_cases ha : isAssistant m = true
  · rw [if_pos ha, if_pos ha]
  · rw [if_neg ha, if_neg ha]
    rfl

/-- The messages sent of a well-paired history are paired exactly where every
call has a name. -/
theorem paired_iff {h : List Message} (hh : WellPaired h) :
    Paired (anthropicMessages ft h) ↔ ∀ m ∈ h, isAssistant m = true → ∀ tc ∈ m.toolCalls, tc.name ≠ "" := by
  rw [paired_anthropicMessages]
  constructor
  · intro hp m hm ha tc htc
    have hcall : tc ∈ allCalls h := List.mem_flatMap.mpr ⟨m, hm, by rw [if_pos ha]; exact htc⟩
    have hmem : tc.id ∈ callIds m := by
      rw [callIds, if_pos ha]
      exact List.mem_map_of_mem htc
    obtain ⟨r, hr, htool, hrid⟩ := exists_result hh.grouped m hm tc.id hmem
    have hresult := mem_resultIds_of_tool ft hr htool
    rw [hrid] at hresult
    obtain ⟨tc', htc', hname, hid⟩ :=
      named_of_mem_useIds ft hh.distinct hh.nonempty tc.id (hp.result_mem tc.id hresult)
    -- ids are distinct, so the call made is this one
    have hdistinct := hh.distinct
    rw [← allCalls_ids] at hdistinct
    rw [← List.inj_on_of_nodup_map hdistinct htc' hcall hid]
    exact hname
  · exact paired_of_named ft hh.grouped hh.nonempty

/-- Messages are sent, and paired, exactly where every call has a name and arguments
that the stack has room for. -/
theorem paired_in_iff {room : ℕ} {h : List Message} (hh : WellPaired h) :
    (∃ msgs, anthropicMessagesIn ft room h = some msgs ∧ Paired msgs) ↔
      ∀ m ∈ h, isAssistant m = true → ∀ tc ∈ m.toolCalls, tc.name ≠ "" ∧ reach ft (rawArgs tc) ≤ room := by
  constructor
  · rintro ⟨msgs, hmsgs, hp⟩ m hm ha tc htc
    obtain ⟨hall, rfl⟩ := anthropicMessagesIn_eq_some.mp hmsgs
    have hname := (paired_iff ft hh).mp hp m hm ha tc htc
    have hid : tc.id ≠ "" := by
      refine hh.nonempty tc.id (List.mem_flatMap.mpr ⟨m, hm, ?_⟩)
      rw [callIds, if_pos ha]
      exact List.mem_map_of_mem htc
    exact ⟨hname, hall m hm ha tc htc hid hname⟩
  · intro hall
    refine ⟨_, anthropicMessagesIn_eq_some.mpr ⟨fun m hm ha tc htc _ _ => (hall m hm ha tc htc).2, rfl⟩, ?_⟩
    exact (paired_iff ft hh).mpr fun m hm ha tc htc => (hall m hm ha tc htc).1

end Anthropic
end Wire
end AgentCore
