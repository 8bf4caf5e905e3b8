/-
# A streamed message and the whole message

An event stream delivers a message when it opens the blocks one after the other
under growing indices, cuts their contents into deltas in any way, and reports
the input counts at its start and the output counts at its end; transport
activity and events without content may stand anywhere (`Delivers`).

The streamed response has the finish reason, the usage and the named tool calls
of the whole message, and its blocks where it has any thinking. Its text is
without leading white space, and inline thinking tags are taken out of it, so
that text and reasoning are compared where there are none.

Key definitions: `Delivers`, `decoded`.
Key theorem: `stream_agrees`.
-/
import AgentCore.Providers.AnthropicStream

namespace AgentCore
namespace AnthropicStream

open PyJson ToolCalls ThinkTags Indexed

variable {F : Type} (ft : FloatText F)

/-! ### Streams that deliver a message -/

/-- The JSON fragments of an input: its text, or nothing for an empty one. -/
def Decodes (text : Chars) (input : Input F) : Prop :=
  (text = [] ∧ input.kvs = []) ∨ loads ft text = some (.obj input.kvs)

/-- A delta of a thinking block. -/
inductive ThinkingPart
  | thinking (s : Chars)
  | signature (s : Chars)

def ThinkingPart.event (i : ℕ) : ThinkingPart → Event F
  | .thinking s => .thinkingDelta i s
  | .signature s => .signatureDelta i s

def ThinkingPart.thinkingText : ThinkingPart → Chars
  | .thinking s => s
  | .signature _ => []

def ThinkingPart.signatureText : ThinkingPart → Chars
  | .thinking _ => []
  | .signature s => s

def emptyInput : Input F := ⟨[], .obj [] List.nodup_nil fun _ h => absurd h List.not_mem_nil⟩

/-- The events that deliver a block under an index. -/
def BlockEvents (i : ℕ) : RawBlock F → List (Event F) → Prop
  | .text s, evs =>
    ∃ chunks : List Chars, chunks.flatten = s ∧ evs = .contentBlockStart i (.text []) :: chunks.map (.textDelta i)
  | .thinking t sig, evs =>
    ∃ parts : List ThinkingPart, parts.flatMap ThinkingPart.thinkingText = t ∧
      parts.flatMap ThinkingPart.signatureText = sig ∧
      evs = .contentBlockStart i (.thinking [] []) :: parts.map (ThinkingPart.event i)
  | .redactedThinking data, evs => evs = [.contentBlockStart i (.redactedThinking data)]
  | .toolUse id name input, evs =>
    ∃ frags : List Chars, Decodes ft frags.flatten input ∧
      evs = .contentBlockStart i (.toolUse id name emptyInput) :: frags.map (.inputJsonDelta i)

/-- The events that deliver the blocks from an index on. -/
inductive BlocksDelivered : ℕ → List (RawBlock F) → List (Event F) → Prop
  | nil (i : ℕ) : BlocksDelivered i [] []
  | cons {i : ℕ} {b : RawBlock F} {bs : List (RawBlock F)} {evs rest : List (Event F)} :
      BlockEvents ft i b evs → BlocksDelivered (i + 1) bs rest → BlocksDelivered i (b :: bs) (evs ++ rest)

/-- The usage of a message: what its start reports of the input and its end of
the output. -/
def UsageDelivered : Option RawUsage → Option RawUsage → Option RawUsage → Prop
  | none, atStart, atEnd => atStart = none ∧ atEnd = none
  | some u, atStart, atEnd =>
    ∃ s d, atStart = some s ∧ atEnd = some d ∧ s.inputTokens = u.inputTokens ∧
      s.cacheReadInputTokens = u.cacheReadInputTokens ∧ s.cacheCreationInputTokens = u.cacheCreationInputTokens ∧
      s.ephemeral1hInputTokens = u.ephemeral1hInputTokens ∧ d.outputTokens = u.outputTokens ∧
      d.thinkingTokens = u.thinkingTokens

/-- Transport activity, and events that carry no content. -/
def Event.isNoise : Event F → Bool
  | .activity => true
  | .other => true
  | _ => false

/-- The event stream delivers the message. -/
def Delivers (m : RawMessage F) (evs : List (Event F)) : Prop :=
  ∃ atStart blockEvs atEnd, BlocksDelivered ft 0 m.content blockEvs ∧ UsageDelivered m.usage atStart atEnd ∧
    evs.filter (fun e => !e.isNoise) =
      .messageStart m.model atStart :: (blockEvs ++ [.messageDelta m.stopReason m.stopDetails atEnd, .messageStop])

/-! ### One event at a time -/

/-- The stream and the assembly side by side. -/
def feedEvent (p : StreamState F × Assembly F) (e : Event F) : StreamState F × Assembly F :=
  ((onEvent p.1 e).1, (onEvent p.1 e).2.foldl onDelta p.2)

variable {ft}

theorem onEvents_foldl : ∀ (evs : List (Event F)) (st : StreamState F) (a : Assembly F),
    ((onEvents st evs).1, (onEvents st evs).2.foldl onDelta a) = evs.foldl feedEvent (st, a)
  | [], _, _ => rfl
  | e :: evs, st, a => by
    have ih := onEvents_foldl evs (onEvent st e).1 ((onEvent st e).2.foldl onDelta a)
    rw [onEvents, List.foldl_cons]
    dsimp only
    rw [List.foldl_append]
    exact ih

theorem onContent_nil (s : Splitter) : onContent s [] = (s, .empty) := if_pos (Or.inl rfl)

theorem add_nil (ts : TextState) : ts.add [] [] = ts := by
  unfold TextState.add
  rw [onContent_nil]
  obtain ⟨splitter, accumulated, thinking⟩ := ts
  simp [Channels.empty]

theorem onDelta_calls (a : Assembly F) (ds : List CallDelta) :
    onDelta a { toolCallDeltas := ds } = { a with slots := ds.foldl feedCall a.slots } := by
  have h : onDelta a { toolCallDeltas := ds } = { a with text := a.text.add [] [], slots := ds.foldl feedCall a.slots } :=
    rfl
  rw [h, add_nil]

theorem feedEvent_noise {e : Event F} (h : e.isNoise = true) (p : StreamState F × Assembly F) : feedEvent p e = p := by
  cases e with
  | activity =>
    have hempty : onDelta p.2 ({} : Delta F) = p.2 := by
      have hcalls := onDelta_calls p.2 []
      exact hcalls
    exact congrArg (Prod.mk p.1) hempty
  | other => rfl
  | _ => exact absurd h Bool.false_ne_true

/-- Events without content change nothing. -/
theorem foldl_filter_noise : ∀ (evs : List (Event F)) (p : StreamState F × Assembly F),
    evs.foldl feedEvent p = (evs.filter fun e => !e.isNoise).foldl feedEvent p
  | [], _ => rfl
  | e :: evs, p => by
    cases he : e.isNoise with
    | true =>
      rw [List.foldl_cons, feedEvent_noise he, foldl_filter_noise evs, List.filter_cons_of_neg (by simp [he])]
    | false => rw [List.foldl_cons, foldl_filter_noise evs, List.filter_cons_of_pos (by simp [he]), List.foldl_cons]

/-! ### One block at a time -/

variable {st : StreamState F} {a : Assembly F} {d : List (ℕ × OpenBlock F)} {i : ℕ}

theorem foldl_textDelta (hst : Below i d) : ∀ (chunks : List Chars) (s : Chars) (a : Assembly F),
    (chunks.map (Event.textDelta i)).foldl feedEvent ({ st with blocks := d ++ [(i, .text s)] }, a) =
      ({ st with blocks := d ++ [(i, .text (s ++ chunks.flatten))] },
        { a with text := (chunks.map fun c => (c, ([] : Chars))).foldl (fun ts p => ts.add p.1 p.2) a.text })
  | [], s, a => by rw [List.flatten_nil, List.append_nil]; rfl
  | c :: chunks, s, a => by
    have hstep : feedEvent ({ st with blocks := d ++ [(i, .text s)] }, a) (.textDelta i c) =
        ({ st with blocks := d ++ [(i, .text (s ++ c))] }, { a with text := a.text.add c [] }) := by
      unfold feedEvent onEvent
      dsimp only
      rw [hst.modify]
      rfl
    rw [List.map_cons, List.foldl_cons, hstep, foldl_textDelta hst chunks, List.flatten_cons, List.append_assoc]
    rfl

theorem foldl_thinkingPart (hst : Below i d) : ∀ (parts : List ThinkingPart) (t sig : Chars) (a : Assembly F),
    (parts.map (ThinkingPart.event i)).foldl feedEvent ({ st with blocks := d ++ [(i, .thinking t sig)] }, a) =
      ({ st with blocks := d ++ [(i, .thinking (t ++ parts.flatMap ThinkingPart.thinkingText)
          (sig ++ parts.flatMap ThinkingPart.signatureText))] },
        { a with text := (parts.map fun p => (([] : Chars), p.thinkingText)).foldl (fun ts p => ts.add p.1 p.2) a.text })
  | [], t, sig, a => by rw [List.flatMap_nil, List.flatMap_nil, List.append_nil, List.append_nil]; rfl
  | .thinking s :: parts, t, sig, a => by
    have hstep : feedEvent ({ st with blocks := d ++ [(i, .thinking t sig)] }, a) (ThinkingPart.event i (.thinking s)) =
        ({ st with blocks := d ++ [(i, .thinking (t ++ s) sig)] }, { a with text := a.text.add [] s }) := by
      unfold feedEvent onEvent ThinkingPart.event
      dsimp only
      rw [hst.modify]
      rfl
    rw [List.map_cons, List.foldl_cons, hstep, foldl_thinkingPart hst parts, List.flatMap_cons, List.flatMap_cons,
      List.append_assoc]
    rfl
  | .signature s :: parts, t, sig, a => by
    have hstep : feedEvent ({ st with blocks := d ++ [(i, .thinking t sig)] }, a) (ThinkingPart.event i (.signature s)) =
        ({ st with blocks := d ++ [(i, .thinking t (sig ++ s))] }, { a with text := a.text.add [] [] }) := by
      unfold feedEvent onEvent ThinkingPart.event
      dsimp only
      rw [hst.modify, add_nil]
      rfl
    rw [List.map_cons, List.foldl_cons, hstep, foldl_thinkingPart hst parts, List.flatMap_cons, List.flatMap_cons,
      List.append_assoc]
    rfl

/-- The fragments read so far. -/
def fragments (chunks : List Chars) (json : Option Chars) : Option Chars :=
  chunks.foldl (fun j c => some (j.getD [] ++ c)) json

theorem feedCall_last {slots : List (ℕ × Call)} (h : Below i slots) (c : Call) (d : CallDelta) (hi : d.index = i) :
    feedCall (slots ++ [(i, c)]) d =
      slots ++ [(i, ⟨if d.id ≠ "" then d.id else c.id, c.name ++ d.name, c.arguments ++ d.arguments⟩)] := by
  unfold feedCall
  rw [hi, setDefault_last, h.modify]

theorem foldl_inputJson (hst : Below i d) {slots : List (ℕ × Call)} (hslots : Below i slots) (id name : String)
    (input : Value F) : ∀ (chunks : List Chars) (json : Option Chars) (args : Chars) (a : Assembly F),
    (chunks.map (Event.inputJsonDelta i)).foldl feedEvent
        ({ st with blocks := d ++ [(i, .toolUse id name input json)] }, { a with slots := slots ++ [(i, ⟨id, name, args⟩)] }) =
      ({ st with blocks := d ++ [(i, .toolUse id name input (fragments chunks json))] },
        { a with slots := slots ++ [(i, ⟨id, name, args ++ chunks.flatten⟩)] })
  | [], json, args, a => by rw [List.flatten_nil, List.append_nil]; rfl
  | c :: chunks, json, args, a => by
    have hcall := feedCall_last hslots ⟨id, name, args⟩ { index := i, arguments := c } rfl
    have hname : name ++ "" = name := String.append_empty
    have hstep : feedEvent ({ st with blocks := d ++ [(i, .toolUse id name input json)] },
          { a with slots := slots ++ [(i, ⟨id, name, args⟩)] }) (.inputJsonDelta i c) =
        ({ st with blocks := d ++ [(i, .toolUse id name input (some (json.getD [] ++ c)))] },
          { a with slots := slots ++ [(i, ⟨id, name, args ++ c⟩)] }) := by
      unfold feedEvent onEvent
      dsimp only
      rw [hst.modify, List.foldl_cons, List.foldl_nil, onDelta_calls]
      dsimp only
      rw [List.foldl_cons, List.foldl_nil, hcall]
      dsimp only
      rw [hname]
      rfl
    rw [List.map_cons, List.foldl_cons, hstep, foldl_inputJson hst hslots id name input chunks, List.flatten_cons,
      List.append_assoc]
    rfl

theorem fragments_some : ∀ (chunks : List Chars) (json : Chars), fragments chunks (some json) = some (json ++ chunks.flatten)
  | [], json => by rw [List.flatten_nil, List.append_nil]; rfl
  | c :: chunks, json => by
    rw [List.flatten_cons, ← List.append_assoc]
    exact fragments_some chunks (json ++ c)

theorem loads_nil : loads ft [] = none := rfl

/-- The fragments of an input read as the input. -/
theorem closed_toolUse {id name : String} {chunks : List Chars} {input : Input F} (h : Decodes ft chunks.flatten input) :
    (OpenBlock.toolUse id name (.obj []) (fragments chunks none)).closed ft = .toolUse id name (.obj input.kvs) := by
  cases chunks with
  | nil =>
    rcases h with ⟨_, hkvs⟩ | hloads
    · rw [hkvs]
      rfl
    · exact absurd hloads (by rw [List.flatten_nil, loads_nil]; exact (Option.some_ne_none _).symm)
  | cons c chunks =>
    have hfrag : fragments (c :: chunks) none = some (c :: chunks).flatten := fragments_some chunks c
    rw [hfrag, OpenBlock.closed]
    rcases h with ⟨hnil, hkvs⟩ | hloads
    · rw [hnil, hkvs, loads_nil]
      rfl
    · rw [hloads]
      rfl

variable (ft) in
/-- The slot a block leaves behind. -/
def CallOf : RawBlock F → Option Call → Prop
  | .toolUse id name input, c => ∃ text, Decodes ft text input ∧ c = some ⟨id, name, text⟩
  | _, c => c = none

variable (ft) in
/-- What is left of a block that was delivered: the block, the slot of its call,
and the text and reasoning it added. -/
structure BlockRead (b : RawBlock F) (ob : OpenBlock F) (c : Option Call) (adds : List (Chars × Chars)) : Prop where
  closed : ob.closed ft = b.out
  call : CallOf ft b c
  content : adds.flatMap Prod.fst = b.text?.getD []
  reasoning : adds.flatMap Prod.snd = b.thinking?.getD []

/-- The text state behind some text and reasoning. -/
def addAll (ts : TextState) (adds : List (Chars × Chars)) : TextState := adds.foldl (fun ts p => ts.add p.1 p.2) ts

theorem flatMap_fst_content (chunks : List Chars) :
    (chunks.map fun c => (c, ([] : Chars))).flatMap Prod.fst = chunks.flatten ∧
      (chunks.map fun c => (c, ([] : Chars))).flatMap Prod.snd = [] := by
  rw [List.flatMap_map, List.flatMap_map]
  refine ⟨List.flatMap_id, ?_⟩
  exact List.flatMap_eq_nil_iff.mpr fun _ _ => rfl

theorem flatMap_snd_reasoning (parts : List ThinkingPart) :
    (parts.map fun p => (([] : Chars), p.thinkingText)).flatMap Prod.fst = [] ∧
      (parts.map fun p => (([] : Chars), p.thinkingText)).flatMap Prod.snd = parts.flatMap ThinkingPart.thinkingText := by
  rw [List.flatMap_map, List.flatMap_map]
  exact ⟨List.flatMap_eq_nil_iff.mpr fun _ _ => rfl, rfl⟩

/-- A block delivered under the next index is read. -/
theorem foldl_block {b : RawBlock F} {evs : List (Event F)} (h : BlockEvents ft i b evs) (hst : Below i st.blocks)
    (hslots : Below i a.slots) :
    ∃ ob c adds, BlockRead ft b ob c adds ∧
      evs.foldl feedEvent (st, a) =
        ({ st with blocks := st.blocks ++ [(i, ob)] },
          { a with text := addAll a.text adds, slots := a.slots ++ (c.map fun c => (i, c)).toList }) := by
  cases b with
  | text s =>
    obtain ⟨chunks, rfl, rfl⟩ := h
    have hopen : feedEvent (st, a) (.contentBlockStart i (.text [])) =
        ({ st with blocks := st.blocks ++ [(i, .text [])] }, a) := by
      unfold feedEvent onEvent
      dsimp only
      rw [hst.set]
      rfl
    obtain ⟨hcontent, hreasoning⟩ := flatMap_fst_content chunks
    refine ⟨.text ([] ++ chunks.flatten), none, _, ⟨rfl, rfl, hcontent, hreasoning⟩, ?_⟩
    rw [List.foldl_cons, hopen, foldl_textDelta hst]
    exact congrArg (Prod.mk _) (by rw [Option.map_none, Option.toList_none, List.append_nil]; rfl)
  | thinking t sig =>
    obtain ⟨parts, rfl, rfl, rfl⟩ := h
    have hopen : feedEvent (st, a) (.contentBlockStart i (.thinking [] [])) =
        ({ st with blocks := st.blocks ++ [(i, .thinking [] [])] }, a) := by
      unfold feedEvent onEvent
      dsimp only
      rw [hst.set]
      rfl
    obtain ⟨hcontent, hreasoning⟩ := flatMap_snd_reasoning parts
    refine ⟨.thinking ([] ++ parts.flatMap ThinkingPart.thinkingText) ([] ++ parts.flatMap ThinkingPart.signatureText), none,
      _, ⟨rfl, rfl, hcontent, hreasoning⟩, ?_⟩
    rw [List.foldl_cons, hopen, foldl_thinkingPart hst]
    exact congrArg (Prod.mk _) (by rw [Option.map_none, Option.toList_none, List.append_nil]; rfl)
  | redactedThinking data =>
    obtain rfl := h
    have hopen : feedEvent (st, a) (.contentBlockStart i (.redactedThinking data)) =
        ({ st with blocks := st.blocks ++ [(i, .redactedThinking data)] }, a) := by
      unfold feedEvent onEvent
      dsimp only
      rw [hst.set]
      rfl
    refine ⟨.redactedThinking data, none, [], ⟨rfl, rfl, rfl, rfl⟩, ?_⟩
    rw [List.foldl_cons, List.foldl_nil, hopen, Option.map_none, Option.toList_none, List.append_nil]
    rfl
  | toolUse id name input =>
    obtain ⟨frags, hdec, rfl⟩ := h
    have hcall : feedCall a.slots { index := i, id := id, name := name } = a.slots ++ [(i, ⟨id, name, []⟩)] := by
      unfold feedCall
      dsimp only
      rw [hslots.setDefault, hslots.modify]
      dsimp only
      have hid : (if id ≠ "" then id else "") = id := by
        by_cases hne : id = ""
        · rw [if_neg (not_not_intro hne), hne]
        · exact if_pos hne
      have hname : "" ++ name = name := String.empty_append
      rw [hid, hname]
      rfl
    have hopen : feedEvent (st, a) (.contentBlockStart i (.toolUse id name emptyInput)) =
        ({ st with blocks := st.blocks ++ [(i, .toolUse id name (.obj []) none)] },
          { a with slots := a.slots ++ [(i, ⟨id, name, []⟩)] }) := by
      unfold feedEvent onEvent
      dsimp only
      rw [hst.set, List.foldl_cons, List.foldl_nil, onDelta_calls, List.foldl_cons, List.foldl_nil, hcall]
      rfl
    refine ⟨_, some ⟨id, name, [] ++ frags.flatten⟩, [], ⟨closed_toolUse hdec, ⟨_, hdec, rfl⟩, rfl, rfl⟩, ?_⟩
    rw [List.foldl_cons, hopen, foldl_inputJson hst hslots]
    rfl

variable (ft) in
/-- What is left of the blocks that were delivered. -/
structure BlocksRead (bs : List (RawBlock F)) (obs : List (OpenBlock F)) (calls : List (Option Call))
    (adds : List (Chars × Chars)) : Prop where
  closed : obs.map (OpenBlock.closed ft) = bs.map RawBlock.out
  calls : List.Forall₂ (CallOf ft) bs calls
  content : adds.flatMap Prod.fst = (bs.filterMap RawBlock.text?).flatten
  reasoning : adds.flatMap Prod.snd = (bs.filterMap RawBlock.thinking?).flatten

theorem flatten_filterMap_cons {f : RawBlock F → Option Chars} (b : RawBlock F) (bs : List (RawBlock F)) :
    ((b :: bs).filterMap f).flatten = (f b).getD [] ++ (bs.filterMap f).flatten := by
  cases hb : f b with
  | none =>
    rw [List.filterMap_cons_none hb]
    rfl
  | some s =>
    rw [List.filterMap_cons_some hb]
    rfl

theorem BlocksRead.cons {b : RawBlock F} {ob : OpenBlock F} {c : Option Call} {adds : List (Chars × Chars)}
    {bs : List (RawBlock F)} {obs : List (OpenBlock F)} {calls : List (Option Call)} {adds' : List (Chars × Chars)}
    (h : BlockRead ft b ob c adds) (h' : BlocksRead ft bs obs calls adds') :
    BlocksRead ft (b :: bs) (ob :: obs) (c :: calls) (adds ++ adds') where
  closed := by rw [List.map_cons, List.map_cons, h.closed, h'.closed]
  calls := .cons h.call h'.calls
  content := by rw [List.flatMap_append, h.content, h'.content, flatten_filterMap_cons]
  reasoning := by rw [List.flatMap_append, h.reasoning, h'.reasoning, flatten_filterMap_cons]

/-- Blocks delivered from an index on are read. -/
theorem foldl_blocks {bs : List (RawBlock F)} {evs : List (Event F)} (h : BlocksDelivered ft i bs evs) :
    ∀ {st : StreamState F} {a : Assembly F}, Below i st.blocks → Below i a.slots →
    ∃ obs calls adds, BlocksRead ft bs obs calls adds ∧
      evs.foldl feedEvent (st, a) =
        ({ st with blocks := st.blocks ++ collect some i obs },
          { a with text := addAll a.text adds, slots := a.slots ++ collect (fun c => c) i calls }) := by
  induction h with
  | nil i =>
    intro st a _ _
    refine ⟨[], [], [], ⟨rfl, .nil, rfl, rfl⟩, ?_⟩
    rw [collect, collect, List.append_nil, List.append_nil]
    rfl
  | @cons i b bs evs rest hb _ ih =>
    intro st a hst hslots
    obtain ⟨ob, c, adds, hread, hfold⟩ := foldl_block hb hst hslots
    have hslots' : Below (i + 1) (a.slots ++ (c.map fun c => (i, c)).toList) := by
      cases c with
      | none =>
        rw [Option.map_none, Option.toList_none, List.append_nil]
        exact hslots.succ
      | some c => exact hslots.append c
    have hcollect : ∀ calls : List (Option Call), (c.map fun c => (i, c)).toList ++ collect (fun c => c) (i + 1) calls =
        collect (fun c => c) i (c :: calls) := by
      intro calls
      cases c with
      | none => rfl
      | some c => rfl
    obtain ⟨obs, calls, adds', hread', hfold'⟩ := @ih { st with blocks := st.blocks ++ [(i, ob)] }
      { a with text := addAll a.text adds, slots := a.slots ++ (c.map fun c => (i, c)).toList } (hst.append ob) hslots'
    refine ⟨ob :: obs, c :: calls, adds ++ adds', BlocksRead.cons hread hread', ?_⟩
    rw [List.foldl_append, hfold, hfold']
    dsimp only
    rw [List.append_assoc, List.append_assoc, hcollect]
    unfold addAll
    rw [List.foldl_append]
    rfl

/-! ### The text of a stream without tags -/

theorem inside_streamFrom : ∀ (chunks : List Chars) (s : Splitter) (ch : Channels Char),
    ch.inside <+: (streamFrom s ch chunks).inside
  | [], s, ch => List.prefix_append _ _
  | c :: chunks, s, ch => by
    have hstep : ch.inside <+: (ch ++ (onContent s c).2).inside := List.prefix_append _ _
    rw [streamFrom]
    exact hstep.trans (inside_streamFrom chunks _ _)

/-- Where no text is taken for thinking, the text state holds what the stream
shows and the reasoning that was typed. -/
theorem finish_addAll : ∀ (adds : List (Chars × Chars)) (ts : TextState) (ch : Channels Char),
    ts.accumulated = ch.outside → (streamFrom ts.splitter ch (adds.map Prod.fst)).inside = [] →
    (addAll ts adds).finish =
      ((streamFrom ts.splitter ch (adds.map Prod.fst)).outside, ts.thinking ++ adds.flatMap Prod.snd)
  | [], ts, ch, hacc, hin => by
    have hflush : ch.inside ++ ts.splitter.flush.inside = [] := hin
    unfold addAll TextState.finish
    rw [List.foldl_nil, (List.append_eq_nil_iff.mp hflush).2, hacc]
    rfl
  | (c, r) :: adds, ts, ch, hacc, hin => by
    rw [List.map_cons, streamFrom] at hin ⊢
    have hpre := inside_streamFrom (adds.map Prod.fst) (onContent ts.splitter c).1 (ch ++ (onContent ts.splitter c).2)
    rw [hin] at hpre
    have hnone : (onContent ts.splitter c).2.inside = [] :=
      (List.append_eq_nil_iff.mp (List.prefix_nil.mp hpre)).2
    have ih := finish_addAll adds (ts.add c r) (ch ++ (onContent ts.splitter c).2)
      (congrArg (· ++ (onContent ts.splitter c).2.outside) hacc) hin
    have hthinking : (ts.add c r).thinking = ts.thinking ++ r := by
      unfold TextState.add
      dsimp only
      rw [hnone, List.append_nil]
    rw [hthinking] at ih
    rw [List.flatMap_cons, ← List.append_assoc]
    exact ih

/-- A stream whose text holds no opening tag shows all of it, and its reasoning
is what was typed. -/
theorem finish_of_no_tag {adds : List (Chars × Chars)} (h : ¬tag false <:+: adds.flatMap Prod.fst) :
    (addAll {} adds).finish = (adds.flatMap Prod.fst, adds.flatMap Prod.snd) := by
  have hstream : streamFrom .fresh .empty (adds.map Prod.fst) = .emit false (adds.flatMap Prod.fst) := by
    rw [List.flatMap_def] at h ⊢
    exact streamFrom_of_no_tag h
  have hfinish := finish_addAll adds {} .empty rfl (by rw [hstream]; rfl)
  rw [hfinish, hstream]
  rfl

/-! ### The response of a stream -/

theorem if_ne_nil {α : Type} [DecidableEq α] (l : List α) : (if l ≠ [] then l else []) = l := by
  by_cases h : l = []
  · rw [if_neg (not_not_intro h), h]
  · exact if_pos h

theorem if_ne_empty (s : String) : (if s ≠ "" then s else "") = s := by
  by_cases h : s = ""
  · rw [if_neg (not_not_intro h), h]
  · exact if_pos h

theorem later_none (n : Option ℤ) : later none n = n := by
  cases n with
  | none => rfl
  | some n => rfl

/-- The stream's state behind all events of a message with these blocks. -/
def finalState (m : RawMessage F) (atStart atEnd : Option RawUsage) (blocks : List (ℕ × OpenBlock F)) : StreamState F :=
  { onMessageDelta { onMessageStart ({} : StreamState F) m.model atStart with blocks := blocks } m.stopReason
      m.stopDetails atEnd with
    sawMessageStop := true }

/-- The counts of the two usage reports make up the usage of the message. -/
theorem usage_finalState {m : RawMessage F} {atStart atEnd : Option RawUsage} (h : UsageDelivered m.usage atStart atEnd)
    (blocks : List (ℕ × OpenBlock F)) :
    anthropicUsageDict (finalState m atStart atEnd blocks).inputTokens (finalState m atStart atEnd blocks).outputTokens
        (finalState m atStart atEnd blocks).cacheRead (finalState m atStart atEnd blocks).cacheWrite
        (finalState m atStart atEnd blocks).reasoningTokens = usageOf m.usage := by
  cases hu : m.usage with
  | none =>
    rw [hu] at h
    obtain ⟨rfl, rfl⟩ := h
    rfl
  | some u =>
    rw [hu] at h
    obtain ⟨s, d, rfl, rfl, hin, hread, hcreate, hext, hout, hthink⟩ := h
    have hwrite : anthropicCacheWriteTokens s = anthropicCacheWriteTokens u := by
      unfold anthropicCacheWriteTokens
      rw [hcreate, hext]
    unfold finalState onMessageDelta onMessageStart usageOf
    dsimp only [Option.bind_some]
    rw [later_none, later_none, later_none, later_none, hin, hread, hwrite, hout, hthink]

theorem fields_finalState (m : RawMessage F) (atStart atEnd : Option RawUsage) (blocks : List (ℕ × OpenBlock F)) :
    (finalState m atStart atEnd blocks).blocks = blocks ∧ (finalState m atStart atEnd blocks).model = m.model ∧
      (finalState m atStart atEnd blocks).stopReason = m.stopReason ∧
      (finalState m atStart atEnd blocks).stopDetails = m.stopDetails := by
  have hmodel := if_ne_empty m.model
  have hreason := if_ne_empty m.stopReason
  have hdetails := if_ne_nil m.stopDetails
  cases atStart with
  | none => cases atEnd with
    | none => exact ⟨rfl, hmodel, hreason, hdetails⟩
    | some d => exact ⟨rfl, hmodel, hreason, hdetails⟩
  | some s => cases atEnd with
    | none => exact ⟨rfl, hmodel, hreason, hdetails⟩
    | some d => exact ⟨rfl, hmodel, hreason, hdetails⟩

/-- A delta with nothing but the terminal fields sets them. -/
theorem onDelta_last (text : TextState) (slots : List (ℕ × Call)) (usage : List (String × ℤ)) (finishReason model : String)
    (blocks : List (RespBlock F)) (stopDetails : List (String × String)) :
    onDelta { text := text, slots := slots }
        { usage := usage, finishReason := finishReason, model := model, reasoningBlocks := blocks, stopDetails := stopDetails } =
      { text := text, slots := slots, usage := usage, finishReason := finishReason, model := model
        reasoningBlocks := blocks, stopDetails := stopDetails } := by
  unfold onDelta
  dsimp only
  rw [add_nil text, if_ne_nil usage, if_ne_empty finishReason, if_ne_empty model, if_ne_nil stopDetails]
  cases blocks with
  | nil => rfl
  | cons b bs => rfl

/-- The response a stream that delivers the message comes to. -/
def streamed (m : RawMessage F) (calls : List (Option Call)) (adds : List (Chars × Chars)) : Response F where
  content := assembledContent (if hasThinking m then m.content.map RawBlock.out else [])
    (withoutLead (addAll {} adds).finish.1)
  toolCalls := (calls.filterMap fun c => c).filter fun c => c.name ≠ ""
  reasoningContent := (addAll {} adds).finish.2
  finishReason := normalizeFinishReason m.stopReason
  model := m.model
  usage := usageOf m.usage
  stopDetails := m.stopDetails

/-- The terminal delta put on top of what the blocks came to. -/
theorem assembledResponse_terminal {m : RawMessage F} {obs : List (OpenBlock F)} {calls : List (Option Call)}
    {adds : List (Chars × Chars)} (hread : BlocksRead ft m.content obs calls adds) {atStart atEnd : Option RawUsage}
    (husage : UsageDelivered m.usage atStart atEnd) :
    assembledResponse (onDelta { text := addAll {} adds, slots := collect (fun c => c) 0 calls }
        (terminalDelta ft (finalState m atStart atEnd (collect some 0 obs)))) =
      streamed m calls adds := by
  obtain ⟨hblocks, hmodel, hreason, hdetails⟩ := fields_finalState m atStart atEnd (collect some 0 obs)
  have hordered : (ordered (collect some 0 obs)).map (OpenBlock.closed ft) = m.content.map RawBlock.out := by
    rw [ordered_collect, List.filterMap_some, hread.closed]
  have hterminal : terminalDelta ft (finalState m atStart atEnd (collect some 0 obs)) =
      { usage := usageOf m.usage, finishReason := normalizeFinishReason m.stopReason, model := m.model
        reasoningBlocks := if hasThinking m then m.content.map RawBlock.out else [], stopDetails := m.stopDetails } := by
    unfold terminalDelta
    dsimp only
    rw [usage_finalState husage, hblocks, hordered, hreason, hmodel, hdetails]
    rfl
  rw [hterminal, onDelta_last]
  unfold assembledResponse streamed
  dsimp only
  rw [ordered_collect]

/-- A stream that delivers a message is read to its end. -/
theorem streamLlmResponse_delivers {m : RawMessage F} {evs : List (Event F)} (h : Delivers ft m evs) :
    ∃ obs calls adds, BlocksRead ft m.content obs calls adds ∧
      streamLlmResponse ft evs =
        if isWhollyEmpty (streamed m calls adds) then none else some (streamed m calls adds) := by
  obtain ⟨atStart, blockEvs, atEnd, hblocks, husage, hevs⟩ := h
  have hopen : feedEvent ({}, {}) (.messageStart m.model atStart) =
      (onMessageStart ({} : StreamState F) m.model atStart, ({} : Assembly F)) := rfl
  have hnone : (onMessageStart ({} : StreamState F) m.model atStart).blocks = [] := by
    cases atStart with
    | none => rfl
    | some u => rfl
  have hbelow : Below 0 (onMessageStart ({} : StreamState F) m.model atStart).blocks := by
    rw [hnone]
    exact fun _ h => absurd h List.not_mem_nil
  obtain ⟨obs, calls, adds, hread, hfold⟩ := foldl_blocks hblocks hbelow (a := {}) fun _ h => absurd h List.not_mem_nil
  refine ⟨obs, calls, adds, hread, ?_⟩
  have hrun := onEvents_foldl evs ({} : StreamState F) ({} : Assembly F)
  rw [foldl_filter_noise, hevs, List.foldl_cons, hopen, List.foldl_append, hfold, hnone, List.nil_append,
    List.nil_append, List.foldl_cons, List.foldl_cons, List.foldl_nil] at hrun
  obtain ⟨hst, ha⟩ := Prod.mk.inj hrun
  have hfinal : (onEvents ({} : StreamState F) evs).1 = finalState m atStart atEnd (collect some 0 obs) := hst
  have hassembly : (onEvents ({} : StreamState F) evs).2.foldl onDelta {} =
      { text := addAll {} adds, slots := collect (fun c => c) 0 calls } := ha
  have hstop : (onEvents ({} : StreamState F) evs).1.sawMessageStop = true := by
    rw [hfinal]
    rfl
  have hstream : stream ft evs = some ((onEvents {} evs).2 ++ [terminalDelta ft (onEvents {} evs).1]) := if_pos hstop
  have hassemble : assemble ((onEvents {} evs).2 ++ [terminalDelta ft (onEvents {} evs).1]) = streamed m calls adds := by
    unfold assemble
    rw [List.foldl_append, hassembly, hfinal]
    exact assembledResponse_terminal hread husage
  unfold streamLlmResponse
  rw [hstream, Option.bind_some]
  dsimp only
  rw [hassemble]

/-! ### Agreement -/

variable (ft) in
/-- The arguments the executor reads of a text, a blank one or one that is no JSON
being none. -/
def readArguments (text : Chars) : Value F := if isBlank text then .obj [] else (loads ft text).getD (.obj [])

variable (ft) in
/-- A call as the executor gets it. -/
def decoded (c : Call) : String × String × Value F := (c.id, c.name, readArguments ft c.arguments)

theorem readArguments_of_loads {text : Chars} {v : Value F} (h : loads ft text = some v) : readArguments ft text = v := by
  have hblank : isBlank text ≠ true := by
    intro hb
    rw [loads_of_isBlank hb] at h
    exact absurd h (Option.some_ne_none v).symm
  unfold readArguments
  rw [if_neg hblank, h]
  rfl

theorem Decodes.readArguments {text : Chars} {input : Input F} (h : Decodes ft text input) :
    AnthropicStream.readArguments ft text = .obj input.kvs := by
  rcases h with ⟨rfl, hkvs⟩ | hloads
  · rw [hkvs]
    rfl
  · exact readArguments_of_loads hloads

/-- The slots of the stream and the calls of the message are the same to the
executor. -/
theorem decoded_calls [DecidableEq F] {bs : List (RawBlock F)} {calls : List (Option Call)}
    (h : List.Forall₂ (CallOf ft) bs calls) :
    ((calls.filterMap fun c => c).filter fun c => c.name ≠ "").map (decoded ft) =
      ((bs.filterMap (RawBlock.call? ft)).filter fun c => c.name ≠ "").map (decoded ft) := by
  induction h with
  | nil => rfl
  | @cons b c bs calls hbc _ ih =>
    cases b with
    | text | thinking | redactedThinking =>
      obtain rfl := hbc
      exact ih
    | toolUse id name input =>
      obtain ⟨text, hdec, rfl⟩ := hbc
      have hdumps : loads ft (dumps ft plainStyle (.obj input.kvs)) = some (.obj input.kvs) := loads_dumps input.printable
      have hsame : decoded ft ⟨id, name, text⟩ = decoded ft ⟨id, name, dumps ft plainStyle (.obj input.kvs)⟩ := by
        unfold decoded
        dsimp only
        rw [hdec.readArguments, readArguments_of_loads hdumps]
      have hstream : (some (⟨id, name, text⟩ : Call) :: calls).filterMap (fun c => c) =
          ⟨id, name, text⟩ :: calls.filterMap fun c => c := List.filterMap_cons_some rfl
      have hwhole : (RawBlock.toolUse id name input :: bs).filterMap (RawBlock.call? ft) =
          ⟨id, name, dumps ft plainStyle (.obj input.kvs)⟩ :: bs.filterMap (RawBlock.call? ft) :=
        List.filterMap_cons_some rfl
      rw [hstream, hwhole]
      by_cases hname : name = ""
      · rw [List.filter_cons_of_neg (by simpa using hname), List.filter_cons_of_neg (by simpa using hname)]
        exact ih
      · rw [List.filter_cons_of_pos (by simpa using hname), List.filter_cons_of_pos (by simpa using hname), List.map_cons,
          List.map_cons, ih, hsame]

theorem no_tag_of_isBlank {text : Chars} (h : isBlank text = true) : ¬tag false <:+: text := by
  intro htag
  have hmem : '<' ∈ text := htag.subset List.mem_cons_self
  have hspace := List.all_eq_true.mp h '<' hmem
  exact absurd hspace (by decide)

theorem isBlank_flatten {parts : List Chars} (h : ∀ s ∈ parts, isBlank s = true) : isBlank parts.flatten = true := by
  refine List.all_eq_true.mpr fun c hc => ?_
  obtain ⟨s, hs, hcs⟩ := List.mem_flatten.mp hc
  exact List.all_eq_true.mp (h s hs) c hcs

theorem isBlank_of_not_hasTextBlock {m : RawMessage F} (h : hasTextBlock (m.content.map RawBlock.out) = false) :
    ∀ s ∈ texts m, isBlank s = true := by
  intro s hs
  obtain ⟨b, hb, htext⟩ := List.mem_filterMap.mp hs
  have hnot := List.any_eq_false.mp h b.out (List.mem_map_of_mem hb)
  cases b with
  | text s' =>
    obtain rfl := Option.some_inj.mp htext
    exact not_not.mp fun hblank => hnot (by rw [Bool.not_eq_true] at hblank; simp [RawBlock.out, hblank])
  | thinking | redactedThinking | toolUse => exact absurd htext (Option.some_ne_none s).symm

/-- Where a message has thinking, the text its stream showed is in the blocks. -/
theorem assembledContent_thinking {m : RawMessage F} (hm : hasThinking m = true) {visible : Chars}
    (h : (∀ s ∈ texts m, isBlank s = true) → visible = (texts m).flatten) :
    assembledContent (m.content.map RawBlock.out) (withoutLead visible) = .blocks (m.content.map RawBlock.out) := by
  cases hblocks : m.content.map RawBlock.out with
  | nil =>
    unfold hasThinking at hm
    rw [hblocks] at hm
    exact absurd hm Bool.false_ne_true
  | cons b bs =>
    have hnot : ¬(!isBlank (withoutLead visible) && !hasTextBlock (b :: bs)) = true := by
      intro hboth
      obtain ⟨hvisible, htext⟩ := Bool.and_eq_true_iff.mp hboth
      rw [Bool.not_eq_true', ← hblocks] at htext
      have hblank := isBlank_of_not_hasTextBlock htext
      have hall : isBlank visible = true := by
        rw [h hblank]
        exact isBlank_flatten hblank
      rw [withoutLead, if_pos hall] at hvisible
      exact absurd hvisible (by decide)
    exact if_neg hnot

/-- One part or none has nothing to be joined with. -/
theorem joinLines_of_le_one {parts : List Chars} (h : parts.length ≤ 1) : joinLines parts = parts.flatten := by
  cases parts with
  | nil => rfl
  | cons p parts =>
    have hnil : parts = [] := List.length_eq_zero_iff.mp (by rw [List.length_cons] at h; omega)
    rw [hnil]
    rfl

/-- The content with its text changed. -/
def RespContent.mapText (f : Chars → Chars) : RespContent F → RespContent F
  | .text s => .text (f s)
  | .blocks bs => .blocks bs

/-- **A streamed message is the message.** For every message and every stream that
delivers it, the response put together from the stream, which is returned unless
there is nothing at all in it, has the finish reason, model, usage and stop
details of the whole message's response, and its calls that have a name, with the
same ids and decoded arguments. Where the message has thinking blocks the content
is the same block list; where it has none, its text is one block and no thinking
tag is in it, the content is the same text without leading white space. The
reasoning is the same where the message has one thinking block or none and no
thinking tag in its text. -/
theorem stream_agrees [DecidableEq F] (m : RawMessage F) (evs : List (Event F)) (h : Delivers ft m evs) :
    ∃ r, (streamLlmResponse ft evs = if isWhollyEmpty r then none else some r) ∧
      r.finishReason = (toLlmResponse ft m).finishReason ∧ r.model = (toLlmResponse ft m).model ∧
      r.usage = (toLlmResponse ft m).usage ∧ r.stopDetails = (toLlmResponse ft m).stopDetails ∧
      r.toolCalls.map (decoded ft) = ((toLlmResponse ft m).toolCalls.filter fun c => c.name ≠ "").map (decoded ft) ∧
      (hasThinking m = true → r.content = (toLlmResponse ft m).content) ∧
      (hasThinking m = false → (texts m).length ≤ 1 → ¬tag false <:+: (texts m).flatten →
        r.content = (toLlmResponse ft m).content.mapText withoutLead) ∧
      ((thinkings m).length ≤ 1 → ¬tag false <:+: (texts m).flatten →
        r.reasoningContent = (toLlmResponse ft m).reasoningContent) := by
  obtain ⟨obs, calls, adds, hread, hstream⟩ := streamLlmResponse_delivers h
  have hcontent : adds.flatMap Prod.fst = (texts m).flatten := hread.content
  have hreasoning : adds.flatMap Prod.snd = (thinkings m).flatten := hread.reasoning
  have hfinish : ¬tag false <:+: (texts m).flatten →
      (addAll {} adds).finish = ((texts m).flatten, (thinkings m).flatten) := by
    intro htag
    rw [← hcontent] at htag
    rw [finish_of_no_tag htag, hcontent, hreasoning]
  refine ⟨streamed m calls adds, hstream, rfl, rfl, rfl, rfl, decoded_calls hread.calls, ?_, ?_, ?_⟩
  · intro hthink
    unfold streamed toLlmResponse
    dsimp only
    rw [if_pos hthink, if_pos hthink]
    refine assembledContent_thinking hthink fun hblank => ?_
    rw [hfinish (no_tag_of_isBlank (isBlank_flatten hblank))]
  · intro hthink hlen htag
    have hnot : ¬hasThinking m = true := by rw [hthink]; exact Bool.false_ne_true
    unfold streamed toLlmResponse
    dsimp only
    rw [if_neg hnot, if_neg hnot, hfinish htag, joinLines_of_le_one hlen]
    rfl
  · intro hlen htag
    unfold streamed toLlmResponse
    dsimp only
    rw [hfinish htag, joinLines_of_le_one hlen]

def inputUsage : RawUsage := ⟨some 10, some 1, some 4, none, none, none⟩

def outputUsage : RawUsage := ⟨none, some 7, none, none, none, some 2⟩

/-- Thinking, text and a call without arguments. -/
def threeBlocks : RawMessage Unit where
  content := [.thinking ['a', 'b'] ['s'], .text ['h', 'i'], .toolUse "c1" "f" emptyInput]
  stopReason := "tool_use"
  stopDetails := []
  usage := some ⟨some 10, some 7, some 4, none, none, some 2⟩
  model := "m"

/-- The blocks in deltas, with transport activity and the ends of the blocks in
between. -/
def threeBlocksEvents : List (Event Unit) :=
  [.messageStart "m" (some inputUsage), .activity, .contentBlockStart 0 (.thinking [] []), .thinkingDelta 0 ['a'],
    .thinkingDelta 0 ['b'], .signatureDelta 0 ['s'], .other, .contentBlockStart 1 (.text []), .textDelta 1 ['h'],
    .textDelta 1 ['i'], .other, .contentBlockStart 2 (.toolUse "c1" "f" emptyInput), .inputJsonDelta 2 [],
    .inputJsonDelta 2 emptyObject, .other, .messageDelta "tool_use" [] (some outputUsage), .messageStop]

theorem threeBlocks_delivered : Delivers noFloats threeBlocks threeBlocksEvents := by
  refine ⟨some inputUsage, _, some outputUsage, .cons ⟨[.thinking ['a'], .thinking ['b'], .signature ['s']], rfl, rfl, rfl⟩
    (.cons ⟨[['h'], ['i']], rfl, rfl⟩ (.cons ⟨[[], emptyObject], Or.inr rfl, rfl⟩ (.nil 3))),
    ⟨inputUsage, outputUsage, rfl, rfl, rfl, rfl, rfl, rfl, rfl, rfl⟩, rfl⟩

/-- The stream of the three blocks gives the call, the blocks and the reasoning of
the message. -/
theorem stream_agrees_threeBlocks :
    Delivers noFloats threeBlocks threeBlocksEvents ∧
    ∃ r, streamLlmResponse noFloats threeBlocksEvents = some r ∧
      r.content = (toLlmResponse noFloats threeBlocks).content ∧ r.reasoningContent = ['a', 'b'] ∧
      r.toolCalls.map (decoded noFloats) = [("c1", "f", .obj [])] := by
  have hd := threeBlocks_delivered
  obtain ⟨r, hr, _, _, husage, _, hcalls, hcontent, _, hreasoning⟩ := stream_agrees threeBlocks threeBlocksEvents hd
  have hnonempty : isWhollyEmpty r = false := by
    have hno : r.usage.isEmpty = false := by rw [husage]; rfl
    unfold isWhollyEmpty
    rw [hno, Bool.and_false, Bool.false_and, Bool.false_and]
  rw [hnonempty] at hr
  refine ⟨hd, r, hr, hcontent rfl, ?_, ?_⟩
  · exact hreasoning (Nat.le_refl 1) (by decide +kernel)
  · rw [hcalls]
    rfl

/-- A text that begins with a blank. -/
def blankLead : RawMessage Unit where
  content := [.text [' ', 'h', 'i']]
  stopReason := "end_turn"
  stopDetails := []
  usage := some ⟨some 10, some 7, some 4, none, none, some 2⟩
  model := "m"

def blankLeadEvents : List (Event Unit) :=
  [.messageStart "m" (some inputUsage), .contentBlockStart 0 (.text []), .textDelta 0 [' ', 'h', 'i'],
    .messageDelta "end_turn" [] (some outputUsage), .messageStop]

def RespContent.text? : RespContent F → Option Chars
  | .text s => some s
  | .blocks _ => none

/-- The whole message keeps the blank that its stream drops. -/
theorem leading_blank_dropped :
    Delivers noFloats blankLead blankLeadEvents ∧
    (toLlmResponse noFloats blankLead).content.text? = some [' ', 'h', 'i'] ∧
    (streamLlmResponse noFloats blankLeadEvents).map (fun r => r.content.text?) = some (some ['h', 'i']) := by
  refine ⟨⟨some inputUsage, _, some outputUsage, .cons ⟨[[' ', 'h', 'i']], rfl, rfl⟩ (.nil 1),
    ⟨inputUsage, outputUsage, rfl, rfl, rfl, rfl, rfl, rfl, rfl, rfl⟩, rfl⟩, rfl, ?_⟩
  decide +kernel

end AnthropicStream
end AgentCore
