/-
# Streaming through the middleware proxy

`LLMProxy.stream` of `components/middleware/llm/proxy.py` passes on the deltas of
an inner client, accumulates a response from them, asks the middlewares after
each delta whether to stop and after a failure whether to try again, and runs
their after hooks in the end. A call is a run of events: what the inner stream
does, what the hooks answer, and that the consumer may close the stream.

The log of failures and the metadata of the call context are left out, and so are
the hooks before the call.

Key definitions: `Terminal.feed`, `runAfter`, `Call`, `SingleAttempt`.
Key theorem: `stream_single_attempt`.
-/
import AgentCore.Lib.Runs
import Mathlib.Data.List.Sort

namespace AgentCore
namespace Middleware

/-! ### Deltas and what they add up to -/

/-- A value of `index` that can be a key. -/
inductive Index
  | int (n : ℤ)
  | text (s : String)
  deriving DecidableEq, Repr

/-- An element of `tool_call_deltas`, as it comes from the provider. -/
structure Fragment where
  /-- None where the value cannot be a key. -/
  index : Option Index := some (.int 0)
  id : String := ""
  /-- None where the value is not a text. -/
  name : Option String := some ""
  arguments : Option String := some ""
  deriving DecidableEq, Repr

structure ToolCall where
  id : String := ""
  name : String := ""
  arguments : String := ""
  deriving DecidableEq, Repr

structure Delta where
  content : Option String := some ""
  reasoningContent : Option String := some ""
  toolCallDeltas : List Fragment := []
  usage : List (String × ℤ) := []
  usageSource : String := ""
  finishReason : String := ""
  model : String := ""
  provider : String := ""
  refusal : String := ""
  stopDetails : List (String × String) := []
  stopReason : String := ""
  transportActivity : Bool := false
  finalToolCalls : Option (List ToolCall) := none
  deriving DecidableEq, Repr

/-- `response_metadata`; a key is there where its value is not empty. -/
structure ResponseMetadata where
  providerActuallyUsed : String := ""
  refusal : String := ""
  stopDetails : List (String × String) := []
  stopReason : String := ""
  deriving DecidableEq, Repr

structure LLMResponse where
  content : String
  toolCalls : List ToolCall
  reasoningContent : String
  finishReason : String
  model : String
  usage : List (String × ℤ)
  usageSource : String
  responseMetadata : ResponseMetadata
  deriving DecidableEq, Repr

/-- `_slots` of `StreamToolCalls`. -/
abbrev Slots := List (Index × ToolCall)

def slotAt (slots : Slots) (i : Index) : ToolCall := (slots.lookup i).getD {}

def setSlot (slots : Slots) (i : Index) (call : ToolCall) : Slots :=
  if slots.any (·.1 == i) then slots.map fun e => if e.1 == i then (i, call) else e else slots ++ [(i, call)]

/-- A fragment, and whether it raised. -/
def feedFragment (slots : Slots) (f : Fragment) : Slots × Bool :=
  match f.index with
  | none => (slots, true)
  | some i =>
    let call := slotAt slots i
    let call := if f.id = "" then call else { call with id := f.id }
    match f.name with
    | none => (setSlot slots i call, true)
    | some name =>
      let call := { call with name := call.name ++ name }
      match f.arguments with
      | none => (setSlot slots i call, true)
      | some arguments => (setSlot slots i { call with arguments := call.arguments ++ arguments }, false)

/-- `StreamToolCalls.feed`, and whether it raised. -/
def feedFragments : Slots → List Fragment → Slots × Bool
  | slots, [] => (slots, false)
  | slots, f :: fs =>
    match feedFragment slots f with
    | (slots, true) => (slots, true)
    | (slots, false) => feedFragments slots fs

/-- The order of two keys; numbers and texts have none. -/
def Index.le : Index → Index → Bool
  | .int m, .int n => decide (m ≤ n)
  | .text s, .text t => decide (s ≤ t)
  | _, _ => false

/-- `StreamToolCalls.complete`; none is the `TypeError` of `sorted` where the keys
are of two kinds. -/
def completeCalls (slots : Slots) : Option (List ToolCall) :=
  if slots.all (fun e => e.1 matches .int _) || slots.all (fun e => e.1 matches .text _) then
    some (((slots.insertionSort fun a b => a.1.le b.1 = true).map (·.2)).filter (·.name ≠ ""))
  else none

/-- `_StreamTerminal`. -/
structure Terminal where
  usage : List (String × ℤ) := []
  usageSource : String := ""
  finishReason : String := ""
  model : String := ""
  provider : String := ""
  refusal : String := ""
  stopDetails : List (String × String) := []
  stopReason : String := ""
  toolCalls : Slots := []
  finalToolCalls : Option (List ToolCall) := none
  deriving DecidableEq, Repr

/-- The last value that is not empty wins. -/
def lastNonempty (old new : String) : String := if new = "" then old else new

/-- `_StreamTerminal.feed`, and whether it raised. -/
def Terminal.feed (t : Terminal) (d : Delta) : Terminal × Bool :=
  let fed := feedFragments t.toolCalls d.toolCallDeltas
  let t := { t with
    usage := if d.usage.isEmpty then t.usage else d.usage
    usageSource := if d.usage.isEmpty then t.usageSource else d.usageSource
    finishReason := lastNonempty t.finishReason d.finishReason
    model := lastNonempty t.model d.model
    provider := lastNonempty t.provider d.provider
    refusal := t.refusal ++ d.refusal
    stopDetails := if d.stopDetails.isEmpty then t.stopDetails else d.stopDetails
    stopReason := lastNonempty t.stopReason d.stopReason
    toolCalls := fed.1 }
  if fed.2 then (t, true)
  else ({ t with finalToolCalls := d.finalToolCalls.orElse fun _ => t.finalToolCalls }, false)

/-- `_StreamTerminal.response`; none is an exception. -/
def Terminal.response (t : Terminal) (content reasoning : String) : Option LLMResponse :=
  (t.finalToolCalls.orElse fun _ => completeCalls t.toolCalls).map fun toolCalls =>
    { content := content
      toolCalls := toolCalls
      reasoningContent := reasoning
      finishReason := t.finishReason
      model := t.model
      usage := t.usage
      usageSource := t.usageSource
      responseMetadata := ⟨t.provider, t.refusal, t.stopDetails, t.stopReason⟩ }

/-! ### The middleware chain -/

/-- What a hook that decides comes to. -/
inductive Reply
  | disabled
  | answered (b : Bool)
  | raised
  deriving DecidableEq, Repr

/-- `run_on_chunk` and `run_on_llm_error`: the first hook that says yes decides. -/
def anySaysYes (replies : List Reply) : Bool := replies.any (· == .answered true)

/-- What an after hook comes to. -/
inductive AfterReply
  | disabled
  | returned (r : LLMResponse)
  | raised
  | timedOut
  deriving DecidableEq, Repr

/-- A call of an after hook, by the middleware's place in the chain. -/
structure AfterCall where
  hook : ℕ
  received : LLMResponse
  reply : AfterReply
  deriving DecidableEq, Repr

/-- What goes on to the next hook. -/
def AfterCall.result (c : AfterCall) : LLMResponse :=
  match c.reply with
  | .returned r => r
  | _ => c.received

/-- The loop of `run_after`. -/
def afterLoop : LLMResponse → List (AfterReply × ℕ) → List AfterCall
  | _, [] => []
  | response, (reply, i) :: rest =>
    if reply = .disabled then afterLoop response rest
    else
      let call : AfterCall := ⟨i, response, reply⟩
      call :: afterLoop call.result rest

/-- `run_after`, by the hooks it calls. -/
def runAfter (response : LLMResponse) (replies : List AfterReply) : List AfterCall :=
  afterLoop response replies.zipIdx.reverse

/-! ### The stream -/

/-- Where the generator is. `chunk` is between the delta it has yielded and the
answer of the hooks, `finishing` is the `finally` block. -/
inductive Point
  | reading
  | chunk
  | failed
  | finishing (completed : Bool)
  | ended (completed : Bool)
  deriving DecidableEq, Repr

structure Call where
  attempt : ℕ := 0
  fullContent : String := ""
  fullReasoning : String := ""
  terminal : Terminal := {}
  anyChunkYielded : Bool := false
  point : Point := .reading
  /-- What the consumer has been given, with the attempt it is from. -/
  yielded : List (ℕ × Delta) := []
  /-- The runs of the after hooks, with the replies of all middlewares. -/
  afterRuns : List (List AfterReply × List AfterCall) := []
  deriving DecidableEq, Repr

inductive Event
  | delta (d : Delta)
  | finish
  | raise
  | chunkHooks (replies : List Reply)
  | errorHooks (replies : List Reply)
  /-- The consumer closes the stream, or is cancelled. -/
  | close
  | afterHooks (replies : List AfterReply)
  deriving DecidableEq, Repr

/-- The exception handler, up to the question whether to try again. -/
def Call.fail (s : Call) : Call :=
  if s.anyChunkYielded then { s with point := .finishing false } else { s with point := .failed }

def Call.yield (s : Call) (d : Delta) : Call := { s with yielded := s.yielded ++ [(s.attempt, d)] }

/-- A delta of the model's output. -/
def Call.output (s : Call) (d : Delta) : Call :=
  let fed := s.terminal.feed d
  let s := { s with
    fullContent := s.fullContent ++ d.content.getD ""
    fullReasoning := s.fullReasoning ++ d.reasoningContent.getD ""
    terminal := fed.1 }
  if fed.2 then s.fail else { s.yield d with anyChunkYielded := true, point := .chunk }

def Call.retry (s : Call) : Call :=
  { s with
    attempt := s.attempt + 1
    fullContent := ""
    fullReasoning := ""
    terminal := {}
    anyChunkYielded := false
    point := .reading }

def Call.finalize (s : Call) (completed : Bool) (replies : List AfterReply) : Call :=
  match s.terminal.response s.fullContent s.fullReasoning with
  | none => { s with point := .ended false }
  | some response =>
    { s with point := .ended completed, afterRuns := s.afterRuns ++ [(replies, runAfter response replies)] }

def step (s : Call) : Event → Option Call
  | .delta d =>
    if s.point = .reading then some (if d.transportActivity then s.yield d else s.output d) else none
  | .finish => if s.point = .reading then some { s with point := .finishing true } else none
  | .raise => if s.point = .reading then some s.fail else none
  | .chunkHooks replies =>
    if s.point = .chunk then
      some (if anySaysYes replies then { s with point := .finishing true } else { s with point := .reading })
    else none
  | .errorHooks replies =>
    if s.point = .failed then
      some (if anySaysYes replies then s.retry else { s with point := .finishing false })
    else none
  | .close =>
    match s.point with
    | .finishing _ | .ended _ => none
    | _ => some { s with point := .finishing false }
  | .afterHooks replies =>
    match s.point with
    | .finishing completed => some (s.finalize completed replies)
    | _ => none

/-! ### What the consumer sees -/

/-- The deltas that are not transport activity. -/
def Call.shown (s : Call) : List (ℕ × Delta) := s.yielded.filter fun p => !p.2.transportActivity

def Call.shownContent (s : Call) : String := String.join (s.shown.map (·.2.content.getD ""))

def Call.shownReasoning (s : Call) : String := String.join (s.shown.map (·.2.reasoningContent.getD ""))

/-- The places of the middlewares that are enabled, as they are called. -/
def enabledHooks (replies : List AfterReply) : List ℕ :=
  (replies.zipIdx.reverse.filter (·.1 ≠ .disabled)).map (·.2)

/-- The first call receives the response, and every other what the one before it
has passed on. -/
def Threaded : LLMResponse → List AfterCall → Prop
  | _, [] => True
  | response, c :: cs => c.received = response ∧ Threaded c.result cs

/-- What a call keeps to in a state of it. -/
structure SingleAttempt (s : Call) : Prop where
  /-- The consumer sees output of one attempt. -/
  one : ∀ p ∈ s.shown, ∀ q ∈ s.shown, p.1 = q.1
  /-- The next attempt starts before any output. -/
  retry : ∀ e s', step s e = some s' → s'.attempt ≠ s.attempt → s.shown = []
  /-- A call that completes has run every after hook once, on what was shown. -/
  after : s.point = .ended true → ∃ replies calls response, s.afterRuns = [(replies, calls)] ∧
    calls.map (·.hook) = enabledHooks replies ∧ (enabledHooks replies).Nodup ∧ Threaded response calls ∧
    response.content = s.shownContent ∧ response.reasoningContent = s.shownReasoning

theorem afterLoop_hooks : ∀ (response : LLMResponse) (replies : List (AfterReply × ℕ)),
    (afterLoop response replies).map (·.hook) = (replies.filter (·.1 ≠ .disabled)).map (·.2)
  | _, [] => rfl
  | response, (reply, i) :: rest => by
    rw [afterLoop]
    by_cases hd : reply = .disabled
    · rw [if_pos hd, afterLoop_hooks response rest, List.filter_cons_of_neg (by simpa using hd)]
    · rw [if_neg hd, List.map_cons, afterLoop_hooks _ rest, List.filter_cons_of_pos (by simpa using hd), List.map_cons]

theorem afterLoop_threaded : ∀ (response : LLMResponse) (replies : List (AfterReply × ℕ)),
    Threaded response (afterLoop response replies)
  | _, [] => trivial
  | response, (reply, i) :: rest => by
    rw [afterLoop]
    by_cases hd : reply = .disabled
    · rw [if_pos hd]
      exact afterLoop_threaded response rest
    · rw [if_neg hd]
      exact ⟨rfl, afterLoop_threaded _ rest⟩

theorem enabledHooks_nodup (replies : List AfterReply) : (enabledHooks replies).Nodup := by
  have hall : (replies.zipIdx.reverse.map (·.2)).Nodup := by
    rw [List.map_reverse, List.nodup_reverse, List.zipIdx_map_snd]
    exact List.nodup_range' 
  exact hall.sublist (List.filter_sublist.map _)

theorem response_texts {t : Terminal} {content reasoning : String} {r : LLMResponse}
    (h : t.response content reasoning = some r) : r.content = content ∧ r.reasoningContent = reasoning := by
  obtain ⟨calls, -, rfl⟩ := Option.map_eq_some_iff.mp h
  exact ⟨rfl, rfl⟩

/-- The invariant of a call: output is of the current attempt, and is what has
been accumulated unless an attempt has failed. -/
structure Accounted (s : Call) : Prop where
  attempt : ∀ p ∈ s.shown, p.1 = s.attempt
  fresh : s.anyChunkYielded = false → s.shown = []
  failed : s.point = .failed → s.anyChunkYielded = false
  texts : s.point ∈ [.reading, .chunk, .finishing true, .ended true] →
    s.fullContent = s.shownContent ∧ s.fullReasoning = s.shownReasoning
  pending : (∀ completed, s.point ≠ .ended completed) → s.afterRuns = []
  completed : s.point = .ended true → ∃ replies response, s.afterRuns = [(replies, runAfter response replies)] ∧
    s.terminal.response s.fullContent s.fullReasoning = some response

section Steps

variable {s : Call}

theorem start_accounted : Accounted {} where
  attempt := fun p hp => by cases hp
  fresh := fun _ => rfl
  failed := fun h => by cases h
  texts := fun _ => ⟨rfl, rfl⟩
  pending := fun _ => rfl
  completed := fun h => by cases h

theorem shown_yield_transport {d : Delta} (hd : d.transportActivity = true) : (s.yield d).shown = s.shown := by
  simp [Call.shown, Call.yield, hd]

theorem shown_yield {d : Delta} (hd : d.transportActivity = false) :
    (s.yield d).shown = s.shown ++ [(s.attempt, d)] := by
  simp [Call.shown, Call.yield, hd]

theorem shownContent_yield {d : Delta} (hd : d.transportActivity = false) :
    (s.yield d).shownContent = s.shownContent ++ d.content.getD "" := by
  simp [Call.shownContent, shown_yield hd]

theorem shownReasoning_yield {d : Delta} (hd : d.transportActivity = false) :
    (s.yield d).shownReasoning = s.shownReasoning ++ d.reasoningContent.getD "" := by
  simp [Call.shownReasoning, shown_yield hd]

/-- Points before the end at which nothing is said of the texts. -/
theorem Accounted.of_incomplete {s' : Call} (hatt : ∀ p ∈ s'.shown, p.1 = s'.attempt)
    (hfresh : s'.anyChunkYielded = false → s'.shown = []) (hruns : s'.afterRuns = [])
    (hpoint : s'.point = .finishing false ∨ s'.point = .failed ∧ s'.anyChunkYielded = false) : Accounted s' := by
  refine ⟨hatt, hfresh, fun hf => ?_, fun hp => ?_, fun _ => hruns, fun he => ?_⟩
  · rcases hpoint with h | ⟨-, h⟩
    · rw [h] at hf
      cases hf
    · exact h
  · rcases hpoint with h | ⟨h, -⟩ <;> simp [h] at hp
  · rcases hpoint with h | ⟨h, -⟩ <;> simp [h] at he

theorem fail_accounted (hatt : ∀ p ∈ s.shown, p.1 = s.attempt) (hfresh : s.anyChunkYielded = false → s.shown = [])
    (hruns : s.afterRuns = []) : Accounted s.fail := by
  unfold Call.fail
  by_cases hany : s.anyChunkYielded = true
  · rw [if_pos hany]
    exact .of_incomplete hatt hfresh hruns (.inl rfl)
  · rw [if_neg hany]
    exact .of_incomplete hatt hfresh hruns (.inr ⟨rfl, Bool.eq_false_iff.mpr hany⟩)

theorem output_accounted (h : Accounted s) (hp : s.point = .reading) {d : Delta} (hd : d.transportActivity = false) :
    Accounted (s.output d) := by
  have hruns : s.afterRuns = [] := h.pending fun c => by simp [hp]
  obtain ⟨hcontent, hreasoning⟩ := h.texts (by simp [hp])
  unfold Call.output
  dsimp only
  by_cases hfed : (s.terminal.feed d).2 = true
  · rw [if_pos hfed]
    exact fail_accounted h.attempt h.fresh hruns
  · rw [if_neg hfed]
    refine ⟨fun p hmem => ?_, fun hf => (by cases hf), fun hf => (by cases hf), fun _ => ⟨?_, ?_⟩, fun _ => hruns,
      fun he => by cases he⟩
    · change p ∈ (s.yield d).shown at hmem
      rw [shown_yield hd, List.mem_append, List.mem_singleton] at hmem
      rcases hmem with hmem | rfl
      · exact h.attempt p hmem
      · rfl
    · change s.fullContent ++ d.content.getD "" = (s.yield d).shownContent
      rw [shownContent_yield hd, hcontent]
    · change s.fullReasoning ++ d.reasoningContent.getD "" = (s.yield d).shownReasoning
      rw [shownReasoning_yield hd, hreasoning]

theorem transport_accounted (h : Accounted s) {d : Delta} (hd : d.transportActivity = true) :
    Accounted (s.yield d) := by
  have hshown := shown_yield_transport (s := s) hd
  refine ⟨?_, ?_, h.failed, fun hp => ?_, h.pending, h.completed⟩
  · rw [hshown]
    exact h.attempt
  · rw [hshown]
    exact h.fresh
  · rw [Call.shownContent, Call.shownReasoning, hshown]
    exact h.texts hp

theorem retry_accounted (h : Accounted s) (hp : s.point = .failed) : Accounted s.retry := by
  have hshown : s.retry.shown = [] := h.fresh (h.failed hp)
  have hruns : s.retry.afterRuns = [] := h.pending fun c => by simp [hp]
  refine ⟨?_, fun _ => hshown, fun hf => (by cases hf), fun _ => ?_, fun _ => hruns, fun he => by cases he⟩
  · rw [hshown]
    exact fun p hmem => absurd hmem List.not_mem_nil
  · rw [Call.shownContent, Call.shownReasoning, hshown]
    exact ⟨rfl, rfl⟩

/-- The stream goes on, or completes, with the texts as they are. -/
theorem move_accounted (h : Accounted s) {p : Point} (hs : s.point ∈ [.reading, .chunk])
    (hp : p = .reading ∨ p = .finishing true) : Accounted { s with point := p } := by
  have htexts := h.texts (by
    rcases List.mem_cons.mp hs with h | h
    · simp [h]
    · simp [List.mem_singleton.mp h])
  have hruns := h.pending fun c hc => by simp [hc] at hs
  rcases hp with rfl | rfl
  · exact ⟨h.attempt, h.fresh, fun hf => (by cases hf), fun _ => htexts, fun _ => hruns, fun he => by cases he⟩
  · exact ⟨h.attempt, h.fresh, fun hf => (by cases hf), fun _ => htexts, fun _ => hruns, fun he => by cases he⟩

theorem finalize_accounted (h : Accounted s) {completed : Bool} (hp : s.point = .finishing completed)
    (replies : List AfterReply) : Accounted (s.finalize completed replies) := by
  have hruns := h.pending fun c => by simp [hp]
  unfold Call.finalize
  cases hr : s.terminal.response s.fullContent s.fullReasoning with
  | none =>
    exact ⟨h.attempt, h.fresh, fun hf => (by cases hf), fun ht => by simp at ht, fun hne => absurd rfl (hne false),
      fun he => by cases he⟩
  | some response =>
    refine ⟨h.attempt, h.fresh, fun hf => (by cases hf), fun ht => h.texts ?_, fun hne => absurd rfl (hne completed),
      fun he => ⟨replies, response, ?_, hr⟩⟩
    · cases completed with
      | false => simp at ht
      | true => simp [hp]
    · dsimp only
      rw [hruns, List.nil_append]

theorem step_accounted {s' : Call} {e : Event} (h : Accounted s) (hstep : step s e = some s') : Accounted s' := by
  cases e with
  | delta d =>
    obtain ⟨hp, hs⟩ := Option.ite_none_right_eq_some.mp hstep
    obtain rfl := Option.some.inj hs
    cases hd : d.transportActivity with
    | true => exact transport_accounted h hd
    | false => exact output_accounted h hp hd
  | finish =>
    obtain ⟨hp, hs⟩ := Option.ite_none_right_eq_some.mp hstep
    obtain rfl := Option.some.inj hs
    exact move_accounted h (by simp [hp]) (.inr rfl)
  | raise =>
    obtain ⟨hp, hs⟩ := Option.ite_none_right_eq_some.mp hstep
    obtain rfl := Option.some.inj hs
    exact fail_accounted h.attempt h.fresh (h.pending fun c => by simp [hp])
  | chunkHooks replies =>
    obtain ⟨hp, hs⟩ := Option.ite_none_right_eq_some.mp hstep
    obtain rfl := Option.some.inj hs
    split
    · exact move_accounted h (by simp [hp]) (.inr rfl)
    · exact move_accounted h (by simp [hp]) (.inl rfl)
  | errorHooks replies =>
    obtain ⟨hp, hs⟩ := Option.ite_none_right_eq_some.mp hstep
    obtain rfl := Option.some.inj hs
    split
    · exact retry_accounted h hp
    · exact .of_incomplete h.attempt h.fresh (h.pending fun c => by simp [hp]) (.inl rfl)
  | close =>
    simp only [step] at hstep
    split at hstep
    · cases hstep
    · cases hstep
    · next hfin hend =>
      obtain rfl := Option.some.inj hstep
      exact .of_incomplete h.attempt h.fresh (h.pending hend) (.inl rfl)
  | afterHooks replies =>
    simp only [step] at hstep
    split at hstep
    · next completed hp =>
      obtain rfl := Option.some.inj hstep
      exact finalize_accounted h hp replies
    · cases hstep

theorem attempt_fail (s : Call) : s.fail.attempt = s.attempt := by
  unfold Call.fail
  split <;> rfl

theorem attempt_output (s : Call) (d : Delta) : (s.output d).attempt = s.attempt := by
  unfold Call.output
  dsimp only
  split
  · exact attempt_fail _
  · rfl

theorem attempt_finalize (s : Call) (completed : Bool) (replies : List AfterReply) :
    (s.finalize completed replies).attempt = s.attempt := by
  unfold Call.finalize
  split <;> rfl

/-- Only a retry starts another attempt, and it comes after a failure. -/
theorem step_attempt {s' : Call} {e : Event} (hstep : step s e = some s') (hne : s'.attempt ≠ s.attempt) :
    s.point = .failed := by
  by_contra hp
  apply hne
  cases e with
  | delta d =>
    obtain ⟨-, hs⟩ := Option.ite_none_right_eq_some.mp hstep
    obtain rfl := Option.some.inj hs
    split
    · rfl
    · exact attempt_output s d
  | finish =>
    obtain ⟨-, hs⟩ := Option.ite_none_right_eq_some.mp hstep
    obtain rfl := Option.some.inj hs
    rfl
  | raise =>
    obtain ⟨-, hs⟩ := Option.ite_none_right_eq_some.mp hstep
    obtain rfl := Option.some.inj hs
    exact attempt_fail s
  | chunkHooks replies =>
    obtain ⟨-, hs⟩ := Option.ite_none_right_eq_some.mp hstep
    obtain rfl := Option.some.inj hs
    split <;> rfl
  | errorHooks replies => exact absurd (Option.ite_none_right_eq_some.mp hstep).1 hp
  | close =>
    simp only [step] at hstep
    split at hstep
    · cases hstep
    · cases hstep
    · obtain rfl := Option.some.inj hstep
      rfl
  | afterHooks replies =>
    simp only [step] at hstep
    split at hstep
    · obtain rfl := Option.some.inj hstep
      exact attempt_finalize s _ replies
    · cases hstep

end Steps

/-- **A stream is one attempt to its consumer**: whatever the attempts do and the
middlewares decide, output comes from one attempt, no attempt follows output, and
a call that completes has run its after hooks once, starting from the response
that was shown. -/
theorem stream_single_attempt {es : List Event} {s : Call} (h : Runs.Trace step (fun _ _ _ => True) {} es s) :
    SingleAttempt s := by
  have hacc : Accounted s := h.invariant (I := fun _ s => Accounted s) start_accounted
    fun _ _ _ _ hi _ hstep => step_accounted hi hstep
  refine ⟨fun p hp q hq => ?_, fun e s' hstep hne => ?_, fun hend => ?_⟩
  · exact (hacc.attempt p hp).trans (hacc.attempt q hq).symm
  · exact hacc.fresh (hacc.failed (step_attempt hstep hne))
  · obtain ⟨replies, response, hruns, hresponse⟩ := hacc.completed hend
    obtain ⟨hcontent, hreasoning⟩ := hacc.texts (by simp [hend])
    obtain ⟨htext, hthink⟩ := response_texts hresponse
    exact ⟨replies, runAfter response replies, response, hruns, afterLoop_hooks _ _, enabledHooks_nodup replies,
      afterLoop_threaded _ _, htext.trans hcontent, hthink.trans hreasoning⟩

/-- The response of a stream that showed this text. -/
def plainResponse (content : String) : LLMResponse := ⟨content, [], "", "stop", "", [], "", {}⟩

/-- An attempt that fails after a ping, one that shows two deltas, and a chain of
two middlewares that return what they receive. -/
def retriedCall : List Event :=
  [.delta { content := none, transportActivity := true }, .raise, .errorHooks [.raised, .answered true],
    .delta { content := some "do" }, .chunkHooks [.answered false, .disabled],
    .delta { content := some "ne", finishReason := "stop" }, .chunkHooks [.raised, .answered false], .finish,
    .afterHooks [.returned (plainResponse "done"), .returned (plainResponse "done")]]

def retriedEnd : Call := (Runs.run step {} retriedCall).getD {}

theorem stream_single_attempt_retried :
    Runs.Trace step (fun _ _ _ => True) {} retriedCall retriedEnd ∧ retriedEnd.point = .ended true ∧
      retriedEnd.shown.map (·.1) = [1, 1] ∧ SingleAttempt retriedEnd := by
  have htrace : Runs.Trace step (fun _ _ _ => True) {} retriedCall retriedEnd := Runs.Trace.of_run_any rfl
  exact ⟨htrace, by decide +kernel, by decide +kernel, stream_single_attempt htrace⟩

/-- A text with a blank at its end, and a chain whose last middleware trims it. -/
def repairedCall : List Event :=
  [.delta { content := some "done ", finishReason := "stop" }, .chunkHooks [], .finish,
    .afterHooks [.returned (plainResponse "done"), .returned (plainResponse "done")]]

/-- The hook that runs after the repair of the output receives another text than
was shown. -/
theorem hook_receives_repaired :
    ∃ s, Runs.Trace step (fun _ _ _ => True) {} repairedCall s ∧ s.point = .ended true ∧
      ∃ run ∈ s.afterRuns, ∃ call ∈ run.2, call.received.content ≠ s.shownContent := by
  refine ⟨(Runs.run step {} repairedCall).getD {}, Runs.Trace.of_run_any rfl, ?_⟩
  decide +kernel

end Middleware
end AgentCore
