/-
# Streams of a provider

A stream is what it yields and how it ends. `_nonempty_stream` holds back the
deltas that signal no completion until one does, so that a leg which turns out
to be empty has yielded nothing but transport activity.

Key definitions: `StreamDelta`, `hasCompletionSignal`, `nonemptyStream`.
Key theorem: `nonemptyStream_output`.
-/
import AgentCore.Messages
import AgentCore.Providers.Errors

namespace AgentCore
namespace Providers

open Text

structure ToolCallDelta where
  index : ℤ := 0
  id : String := ""
  name : String := ""
  arguments : String := ""
  deriving DecidableEq, Repr

structure StreamDelta where
  content : String := ""
  reasoningContent : String := ""
  toolCallDeltas : List ToolCallDelta := []
  usage : List (String × ℤ) := []
  finishReason : String := ""
  model : String := ""
  provider : String := ""
  reasoningBlocks : List Block := []
  stopDetails : List (String × String) := []
  stopReason : String := ""
  thinkingHistoryReset : Bool := false
  transportActivity : Bool := false
  usageSource : String := ""
  refusal : String := ""
  finalToolCalls : Option (List ToolCall) := none
  deriving DecidableEq, Repr

/-! ### Completion signals -/

/-- The type of a block; a plain string has none. -/
def blockType : Block → Option String
  | .str _ => none
  | .text _ => some "text"
  | .imageUrl _ => some "image_url"
  | .thinking _ _ => some "thinking"
  | .redactedThinking _ => some "redacted_thinking"
  | .other ty _ _ => some ty

/-- A block that makes a response not empty. -/
def blockSignals : Block → Bool
  | .str s => strip s != ""
  | .text s => strip s != ""
  | .other ty t c => strip (if t ≠ "" then t else c) != "" || !(["text", ""].contains ty)
  | _ => true

def isRejection (reason : String) : Bool := ["refusal", "content_filter"].contains (lower (strip reason))

/-- `response_rejection_reason` of the response made of the delta is not
empty. -/
def rejects (d : StreamDelta) : Bool :=
  d.refusal != "" || d.stopDetails.lookup "type" == some "refusal" ||
    d.reasoningBlocks.any (fun b => blockType b == some "refusal") || isRejection d.finishReason ||
    isRejection d.stopReason

/-- Usage that the provider reported, and not an estimate. -/
def reportsUsage (d : StreamDelta) : Bool :=
  d.usageSource != "estimated" && !d.usage.isEmpty && ((d.usage.lookup "estimated").getD 0 == 0)

/-- `stream_delta_has_completion_signal`. -/
def hasCompletionSignal (d : StreamDelta) : Bool :=
  d.toolCallDeltas.any (·.name != "") || rejects d || strip d.reasoningContent != "" || reportsUsage d ||
    !d.stopDetails.isEmpty ||
    (if d.reasoningBlocks.isEmpty then strip d.content != "" else d.reasoningBlocks.any blockSignals)

/-! ### Streams -/

inductive Ending
  | finished
  | raised (e : LlmError)
  deriving DecidableEq, Repr

structure Stream where
  deltas : List StreamDelta
  ending : Ending
  deriving DecidableEq, Repr

/-- The deltas the wrapper yields, with those it holds back and how many it has
seen, and at the end whether it has committed to the leg. -/
def nonemptyDeltas : Bool → List StreamDelta → ℕ → List StreamDelta → List StreamDelta × Bool × ℕ
  | committed, _, seen, [] => ([], committed, seen)
  | committed, pending, seen, d :: ds =>
    if d.transportActivity then
      let (out, r) := nonemptyDeltas committed pending seen ds
      (d :: out, r)
    else if committed then
      let (out, r) := nonemptyDeltas true pending (seen + 1) ds
      (d :: out, r)
    else if hasCompletionSignal d then
      let (out, r) := nonemptyDeltas true [] (seen + 1) ds
      (pending ++ d :: out, r)
    else nonemptyDeltas false (pending ++ [d]) (seen + 1) ds

/-- `_nonempty_stream`: what the consumer of the wrapper gets. -/
def nonemptyStream (elapsed : String) (s : Stream) : Stream :=
  let (out, committed, seen) := nonemptyDeltas false [] 0 s.deltas
  ⟨out, match s.ending with
    | .raised e => .raised e
    | .finished => if committed then .finished else .raised (emptyCompletionError seen elapsed)⟩

/-- The deltas that are output of the model. -/
def modelOutput (ds : List StreamDelta) : List StreamDelta := ds.filter fun d => !d.transportActivity

theorem modelOutput_cons_of_transport {d : StreamDelta} (h : d.transportActivity = true) (ds : List StreamDelta) :
    modelOutput (d :: ds) = modelOutput ds := by
  rw [modelOutput, List.filter_cons_of_neg (by simp [h])]
  rfl

theorem modelOutput_cons {d : StreamDelta} (h : ¬d.transportActivity = true) (ds : List StreamDelta) :
    modelOutput (d :: ds) = d :: modelOutput ds := by
  rw [modelOutput, List.filter_cons_of_pos (by simp [h])]
  rfl

theorem modelOutput_append {ds : List StreamDelta} (h : ∀ d ∈ ds, d.transportActivity = false)
    (ds' : List StreamDelta) : modelOutput (ds ++ ds') = ds ++ modelOutput ds' := by
  rw [modelOutput, List.filter_append, List.filter_eq_self.mpr fun d hd => by simp [h d hd]]
  rfl

/-- Once committed, the wrapper passes everything on. -/
theorem nonemptyDeltas_committed : ∀ (pending : List StreamDelta) (seen : ℕ) (ds : List StreamDelta),
    (nonemptyDeltas true pending seen ds).1 = ds ∧ (nonemptyDeltas true pending seen ds).2.1 = true
  | _, _, [] => ⟨rfl, rfl⟩
  | pending, seen, d :: ds => by
    rw [nonemptyDeltas]
    split
    · obtain ⟨hout, hc⟩ := nonemptyDeltas_committed pending seen ds
      exact ⟨congrArg (d :: ·) hout, hc⟩
    · obtain ⟨hout, hc⟩ := nonemptyDeltas_committed pending (seen + 1) ds
      exact ⟨congrArg (d :: ·) hout, hc⟩

/-- Of the model's output the wrapper passes on all or nothing: all once there
was a signal. -/
theorem nonemptyDeltas_output : ∀ (pending : List StreamDelta) (seen : ℕ) (ds : List StreamDelta),
    (∀ d ∈ pending, d.transportActivity = false) →
    modelOutput (nonemptyDeltas false pending seen ds).1 =
      if (nonemptyDeltas false pending seen ds).2.1 then pending ++ modelOutput ds else []
  | _, _, [], _ => rfl
  | pending, seen, d :: ds, hp => by
    rw [nonemptyDeltas]
    split
    · next ht =>
      dsimp only
      rw [modelOutput_cons_of_transport ht, modelOutput_cons_of_transport ht, nonemptyDeltas_output pending seen ds hp]
    · next ht =>
      rw [if_neg Bool.false_ne_true]
      split
      · obtain ⟨hout, hc⟩ := nonemptyDeltas_committed [] (seen + 1) ds
        dsimp only
        rw [hout, hc, if_pos rfl, modelOutput_append hp]
      · have hp' : ∀ x ∈ pending ++ [d], x.transportActivity = false := by
          intro x hx
          rcases List.mem_append.mp hx with hx | hx
          · exact hp x hx
          · rw [List.mem_singleton.mp hx]
            simpa using ht
        rw [nonemptyDeltas_output (pending ++ [d]) (seen + 1) ds hp', modelOutput_cons ht, List.append_assoc]
        rfl

/-- **A leg is passed on as a whole or not at all**: the wrapper yields all of
the model's output, and then ends as the stream does, or it yields none of it
and ends in an error. -/
theorem nonemptyStream_output (elapsed : String) (s : Stream) :
    (modelOutput (nonemptyStream elapsed s).deltas = modelOutput s.deltas ∧
      (nonemptyStream elapsed s).ending = s.ending) ∨
    (modelOutput (nonemptyStream elapsed s).deltas = [] ∧
      ∃ e, (nonemptyStream elapsed s).ending = .raised e) := by
  have hout := nonemptyDeltas_output [] 0 s.deltas (by simp)
  unfold nonemptyStream
  generalize nonemptyDeltas false [] 0 s.deltas = r at hout ⊢
  obtain ⟨out, committed, seen⟩ := r
  dsimp only at hout ⊢
  cases committed with
  | true =>
    refine .inl ⟨hout, ?_⟩
    cases s.ending <;> rfl
  | false =>
    refine .inr ⟨hout, ?_⟩
    cases s.ending with
    | finished => exact ⟨_, rfl⟩
    | raised e => exact ⟨e, rfl⟩

end Providers
end AgentCore
