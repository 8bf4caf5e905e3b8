/-
# Streamed tool calls

`StreamToolCalls`: the deltas of a stream are collected in one slot for each
index. An id replaces the one before it, the fragments of the name and of the
arguments are put end to end. Several calls may be streamed at once, so the
deltas of one call come in between those of the others; the calls that come out
depend only on what was streamed under each index.

Key definitions: `feed`, `complete`, `callOf`.
Key theorem: `complete_interleaved`.
-/
import Mathlib.Data.List.Induction
import AgentCore.Lib.Indexed
import AgentCore.Messages

namespace AgentCore.Loop.StreamTools

/-- One entry of a chunk's tool call deltas; a key that is missing or holds
`None` is `none`. -/
structure ToolDelta where
  index : Option ℤ := none
  id : Option String := none
  name : Option String := none
  arguments : Option String := none
  deriving DecidableEq, Repr

/-- `delta.get("index") or 0`. -/
def ToolDelta.slot (d : ToolDelta) : ℤ := d.index.getD 0

/-- A text that is read for its truth value only: a missing one counts as empty. -/
def given (s : Option String) : String := s.getD ""

/-- What `setdefault` opens a slot with. -/
def emptySlot : ToolCall := ⟨"", "", ""⟩

/-- The body of the loop, on the slot of the delta. -/
def fill (slot : ToolCall) (d : ToolDelta) : ToolCall where
  id := if given d.id ≠ "" then given d.id else slot.id
  name := if given d.name ≠ "" then slot.name ++ given d.name else slot.name
  arguments := if given d.arguments ≠ "" then slot.arguments ++ given d.arguments else slot.arguments

abbrev Slots := List (ℤ × ToolCall)

/-- `StreamToolCalls.feed`. -/
def feed (slots : Slots) (deltas : List ToolDelta) : Slots :=
  deltas.foldl (Indexed.put ToolDelta.slot emptySlot fill) slots

/-- `StreamToolCalls.complete`. -/
def complete (slots : Slots) : List ToolCall := (Indexed.ordered slots).filter fun slot => slot.name ≠ ""

/-- A stream: one `feed` for each chunk. -/
def stream (chunks : List (List ToolDelta)) : Slots := chunks.foldl feed []

/-- The deltas of an index, in their order. -/
def deltasAt (i : ℤ) (chunks : List (List ToolDelta)) : List ToolDelta :=
  chunks.flatten.filter fun d => d.slot = i

/-- The call that the deltas of one index add up to: the id given last, and the
fragments of the name and of the arguments end to end. -/
def callOf (ds : List ToolDelta) : ToolCall where
  id := ((ds.map fun d => given d.id).filter (· ≠ "")).getLast?.getD ""
  name := String.join (ds.map fun d => given d.name)
  arguments := String.join (ds.map fun d => given d.arguments)

/-- An empty fragment adds nothing, so the guard before it makes no difference. -/
theorem append_given (s t : String) : (if t ≠ "" then s ++ t else s) = s ++ t := by
  by_cases ht : t = ""
  · simp [ht]
  · rw [if_pos ht]

theorem join_concat (l : List String) (s : String) : String.join (l ++ [s]) = String.join l ++ s := by
  simp [String.join]

theorem callOf_concat (ds : List ToolDelta) (d : ToolDelta) : callOf (ds ++ [d]) = fill (callOf ds) d := by
  have hid : (((ds ++ [d]).map fun d => given d.id).filter (· ≠ "")).getLast?.getD "" =
      if given d.id ≠ "" then given d.id else ((ds.map fun d => given d.id).filter (· ≠ "")).getLast?.getD "" := by
    by_cases hd : given d.id = ""
    · simp [hd]
    · simp [hd]
  have hname : String.join ((ds ++ [d]).map fun d => given d.name) =
      String.join (ds.map fun d => given d.name) ++ given d.name := by
    rw [List.map_append, List.map_singleton, join_concat]
  have harguments : String.join ((ds ++ [d]).map fun d => given d.arguments) =
      String.join (ds.map fun d => given d.arguments) ++ given d.arguments := by
    rw [List.map_append, List.map_singleton, join_concat]
  unfold fill
  rw [append_given, append_given]
  simp only [callOf, hid, hname, harguments]

/-- What the loop makes of the deltas of an index is the call they add up to. -/
theorem foldl_fill (ds : List ToolDelta) : ds.foldl fill emptySlot = callOf ds := by
  induction ds using List.reverseRecOn with
  | nil => rfl
  | append_singleton ds d ih => rw [List.foldl_append, ih, callOf_concat, List.foldl_cons, List.foldl_nil]

theorem stream_eq (chunks : List (List ToolDelta)) : stream chunks = feed [] chunks.flatten := by
  unfold stream feed
  rw [List.foldl_flatten]

/-- The slots in the order of their indices. -/
theorem ordered_stream (chunks : List (List ToolDelta)) :
    Indexed.ordered (stream chunks) =
      (Indexed.sortedKeys ToolDelta.slot chunks.flatten).map fun i => callOf (deltasAt i chunks) := by
  rw [stream_eq]
  unfold feed
  rw [Indexed.ordered_putAll]
  refine List.map_congr_left fun i _ => ?_
  exact foldl_fill (deltasAt i chunks)

/-- The indices whose calls are handed on. -/
def namedIndices (chunks : List (List ToolDelta)) : List ℤ :=
  (Indexed.sortedKeys ToolDelta.slot chunks.flatten).filter fun i => (callOf (deltasAt i chunks)).name ≠ ""

theorem mem_namedIndices {i : ℤ} {chunks : List (List ToolDelta)} :
    i ∈ namedIndices chunks ↔ (callOf (deltasAt i chunks)).name ≠ "" := by
  unfold namedIndices
  rw [List.mem_filter, Indexed.mem_sortedKeys, decide_eq_true_iff]
  refine ⟨And.right, fun h => ⟨fun hnil => h ?_, h⟩⟩
  -- no delta, no name
  have hds : deltasAt i chunks = [] := hnil
  rw [hds]
  rfl

theorem complete_stream (chunks : List (List ToolDelta)) :
    complete (stream chunks) = (namedIndices chunks).map fun i => callOf (deltasAt i chunks) := by
  unfold complete namedIndices
  rw [ordered_stream, List.filter_map]
  rfl

/-- However the deltas of several calls are mixed and cut into chunks, the calls
are those of the indices that were given a name, in the order of the indices,
each with what was streamed under its index. -/
theorem complete_interleaved (xs ys : List (List ToolDelta)) (h : ∀ i, deltasAt i xs = deltasAt i ys) :
    complete (stream xs) = complete (stream ys) ∧
      (∃ indices : List ℤ, indices.Pairwise (· < ·) ∧
        (∀ i, i ∈ indices ↔ String.join ((deltasAt i xs).map fun d => given d.name) ≠ "") ∧
        complete (stream xs) = indices.map fun i => callOf (deltasAt i xs)) ∧
      ∀ c ∈ complete (stream xs), c.name ≠ "" := by
  refine ⟨?_, ⟨namedIndices xs, ?_, fun i => mem_namedIndices, complete_stream xs⟩, fun c hc => ?_⟩
  · have hkeys : Indexed.sortedKeys ToolDelta.slot xs.flatten = Indexed.sortedKeys ToolDelta.slot ys.flatten :=
      Indexed.sortedKeys_congr h
    unfold complete
    rw [ordered_stream, ordered_stream, hkeys]
    simp only [h]
  · exact (Indexed.sortedKeys_lt xs.flatten).filter _
  · have hnamed := (List.mem_filter.mp hc).2
    exact of_decide_eq_true hnamed

/-- Two calls streamed one after the other and mixed, the id of the first repeated. -/
theorem complete_interleaved_two :
    let first : ToolDelta := { index := some 0, id := some "a", name := some "read", arguments := some "\x7b" }
    let more : ToolDelta := { id := some "a", arguments := some "\x7d" }
    let second : ToolDelta := { index := some 1, id := some "b", name := some "list" }
    complete (stream [[first, second], [more]]) = complete (stream [[first], [more, second]]) ∧
      (complete (stream [[first, second], [more]])).map (·.name) = ["read", "list"] :=
  ⟨(complete_interleaved _ _ fun i => by
      by_cases h0 : (0 : ℤ) = i
      · subst h0
        decide
      · by_cases h1 : (1 : ℤ) = i
        · subst h1
          decide
        · simp [deltasAt, ToolDelta.slot, h0, h1]).1, by decide⟩

end AgentCore.Loop.StreamTools
