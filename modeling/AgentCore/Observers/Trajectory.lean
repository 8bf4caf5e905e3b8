/-
# The message spool of a trajectory

`components/observers/trajectory.py` keeps the messages of a run in a spool file
beside the snapshot it writes. A sync compares the history with what it has
recorded of the file, keeps the longest prefix that has not changed, cuts the
file there and renders the rest; a deep sync renders the kept messages too and
compares digests of their lines. The history belongs to the loop, which edits it
between syncs in any way it likes.

Objects are known by reference, as `is` and `id` see them. What `_render` computes
from the objects it can reach is left open, and so is the digest.

What the spool then says of the history is in `Observers/Spool.lean`.

Key definitions: `resolveAnnotations`, `syncHistory`, `flushJson`, `step`.
-/
import AgentCore.Lib.Spans
import Mathlib.Data.List.Dedup
import Mathlib.Data.List.Forall2
import Mathlib.Logic.Function.Basic

namespace AgentCore
namespace Trajectory

abbrev Ref := ℕ

abbrev Line := List UInt8

/-- A value as `_same` tells it apart: tuples by their items, any other object by
its reference. -/
inductive Val
  | none
  | obj (r : Ref)
  | tuple (items : List Val)

inductive Obj
  | str (s : String)
  | dict (items : List (Val × Val))
  | list (items : List Val)
  | other (state : String)

abbrev Heap := Ref → Obj

variable (heap : Heap)

def isStr (v : Val) (s : String) : Bool :=
  match v with
  | .obj r =>
    match heap r with
    | .str t => t == s
    | _ => false
  | _ => false

/-- `dict.get`. -/
def get (items : List (Val × Val)) (key : String) : Val :=
  ((items.find? fun i => isStr heap i.1 key).map (·.2)).getD .none

def isAssistant (message : Ref) : Bool :=
  match heap message with
  | .dict items => isStr heap (get heap items "role") "assistant"
  | _ => false

/-- A `dict` or `list` that is not empty. -/
def container : Val → Option Ref
  | .obj r =>
    match heap r with
    | .dict (_ :: _) => some r
    | .list (_ :: _) => some r
    | _ => none
  | _ => none

/-- `_lineage`. -/
def lineage (message : Ref) : List Ref :=
  match heap message with
  | .dict items => ["content", "tool_calls"].flatMap fun key =>
    match container heap (get heap items key) with
    | some r =>
      match heap r with
      | .list blocks => r :: blocks.filterMap (container heap)
      | _ => [r]
    | none => []
  | _ => []

/-- `_signature`. -/
def signature (message : Ref) (details : Option Ref) : Val :=
  let details := details.elim .none .obj
  match heap message with
  | .dict items =>
    let blocks := match get heap items "content" with
      | .obj c =>
        match heap c with
        | .list blocks => blocks
        | _ => []
      | _ => []
    .tuple [.tuple (items.map fun i => .tuple [i.1, i.2]), .tuple blocks, details]
  | _ => .tuple [.obj message, details]

mutual

/-- `_same`. -/
def Val.same : Val → Val → Bool
  | .tuple as, .tuple bs => Val.sameAll as bs
  | .obj a, .obj b => a == b
  | .none, .none => true
  | _, _ => false

def Val.sameAll : List Val → List Val → Bool
  | [], [] => true
  | a :: as, b :: bs => Val.same a b && Val.sameAll as bs
  | _, _ => false

end

/-! ### Annotations -/

/-- An entry of `_response_metadata`, which has the identity of its message as
key; `details` is none where it is the `{}` made for an assistant without
diagnostics. -/
structure Annotation where
  message : Ref
  details : Option Ref

/-- The entries that a message shares an object with. -/
def sources (unmatched : List Annotation) (message : Ref) : List Annotation :=
  unmatched.filter fun a => (lineage heap message).any fun r => (lineage heap a.message).contains r

/-- The messages that are a copy of this entry's message and of no other's. -/
def targets (bound unmatched : List Annotation) (history : List Ref) (a : Annotation) : List Ref :=
  history.filter fun m =>
    isAssistant heap m && !(bound.map (·.message)).contains m &&
      ((sources heap unmatched m).map (·.message) == [a.message])

/-- `_resolve_annotations`: what it leaves in `_response_metadata`. -/
def resolveAnnotations (metadata : List Annotation) (history : List Ref) : List Annotation :=
  let bound := metadata.filter fun a => history.contains a.message
  let unmatched := metadata.filter fun a => !history.contains a.message
  let inherited := unmatched.filterMap fun a =>
    match targets heap bound unmatched history a with
    | [m] => some { a with message := m }
    | _ => none
  (history.filter (isAssistant heap)).dedup.map fun m =>
    ((bound ++ inherited).find? fun a => a.message == m).getD ⟨m, none⟩

/-- The annotation bound to a message, where it says something. -/
def detailsFor (metadata : List Annotation) (message : Ref) : Option Ref :=
  (metadata.find? fun a => a.message == message).bind fun a =>
    a.details.bind fun d =>
      match heap d with
      | .dict (_ :: _) => some d
      | _ => none

/-! ### Syncing -/

variable {D : Type} [DecidableEq D]

structure SpoolEntry (D : Type) where
  message : Ref
  signature : Val
  digest : D
  endOffset : ℕ

/-- What the observer has, with the objects and the spool file. -/
structure Observer (D : Type) where
  heap : Heap
  history : Option (List Ref) := none
  metadata : List Annotation := []
  entries : List (SpoolEntry D) := []
  /-- None where there is no file. -/
  spool : Option Line
  deepCheckDue : Bool := false
  pendingFlushes : ℕ := 0
  /-- `_last_flush_at` is not `0.0`. -/
  flushed : Bool := false
  ended : Bool := false

/-- The annotation a sync renders a message with. -/
def Observer.details (s : Observer D) (history : List Ref) : Ref → Option Ref :=
  detailsFor s.heap (resolveAnnotations s.heap s.metadata history)

/-- What a sync writes from the first difference on. -/
structure Written (D : Type) where
  bytes : Line
  entries : List (SpoolEntry D)
  raised : Bool

section Sync

variable (render : Heap → Ref → Option Ref → Option Line) (lineDigest : Line → D)

/-- The loop over the common part: how many entries are kept, and the line of the
first that is not, if it was rendered. None is an exception of `_render`. -/
def unchanged (deep : Bool) (details : Ref → Option Ref) :
    List (SpoolEntry D) → List Ref → Option (ℕ × Option Line)
  | e :: es, m :: ms =>
    if e.message ≠ m ∨ e.signature.same (signature heap m (details m)) = false then some (0, none)
    else if deep then
      match render heap m (details m) with
      | none => none
      | some line =>
        if lineDigest line ≠ e.digest then some (0, some line)
        else (unchanged deep details es ms).map fun r => (r.1 + 1, r.2)
    else (unchanged deep details es ms).map fun r => (r.1 + 1, r.2)
  | _, _ => some (0, none)

/-- The loop that writes, starting at `offset`. -/
def writeLines (details : Ref → Option Ref) : Option Line → ℕ → List Ref → Written D
  | _, _, [] => ⟨[], [], false⟩
  | firstLine, offset, m :: ms =>
    match firstLine.orElse fun _ => render heap m (details m) with
    | none => ⟨[], [], true⟩
    | some line =>
      let rest := writeLines details none (offset + line.length) ms
      let entry := ⟨m, signature heap m (details m), lineDigest line, offset + line.length⟩
      ⟨line ++ rest.bytes, entry :: rest.entries, rest.raised⟩

/-- `fh.seek(offset)` and `fh.truncate()`. -/
def truncate (bytes : Line) (offset : ℕ) : Line := Spans.truncate 0 bytes offset

/-- The end offset of the last entry. -/
def lastOffset (entries : List (SpoolEntry D)) : ℕ := Spans.lastStop SpoolEntry.endOffset entries

/-- What the sync finds unchanged: nothing where there is no file. -/
def compare (deep : Bool) (details : Ref → Option Ref) (s : Observer D) (history : List Ref) :
    Option (ℕ × Option Line) :=
  match s.spool with
  | none => some (0, none)
  | some _ => unchanged s.heap render lineDigest deep details s.entries history

/-- `_sync_history`, and whether it raised. -/
def syncHistory (deep : Bool) (s : Observer D) : Observer D × Bool :=
  match s.history with
  | none => (s, false)
  | some history =>
    let metadata := resolveAnnotations s.heap s.metadata history
    let details := s.details history
    match compare render lineDigest deep details s history with
    | none => ({ s with metadata := metadata }, true)
    | some (keep, firstLine) =>
      let entries := s.entries.take keep
      let offset := lastOffset entries
      let bytes := if keep = 0 then [] else s.spool.getD []
      let w := writeLines s.heap render lineDigest details firstLine offset (history.drop keep)
      ({ s with
          metadata := metadata
          entries := entries ++ w.entries
          spool := some (truncate bytes offset ++ w.bytes) }, w.raised)

end Sync

/-! ### Snapshots and the hooks -/

/-- The enabled format and the two bounds of coalescing, which 0 disables. -/
structure Settings where
  json : Bool := true
  coalesceN : ℕ := 20
  coalesceMs : ℕ := 0

/-- What a flush comes to. -/
inductive Outcome
  | skipped
  | completed (deep : Bool)
  | raised (deep : Bool)
  deriving DecidableEq

/-- A snapshot is due; `elapsed` says that `_COALESCE_MS` have passed. -/
def Settings.due (cfg : Settings) (s : Observer D) (elapsed : Bool) : Bool :=
  (cfg.coalesceN == 0 && cfg.coalesceMs == 0) || !s.flushed ||
    (decide (0 < cfg.coalesceN) && decide (cfg.coalesceN ≤ s.pendingFlushes)) ||
    (decide (0 < cfg.coalesceMs) && elapsed)

/-- What the loop does to the history and its objects. -/
inductive Edit
  | append (message : Ref)
  | delete (i : ℕ)
  | replace (i : ℕ) (message : Ref)
  | assign (messages : List Ref)
  /-- An edit in place of any object. -/
  | mutate (r : Ref) (o : Obj)

def Observer.edit (s : Observer D) : Edit → Observer D
  | .append m => { s with history := s.history.map (· ++ [m]) }
  | .delete i => { s with history := s.history.map (·.eraseIdx i) }
  | .replace i m => { s with history := s.history.map (·.set i m) }
  | .assign ms => { s with history := s.history.map fun _ => ms }
  | .mutate r o => { s with heap := Function.update s.heap r o }

/-- Edits, and the hooks of the observer. -/
inductive Event
  | edit (e : Edit)
  /-- `_bind_history`. -/
  | bind (messages : List Ref)
  /-- The diagnostics of a response. -/
  | annotate (message details : Ref)
  /-- A compaction or rollback is announced or noticed. -/
  | notice
  | flush (elapsed : Bool)
  | loopStart (elapsed : Bool)
  /-- The messages of the result, unless the history is the observer's own, and
  whether the snapshot could be written. -/
  | loopEnd (messages : Option (List Ref)) (written : Bool)
  | loopCancelled

/-- The observer goes on in its loop. -/
def Event.inLoop : Event → Bool
  | .loopStart _ | .loopEnd _ _ | .loopCancelled => false
  | _ => true

section Hooks

variable (cfg : Settings) (render : Heap → Ref → Option Ref → Option Line) (lineDigest : Line → D)

/-- The sync of a snapshot that is due. -/
def flushDue (deep : Bool) (s : Observer D) : Observer D × Outcome :=
  match syncHistory render lineDigest deep { s with pendingFlushes := 0, flushed := true } with
  | (s, true) => (s, .raised deep)
  | (s, false) => ({ s with deepCheckDue := !deep && s.deepCheckDue }, .completed deep)

/-- `_flush_json`, up to the snapshot itself. -/
def flushJson (force elapsed : Bool) (s : Observer D) : Observer D × Outcome :=
  if cfg.json = false then (s, .skipped)
  else if force then flushDue render lineDigest true s
  else
    let s := { s with pendingFlushes := s.pendingFlushes + 1 }
    if cfg.due s elapsed then flushDue render lineDigest s.deepCheckDue s else (s, .skipped)

/-- `_close_message_spool`, and the history let go. -/
def Observer.close (cleanup : Bool) (s : Observer D) : Observer D :=
  { s with entries := [], spool := if cleanup then none else s.spool, history := none, metadata := [] }

def annotate (metadata : List Annotation) (message details : Ref) : List Annotation :=
  if metadata.any (·.message == message) then
    metadata.map fun a => if a.message == message then { a with details := some details } else a
  else metadata ++ [⟨message, some details⟩]

def bindHistory (s : Observer D) (messages : List Ref) : Observer D :=
  if cfg.json && s.history.isNone then
    { s with history := some messages, metadata := resolveAnnotations s.heap s.metadata messages }
  else s

def loopEnd (messages : Option (List Ref)) (written : Bool) (s : Observer D) : Observer D :=
  let history := match messages with
    | some messages => if cfg.json then some messages else s.history
    | none => s.history
  let (s, outcome) := flushJson cfg render lineDigest true false { s with history := history, ended := true }
  match outcome with
  | .raised _ => s.close false
  | _ => s.close written

def step (s : Observer D) : Event → Option (Observer D)
  | .edit e => some (s.edit e)
  | .bind ms => some (bindHistory cfg s ms)
  | .annotate m d => some { s with metadata := annotate s.metadata m d }
  | .notice => some { s with deepCheckDue := true }
  | .flush elapsed => some (flushJson cfg render lineDigest false elapsed s).1
  | .loopStart elapsed =>
    -- a loop starts when the one before it is over
    if s.history.isNone then
      some (flushJson cfg render lineDigest false elapsed { s with ended := false, deepCheckDue := false }).1
    else none
  | .loopEnd messages written => some (loopEnd cfg render lineDigest messages written s)
  | .loopCancelled =>
    if s.ended then some s
    else some ((flushJson cfg render lineDigest true false s).1.close false)

end Hooks

end Trajectory
end AgentCore
