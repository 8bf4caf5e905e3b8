/-
# Executing a batch of tools

`execute_tools` of `tool_exec.py` and `_execute_tool_calls` of `agent_loop.py`,
with the exceptions that tools, waiters and the host's hooks raise. Each call of
a batch runs on its own: a fan-in tool races a waiter for an interrupt, handlers
turn an exception into an error result, and a clean-up cancels what a race has
left pending. The batch is gathered in the order in which its calls complete.

What a call meets is its `Course`: how its scope, its invocation and the waiter
come out. Exceptions that do not derive from `Exception` are left out, apart
from a cancellation, and so are durations, attached images, and the metadata of
a result other than its error kind.

An exception gets past the handlers of a call (`Escapes`) when neither the
host's hook nor `str` has words for it, and when a waiter or a tool raises it on
being cancelled by the clean-up.

Key definitions: `Hooks`, `Course`, `runOne`, `executeTools`, `executeToolCalls`,
`Escapes`, `Cancels`.
Key theorems: `runOne_fails_iff`, `runOne_cancelled_iff`, `runOne_id`.
-/
import AgentCore.Loop.Turn
import AgentCore.Lib.Gather
import Mathlib.Data.Rat.Defs

namespace AgentCore
namespace Loop
namespace ToolExec

/-- What is raised: a cancellation, a `TimeoutError`, or an exception with its
type and its text, which `str` may fail to give. -/
inductive Raise
  | cancelled
  | timeout
  | failure (typeName text : String)
  | unprintable (typeName : String) (raised : Raise)
  deriving DecidableEq

def Raise.typeName : Raise → String
  | .cancelled => "CancelledError"
  | .timeout => "TimeoutError"
  | .failure typeName _ => typeName
  | .unprintable typeName _ => typeName

/-- `str(exc)`. -/
def Raise.str : Raise → Except Raise String
  | .cancelled => .ok ""
  | .timeout => .ok ""
  | .failure _ text => .ok text
  | .unprintable _ raised => .error raised

/-- What a tool hands back: nothing, the text of structured content, or another
value, with its `str`. -/
inductive Raw
  | none
  | content (text : String)
  | value (str : Except Raise String)

def Raw.text : Raw → Except Raise String
  | .none => .ok ""
  | .content text => .ok text
  | .value str => str

structure ToolResult extends Loop.ToolResult where
  errorKind : String := ""

/-- Metadata of the host; reading a reserved key as text may raise. -/
structure Metadata where
  errorKind : Except Raise String := .ok ""

/-! ### Hooks -/

def selfTimingToolFloors : String → Option ℤ
  | "run_python_code" => some 660
  | "download_file" => some 660
  | _ => none

def defaultAggregationTools : List String := ["collect_reports", "collect_results"]

/-- `requested` reads a call's argument `timeout` as an integer, 0 if it has
none. -/
def defaultTimeout (requested : ToolCall → ℤ) (c : ToolCall) (configured : ℤ) : ℤ :=
  match selfTimingToolFloors c.name with
  | some floor => max configured floor
  | none =>
    if c.name ∉ defaultAggregationTools then configured
    else if 0 < requested c then max configured (requested c + 5)
    else configured

def toolResultMaxChars : ℕ := 150000

def identityResult (value : String) : String :=
  if value.length ≤ toolResultMaxChars then value
  else Text.take value toolResultMaxChars ++ "\n... [truncated, " ++ toString value.length ++ " chars total]"

def unknownResult (name : String) (available : List String) : String :=
  let choices := if Text.join ", " available = "" then "(none)" else Text.join ", " available
  "Error: unknown tool '" ++ name ++ "' is not available. " ++
    "Available tools: " ++ choices ++ ". Call one of these instead."

/-- The seconds elapsed are given to one decimal. -/
def timeoutResult (name elapsed : String) : String :=
  "Error: tool '" ++ name ++ "' timed out after " ++ elapsed ++ "s"

def failureResult (exc : Raise) : Except Raise String :=
  exc.str.map fun text => "Error: " ++ exc.typeName ++ ": " ++ text

def interruptedResult : String :=
  "[interrupted] Waiting for sub-agent reports was cancelled because " ++
    "a new user message arrived."

/-- A rewriting of a batch's results that keeps whose results they are. -/
structure BatchTransform where
  apply : List ToolResult → Except Raise (List ToolResult)
  keepsCalls : ∀ {rs rs' : List ToolResult}, apply rs = .ok rs' →
    rs'.map (·.toolCallId) = rs.map (·.toolCallId)

def identityBatch : BatchTransform where
  apply := .ok
  keepsCalls h := by rw [Except.ok.inj h]

/-- `ToolExecutionHooks`; what `await_call` and `call_scope` do is part of the
course of a call. -/
structure Hooks where
  resolveTimeout : ToolCall → ℤ → Except Raise ℚ
  onCall : String → Except Raise Unit := fun _ => .ok ()
  transformResult : String → String → Except Raise String := fun _ value => .ok (identityResult value)
  resultMetadata : ToolCall → Raw → String → Except Raise Metadata := fun _ _ _ => .ok {}
  transformBatch : BatchTransform := identityBatch
  unknownResult : String → List String → Except Raise String := fun name available =>
    .ok (ToolExec.unknownResult name available)
  timeoutResult : String → String → ℚ → Except Raise String := fun name elapsed _ =>
    .ok (ToolExec.timeoutResult name elapsed)
  failureResult : String → Raise → Except Raise String := fun _ exc => ToolExec.failureResult exc
  interruptedResult : String → Except Raise String := fun _ => .ok ToolExec.interruptedResult
  aggregationTools : List String := defaultAggregationTools

/-- A hook that raises falls back to core behaviour. -/
def safeHook {α : Type} (call fallback : Except Raise α) : Except Raise α :=
  match call with
  | .ok a => .ok a
  | .error .cancelled => .error .cancelled
  | .error _ => fallback

/-- Did the waiter ask for an interrupt? -/
def interruptRequested : Except Raise Bool → Bool
  | .ok asked => asked
  | .error _ => false

/-! ### The course of a call -/

/-- What a call meets. -/
structure Course where
  /-- Making and entering the scope. -/
  entered : Except Raise Unit := .ok ()
  /-- Making the invocation: `tool.ainvoke` and `await_call`. -/
  invocation : Except Raise Unit := .ok ()
  /-- What the invocation comes to, timed out or not, when nothing cuts it off. -/
  outcome : Except Raise Raw := .ok .none
  /-- Calling the waiter for an interrupt. -/
  waiterCall : Except Raise Unit := .ok ()
  /-- The end of a waiter that is done in a wake-up before the tool. -/
  waiterFirst : Option (Except Raise Bool) := none
  /-- The batch is cancelled while the race lasts. -/
  batchCancelled : Bool := false
  /-- Has the waiter ended when the clean-up looks? -/
  waiterDone : Bool := false
  /-- What awaiting the cancelled waiter comes to. -/
  waiterCancelled : Except Raise Bool := .error .cancelled
  /-- Has the tool ended when the clean-up looks? -/
  toolDone : Bool := false
  /-- What awaiting the cancelled invocation comes to. -/
  toolCancelled : Except Raise Raw := .error .cancelled
  /-- Leaving the scope with an exception or none; `true` suppresses it. -/
  exit : Option Raise → Except Raise Bool := fun _ => .ok false
  /-- The seconds elapsed, to one decimal. -/
  elapsed : String := "0.0"

/-- How the body of the scope ends, and what the clean-up finds pending: the
ends of a waiter and of an invocation that it will cancel. -/
structure Invoked where
  body : Except Raise Raw
  wokeForInterrupt : Bool := false
  waiterLeft : Option (Except Raise Bool) := none
  toolLeft : Option (Except Raise Raw) := none

def Course.pendingWaiter (course : Course) : Option (Except Raise Bool) :=
  if course.waiterFirst.isSome || course.waiterDone then none else some course.waiterCancelled

def Course.pendingTool (course : Course) : Option (Except Raise Raw) :=
  if course.toolDone then none else some course.toolCancelled

/-- The invocation is cancelled and awaited; only its own cancellation is
suppressed. -/
def interrupted (hooks : Hooks) (name : String) (course : Course) : Except Raise Raw :=
  match course.toolCancelled with
  | .ok _ => (hooks.interruptedResult name).map fun text => .value (.ok text)
  | .error .cancelled => (hooks.interruptedResult name).map fun text => .value (.ok text)
  | .error e => .error e

/-- The invocation races the waiter. Work that is done wins. -/
def race (hooks : Hooks) (name : String) (course : Course) : Invoked :=
  match course.waiterCall with
  | .error e => { body := .error e, toolLeft := course.pendingTool }
  | .ok _ =>
    if course.waiterFirst.any interruptRequested then
      { body := interrupted hooks name course, wokeForInterrupt := true }
    else if course.batchCancelled then
      { body := .error .cancelled, waiterLeft := course.pendingWaiter, toolLeft := course.pendingTool }
    else { body := course.outcome, waiterLeft := course.pendingWaiter }

/-- The name `raw` has no value once a scope has suppressed what its body
raised. -/
def unboundRaw : Raise :=
  .failure "UnboundLocalError" "cannot access local variable 'raw' where it is not associated with a value"

def leaveScope (exit : Option Raise → Except Raise Bool) : Except Raise Raw → Except Raise Raw
  | .ok raw =>
    match exit none with
    | .ok _ => .ok raw
    | .error e => .error e
  | .error e =>
    match exit (some e) with
    | .ok true => .error unboundRaw
    | .ok false => .error e
    | .error e' => .error e'

/-- The `with` block. -/
def invoke (hooks : Hooks) (waits : Bool) (c : ToolCall) (course : Course) : Invoked :=
  match course.entered with
  | .error e => { body := .error e }
  | .ok _ =>
    let inner : Invoked :=
      match course.invocation with
      | .error e => { body := .error e }
      | .ok _ =>
        if waits && hooks.aggregationTools.contains c.name then race hooks c.name course
        else { body := course.outcome }
    { inner with body := leaveScope course.exit inner.body }

/-- The exception of an await under `suppress(CancelledError)`. -/
def unsuppressed {α : Type} : Option (Except Raise α) → Option Raise
  | some (.error .cancelled) => none
  | some (.error e) => some e
  | some (.ok _) => none
  | none => none

/-- What the clean-up raises: it cancels the waiter first, then the invocation. -/
def leftover (i : Invoked) : Option Raise := (unsuppressed i.waiterLeft).or (unsuppressed i.toolLeft)

/-- The `finally` block. -/
def cleanUp (i : Invoked) (out : Except Raise ToolResult) : Except Raise ToolResult :=
  match leftover i with
  | some e => .error e
  | none => out

/-! ### One call -/

/-- A batch: the tools there are, the configured timeout, the numbers that go
into ids made up, and whether there is a waiter for interrupts. -/
structure Batch where
  toolNames : List String
  timeout : ℤ
  turn : ℤ
  countOffset : ℕ
  waits : Bool

def toolCallId (batch : Batch) (index : ℕ) (c : ToolCall) : String :=
  if c.id ≠ "" then c.id
  else "call_" ++ toString batch.turn ++ "_" ++ toString (batch.countOffset + index)

def errorResult (c : ToolCall) (id result errorKind : String) : ToolResult :=
  { name := c.name, result := result, toolCallId := id, isError := true, interrupted := false,
    errorKind := errorKind }

/-- From what the invocation brings back to a result. -/
def conclude (hooks : Hooks) (c : ToolCall) (id : String) (wokeForInterrupt : Bool) (raw : Raw) :
    Except Raise ToolResult := do
  let rawText ← raw.text
  let result ← hooks.transformResult c.name rawText
  let metadata ← safeHook (hooks.resultMetadata c raw result) (.ok {})
  let errorKind ← metadata.errorKind
  .ok { name := c.name, result := result, toolCallId := id, isError := decide (errorKind ≠ ""),
        interrupted := wokeForInterrupt, errorKind := errorKind }

/-- The `try` block. -/
def tried (hooks : Hooks) (batch : Batch) (index : ℕ) (c : ToolCall) (course : Course) :
    Except Raise ToolResult :=
  let i := invoke hooks batch.waits c course
  i.body.bind (conclude hooks c (toolCallId batch index c) i.wokeForInterrupt)

/-- The `except` blocks. -/
def handle (hooks : Hooks) (c : ToolCall) (id elapsed : String) (effectiveTimeout : ℚ) :
    Except Raise ToolResult → Except Raise ToolResult
  | .ok r => .ok r
  | .error .timeout =>
    (safeHook (hooks.timeoutResult c.name elapsed effectiveTimeout) (.ok (timeoutResult c.name elapsed))).map
      fun text => errorResult c id text "timeout"
  | .error .cancelled => .error .cancelled
  | .error exc =>
    (safeHook (hooks.failureResult c.name exc) (failureResult exc)).map
      fun text => errorResult c id text "exception"

/-- `_run_one`. -/
def runOne (hooks : Hooks) (batch : Batch) (index : ℕ) (c : ToolCall) (course : Course) :
    Except Raise ToolResult :=
  let id := toolCallId batch index c
  if c.name ∈ batch.toolNames then do
    let effectiveTimeout ← safeHook (hooks.resolveTimeout c batch.timeout) (.ok batch.timeout)
    safeHook (hooks.onCall c.name) (.ok ())
    cleanUp (invoke hooks batch.waits c course)
      (handle hooks c id course.elapsed effectiveTimeout (tried hooks batch index c course))
  else
    let available := batch.toolNames.insertionSort (· ≤ ·)
    (safeHook (hooks.unknownResult c.name available) (.ok (unknownResult c.name available))).map
      fun text => errorResult c id text ""

/-! ### The batch -/

/-- What a batch meets: the course of each of its calls, the order in which
they complete, and whether it is cancelled. -/
structure Run where
  course : ℕ → Course
  order : List ℕ := []
  cancelRequested : Bool := false

def cancellation (run : Run) : Option Raise := if run.cancelRequested then some .cancelled else none

def children (hooks : Hooks) (batch : Batch) (run : Run) (calls : List ToolCall) :
    List (Except Raise ToolResult) :=
  calls.mapIdx fun i c => runOne hooks batch i c (run.course i)

def executeTools (hooks : Hooks) (batch : Batch) (run : Run) (calls : List ToolCall) :
    Except Raise (List ToolResult) := do
  let results ← Gather.gather (children hooks batch run calls) run.order (cancellation run)
  safeHook (hooks.transformBatch.apply results) (.ok results)

/-- The calls of a batch that are to be executed, with their indices. -/
def executable (env : TurnEnv) (batch : Batch) (calls : List ToolCall) : List (ℕ × (ℕ × ToolCall)) :=
  Slots.lefts 0 (callSlots env batch.turn batch.countOffset 0 calls)

def executableCalls (env : TurnEnv) (batch : Batch) (calls : List ToolCall) : List ToolCall :=
  (executable env batch calls).map (·.2.2)

/-- The executable half of a batch, executed if there is any. -/
def executed (hooks : Hooks) (env : TurnEnv) (batch : Batch) (run : Run) (calls : List ToolCall) :
    Except Raise (List ToolResult) :=
  if executableCalls env batch calls = [] then .ok []
  else executeTools hooks batch run (executableCalls env batch calls)

/-- The results of a batch, unfilled slots dropped. -/
def toolResults (hooks : Hooks) (env : TurnEnv) (batch : Batch) (run : Run) (calls : List ToolCall) :
    Except Raise (List Loop.ToolResult) := do
  let slots := callSlots env batch.turn batch.countOffset 0 calls
  let results ← executed hooks env batch run calls
  let entries := ((executable env batch calls).zip (results.map (·.toToolResult))).map fun e => (e.1.1, e.2)
  let ordered := Slots.fill (Slots.fill (List.replicate slots.length none) entries) (Slots.rights 0 slots)
  .ok (ordered.filterMap id)

/-- `_execute_tool_calls`: the history after the batch, and the observer's stop
reason. -/
def executeToolCalls (hooks : Hooks) (cfg : LoopConfig) (env : TurnEnv) (batch : Batch) (run : Run)
    (messages : History) (calls : List ToolCall) : Except Raise (History × String) := do
  let results ← toolResults hooks env batch run calls
  let messages := evictOldImages (messages ++ results.map (toolResultMsg env)) cfg.maxImagesInHistory
  if results.any (·.interrupted) then
    .ok (injectMessages messages env.onToolWaitInterrupted.injectMessages,
      env.onToolWaitInterrupted.stopReason)
  else .ok (messages, "")

/-! ### Exceptions that get out -/

/-- An exception other than a cancellation is raised. -/
def Fails {α : Type} (x : Except Raise α) : Prop := ∃ e, x = .error e ∧ e ≠ .cancelled

def effectiveTimeout (hooks : Hooks) (batch : Batch) (c : ToolCall) : ℚ :=
  match hooks.resolveTimeout c batch.timeout with
  | .ok timeout => timeout
  | .error _ => batch.timeout

/-- The tool is known, and no hook that runs before the call cancels it. -/
structure Begins (hooks : Hooks) (batch : Batch) (c : ToolCall) : Prop where
  known : c.name ∈ batch.toolNames
  resolves : hooks.resolveTimeout c batch.timeout ≠ .error .cancelled
  observed : hooks.onCall c.name ≠ .error .cancelled

/-- Neither the host's hook nor `str` has words for the exception. -/
structure Unspeakable (hooks : Hooks) (c : ToolCall) (exc : Raise) : Prop where
  notTimeout : exc ≠ .timeout
  notCancelled : exc ≠ .cancelled
  hookFails : Fails (hooks.failureResult c.name exc)
  strFails : Fails exc.str

/-- An exception gets past the handlers of a call: one that it has no words
for, or one that the clean-up runs into. -/
inductive Escapes (hooks : Hooks) (batch : Batch) (index : ℕ) (c : ToolCall) (course : Course) : Prop
  | unspeakable (begins : Begins hooks batch c) (exc : Raise)
      (raises : tried hooks batch index c course = .error exc) (h : Unspeakable hooks c exc)
  | leftover (begins : Begins hooks batch c) (exc : Raise)
      (h : leftover (invoke hooks batch.waits c course) = some exc)

/-- The handlers turn the exception into a cancellation, or leave it one. -/
inductive CutsShort (hooks : Hooks) (batch : Batch) (c : ToolCall) (course : Course) : Raise → Prop
  | cancelled : CutsShort hooks batch c course .cancelled
  | timeoutHook (h : hooks.timeoutResult c.name course.elapsed (effectiveTimeout hooks batch c) =
      .error .cancelled) : CutsShort hooks batch c course .timeout
  | failureHook {exc : Raise} (notTimeout : exc ≠ .timeout)
      (h : hooks.failureResult c.name exc = .error .cancelled) : CutsShort hooks batch c course exc
  | str {exc : Raise} (notTimeout : exc ≠ .timeout) (hookFails : Fails (hooks.failureResult c.name exc))
      (h : exc.str = .error .cancelled) : CutsShort hooks batch c course exc

/-- A call ends in a cancellation. -/
inductive Cancels (hooks : Hooks) (batch : Batch) (index : ℕ) (c : ToolCall) (course : Course) : Prop
  | unknownHook (unknown : c.name ∉ batch.toolNames)
      (h : hooks.unknownResult c.name (batch.toolNames.insertionSort (· ≤ ·)) = .error .cancelled)
  | timeoutHook (known : c.name ∈ batch.toolNames)
      (h : hooks.resolveTimeout c batch.timeout = .error .cancelled)
  | callHook (known : c.name ∈ batch.toolNames) (h : hooks.onCall c.name = .error .cancelled)
  | tried (begins : Begins hooks batch c) (clean : leftover (invoke hooks batch.waits c course) = none)
      (exc : Raise) (raises : tried hooks batch index c course = .error exc)
      (h : CutsShort hooks batch c course exc)

/-! ### Hooks that raise -/

theorem bind_eq_ok {α β : Type} {x : Except Raise α} {f : α → Except Raise β} {b : β}
    (h : x.bind f = .ok b) : ∃ a, x = .ok a ∧ f a = .ok b := by
  cases x with
  | error e => simp [Except.bind] at h
  | ok a => exact ⟨a, rfl, h⟩

theorem fails_or_ok {α : Type} (x : Except Raise α) :
    (∃ a, x = .ok a) ∨ x = .error .cancelled ∨ Fails x := by
  rcases x with e | a
  · by_cases he : e = .cancelled
    · exact .inr (.inl (by rw [he]))
    · exact .inr (.inr ⟨e, rfl, he⟩)
  · exact .inl ⟨a, rfl⟩

@[simp] theorem not_fails_ok {α : Type} (a : α) : ¬ Fails (.ok a) := by simp [Fails]

@[simp] theorem not_fails_cancelled {α : Type} : ¬ Fails (.error .cancelled : Except Raise α) := by
  simp [Fails]

@[simp] theorem fails_map {α β : Type} (f : α → β) (x : Except Raise α) : Fails (x.map f) ↔ Fails x := by
  cases x <;> simp [Fails, Except.map]

@[simp] theorem map_eq_error {α β : Type} (f : α → β) (x : Except Raise α) (e : Raise) :
    x.map f = .error e ↔ x = .error e := by
  cases x <;> simp [Except.map]

theorem safeHook_of_fails {α : Type} {call : Except Raise α} (h : Fails call) (fallback : Except Raise α) :
    safeHook call fallback = fallback := by
  obtain ⟨e, rfl, he⟩ := h
  cases e with
  | cancelled => exact absurd rfl he
  | timeout => rfl
  | failure typeName text => rfl
  | unprintable typeName raised => rfl

@[simp] theorem fails_safeHook {α : Type} (call fallback : Except Raise α) :
    Fails (safeHook call fallback) ↔ Fails call ∧ Fails fallback := by
  rcases fails_or_ok call with ⟨a, rfl⟩ | rfl | h
  · show Fails (.ok a) ↔ _
    simp
  · show Fails (.error .cancelled) ↔ _
    simp
  · rw [safeHook_of_fails h]
    exact (and_iff_right h).symm

theorem safeHook_eq_cancelled {α : Type} (call fallback : Except Raise α) :
    safeHook call fallback = .error .cancelled ↔
      call = .error .cancelled ∨ Fails call ∧ fallback = .error .cancelled := by
  rcases fails_or_ok call with ⟨a, rfl⟩ | rfl | h
  · simp [safeHook]
  · simp [safeHook]
  · have hne : call ≠ .error .cancelled := fun hc => not_fails_cancelled (hc ▸ h)
    rw [safeHook_of_fails h]
    simp [h, hne]

/-- With a fallback that cannot fail, only a cancellation gets out. -/
theorem safeHook_ok_eq_error {α : Type} {call : Except Raise α} {a : α} {e : Raise}
    (h : safeHook call (.ok a) = .error e) : call = .error .cancelled ∧ e = .cancelled := by
  rcases fails_or_ok call with ⟨b, rfl⟩ | rfl | hf
  · simp [safeHook] at h
  · exact ⟨rfl, (Except.error.inj h).symm⟩
  · rw [safeHook_of_fails hf] at h
    simp at h

/-! ### The clean-up -/

theorem unsuppressed_ne_cancelled {α : Type} {left : Option (Except Raise α)} {e : Raise}
    (h : unsuppressed left = some e) : e ≠ .cancelled := by
  rintro rfl
  unfold unsuppressed at h
  split at h <;> simp_all

theorem leftover_ne_cancelled {i : Invoked} {e : Raise} (h : leftover i = some e) : e ≠ .cancelled := by
  unfold leftover at h
  rcases Option.or_eq_some_iff.mp h with hw | ⟨-, ht⟩
  · exact unsuppressed_ne_cancelled hw
  · exact unsuppressed_ne_cancelled ht

theorem fails_cleanUp (i : Invoked) (out : Except Raise ToolResult) :
    Fails (cleanUp i out) ↔ (∃ e, leftover i = some e) ∨ Fails out := by
  unfold cleanUp
  cases h : leftover i with
  | none => simp
  | some e =>
    have hfails : Fails (.error e : Except Raise ToolResult) := ⟨e, rfl, leftover_ne_cancelled h⟩
    simp [hfails]

theorem cleanUp_eq_cancelled (i : Invoked) (out : Except Raise ToolResult) :
    cleanUp i out = .error .cancelled ↔ leftover i = none ∧ out = .error .cancelled := by
  unfold cleanUp
  cases h : leftover i with
  | none => simp
  | some e => simpa using leftover_ne_cancelled h

/-! ### The handlers -/

section Call

variable (hooks : Hooks) (batch : Batch) (index : ℕ) (c : ToolCall) (course : Course)

theorem fails_failureResult (exc : Raise) : Fails (failureResult exc) ↔ Fails exc.str := fails_map _ _

/-- An exception that is neither a timeout nor a cancellation is put in words by
the host, or else by its type and its text. -/
theorem handle_exception {exc : Raise} (htimeout : exc ≠ .timeout) (hcancelled : exc ≠ .cancelled)
    (id elapsed : String) (timeout : ℚ) :
    handle hooks c id elapsed timeout (.error exc) =
      (safeHook (hooks.failureResult c.name exc) (failureResult exc)).map
        fun text => errorResult c id text "exception" := by
  cases exc with
  | cancelled => exact absurd rfl hcancelled
  | timeout => exact absurd rfl htimeout
  | failure typeName text => rfl
  | unprintable typeName raised => rfl

theorem fails_handle (id elapsed : String) (timeout : ℚ) (out : Except Raise ToolResult) :
    Fails (handle hooks c id elapsed timeout out) ↔ ∃ exc, out = .error exc ∧ Unspeakable hooks c exc := by
  constructor
  · intro h
    rcases out with exc | r
    · by_cases htimeout : exc = .timeout
      · subst htimeout
        simp [handle] at h
      · by_cases hcancelled : exc = .cancelled
        · subst hcancelled
          simp [handle] at h
        · rw [handle_exception hooks c htimeout hcancelled, fails_map, fails_safeHook,
            fails_failureResult] at h
          exact ⟨exc, rfl, htimeout, hcancelled, h.1, h.2⟩
    · simp [handle] at h
  · rintro ⟨exc, rfl, h⟩
    rw [handle_exception hooks c h.notTimeout h.notCancelled, fails_map, fails_safeHook,
      fails_failureResult]
    exact ⟨h.hookFails, h.strFails⟩

theorem handle_eq_cancelled (id : String) (out : Except Raise ToolResult) :
    handle hooks c id course.elapsed (effectiveTimeout hooks batch c) out = .error .cancelled ↔
      ∃ exc, out = .error exc ∧ CutsShort hooks batch c course exc := by
  constructor
  · intro h
    rcases out with exc | r
    · refine ⟨exc, rfl, ?_⟩
      by_cases htimeout : exc = .timeout
      · subst htimeout
        simp only [handle, map_eq_error, safeHook_eq_cancelled, reduceCtorEq, and_false, or_false] at h
        exact .timeoutHook h
      · by_cases hcancelled : exc = .cancelled
        · exact hcancelled ▸ .cancelled
        · rw [handle_exception hooks c htimeout hcancelled, map_eq_error, safeHook_eq_cancelled,
            failureResult, map_eq_error] at h
          rcases h with h | ⟨hfails, h⟩
          · exact .failureHook htimeout h
          · exact .str htimeout hfails h
    · simp [handle] at h
  · rintro ⟨exc, rfl, h⟩
    cases h with
    | cancelled => rfl
    | timeoutHook h => simp [handle, safeHook_eq_cancelled, h]
    | failureHook notTimeout h =>
      by_cases hcancelled : exc = .cancelled
      · rw [hcancelled, handle]
      · rw [handle_exception hooks c notTimeout hcancelled, map_eq_error, safeHook_eq_cancelled]
        exact .inl h
    | str notTimeout hookFails h =>
      by_cases hcancelled : exc = .cancelled
      · rw [hcancelled, handle]
      · rw [handle_exception hooks c notTimeout hcancelled, map_eq_error, safeHook_eq_cancelled,
          failureResult, map_eq_error]
        exact .inr ⟨hookFails, h⟩

/-! ### One call -/

theorem errorResult_id {text : Except Raise String} {id kind : String} {r : ToolResult}
    (h : text.map (fun text => errorResult c id text kind) = .ok r) : r.toolCallId = id := by
  cases text with
  | error e => simp [Except.map] at h
  | ok text =>
    rw [← Except.ok.inj h]
    rfl

theorem conclude_id {id : String} {woke : Bool} {raw : Raw} {r : ToolResult}
    (h : conclude hooks c id woke raw = .ok r) : r.toolCallId = id := by
  obtain ⟨rawText, -, h⟩ := bind_eq_ok h
  obtain ⟨result, -, h⟩ := bind_eq_ok h
  obtain ⟨metadata, -, h⟩ := bind_eq_ok h
  obtain ⟨errorKind, -, h⟩ := bind_eq_ok h
  rw [← Except.ok.inj h]

theorem tried_id {r : ToolResult} (h : tried hooks batch index c course = .ok r) :
    r.toolCallId = toolCallId batch index c := by
  obtain ⟨raw, -, hconclude⟩ := bind_eq_ok h
  exact conclude_id hooks c hconclude

theorem handle_id {id elapsed : String} {timeout : ℚ} {out : Except Raise ToolResult} {r : ToolResult}
    (hout : ∀ r, out = .ok r → r.toolCallId = id) (h : handle hooks c id elapsed timeout out = .ok r) :
    r.toolCallId = id := by
  unfold handle at h
  split at h
  · exact hout r h
  · exact errorResult_id c h
  · simp at h
  · exact errorResult_id c h

/-- A call that begins is tried, its exceptions handled, and cleaned up. -/
theorem runOne_of_begins (h : Begins hooks batch c) :
    runOne hooks batch index c course = cleanUp (invoke hooks batch.waits c course)
      (handle hooks c (toolCallId batch index c) course.elapsed (effectiveTimeout hooks batch c)
        (tried hooks batch index c course)) := by
  have hresolves : safeHook (hooks.resolveTimeout c batch.timeout) (.ok (batch.timeout : ℚ)) =
      .ok (effectiveTimeout hooks batch c) := by
    rcases fails_or_ok (hooks.resolveTimeout c batch.timeout) with ⟨t, ht⟩ | hc | hf
    · simp [effectiveTimeout, ht, safeHook]
    · exact absurd hc h.resolves
    · rw [safeHook_of_fails hf]
      obtain ⟨e, he, -⟩ := hf
      simp [effectiveTimeout, he]
  have hobserved : safeHook (hooks.onCall c.name) (.ok ()) = .ok () := by
    rcases fails_or_ok (hooks.onCall c.name) with ⟨t, ht⟩ | hc | hf
    · simp [ht, safeHook]
    · exact absurd hc h.observed
    · rw [safeHook_of_fails hf]
  simp only [runOne, if_pos h.known, hresolves, hobserved]
  rfl

/-- A known call that does not begin is cancelled by a hook. -/
theorem runOne_of_not_begins (hknown : c.name ∈ batch.toolNames) (h : ¬ Begins hooks batch c) :
    runOne hooks batch index c course = .error .cancelled := by
  simp only [runOne, if_pos hknown]
  by_cases hresolves : hooks.resolveTimeout c batch.timeout = .error .cancelled
  · rw [hresolves]
    rfl
  · have hcall : hooks.onCall c.name = .error .cancelled := by
      by_contra hobserved
      exact h ⟨hknown, hresolves, hobserved⟩
    rw [hcall]
    cases hr : safeHook (hooks.resolveTimeout c batch.timeout) (.ok (batch.timeout : ℚ)) with
    | ok timeout => rfl
    | error e => exact absurd (safeHook_ok_eq_error hr).1 hresolves

theorem runOne_of_unknown (h : c.name ∉ batch.toolNames) :
    runOne hooks batch index c course =
      (safeHook (hooks.unknownResult c.name (batch.toolNames.insertionSort (· ≤ ·)))
        (.ok (unknownResult c.name (batch.toolNames.insertionSort (· ≤ ·))))).map
          fun text => errorResult c (toolCallId batch index c) text "" := by
  simp only [runOne, if_neg h]

theorem runOne_fails_iff : Fails (runOne hooks batch index c course) ↔ Escapes hooks batch index c course := by
  by_cases hbegins : Begins hooks batch c
  · rw [runOne_of_begins hooks batch index c course hbegins, fails_cleanUp, fails_handle]
    constructor
    · rintro (⟨e, h⟩ | ⟨exc, hraises, h⟩)
      · exact .leftover hbegins e h
      · exact .unspeakable hbegins exc hraises h
    · rintro (⟨-, exc, hraises, h⟩ | ⟨-, e, h⟩)
      · exact .inr ⟨exc, hraises, h⟩
      · exact .inl ⟨e, h⟩
  · have hnot : ¬ Escapes hooks batch index c course := by
      rintro (⟨h, -⟩ | ⟨h, -⟩) <;> exact hbegins h
    refine iff_of_false ?_ hnot
    by_cases hknown : c.name ∈ batch.toolNames
    · simp [runOne_of_not_begins hooks batch index c course hknown hbegins]
    · simp [runOne_of_unknown hooks batch index c course hknown]

theorem runOne_cancelled_iff :
    runOne hooks batch index c course = .error .cancelled ↔ Cancels hooks batch index c course := by
  by_cases hknown : c.name ∈ batch.toolNames
  · by_cases hbegins : Begins hooks batch c
    · rw [runOne_of_begins hooks batch index c course hbegins, cleanUp_eq_cancelled, handle_eq_cancelled]
      constructor
      · rintro ⟨hclean, exc, hraises, h⟩
        exact .tried hbegins hclean exc hraises h
      · rintro (⟨hunknown, -⟩ | ⟨-, h⟩ | ⟨-, h⟩ | ⟨-, hclean, exc, hraises, h⟩)
        · exact absurd hknown hunknown
        · exact absurd h hbegins.resolves
        · exact absurd h hbegins.observed
        · exact ⟨hclean, exc, hraises, h⟩
    · refine iff_of_true (runOne_of_not_begins hooks batch index c course hknown hbegins) ?_
      by_cases hresolves : hooks.resolveTimeout c batch.timeout = .error .cancelled
      · exact .timeoutHook hknown hresolves
      · refine .callHook hknown ?_
        by_contra hobserved
        exact hbegins ⟨hknown, hresolves, hobserved⟩
  · rw [runOne_of_unknown hooks batch index c course hknown, map_eq_error, safeHook_eq_cancelled]
    constructor
    · rintro (h | ⟨-, h⟩)
      · exact .unknownHook hknown h
      · simp at h
    · rintro (⟨-, h⟩ | ⟨hk, -⟩ | ⟨hk, -⟩ | ⟨hbegins, -⟩)
      · exact .inl h
      · exact absurd hk hknown
      · exact absurd hk hknown
      · exact absurd hbegins.known hknown

/-- The result of a call carries its id. -/
theorem runOne_id {r : ToolResult} (h : runOne hooks batch index c course = .ok r) :
    r.toolCallId = toolCallId batch index c := by
  by_cases hknown : c.name ∈ batch.toolNames
  · by_cases hbegins : Begins hooks batch c
    · rw [runOne_of_begins hooks batch index c course hbegins, cleanUp] at h
      split at h
      · simp at h
      · exact handle_id hooks c (fun _ => tried_id hooks batch index c course) h
    · rw [runOne_of_not_begins hooks batch index c course hknown hbegins] at h
      simp at h
  · rw [runOne_of_unknown hooks batch index c course hknown] at h
    exact errorResult_id c h

end Call

end ToolExec
end Loop
end AgentCore
