/-
# The scheduler's execution of a task

`Scheduler.execute` of `scheduling/scheduler.py`, an async generator over the
chunks of a graph stream. It waits in three places: for the next chunk, at its
own yield, and for the final state of the graph; there another party may change
the task, its status or the token of the runner that owns it. Everything
between two waits is one step: a read of the task and the write or the yield
that follows it are not interrupted.

The log is a ghost. It holds what `execute` did, a yield or a write, with the
status the task had at that moment and whether the execution had been
superseded while it ran.

The final state read may give any state. What the process manager does with a
write is what its method says; `update_status` and the event sink may raise.
Left out are the resolution of the graph and of the wall time.

Key definitions: `Execution`, `start`, `step`, `Record.Respects`, `FinalReadUndecided`.
Key theorem: `execute_respects`.
-/
import AgentCore.Text
import AgentCore.Lib.Runs
import Mathlib.Data.Int.Notation

namespace AgentCore
namespace Scheduling

inductive TaskStatus
  | created | running | suspended | completed | failed | aborted
  deriving DecidableEq, Repr

/-- What the scheduler reads of a task: its status and the token under
`active_execution_token` in its context. -/
structure Task where
  status : TaskStatus
  activeExecutionToken : Option String := none
  deriving DecidableEq, Repr

/-- The arguments of `execute` that its decisions depend on. -/
structure Arguments where
  taskId : String
  executionToken : Option String := none

def isStaleExecution (task : Task) (executionToken : Option String) : Bool :=
  match executionToken with
  | none => false
  | some token => token ≠ "" && task.activeExecutionToken ≠ some token

/-! ### The final state -/

/-- A value under `report` or `final_content`. -/
inductive Output
  | text (s : String)
  | mapping (size : ℕ)
  | other

/-- The fields of a graph's state that `execute` reads. -/
structure GraphState where
  report : Output := .other
  finalContent : Output := .other
  currentPhase : String := ""
  errors : List String := []
  iterationCount : ℤ := 0

def Output.isTerminal : Output → Bool
  | .text s => Text.strip s ≠ ""
  | .mapping size => 0 < size
  | .other => false

def hasTerminalOutput (state : GraphState) : Bool := state.report.isTerminal || state.finalContent.isTerminal

def formatNoTerminalError (taskId : String) (state : GraphState) : String :=
  let phase := if state.currentPhase = "" then "?" else state.currentPhase
  let shortened := (state.errors.take 3).map fun e => String.ofList (e.toList.take 200)
  Text.join " "
    (["Task " ++ taskId ++ " produced no final answer at phase '" ++ phase ++ "'."] ++
      (if state.errors = [] then [] else ["Errors: " ++ Text.join " | " shortened]) ++
      (if 0 < state.iterationCount then ["iterations=" ++ toString state.iterationCount] else []))

/-! ### The generator -/

variable {C : Type}

/-- A yield or a write of `execute`. -/
inductive Action (C : Type)
  | yielded (chunk : C)
  /-- `update_status(RUNNING)`, on entry. -/
  | running
  /-- `update_status(COMPLETED)`. -/
  | completed
  /-- The `REPORT_GENERATED` event. -/
  | reported
  | abortTask (reason : String)
  | setError (error : String)
  deriving DecidableEq

structure Record (C : Type) where
  action : Action C
  status : TaskStatus
  superseded : Bool
  deriving DecidableEq

/-- Where the generator is. -/
inductive Point
  | awaitingChunk | atYield | awaitingState | returned | raised
  deriving DecidableEq

structure Execution (C : Type) where
  task : Task
  point : Point
  /-- The token was superseded while the generator ran. -/
  superseded : Bool := false
  log : List (Record C) := []

/-- What the generator caught. -/
inductive Failure
  | wallTimeExceeded (message : String)
  | other (message : String)

/-- How `update_status(COMPLETED)` and the event after it come out. -/
inductive Completion
  | written
  | eventFails (message : String)
  | updateFails (message : String)

inductive Event (C : Type)
  /-- Another party sets the status. -/
  | setStatus (status : TaskStatus)
  /-- Another runner takes the task over. -/
  | supersede (token : Option String)
  | chunk (c : C)
  /-- The consumer asks for the next chunk. -/
  | resume
  | exhausted
  /-- The stream raises. -/
  | fails (message : String)
  | timesOut (wallTime : ℕ)
  | stateRead (state : GraphState) (completion : Completion)
  /-- The consumer closes the generator, or its task is cancelled. -/
  | close

def Execution.act (s : Execution C) (a : Action C) : Execution C :=
  { s with log := s.log ++ [⟨a, s.task.status, s.superseded⟩] }

def Execution.setStatus (s : Execution C) (status : TaskStatus) : Execution C :=
  { s with task := { s.task with status := status } }

def Execution.goto (s : Execution C) (p : Point) : Execution C := { s with point := p }

variable (args : Arguments)

/-- The entry of `execute`. -/
def start (task : Task) : Execution C :=
  let s : Execution C := { task := task, point := .awaitingChunk }
  if task.status ≠ .running then (s.act .running).setStatus .running else s

/-- `except Exception`. -/
def handleFailure (s : Execution C) (e : Failure) : Execution C :=
  if isStaleExecution s.task args.executionToken then s.goto .returned
  else if s.task.status = .completed then s.goto .returned
  else if s.task.status = .suspended then s.goto .returned
  else if s.task.status = .aborted then s.goto .returned
  else match e with
    | .wallTimeExceeded message => ((s.act (.abortTask message)).setStatus .aborted).goto .raised
    | .other message => ((s.act (.setError message)).setStatus .failed).goto .raised

/-- The chunk is delivered unless the token is stale. -/
def deliver (s : Execution C) (c : C) : Execution C :=
  if isStaleExecution s.task args.executionToken then s.goto .returned
  else (s.act (.yielded c)).goto .atYield

def afterYield (s : Execution C) : Execution C :=
  if isStaleExecution s.task args.executionToken then s.goto .returned
  else if s.task.status = .suspended then s.goto .returned
  else if s.task.status = .aborted then s.goto .returned
  else s.goto .awaitingChunk

def finalize (s : Execution C) : Execution C :=
  if isStaleExecution s.task args.executionToken then s.goto .returned
  else if s.task.status = .suspended then s.goto .returned
  else if s.task.status = .aborted then s.goto .returned
  else if s.task.status = .completed then s.goto .returned
  else s.goto .awaitingState

/-- `update_status(COMPLETED)` and the event. -/
def writeCompleted (s : Execution C) : Completion → Execution C
  | .written => (((s.act .completed).setStatus .completed).act .reported).goto .returned
  | .eventFails message =>
    handleFailure args (((s.act .completed).setStatus .completed).act .reported) (.other message)
  | .updateFails message => handleFailure args (s.act .completed) (.other message)

/-- After the final state read only the token and a completion by another
runner are looked at. -/
def complete (s : Execution C) (state : GraphState) (completion : Completion) : Execution C :=
  if hasTerminalOutput state = false then
    handleFailure args s (.other (formatNoTerminalError args.taskId state))
  else if isStaleExecution s.task args.executionToken then s.goto .returned
  else if s.task.status = .completed then s.goto .returned
  else writeCompleted args s completion

def wallTimeMessage (wallTime : ℕ) : String :=
  "task " ++ args.taskId ++ " wall-time exceeded after " ++ toString wallTime ++ "s"

def Point.waits (p : Point) : Bool := p ≠ .returned && p ≠ .raised

def step (s : Execution C) : Event C → Option (Execution C)
  | .setStatus status => if s.point.waits then some (s.setStatus status) else none
  | .supersede token =>
    if s.point.waits ∧ token ≠ args.executionToken then
      let task := { s.task with activeExecutionToken := token }
      some { s with task := task, superseded := isStaleExecution task args.executionToken }
    else none
  | .chunk c => if s.point = .awaitingChunk then some (deliver args s c) else none
  | .resume => if s.point = .atYield then some (afterYield args s) else none
  | .exhausted => if s.point = .awaitingChunk then some (finalize args s) else none
  | .fails message => if s.point = .awaitingChunk then some (handleFailure args s (.other message)) else none
  | .timesOut wallTime =>
    if s.point = .awaitingChunk then some (handleFailure args s (.wallTimeExceeded (wallTimeMessage args wallTime)))
    else none
  | .stateRead state completion =>
    if s.point = .awaitingState then some (complete args s state completion) else none
  | .close => if s.point.waits then some (s.goto .raised) else none

/-! ### Decided tasks -/

/-- A task another party has decided on. -/
def TaskStatus.decided (status : TaskStatus) : Bool :=
  status = .aborted || status = .suspended || status = .completed

def Action.concludes : Action C → Bool
  | .completed => true
  | .setError _ => true
  | _ => false

/-- Nothing is done once the execution is superseded, and neither a completion
nor an error is written over a decision. -/
def Record.Respects (r : Record C) : Prop :=
  r.superseded = false ∧ (r.action.concludes = true → r.status.decided = false)

instance (r : Record C) : Decidable r.Respects := inferInstanceAs (Decidable (_ ∧ _))

/-- When the final state read of an execution that is not stale brings a
terminal output, nobody has aborted or suspended the task. -/
def FinalReadUndecided (s : Execution C) : Event C → Prop
  | .stateRead state _ => hasTerminalOutput state = true → isStaleExecution s.task args.executionToken = false →
      s.task.status ≠ .aborted ∧ s.task.status ≠ .suspended
  | _ => True

/-- Whoever was superseded holds a stale token, and the log respects every
decision. -/
structure Respectful (s : Execution C) : Prop where
  stale : s.superseded = true → isStaleExecution s.task args.executionToken = true
  log : ∀ r ∈ s.log, r.Respects

section Steps

variable {args} {s : Execution C}

theorem eq_of_guard {α : Type*} {p : Prop} [Decidable p] {x y : α} (h : (if p then some x else none) = some y) :
    x = y := Option.some.inj (Option.ite_none_right_eq_some.mp h).2

theorem Respectful.goto (h : Respectful args s) (p : Point) : Respectful args (s.goto p) := ⟨h.stale, h.log⟩

/-- The token does not depend on the status. -/
theorem Respectful.setStatus (h : Respectful args s) (status : TaskStatus) :
    Respectful args (s.setStatus status) := ⟨h.stale, h.log⟩

/-- A yield or a write with a token that is not stale. -/
theorem Respectful.act (h : Respectful args s) (hcur : ¬isStaleExecution s.task args.executionToken = true)
    {a : Action C} (ha : a.concludes = true → s.task.status.decided = false) : Respectful args (s.act a) := by
  refine ⟨h.stale, fun r hr => ?_⟩
  rcases List.mem_append.mp hr with hr | hr
  · exact h.log r hr
  · rw [List.mem_singleton.mp hr]
    refine ⟨?_, ha⟩
    by_contra hsup
    exact hcur (h.stale (by simpa using hsup))

theorem start_respectful (task : Task) : Respectful args (start task : Execution C) := by
  have hempty : Respectful args ({ task := task, point := .awaitingChunk } : Execution C) :=
    ⟨fun h => Bool.noConfusion h, fun r hr => absurd hr List.not_mem_nil⟩
  unfold start
  dsimp only
  split
  · refine ⟨fun h => Bool.noConfusion h, fun r hr => ?_⟩
    rw [List.mem_singleton.mp hr]
    exact ⟨rfl, fun h => Bool.noConfusion h⟩
  · exact hempty

theorem handleFailure_respectful (h : Respectful args s) (e : Failure) : Respectful args (handleFailure args s e) := by
  unfold handleFailure
  split
  · exact h.goto _
  next hcur =>
  split
  · exact h.goto _
  next hcompleted =>
  split
  · exact h.goto _
  next hsuspended =>
  split
  · exact h.goto _
  next haborted =>
  have hundecided : s.task.status.decided = false := by simp [TaskStatus.decided, *]
  cases e with
  | wallTimeExceeded message => exact ((h.act hcur fun _ => hundecided).setStatus _).goto _
  | other message => exact ((h.act hcur fun _ => hundecided).setStatus _).goto _

theorem deliver_respectful (h : Respectful args s) (c : C) : Respectful args (deliver args s c) := by
  unfold deliver
  split
  · exact h.goto _
  · next hcur => exact (h.act hcur fun ha => Bool.noConfusion ha).goto _

theorem afterYield_respectful (h : Respectful args s) : Respectful args (afterYield args s) := by
  unfold afterYield
  split_ifs <;> exact h.goto _

theorem finalize_respectful (h : Respectful args s) : Respectful args (finalize args s) := by
  unfold finalize
  split_ifs <;> exact h.goto _

/-- The completion of a task nobody has decided on. -/
theorem writeCompleted_respectful (h : Respectful args s)
    (hcur : ¬isStaleExecution s.task args.executionToken = true) (hundecided : s.task.status.decided = false)
    (completion : Completion) : Respectful args (writeCompleted args s completion) := by
  have hcompleted : Respectful args (s.act .completed) := h.act hcur fun _ => hundecided
  have hreported : Respectful args (((s.act .completed).setStatus .completed).act .reported) :=
    (hcompleted.setStatus .completed).act hcur fun ha => Bool.noConfusion ha
  cases completion with
  | written => exact hreported.goto _
  | eventFails message => exact handleFailure_respectful hreported (.other message)
  | updateFails message => exact handleFailure_respectful hcompleted (.other message)

theorem complete_respectful (h : Respectful args s) {state : GraphState} {completion : Completion}
    (hfinal : FinalReadUndecided args s (.stateRead state completion)) :
    Respectful args (complete args s state completion) := by
  unfold complete
  split
  · exact handleFailure_respectful h _
  next hterminal =>
  split
  · exact h.goto _
  next hcur =>
  split
  · exact h.goto _
  next hcompleted =>
  obtain ⟨haborted, hsuspended⟩ := hfinal (by simpa using hterminal) (by simpa using hcur)
  exact writeCompleted_respectful h hcur (by simp [TaskStatus.decided, *]) completion

theorem step_respectful {s' : Execution C} {e : Event C} (h : Respectful args s) (hfinal : FinalReadUndecided args s e)
    (hstep : step args s e = some s') : Respectful args s' := by
  cases e with
  | setStatus status =>
    obtain rfl := eq_of_guard hstep
    exact h.setStatus status
  | supersede token =>
    obtain rfl := eq_of_guard hstep
    exact ⟨fun hstale => hstale, h.log⟩
  | chunk c =>
    obtain rfl := eq_of_guard hstep
    exact deliver_respectful h c
  | resume =>
    obtain rfl := eq_of_guard hstep
    exact afterYield_respectful h
  | exhausted =>
    obtain rfl := eq_of_guard hstep
    exact finalize_respectful h
  | fails message =>
    obtain rfl := eq_of_guard hstep
    exact handleFailure_respectful h _
  | timesOut wallTime =>
    obtain rfl := eq_of_guard hstep
    exact handleFailure_respectful h _
  | stateRead state completion =>
    obtain rfl := eq_of_guard hstep
    exact complete_respectful h hfinal
  | close =>
    obtain rfl := eq_of_guard hstep
    exact h.goto _

end Steps

/-- **Decided tasks are left alone**: in every run, whatever the stream brings
and whatever others do to the task at the waits, if nobody has aborted or
suspended it when the final state read returns, `execute` does nothing once it
is superseded and writes neither a completion nor an error over a decision. -/
theorem execute_respects {task : Task} {es : List (Event C)} {s : Execution C}
    (h : Runs.Trace (step args) (fun _ s e => FinalReadUndecided args s e) (start task) es s) :
    ∀ r ∈ s.log, r.Respects := by
  have hinv : Respectful args s := by
    refine Runs.Trace.invariant (I := fun _ s => Respectful args s) ?_ ?_ h
    · exact start_respectful task
    · exact fun _ s e s' hs hfinal hstep => step_respectful hs hfinal hstep
  exact hinv.log

/-- A runner with the token `r1` of a task in one phase, and what others do to
the task while the final state is read. -/
def onePhase (others : List (Event String)) : List (Event String) :=
  [.chunk "report", .resume, .exhausted] ++ others ++ [.stateRead { report := .text "done" } .written]

def owned : Task := { status := .created, activeExecutionToken := some "r1" }

def runner : Arguments := { taskId := "t", executionToken := some "r1" }

instance (s : Execution C) : ∀ e : Event C, Decidable (FinalReadUndecided args s e)
  | .stateRead _ _ => by unfold FinalReadUndecided; infer_instance
  | .setStatus _ => inferInstanceAs (Decidable True)
  | .supersede _ => inferInstanceAs (Decidable True)
  | .chunk _ => inferInstanceAs (Decidable True)
  | .resume => inferInstanceAs (Decidable True)
  | .exhausted => inferInstanceAs (Decidable True)
  | .fails _ => inferInstanceAs (Decidable True)
  | .timesOut _ => inferInstanceAs (Decidable True)
  | .close => inferInstanceAs (Decidable True)

theorem execute_respects_onePhase : ∃ s : Execution String,
    Runs.Trace (step runner) (fun _ s e => FinalReadUndecided runner s e) (start owned) (onePhase []) s ∧
      s.log.map (·.action) = [.running, .yielded "report", .completed, .reported] ∧ ∀ r ∈ s.log, r.Respects := by
  have hlog : (Runs.run (step runner) (start owned) (onePhase [])).map (fun s => s.log.map (·.action)) =
      some [.running, .yielded "report", .completed, .reported] := by decide
  obtain ⟨s, hrun, hacts⟩ := Option.map_eq_some_iff.mp hlog
  have htrace := Runs.Trace.of_run (p := fun _ s e => decide (FinalReadUndecided runner s e))
    (fun _ _ _ => of_decide_eq_true) (by decide) hrun
  exact ⟨s, htrace, hacts, execute_respects runner htrace⟩

/-- An abort while the final state is read is overwritten. -/
theorem completed_over_abort : ∃ s : Execution String,
    Runs.Trace (step runner) (fun _ _ _ => True) (start owned) (onePhase [.setStatus .aborted]) s ∧
      ⟨.completed, .aborted, false⟩ ∈ s.log ∧ ¬ ∀ r ∈ s.log, r.Respects := by
  have hlog : (Runs.run (step runner) (start owned) (onePhase [.setStatus .aborted])).map (fun s => s.log) =
      some [⟨.running, .created, false⟩, ⟨.yielded "report", .running, false⟩, ⟨.completed, .aborted, false⟩,
        ⟨.reported, .completed, false⟩] := by decide
  obtain ⟨s, hrun, heq⟩ := Option.map_eq_some_iff.mp hlog
  have htrace := Runs.Trace.of_run_any hrun
  have hmem : (⟨.completed, .aborted, false⟩ : Record String) ∈ s.log := by
    rw [heq]
    decide
  exact ⟨s, htrace, hmem, fun h => absurd (h _ hmem) (by decide)⟩

end Scheduling
end AgentCore
