/-
# Jobs and sessions of the bus

What `AgentBus` keeps of its jobs and sessions, and the changes its code makes
to them between two awaits. A job is known by the number its id ends in. The
asyncio task of a job is where `_run_and_finalize` stands (`Pc`) and whether
a cancellation has been asked for that it has not seen yet.

A session is known by a reference that stays good when `cleanup_task` drops it
from the bus, since the jobs of the session go on holding it; `listed` says
that the bus still has it. `dispatched` records, for the statements, the jobs
whose tasks a session has started.

Key definitions: `Pc`, `JobEntry`, `SubAgentSession`, `Board`, `busy`,
`dispatch`, `publish`, `leave`, `markAborted`, `purge`, `reconcile`.
-/
import AgentCore.AgentBus.Boundaries
import Mathlib.Logic.Function.Basic

namespace AgentCore
namespace AgentBus

inductive JobStatus
  | queued | submitted | running | completed | failed | aborted
  deriving DecidableEq, Repr

def JobStatus.isTerminal : JobStatus → Bool
  | .completed | .failed | .aborted => true
  | _ => false

/-- What a job reports, its texts and metadata left out. -/
structure SubAgentResult where
  success : Bool
  error : String := ""
  errorClass : String := ""
  /-- The number in its job id; none for an id of no job of the bus. -/
  jobId : Option ℕ := none
  deriving DecidableEq, Repr

/-- The status `_run_and_finalize` gives a job with this result. -/
def SubAgentResult.status (res : SubAgentResult) : JobStatus :=
  if res.error = "aborted" then .aborted else if res.success then .completed else .failed

/-- The status `_reconcile_terminal_session_jobs` gives it. -/
def SubAgentResult.reconciledStatus (res : SubAgentResult) : JobStatus :=
  if res.success then .completed else if res.errorClass = "CancelledError" then .aborted else .failed

/-- The result of a job that was cancelled. -/
def abortedResult (j : ℕ) : SubAgentResult :=
  { success := false, error := "aborted", errorClass := "CancelledError", jobId := some j }

/-- The result of a job whose task was cancelled before it could report. -/
def unpublishedResult (j : ℕ) : SubAgentResult :=
  { success := false, error := "sub-agent task was cancelled before publishing a report",
    errorClass := "CancelledError", jobId := some j }

/-- Where the asyncio task of a job stands: not yet started, at one of the
awaits of `_run_and_finalize`, or done. -/
inductive Pc
  | created
  /-- Waiting for a slot of the spawn guard. -/
  | slot
  /-- In `run_agent_loop` or `force_finalizer`. -/
  | loop
  /-- In `result_adapter`, the turns being absorbed. -/
  | adapter
  /-- In `_emit_session_task_completed`, the result message sent or not. -/
  | publishing (sent : Bool)
  /-- Writing the dropped messages to disk, with what is to be kept. -/
  | offloading (messages : History) (boundaries : List TaskBoundary)
  /-- Dispatching the next task, whose asyncio task exists. -/
  | draining (next : ℕ)
  /-- That dispatch has failed; waiting for the task it created to end. -/
  | undoing (next : ℕ)
  | finished
  deriving DecidableEq, Repr

structure JobTask where
  pc : Pc
  cancelRequested : Bool := false
  deriving DecidableEq, Repr

structure JobEntry where
  parentTaskId : String
  status : JobStatus
  result : Option SubAgentResult := none
  task : Option JobTask := none
  /-- The session of a session task. -/
  session : Option ℕ := none
  /-- Whom its result message addresses, if anybody. -/
  recipient : String := ""
  deriving DecidableEq, Repr

structure PendingSessionTask where
  jobId : ℕ
  taskPrompt : String
  recipient : String
  deriving DecidableEq, Repr

/-- A result on its way to a caller, with the job that made it. -/
structure Report where
  job : ℕ
  sessionId : String
  result : SubAgentResult
  deriving DecidableEq, Repr

structure SubAgentSession where
  sessionId : String
  taskId : String
  messages : History := []
  taskBoundaries : List TaskBoundary := []
  totalTaskCount : ℕ := 0
  currentJobId : Option ℕ := none
  pendingResults : List Report := []
  pendingTasks : List PendingSessionTask := []
  listed : Bool := true
  dispatched : List ℕ := []
  deriving DecidableEq, Repr

/-- The jobs and sessions of a bus: job numbers go up to `counter`, sessions
are those below `sessionCount`, in the order in which they were created. -/
structure Board where
  counter : ℕ := 0
  jobs : ℕ → Option JobEntry := fun _ => none
  sessionCount : ℕ := 0
  sessions : ℕ → SubAgentSession := fun _ => { sessionId := "", taskId := "", listed := false }

namespace Board

def updateJob (brd : Board) (j : ℕ) (f : JobEntry → JobEntry) : Board :=
  { brd with jobs := Function.update brd.jobs j ((brd.jobs j).map f) }

def setJob (brd : Board) (j : ℕ) (e : JobEntry) : Board :=
  { brd with jobs := Function.update brd.jobs j (some e) }

def updateSession (brd : Board) (r : ℕ) (f : SubAgentSession → SubAgentSession) : Board :=
  { brd with sessions := Function.update brd.sessions r (f (brd.sessions r)) }

def status (brd : Board) (j : ℕ) : Option JobStatus := (brd.jobs j).map (·.status)

def pc (brd : Board) (j : ℕ) : Option Pc := (brd.jobs j).bind fun e => e.task.map (·.pc)

/-- `entry.task.done()`. -/
def done (brd : Board) (j : ℕ) : Bool := brd.pc j == some .finished

def terminal (brd : Board) (j : ℕ) : Bool := (brd.status j).any (·.isTerminal)

/-- The session runs a task: its current job is submitted or running. -/
def busy (brd : Board) (r : ℕ) : Bool :=
  (brd.sessions r).currentJobId.any fun j =>
    brd.status j == some .submitted || brd.status j == some .running

/-! ### The tasks of jobs -/

/-- The task has come to its next await; a cancellation it has seen is over. -/
def setPc (brd : Board) (j : ℕ) (pc : Pc) : Board :=
  brd.updateJob j fun e => { e with task := some { pc } }

/-- `task.cancel()` as far as the task itself is concerned. -/
def requestCancel (brd : Board) (j : ℕ) : Board :=
  brd.updateJob j fun e => { e with task := e.task.map fun t => { t with cancelRequested := true } }

/-- The job has its slot. -/
def beginRun (brd : Board) (j : ℕ) : Board :=
  brd.updateJob j fun e => { e with status := .running, task := some { pc := .loop } }

/-- The result of a job of `submit`. -/
def conclude (brd : Board) (j : ℕ) (res : SubAgentResult) : Board :=
  brd.updateJob j fun e =>
    { e with status := res.status, result := some res, task := some { pc := .finished } }

def markSent (brd : Board) (j : ℕ) : Board :=
  brd.updateJob j fun e => { e with task := e.task.map fun t => { t with pc := .publishing true } }

/-! ### Boundaries -/

def setHistory (brd : Board) (r : ℕ) (h : History × List TaskBoundary) : Board :=
  brd.updateSession r fun s => { s with messages := h.1, taskBoundaries := h.2 }

def closeAborted (brd : Board) (r : ℕ) : Board :=
  brd.setHistory r (closeSessionBoundaryAborted (brd.sessions r).messages (brd.sessions r).taskBoundaries)

/-- The turns of a loop that returned, behind the session's messages. -/
def extend (brd : Board) (r : ℕ) (newTurns : History) : Board :=
  brd.updateSession r fun s => { s with messages := s.messages ++ newTurns }

/-! ### The life of a session task -/

def createSession (brd : Board) (sessionId taskId : String) : Board :=
  { brd with
    sessionCount := brd.sessionCount + 1
    sessions := Function.update brd.sessions brd.sessionCount { sessionId, taskId } }

/-- A job id is taken. -/
def tick (brd : Board) : Board := { brd with counter := brd.counter + 1 }

/-- A job of `submit`. -/
def addJob (brd : Board) (j : ℕ) (parentTaskId : String) : Board :=
  brd.setJob j { parentTaskId, status := .submitted, task := some { pc := .created } }

def setPending (brd : Board) (r : ℕ) (ps : List PendingSessionTask) : Board :=
  brd.updateSession r fun s => { s with pendingTasks := ps }

/-- The task is parked behind the running one. -/
def enqueue (brd : Board) (r : ℕ) (p : PendingSessionTask) : Board :=
  (brd.updateSession r fun s => { s with pendingTasks := s.pendingTasks ++ [p] }).setJob p.jobId
    { parentTaskId := (brd.sessions r).taskId, status := .queued, session := some r, recipient := p.recipient }

/-- The job entry of a task that is dispatched: the one it was parked with, or
a new one. -/
def dispatchEntry (brd : Board) (r : ℕ) (p : PendingSessionTask) : JobEntry :=
  match brd.jobs p.jobId with
  | some e => { e with status := .submitted, task := some { pc := .created } }
  | none => { parentTaskId := (brd.sessions r).taskId, status := .submitted, task := some { pc := .created },
              session := some r, recipient := p.recipient }

/-- `_dispatch_session_task_inner` up to its first await. -/
def dispatch (brd : Board) (r : ℕ) (p : PendingSessionTask) : Board :=
  (brd.updateSession r fun s =>
    { s with
      totalTaskCount := s.totalTaskCount + 1
      messages := s.messages ++ [userMsg p.taskPrompt]
      taskBoundaries := s.taskBoundaries ++ [(s.messages.length, none)]
      currentJobId := some p.jobId
      dispatched := s.dispatched ++ [p.jobId] }).setJob p.jobId (brd.dispatchEntry r p)

/-- What `_drain_session_queue` finds to dispatch: the tasks behind those
aborted while they were parked. -/
def waiting (brd : Board) (r : ℕ) : List PendingSessionTask :=
  (brd.sessions r).pendingTasks.dropWhile fun p => brd.status p.jobId == some .aborted

/-- The job has its result, which waits in the session for a caller. -/
def publish (brd : Board) (j r : ℕ) (res : SubAgentResult) : Board :=
  (brd.updateJob j fun e =>
    { e with status := res.status, result := some res,
             task := some { pc := .publishing false } }).updateSession r fun s =>
    { s with pendingResults := s.pendingResults ++ [⟨j, s.sessionId, res⟩] }

def clearCurrent (brd : Board) (r j : ℕ) : Board :=
  brd.updateSession r fun s => { s with currentJobId := if s.currentJobId = some j then none else s.currentJobId }

/-- The `finally` of `_run_and_finalize` up to the trim. -/
def leave (brd : Board) (j r : ℕ) (pc : Pc) : Board := (brd.clearCurrent r j).setPc j pc

/-! ### Cancellation -/

def markAborted (brd : Board) (j : ℕ) : Board :=
  brd.updateJob j fun e =>
    if e.status.isTerminal then e
    else { e with status := .aborted, result := e.result <|> some (abortedResult j) }

/-- `_purge_queued_job`: out of the first listed session that has it queued. -/
def purge (brd : Board) (j : ℕ) : Board :=
  match (List.range brd.sessionCount).find? fun r =>
      (brd.sessions r).listed && (brd.sessions r).pendingTasks.any fun p => p.jobId == j with
  | none => brd
  | some r => brd.setPending r ((brd.sessions r).pendingTasks.filter fun p => p.jobId ≠ j)

/-- What a failed dispatch does once the task it created is done. -/
def undo (brd : Board) (r j : ℕ) : Board :=
  (if brd.terminal j then brd else (brd.closeAborted r).markAborted j).clearCurrent r j

/-- The end of `abort` when the task is done: a result that was a success makes
the job completed. -/
def confirm (brd : Board) (j : ℕ) : Board :=
  brd.updateJob j fun e => { e with status := .completed }

def dropResults (brd : Board) (r : ℕ) (reports : List Report) : Board :=
  brd.updateSession r fun s => { s with pendingResults := reports }

def unlist (brd : Board) (r : ℕ) : Board := brd.updateSession r fun s => { s with listed := false }

/-- `session.pending_tasks` emptied by `cleanup_task`. -/
def abortPending (brd : Board) (r : ℕ) : Board :=
  ((brd.sessions r).pendingTasks.foldl (fun brd p => brd.markAborted p.jobId) brd).setPending r []

/-! ### Reconciliation -/

/-- What `_reconcile_terminal_session_jobs` does about the current job of a
session whose task is done. -/
def reconcile (brd : Board) (r j : ℕ) (e : JobEntry) : Board :=
  let res := e.result.getD (unpublishedResult j)
  let brd := if e.result.isSome then brd else brd.closeAborted r
  (brd.updateJob j fun e => { e with result := some res, status := res.reconciledStatus }).updateSession r
    fun s =>
      { s with
        pendingResults :=
          if s.pendingResults.any fun rep => rep.result.jobId == some j then s.pendingResults
          else s.pendingResults ++ [⟨j, s.sessionId, res⟩]
        currentJobId := none }

end Board
end AgentBus
end AgentCore
