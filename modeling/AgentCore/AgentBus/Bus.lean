/-
# The agent bus

`AgentBus` of `bus.py` as a system of events. Code between two awaits runs
undisturbed, so an event is one such stretch: of a job's own task, or of a call
into the bus that has not returned yet (`Call`). Whatever the surroundings may
do is in the event: how the loop or the adapter of a job ends, whether the
session's trimmer or an event sink raises, how much of the message log a read
sees.

Awaiting a task forwards a cancellation to it, so cancelling a task that waits
for another one cancels the other (`cancelTask`), and a call that is cancelled
while it waits for a job's task cancels that (`interrupt`). `cleanup_task`
stops waiting for a task that is not done only when it is itself cancelled
with no time left (`cleanGivesUp`).

`handed` records the results that callers of `wait_any_session_detailed` have
been given.

Key definitions: `Exchange`, `Call`, `Bus`, `drainQueue`, `finishJob`,
`cancelTask`, `abort`, `cancelForParent`, `cleanNext`, `waitDrain`,
`reconcileFromMessages`, `Event`, `System.step`.
-/
import AgentCore.AgentBus.Board
import AgentCore.AgentBus.SpawnGuard
import Mathlib.Data.List.Sort

namespace AgentCore
namespace AgentBus

/-- A `subtask_result` message of the log. -/
structure ResultMessage where
  taskId : String
  toAgent : String
  job : ℕ
  sessionId : String
  result : SubAgentResult
  deriving DecidableEq, Repr

/-- How results reach callers outside of `pending_results`. Delivered sets and
buffers of recovered results are objects that a call may hold while the bus
forgets them, so the bus keeps references to them. -/
structure Exchange where
  delivered : String → Option ℕ := fun _ => none
  recovered : String → Option ℕ := fun _ => none
  sets : ℕ → List ℕ := fun _ => []
  buffers : ℕ → List Report := fun _ => []
  refs : ℕ := 0
  recipients : String → List String := fun _ => []
  /-- The message log; the ordinal of a message is one more than its index. -/
  store : List ResultMessage := []
  /-- Cursors by agent and task. -/
  cursors : String × String → ℕ := fun _ => 0
  handed : List (String × ℕ) := []

/-- A call into the bus that has not returned, at the await it is at. -/
inductive Call
  /-- `submit_task_to_session` in the dispatch of its task. -/
  | submitting (j : ℕ)
  /-- A dispatch that has failed, waiting for the task it created. -/
  | undoing (j : ℕ)
  | aborting (j : ℕ)
  | cancelling (j : ℕ) (rest : List ℕ)
  | cleaning (taskId sid : String) (r j : ℕ) (rest : List String)
  /-- `wait_any_session_detailed` in a dispatch of its reconciliation, before
  or after its wait. -/
  | draining (taskId : String) (again : Bool) (next : ℕ) (rest : List ℕ)
  | waiting (taskId : String) (jobs : List ℕ)
  | discovering (taskId : String)
  | consuming (taskId : String) (delivered buffer : ℕ) (agent : String) (rest : List String) (afterId : ℕ)
  deriving DecidableEq, Repr

structure Bus extends Board, Exchange where
  historyDir : Bool
  comm : Bool
  guard : Option SpawnGuard

/-- A bus and the calls that are under way in it. -/
structure System where
  bus : Bus
  calls : ℕ → Option Call := fun _ => none
  callCount : ℕ := 0

namespace Bus

def jobId (taskId : String) (j : ℕ) : String := taskId ++ ".job." ++ toString j

def setBoard (b : Bus) (brd : Board) : Bus := { b with toBoard := brd }

def release (b : Bus) (taskId : String) (j : ℕ) : Bus :=
  { b with guard := b.guard.map fun g => g.release (jobId taskId j) 0 }

def releaseJob (b : Bus) (j : ℕ) : Bus :=
  match b.jobs j with
  | none => b
  | some e => b.release e.parentTaskId j

def markJobAborted (b : Bus) (j : ℕ) : Bus := (b.releaseJob j).setBoard (b.markAborted j)

/-- `if entry.status not in ("completed", "failed", "aborted")`, as it stands
in front of `_mark_job_aborted`. -/
def markUnlessTerminal (b : Bus) (j : ℕ) : Bus := if b.terminal j then b else b.markJobAborted j

def purgeQueuedJob (b : Bus) (j : ℕ) : Bus :=
  let purged := b.setBoard (b.purge j)
  if (List.range b.sessionCount).any fun r =>
      (b.sessions r).listed && (b.sessions r).pendingTasks.any fun p => p.jobId == j
  then purged.releaseJob j else purged

/-! ### Dispatching -/

def noteResultRecipient (b : Bus) (taskId recipient : String) : Bus :=
  if recipient = "" ∨ recipient ∈ b.recipients taskId then b
  else { b with recipients := Function.update b.recipients taskId (recipient :: b.recipients taskId) }

def dispatchTask (b : Bus) (r : ℕ) (p : PendingSessionTask) : Bus :=
  (b.setBoard (b.dispatch r p)).noteResultRecipient (b.sessions r).taskId p.recipient

/-- How `_drain_session_queue` comes out at its first await. -/
inductive Drained
  | nothing
  | raised
  | dispatched (next : ℕ)

/-- `_drain_session_queue`; `trimRaises` when the session's trimmer raises. -/
def drainQueue (b : Bus) (r : ℕ) (trimRaises : Bool) : Bus × Drained :=
  match b.waiting r with
  | [] => (b.setBoard (b.setPending r []), .nothing)
  | p :: rest =>
    let popped := b.setBoard (b.setPending r rest)
    if trimRaises then (popped.release (b.sessions r).taskId p.jobId, .raised)
    else (popped.dispatchTask r p, .dispatched p.jobId)

/-- The reservation of the spawn guard, none when it refuses. -/
def preCheck (b : Bus) (taskId : String) (j : ℕ) (depth estimatedTokens : ℤ) : Option Bus :=
  match b.guard with
  | none => some b
  | some g =>
    match g.preCheck (jobId taskId j) depth estimatedTokens with
    | .error _ => none
    | .ok g => some { b with guard := some g }

/-- `submit` up to the creation of the job's task; the depth is that of the
new job. -/
def submit (b : Bus) (parentTaskId : String) (depth estimatedTokens : ℤ) : Bus :=
  let j := b.counter + 1
  let b := b.setBoard b.tick
  match b.preCheck parentTaskId j depth estimatedTokens with
  | none => b
  | some b => b.setBoard (b.addJob j parentTaskId)

/-- `submit_task_to_session` up to its first await. -/
def submitTask (b : Bus) (r : ℕ) (prompt recipient : String) (estimatedTokens : ℤ) (trimRaises : Bool) :
    Bus × Option Call :=
  let taskId := (b.sessions r).taskId
  let p : PendingSessionTask := { jobId := b.counter + 1, taskPrompt := prompt, recipient }
  let b := b.setBoard b.tick
  match b.preCheck taskId p.jobId 1 estimatedTokens with
  | none => (b, none)
  | some b =>
    if b.busy r then (b.setBoard (b.enqueue r p), none)
    else if trimRaises then (b.release taskId p.jobId, none)
    else (b.dispatchTask r p, some (.submitting p.jobId))

/-! ### Cancelling tasks -/

/-- `task.cancel()`; the fuel is for tasks that wait for others. -/
def cancelTask : ℕ → Bus → ℕ → Bus
  | 0, b, _ => b
  | fuel + 1, b, j =>
    match b.pc j with
    | none => b
    | some .finished => b
    | some (.undoing next) => cancelTask fuel b next
    | some .slot =>
      let parent := ((b.jobs j).map (·.parentTaskId)).getD ""
      { b.setBoard (b.requestCancel j) with guard := b.guard.map (·.cancelSlot ⟨j, jobId parent j⟩) }
    | some _ => b.setBoard (b.requestCancel j)

def cancel (b : Bus) (j : ℕ) : Bus := cancelTask (b.counter + 1) b j

/-- A failed dispatch at its end. -/
def undoDispatch (b : Bus) (r j : ℕ) : Bus := (b.releaseJob j).setBoard (b.undo r j)

/-- The session a job runs in. -/
def home (b : Bus) (j : ℕ) : ℕ := ((b.jobs j).bind (·.session)).getD 0

/-- A dispatch that fails after the task was created, in a call. -/
def failDispatch (b : Bus) (j : ℕ) : Bus × Option Call :=
  if b.done j then (b.undoDispatch (b.home j) j, none) else (b.cancel j, some (.undoing j))

/-! ### The steps of a job's task -/

/-- `guard.acquire_slot`, with or without a wait. -/
def acquireSlot (b : Bus) (j : ℕ) (parent : String) : Bus :=
  match b.guard with
  | none => b.setBoard (b.beginRun j)
  | some g =>
    let a : Acquisition := ⟨j, jobId parent j⟩
    let b : Bus := { b with guard := some (g.acquireSlot a) }
    if (g.semaphore.acquire a).2 then b.setBoard (b.beginRun j) else b.setBoard (b.setPc j .slot)

/-- Whether the wait for a slot is over, and with a permit. -/
def slotGranted (b : Bus) (j : ℕ) (parent : String) : Option Bool :=
  b.guard.bind fun g => (g.semaphore.resume ⟨j, jobId parent j⟩).map (·.2)

def resumeSlot (b : Bus) (j : ℕ) (parent : String) : Bus :=
  { b with guard := b.guard.map fun g => (g.resumeSlot ⟨j, jobId parent j⟩).getD g }

/-- An exception that `_run` turns into a result. -/
inductive Ending
  | cancelled
  | timedOut
  | raised (error errorClass : String)
  deriving DecidableEq, Repr

def Ending.result (j : ℕ) : Ending → SubAgentResult
  | .cancelled => abortedResult j
  | .timedOut => { success := false, error := "timeout", errorClass := "TimeoutError", jobId := some j }
  | .raised error errorClass => { success := false, error, errorClass, jobId := some j }

inductive LoopOutcome
  | returned (newTurns : History) (finalContent stoppedBy : String)
  | ended (e : Ending)
  deriving DecidableEq, Repr

inductive AdapterOutcome
  | returned (res : SubAgentResult)
  | ended (e : Ending)
  deriving DecidableEq, Repr

def AdapterOutcome.result (j : ℕ) : AdapterOutcome → SubAgentResult
  | .returned res => res
  | .ended e => e.result j

/-- From the end of the loop to the next await. -/
def loopEnds (b : Bus) (j r : ℕ) : LoopOutcome → Bus
  | .ended e => b.setBoard ((b.closeAborted r).publish j r (e.result j))
  | .returned newTurns finalContent stoppedBy =>
    let brd := b.extend r newTurns
    match closeBoundary (brd.sessions r).messages (brd.sessions r).taskBoundaries (Text.strip finalContent)
        stoppedBy with
    | some h => b.setBoard ((brd.setHistory r h).setPc j .adapter)
    | none =>
      b.setBoard ((brd.closeAborted r).publish j r ((Ending.raised "list index out of range" "IndexError").result j))

def adapterEnds (b : Bus) (j r : ℕ) : AdapterOutcome → Bus
  | .returned res => b.setBoard (b.publish j r res)
  | .ended e => b.setBoard ((b.closeAborted r).publish j r (e.result j))

/-- The queue is drained by a job that has left its session. -/
def handOn (b : Bus) (j r : ℕ) (trimRaises : Bool) : Bus :=
  match b.drainQueue r trimRaises with
  | (b, .dispatched next) => b.setBoard (b.setPc j (.draining next))
  | (b, _) => b

/-- The `finally` of `_run_and_finalize` up to its first await. -/
def finishJob (b : Bus) (j r : ℕ) (trimRaises : Bool) : Bus :=
  let s := b.sessions r
  let b := b.releaseJob j
  match trimAndRemapBoundaries s.messages s.taskBoundaries with
  | none => (b.setBoard (b.leave j r .finished)).handOn j r trimRaises
  | some h =>
    if b.historyDir then b.setBoard (b.leave j r (.offloading h.1 h.2))
    else (b.setBoard ((b.leave j r .finished).setHistory r h)).handOn j r trimRaises

/-- From the end of the offload on; it raised when `ok` is false. -/
def offloaded (b : Bus) (j r : ℕ) (h : History × List TaskBoundary) (ok trimRaises : Bool) : Bus :=
  let brd := b.setPc j .finished
  (b.setBoard (if ok then brd.setHistory r h else brd)).handOn j r trimRaises

/-- The dispatch of the next task has failed. -/
def drainFails (b : Bus) (j r next : ℕ) : Bus :=
  if b.done next then (b.undoDispatch r next).setBoard ((b.undo r next).setPc j .finished)
  else
    let b := b.cancel next
    b.setBoard (b.setPc j (.undoing next))

/-! ### Abort and cancellation -/

/-- `abort` from the end of the task on. -/
def abortEnds (b : Bus) (j : ℕ) : Bus :=
  match b.jobs j with
  | none => b
  | some e =>
    if e.result.any (·.success) then b.setBoard (b.confirm j)
    else if e.status = .completed ∨ e.status = .failed then b
    else b.markJobAborted j

def abort (b : Bus) (j : ℕ) : Bus × Option Call :=
  match b.jobs j with
  | none => (b, none)
  | some e =>
    if e.status.isTerminal then (b, none)
    else if e.status = .queued ∨ e.task = none then ((b.purgeQueuedJob j).markJobAborted j, none)
    else if b.done j then (b.abortEnds j, none)
    else (b.cancel j, some (.aborting j))

/-- The second pass of `cancel_for_parent`. -/
def cancelNext : Bus → List ℕ → Bus × Option Call
  | b, [] => (b, none)
  | b, j :: rest =>
    if b.terminal j ∨ b.pc j = none then cancelNext b rest
    else if b.done j then cancelNext (b.markJobAborted j) rest
    else (b.cancel j, some (.cancelling j rest))

/-- Queued, or without a task. -/
def parked (b : Bus) (j : ℕ) : Bool := b.status j == some .queued || b.pc j == none

def cancelForParent (b : Bus) (taskId : String) : Bus × Option Call :=
  let mine := (List.range (b.counter + 1)).filter fun j =>
    (b.jobs j).any fun e => e.parentTaskId == taskId && !e.status.isTerminal
  let b := mine.foldl (fun b j => if b.parked j then (b.purgeQueuedJob j).markJobAborted j else b) b
  b.cancelNext mine

/-! ### Cleanup -/

/-- The session listed under an id. -/
def find (b : Bus) (sid : String) : Option ℕ :=
  (List.range b.sessionCount).find? fun r => (b.sessions r).listed && (b.sessions r).sessionId == sid

def rescue (b : Bus) (r : ℕ) : Bus := b.setBoard (b.dropResults r [])

/-- `_mark_job_aborted` of each task that is queued. -/
def abortQueue (b : Bus) (r : ℕ) : Bus :=
  ((b.sessions r).pendingTasks.foldl (fun b p => b.releaseJob p.jobId) b).setBoard (b.abortPending r)

/-- What a task's maps are dropped with. -/
def forget (b : Bus) (taskId : String) : Bus :=
  { b with
    delivered := Function.update b.delivered taskId none
    recipients := Function.update b.recipients taskId []
    recovered := Function.update b.recovered taskId none }

def dropSession (b : Bus) (r : ℕ) : Bus := b.setBoard ((b.dropResults r []).unlist r)

/-- `cleanup_task` over the session ids it has still to look at. -/
def cleanNext : Bus → String → List String → Bus × Option Call
  | b, taskId, [] => (b.forget taskId, none)
  | b, taskId, sid :: rest =>
    match b.find sid with
    | none => cleanNext b taskId rest
    | some r =>
      if (b.sessions r).taskId ≠ taskId then cleanNext b taskId rest
      else
        let b := (b.rescue r).abortQueue r
        match (b.sessions r).currentJobId with
        | none => cleanNext (b.dropSession r) taskId rest
        | some j =>
          if b.busy r && b.pc j != none && !b.done j then (b.cancel j, some (.cleaning taskId sid r j rest))
          else cleanNext ((b.markUnlessTerminal j).dropSession r) taskId rest

def cleanupTask (b : Bus) (taskId : String) : Bus × Option Call :=
  b.cleanNext taskId (((List.range b.sessionCount).filter fun r => (b.sessions r).listed).map fun r =>
    (b.sessions r).sessionId)

/-- `cleanup_task` after its wait for a task; deleting a session that is gone
raises. -/
def cleanEnds (b : Bus) (taskId sid : String) (r j : ℕ) (rest : List String) : Bus × Option Call :=
  let b := (b.markUnlessTerminal j).rescue r
  match b.find sid with
  | none => (b, none)
  | some r' => (b.setBoard (b.unlist r')).cleanNext taskId rest

/-! ### Handing out results -/

def markDelivered (b : Bus) (taskId : String) (j : ℕ) : Bus :=
  match b.delivered taskId with
  | some ref => { b with sets := Function.update b.sets ref (j :: b.sets ref) }
  | none =>
    { b with
      delivered := Function.update b.delivered taskId (some b.refs)
      sets := Function.update b.sets b.refs [j]
      refs := b.refs + 1 }

def popReadyResult (b : Bus) (taskId : String) : Option Bus :=
  match (List.range b.sessionCount).find? fun r =>
      (b.sessions r).listed && (b.sessions r).taskId == taskId && !(b.sessions r).pendingResults.isEmpty with
  | none => none
  | some r =>
    match (b.sessions r).pendingResults with
    | [] => none
    | rep :: rest =>
      let b := b.setBoard (b.dropResults r rest)
      let b := match rep.result.jobId with
        | none => b
        | some j => b.markDelivered taskId j
      some { b with handed := b.handed ++ [(taskId, rep.job)] }

/-- The next recovered result of a buffer. -/
def popBuffer (b : Bus) (taskId : String) (buffer : ℕ) : Option Bus :=
  match b.buffers buffer with
  | [] => none
  | rep :: rest =>
    some { b with
      buffers := Function.update b.buffers buffer rest
      handed := b.handed ++ [(taskId, rep.job)] }

/-- `comm.consume` for the next agent, or the end of the loop over agents. -/
def consumeNext (b : Bus) (taskId : String) (delivered buffer : ℕ) : List String → Bus × Option Call
  | [] => ((b.popBuffer taskId buffer).getD b, none)
  | agent :: rest => (b, some (.consuming taskId delivered buffer agent rest (b.cursors (agent, taskId))))

/-- The objects `_reconcile_from_messages` works with, and its first read. -/
def beginConsume (b : Bus) (taskId : String) (agents : List String) : Bus × Option Call :=
  let view := b.delivered taskId
  let delivered := view.getD b.refs
  let b := if view.isSome then b else { b with refs := b.refs + 1 }
  match b.recovered taskId with
  | some buffer => b.consumeNext taskId delivered buffer (agents.insertionSort (· ≤ ·))
  | none =>
    let buffer := b.refs
    let b : Bus := { b with recovered := Function.update b.recovered taskId (some buffer), refs := b.refs + 1 }
    b.consumeNext taskId delivered buffer (agents.insertionSort (· ≤ ·))

/-- `_reconcile_from_messages` up to its first await. -/
def reconcileFromMessages (b : Bus) (taskId : String) : Bus × Option Call :=
  match (b.recovered taskId).bind fun buffer => b.popBuffer taskId buffer with
  | some b => (b, none)
  | none =>
    if !b.comm then (b, none)
    else if b.recipients taskId = [] then (b, some (.discovering taskId))
    else b.beginConsume taskId (b.recipients taskId)

/-- The recipients the log names, `seen` messages of it having been read. -/
def loggedRecipients (b : Bus) (taskId : String) (seen : ℕ) : List String :=
  Text.fromKeys (((b.store.take seen).filter fun m => m.taskId == taskId && m.toAgent != "").map (·.toAgent))

def discovered (b : Bus) (taskId : String) (seen : ℕ) : Bus × Option Call :=
  match b.loggedRecipients taskId seen with
  | [] => (b, none)
  | found =>
    let known := found ++ (b.recipients taskId).filter fun a => a ∉ found
    beginConsume { b with recipients := Function.update b.recipients taskId known } taskId found

/-- The messages a read finds, with their ordinals: those to an agent and task
behind the cursor, fifty at most. -/
def batch (b : Bus) (taskId agent : String) (afterId seen : ℕ) : List (ResultMessage × ℕ) :=
  (((b.store.take seen).zipIdx 1).filter fun m =>
    afterId < m.2 && m.1.toAgent == agent && m.1.taskId == taskId).take 50

/-- One message of a batch: buffered unless its job is in the set of delivered
ones, which is then looked up again. -/
def takeMessage (taskId : String) (buffer : ℕ) (acc : Bus × ℕ) (m : ResultMessage) : Bus × ℕ :=
  let (b, delivered) := acc
  if m.job ∈ b.sets delivered then (b, delivered)
  else
    let b := b.markDelivered taskId m.job
    let report : Report := { job := m.job, sessionId := m.sessionId, result := m.result }
    ({ b with buffers := Function.update b.buffers buffer (b.buffers buffer ++ [report]) },
      (b.delivered taskId).getD delivered)

def consumed (b : Bus) (taskId : String) (delivered buffer : ℕ) (agent : String) (rest : List String)
    (afterId seen : ℕ) : Bus × Option Call :=
  let events := b.batch taskId agent afterId seen
  let b : Bus := match events.getLast? with
    | none => b
    | some m => { b with cursors := Function.update b.cursors (agent, taskId) m.2 }
  let (b, delivered) := (events.map (·.1)).foldl (takeMessage taskId buffer) (b, delivered)
  b.consumeNext taskId delivered buffer rest

/-! ### Waiting for any session -/

/-- `_reconcile_terminal_session_jobs` for one session; the sessions to drain
are collected. -/
def reconcileSession (taskId : String) (acc : Bus × List ℕ) (r : ℕ) : Bus × List ℕ :=
  let (b, drains) := acc
  if (b.sessions r).listed && (b.sessions r).taskId == taskId then
    match (b.sessions r).currentJobId with
    | none => acc
    | some j =>
      match b.jobs j with
      | none => acc
      | some e =>
        if b.done j then (((b.setBoard (b.reconcile r j e)).release e.parentTaskId j), drains ++ [r]) else acc
  else acc

def reconcileTerminal (b : Bus) (taskId : String) : Bus × List ℕ :=
  (List.range b.sessionCount).foldl (reconcileSession taskId) (b, [])

/-- The jobs `wait_any_session_detailed` waits for. -/
def waitable (b : Bus) (taskId : String) : List ℕ :=
  (List.range b.sessionCount).filterMap fun r =>
    if (b.sessions r).listed && (b.sessions r).taskId == taskId && b.busy r then
      (b.sessions r).currentJobId.filter fun j => b.pc j != none && !b.done j
    else none

/-- `wait_any_session_detailed` behind a reconciliation of jobs. -/
def waitRest (b : Bus) (taskId : String) (again : Bool) : Bus × Option Call :=
  match b.popReadyResult taskId with
  | some b => (b, none)
  | none =>
    if again then b.reconcileFromMessages taskId
    else
      match b.waitable taskId with
      | [] => b.reconcileFromMessages taskId
      | jobs => (b, some (.waiting taskId jobs))

/-- The drains of a reconciliation of jobs, and what comes behind it. -/
def waitDrain (taskId : String) (again trimRaises : Bool) : Bus → List ℕ → Bus × Option Call
  | b, [] => b.waitRest taskId again
  | b, r :: rest =>
    match b.drainQueue r trimRaises with
    | (b, .nothing) => waitDrain taskId again trimRaises b rest
    | (b, .raised) => (b, none)
    | (b, .dispatched next) => (b, some (.draining taskId again next rest))

def waitReconciled (b : Bus) (taskId : String) (again trimRaises : Bool) : Bus × Option Call :=
  let (b, drains) := b.reconcileTerminal taskId
  waitDrain taskId again trimRaises b drains

def waitAny (b : Bus) (taskId : String) (trimRaises : Bool) : Bus × Option Call :=
  match b.popReadyResult taskId with
  | some b => (b, none)
  | none => b.waitReconciled taskId false trimRaises

/-! ### Events -/

inductive Event
  | createSession (taskId name : String)
  | submit (parentTaskId : String) (depth estimatedTokens : ℤ)
  | submitTaskToSession (r : ℕ) (prompt recipient : String) (estimatedTokens : ℤ) (trimRaises : Bool)
  /-- Steps of a job's task. -/
  | start (j : ℕ)
  | resumeSlot (j : ℕ)
  | runEnds (j : ℕ) (o : AdapterOutcome)
  | loopEnds (j : ℕ) (o : LoopOutcome)
  | adapterEnds (j : ℕ) (o : AdapterOutcome)
  | send (j : ℕ)
  | published (j : ℕ) (trimRaises : Bool)
  | offloaded (j : ℕ) (ok trimRaises : Bool)
  | drainEnds (j : ℕ)
  | drainFails (j : ℕ)
  | undone (j : ℕ)
  /-- Calls. -/
  | abort (j : ℕ)
  | cancelForParent (taskId : String)
  | cleanupTask (taskId : String)
  | waitAny (taskId : String) (trimRaises : Bool)
  /-- Steps of the call with this number. -/
  | submitEnds (i : ℕ)
  | submitFails (i : ℕ)
  | undoEnds (i : ℕ)
  | abortEnds (i : ℕ)
  | cancelEnds (i : ℕ)
  | cleanEnds (i : ℕ)
  | cleanGivesUp (i : ℕ)
  | waitDrainEnds (i : ℕ) (trimRaises : Bool)
  | waitDrainFails (i : ℕ)
  | waitEnds (i : ℕ) (trimRaises : Bool)
  | waitTimesOut (i : ℕ)
  | discovered (i seen : ℕ)
  | consumed (i seen : ℕ)
  | consumeFails (i : ℕ)
  | interrupt (i : ℕ)
  deriving DecidableEq, Repr

/-- A step of a job's own task. -/
def stepJob (b : Bus) (j : ℕ) (e : JobEntry) (t : JobTask) : Event → Option Bus
  | .start _ =>
    if t.pc = .created then
      if t.cancelRequested then some (b.setBoard (b.setPc j .finished))
      else some (b.acquireSlot j e.parentTaskId)
    else none
  | .resumeSlot _ =>
    if t.pc = .slot then
      (b.slotGranted j e.parentTaskId).map fun granted =>
        let b := b.resumeSlot j e.parentTaskId
        b.setBoard (if granted then b.beginRun j else b.setPc j .finished)
    else none
  | .runEnds _ o =>
    if t.pc = .loop ∧ e.session = none then some ((b.releaseJob j).setBoard (b.conclude j (o.result j))) else none
  | .loopEnds _ o =>
    if t.pc = .loop then e.session.map fun r => b.loopEnds j r o else none
  | .adapterEnds _ o =>
    if t.pc = .adapter then e.session.map fun r => b.adapterEnds j r o else none
  | .send _ =>
    if t.pc = .publishing false ∧ b.comm = true ∧ e.recipient ≠ "" then
      match e.session, e.result with
      | some r, some res =>
        some { b.setBoard (b.markSent j) with
          store := b.store ++ [⟨(b.sessions r).taskId, e.recipient, j, (b.sessions r).sessionId, res⟩] }
      | _, _ => none
    else none
  | .published _ trimRaises =>
    match t.pc with
    | .publishing _ => e.session.map fun r => b.finishJob j r trimRaises
    | _ => none
  | .offloaded _ ok trimRaises =>
    match t.pc with
    | .offloading ms bs =>
      if t.cancelRequested then some (b.setBoard (b.setPc j .finished))
      else e.session.map fun r => b.offloaded j r (ms, bs) ok trimRaises
    | _ => none
  | .drainEnds _ =>
    match t.pc with
    | .draining _ => if t.cancelRequested then none else some (b.setBoard (b.setPc j .finished))
    | _ => none
  | .drainFails _ =>
    match t.pc with
    | .draining next => e.session.map fun r => b.drainFails j r next
    | _ => none
  | .undone _ =>
    match t.pc with
    | .undoing next =>
      if b.done next then
        e.session.map fun r => (b.undoDispatch r next).setBoard ((b.undo r next).setPc j .finished)
      else none
    | _ => none
  | _ => none

/-- A step of a call, to its next await or its return. -/
def stepCall (b : Bus) : Call → Event → Option (Bus × Option Call)
  | .submitting _, .submitEnds _ => some (b, none)
  | .submitting j, .submitFails _ => some (b.failDispatch j)
  | .undoing j, .undoEnds _ => if b.done j then some (b.undoDispatch (b.home j) j, none) else none
  | .aborting j, .abortEnds _ => if b.done j then some (b.abortEnds j, none) else none
  | .cancelling j rest, .cancelEnds _ =>
    if b.done j then some ((b.markUnlessTerminal j).cancelNext rest) else none
  | .cleaning taskId sid r j rest, .cleanEnds _ =>
    if b.done j then some (b.cleanEnds taskId sid r j rest) else none
  | .cleaning taskId sid r j rest, .cleanGivesUp _ =>
    if b.done j then none else some (b.cleanEnds taskId sid r j rest)
  | .draining taskId again _ rest, .waitDrainEnds _ trimRaises => some (waitDrain taskId again trimRaises b rest)
  | .draining _ _ next _, .waitDrainFails _ => some (b.failDispatch next)
  | .waiting taskId jobs, .waitEnds _ trimRaises =>
    if jobs.any b.done then some (b.waitReconciled taskId true trimRaises) else none
  | .waiting _ _, .waitTimesOut _ => some (b, none)
  | .discovering taskId, .discovered _ seen => some (b.discovered taskId seen)
  | .consuming taskId delivered buffer agent rest afterId, .consumed _ seen =>
    some (b.consumed taskId delivered buffer agent rest afterId seen)
  | .consuming taskId delivered buffer _ rest _, .consumeFails _ =>
    some (b.consumeNext taskId delivered buffer rest)
  | .undoing j, .interrupt _ => some (b.cancel j, some (.undoing j))
  | .aborting j, .interrupt _ => some (b.cancel j, some (.aborting j))
  | .cancelling j rest, .interrupt _ => some (b.cancel j, some (.cancelling j rest))
  | .cleaning taskId sid r j rest, .interrupt _ => some (b.cancel j, some (.cleaning taskId sid r j rest))
  | .waiting _ _, .interrupt _ => some (b, none)
  | .discovering _, .interrupt _ => some (b, none)
  | .consuming _ _ _ _ _ _, .interrupt _ => some (b, none)
  | _, _ => none

/-- A new call, to its first await or its return. -/
def openCall (b : Bus) : Event → Option (Bus × Option Call)
  | .createSession taskId name =>
    let sid := taskId ++ "::" ++ name
    some (if (b.find sid).isSome then b else b.setBoard (b.createSession sid taskId), none)
  | .submit parentTaskId depth estimatedTokens => some (b.submit parentTaskId depth estimatedTokens, none)
  | .submitTaskToSession r prompt recipient estimatedTokens trimRaises =>
    if r < b.sessionCount ∧ (b.sessions r).listed = true then
      some (b.submitTask r prompt recipient estimatedTokens trimRaises)
    else none
  | .abort j => some (b.abort j)
  | .cancelForParent taskId => some (b.cancelForParent taskId)
  | .cleanupTask taskId => some (b.cleanupTask taskId)
  | .waitAny taskId trimRaises => some (b.waitAny taskId trimRaises)
  | _ => none

/-- Whose step an event is. -/
inductive Actor
  | job (j : ℕ)
  | call (i : ℕ)
  | caller

def Event.actor : Event → Actor
  | .start j | .resumeSlot j | .runEnds j _ | .loopEnds j _ | .adapterEnds j _ | .send j | .published j _
  | .offloaded j _ _ | .drainEnds j | .drainFails j | .undone j => .job j
  | .submitEnds i | .submitFails i | .undoEnds i | .abortEnds i | .cancelEnds i | .cleanEnds i
  | .cleanGivesUp i | .waitDrainEnds i _ | .waitDrainFails i | .waitEnds i _ | .waitTimesOut i
  | .discovered i _ | .consumed i _ | .consumeFails i | .interrupt i => .call i
  | _ => .caller

end Bus

open Bus in
/-- One event; none when it cannot happen. -/
def System.step (s : System) (ev : Event) : Option System :=
  match ev.actor with
  | .job j =>
    (s.bus.jobs j).bind fun e => e.task.bind fun t => (s.bus.stepJob j e t ev).map fun b => { s with bus := b }
  | .call i =>
    (s.calls i).bind fun c => (s.bus.stepCall c ev).map fun p =>
      { s with bus := p.1, calls := Function.update s.calls i p.2 }
  | .caller =>
    (s.bus.openCall ev).map fun p =>
      { bus := p.1, calls := Function.update s.calls s.callCount p.2, callCount := s.callCount + 1 }

/-- A bus that has just been made, on a message log. -/
def System.fresh (historyDir comm : Bool) (guard : Option SpawnGuard) (store : List ResultMessage) : System where
  bus := { historyDir, comm, guard, store }

end AgentBus
end AgentCore
