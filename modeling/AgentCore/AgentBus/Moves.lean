/-
# What a step of the bus does to its board

Every event is a sequence of a few kinds of moves on the jobs and sessions
(`step_moves`), each with what the code has checked when it makes the move. The
invariants of the bus are then about moves, not about events.

Some moves are only made in circumstances the code does not provide for; a
move is then labelled with the circumstance (`Quirk`), and an event hits the
quirk when it meets it (`System.hits`). A run that avoids a quirk makes no
such move.

Key definitions: `Quirk`, `System.hits`, `Avoids`, `Drains`, `Move`, `Moves`,
`JobStep`.
Key theorem: `step_moves`.
-/
import AgentCore.AgentBus.Bus
import AgentCore.Lib.Runs
import Mathlib.Logic.Relation

namespace AgentCore
namespace AgentBus

/-- Circumstances the bus does not provide for. -/
inductive Quirk
  /-- A submission finds its session not busy while a job of it has its result
  and has not handed the session on. -/
  | lateSubmission
  /-- A job's task is cancelled before it runs. -/
  | earlyCancel
  /-- A job's task is cancelled while it offloads dropped messages. -/
  | lostOffload
  /-- The session's trimmer raises when a queue is drained. -/
  | trimFailure
  /-- A caller of `wait_any_session_detailed` drains a queue. -/
  | lateDrain
  /-- `cleanup_task` stops waiting for a task that is not done. -/
  | givesUp
  /-- An adapter returns a success with the error `aborted`. -/
  | mixedResult
  /-- An adapter returns a result without the id of its job. -/
  | foreignResult
  deriving DecidableEq, Repr

/-- The job has its result and has not handed its session on. -/
def Pc.isLeaving : Pc → Bool
  | .publishing _ | .offloading _ _ => true
  | _ => false

namespace Board

/-- A job of the session has its result and has not handed the session on. -/
def beingLeft (brd : Board) (r : ℕ) : Bool :=
  (List.range (brd.counter + 1)).any fun j =>
    (brd.jobs j).any fun e => e.session == some r && e.task.any (·.pc.isLeaving)

def cancelRequested (brd : Board) (j : ℕ) : Bool :=
  (brd.jobs j).any fun e => e.task.any (·.cancelRequested)

end Board

/-- The event meets the circumstance. -/
def System.hits (s : System) : Bus.Event → Quirk → Bool
  | .submitTaskToSession r _ _ _ _, .lateSubmission => s.bus.beingLeft r
  | .start j, .earlyCancel => s.bus.cancelRequested j
  | .resumeSlot j, .earlyCancel =>
    (s.bus.jobs j).any fun e => s.bus.slotGranted j e.parentTaskId == some false
  | .offloaded j _ _, .lostOffload => s.bus.cancelRequested j
  | .published _ trimRaises, .trimFailure => trimRaises
  | .offloaded _ _ trimRaises, .trimFailure => trimRaises
  | .waitAny _ trimRaises, .trimFailure => trimRaises
  | .waitDrainEnds _ trimRaises, .trimFailure => trimRaises
  | .waitEnds _ trimRaises, .trimFailure => trimRaises
  | .waitAny taskId _, .lateDrain => !(s.bus.reconcileTerminal taskId).2.isEmpty
  | .waitDrainEnds _ _, .lateDrain => true
  | .waitEnds i _, .lateDrain =>
    match s.calls i with
    | some (.waiting taskId _) => !(s.bus.reconcileTerminal taskId).2.isEmpty
    | _ => false
  | .cleanGivesUp _, .givesUp => true
  | .runEnds _ (.returned res), .mixedResult => res.success && res.error == "aborted"
  | .adapterEnds _ (.returned res), .mixedResult => res.success && res.error == "aborted"
  | .adapterEnds j (.returned res), .foreignResult => res.jobId != some j
  | _, _ => false

/-- The steps that meet none of the circumstances. -/
def Avoids (qs : List Quirk) (s : System) (ev : Bus.Event) : Prop := ∀ q ∈ qs, s.hits ev q = false

instance (qs : List Quirk) (s : System) (ev : Bus.Event) : Decidable (Avoids qs s ev) := by
  unfold Avoids
  infer_instance

/-- The task of a job of the session stands at `pc`. -/
def Board.At (brd : Board) (j r : ℕ) (pc : Pc) : Prop :=
  ∃ e t, brd.jobs j = some e ∧ e.session = some r ∧ e.task = some t ∧ t.pc = pc

variable (ok : Quirk → Prop)

/-- The ways in which a session's queue is drained, and the job dispatched. -/
inductive Drains (brd : Board) (r : ℕ) : Board → Option ℕ → Prop
  | nothing (h : brd.waiting r = []) : Drains brd r (brd.setPending r []) none
  | lost {p : PendingSessionTask} {rest : List PendingSessionTask} (h : brd.waiting r = p :: rest)
      (hok : ok .trimFailure) : Drains brd r (brd.setPending r rest) none
  | dispatched {p : PendingSessionTask} {rest : List PendingSessionTask} (h : brd.waiting r = p :: rest) :
      Drains brd r ((brd.setPending r rest).dispatch r p) (some p.jobId)

/-- The job dispatches the next one, or is done. -/
def Board.handedOn (brd : Board) (j : ℕ) : Option ℕ → Board
  | none => brd
  | some next => brd.setPc j (.draining next)

/-- A job of a session is over but for the session's queue. -/
inductive Finishes (brd : Board) (j r : ℕ) : Board → Prop
  | untrimmed {sent : Bool} (h : brd.At j r (.publishing sent))
      (ht : trimAndRemapBoundaries (brd.sessions r).messages (brd.sessions r).taskBoundaries = none) :
      Finishes brd j r (brd.leave j r .finished)
  | trimmed {sent : Bool} {hist : History × List TaskBoundary} (h : brd.At j r (.publishing sent))
      (ht : trimAndRemapBoundaries (brd.sessions r).messages (brd.sessions r).taskBoundaries = some hist) :
      Finishes brd j r ((brd.leave j r .finished).setHistory r hist)
  | offloaded {ms : History} {bs : List TaskBoundary} (h : brd.At j r (.offloading ms bs)) :
      Finishes brd j r ((brd.setPc j .finished).setHistory r (ms, bs))
  | kept {ms : History} {bs : List TaskBoundary} (h : brd.At j r (.offloading ms bs)) :
      Finishes brd j r (brd.setPc j .finished)

/-- One move. -/
inductive Move (brd : Board) : Board → Prop
  | requestCancel (j : ℕ) : Move brd (brd.requestCancel j)
  | createSession (sid taskId : String) : Move brd (brd.createSession sid taskId)
  | tick : Move brd brd.tick
  | addJob (taskId : String) : Move brd (brd.tick.addJob (brd.counter + 1) taskId)
  | enqueue {r : ℕ} {p : PendingSessionTask} (hr : r < brd.sessionCount) (hp : p.jobId = brd.counter + 1)
      (hb : brd.busy r = true) : Move brd (brd.tick.enqueue r p)
  | accept {r : ℕ} {p : PendingSessionTask} (hr : r < brd.sessionCount) (hp : p.jobId = brd.counter + 1)
      (hb : brd.busy r = false) (hok : brd.beingLeft r = true → ok .lateSubmission) :
      Move brd (brd.tick.dispatch r p)
  | slot {j : ℕ} (h : brd.pc j = some .created) : Move brd (brd.setPc j .slot)
  | beginRun {j : ℕ} (h : brd.pc j = some .created ∨ brd.pc j = some .slot) : Move brd (brd.beginRun j)
  | abandon {j : ℕ} (h : brd.pc j = some .created ∨ brd.pc j = some .slot) (hok : ok .earlyCancel) :
      Move brd (brd.setPc j .finished)
  | conclude {j : ℕ} {e : JobEntry} {res : SubAgentResult} (h : brd.pc j = some .loop) (he : brd.jobs j = some e)
      (hs : e.session = none) (hres : res.success = true → res.error = "aborted" → ok .mixedResult) :
      Move brd (brd.conclude j res)
  | extend {j r : ℕ} (newTurns : History) (h : brd.At j r .loop) : Move brd (brd.extend r newTurns)
  | absorb {j r : ℕ} {hist : History × List TaskBoundary} {finalText stoppedBy : String} (h : brd.At j r .loop)
      (hc : closeBoundary (brd.sessions r).messages (brd.sessions r).taskBoundaries finalText stoppedBy = some hist) :
      Move brd ((brd.setHistory r hist).setPc j .adapter)
  | publish {j r : ℕ} {res : SubAgentResult} (h : brd.At j r .adapter)
      (hres : res.success = true → res.error = "aborted" → ok .mixedResult)
      (hown : res.jobId ≠ some j → ok .foreignResult) : Move brd (brd.publish j r res)
  | publishAborted {j r : ℕ} {pc : Pc} {res : SubAgentResult} (h : brd.At j r pc)
      (hpc : pc = .loop ∨ pc = .adapter) (hres : res.success = false) (hown : res.jobId = some j) :
      Move brd ((brd.closeAborted r).publish j r res)
  | markSent {j : ℕ} (h : brd.pc j = some (.publishing false)) : Move brd (brd.markSent j)
  | offload {j r : ℕ} {sent : Bool} {hist : History × List TaskBoundary} (h : brd.At j r (.publishing sent))
      (ht : trimAndRemapBoundaries (brd.sessions r).messages (brd.sessions r).taskBoundaries = some hist) :
      Move brd (brd.leave j r (.offloading hist.1 hist.2))
  | finish {j r : ℕ} {left after : Board} {next : Option ℕ} (hf : Finishes brd j r left)
      (hd : Drains ok left r after next) : Move brd (after.handedOn j next)
  | lostOffload {j : ℕ} {ms : History} {bs : List TaskBoundary} (h : brd.pc j = some (.offloading ms bs))
      (hok : ok .lostOffload) : Move brd (brd.setPc j .finished)
  | settle {j next : ℕ} {pc : Pc} (h : brd.pc j = some (.draining next) ∨ brd.pc j = some (.undoing next))
      (hpc : pc = .undoing next ∨ pc = .finished) : Move brd (brd.setPc j pc)
  | markAborted {j : ℕ}
      (h : brd.status j = some .queued ∨ brd.pc j = none ∨ brd.pc j = some .finished ∨ ok .givesUp) :
      Move brd (brd.markAborted j)
  | cancelParked {j : ℕ} (h : brd.status j = some .queued ∨ brd.pc j = none) :
      Move brd ((brd.purge j).markAborted j)
  | undo {r j : ℕ} (h : brd.pc j = some .finished) : Move brd (brd.undo r j)
  | confirm {j : ℕ} {e : JobEntry} (he : brd.jobs j = some e) (h : brd.pc j = some .finished)
      (hs : e.result.any (·.success) = true) : Move brd (brd.confirm j)
  | reconcile {r j : ℕ} {e : JobEntry} (hc : (brd.sessions r).currentJobId = some j) (he : brd.jobs j = some e)
      (h : brd.pc j = some .finished) : Move brd (brd.reconcile r j e)
  | lateDrain {r : ℕ} {after : Board} {next : Option ℕ} (hd : Drains ok brd r after next) (hok : ok .lateDrain) :
      Move brd after
  | dropResults {r : ℕ} {reports : List Report} (h : reports.Sublist (brd.sessions r).pendingResults) :
      Move brd (brd.dropResults r reports)
  | abortPending (r : ℕ) : Move brd (brd.abortPending r)
  | unlist (r : ℕ) : Move brd (brd.unlist r)

/-- Moves one after the other. -/
def Moves : Board → Board → Prop := Relation.ReflTransGen (Move ok)

variable {ok}

theorem Moves.refl (brd : Board) : Moves ok brd brd := Relation.ReflTransGen.refl

theorem Moves.trans {brd₁ brd₂ brd₃ : Board} (h : Moves ok brd₁ brd₂) (h' : Moves ok brd₂ brd₃) :
    Moves ok brd₁ brd₃ :=
  Relation.ReflTransGen.trans h h'

theorem Move.single {brd brd' : Board} (h : Move ok brd brd') : Moves ok brd brd' := Relation.ReflTransGen.single h

/-- **The rule for moves**: what every move keeps, a sequence of moves keeps. -/
theorem Moves.invariant {P : Board → Prop} (hP : ∀ brd brd', P brd → Move ok brd brd' → P brd') {brd brd' : Board}
    (h : Moves ok brd brd') (hb : P brd) : P brd' := by
  induction h with
  | refl => exact hb
  | tail _ hm ih => exact hP _ _ ih hm

namespace Bus

/-! ### Boards of changed buses -/

@[simp] theorem toBoard_setBoard (b : Bus) (brd : Board) : (b.setBoard brd).toBoard = brd := rfl

@[simp] theorem toBoard_release (b : Bus) (taskId : String) (j : ℕ) : (b.release taskId j).toBoard = b.toBoard := rfl

@[simp] theorem toBoard_releaseJob (b : Bus) (j : ℕ) : (b.releaseJob j).toBoard = b.toBoard := by
  unfold releaseJob
  split <;> rfl

@[simp] theorem toBoard_markJobAborted (b : Bus) (j : ℕ) :
    (b.markJobAborted j).toBoard = b.toBoard.markAborted j := rfl

@[simp] theorem toBoard_noteResultRecipient (b : Bus) (taskId recipient : String) :
    (b.noteResultRecipient taskId recipient).toBoard = b.toBoard := by
  unfold noteResultRecipient
  split <;> rfl

@[simp] theorem toBoard_dispatchTask (b : Bus) (r : ℕ) (p : PendingSessionTask) :
    (b.dispatchTask r p).toBoard = b.toBoard.dispatch r p := by
  simp [dispatchTask]

@[simp] theorem toBoard_purgeQueuedJob (b : Bus) (j : ℕ) : (b.purgeQueuedJob j).toBoard = b.toBoard.purge j := by
  unfold purgeQueuedJob
  dsimp only
  split
  · rw [toBoard_releaseJob, toBoard_setBoard]
  · rfl

@[simp] theorem toBoard_undoDispatch (b : Bus) (r j : ℕ) : (b.undoDispatch r j).toBoard = b.toBoard.undo r j := rfl

@[simp] theorem toBoard_abortQueue (b : Bus) (r : ℕ) : (b.abortQueue r).toBoard = b.toBoard.abortPending r := rfl

@[simp] theorem toBoard_forget (b : Bus) (taskId : String) : (b.forget taskId).toBoard = b.toBoard := rfl

@[simp] theorem toBoard_markDelivered (b : Bus) (taskId : String) (j : ℕ) :
    (b.markDelivered taskId j).toBoard = b.toBoard := by
  unfold markDelivered
  split <;> rfl

theorem toBoard_preCheck {b b' : Bus} {taskId : String} {j : ℕ} {depth est : ℤ}
    (h : b.preCheck taskId j depth est = some b') : b'.toBoard = b.toBoard := by
  unfold preCheck at h
  split at h
  · cases h
    rfl
  · split at h <;> cases h
    rfl

theorem done_iff {brd : Board} {j : ℕ} : brd.done j = true ↔ brd.pc j = some .finished := by
  simp [Board.done]

/-! ### The exchange has no part in the board -/

@[simp] theorem toBoard_consumeNext (b : Bus) (taskId : String) (delivered buffer : ℕ) (agents : List String) :
    (b.consumeNext taskId delivered buffer agents).1.toBoard = b.toBoard := by
  unfold consumeNext popBuffer
  split
  · split <;> rfl
  · rfl

@[simp] theorem toBoard_beginConsume (b : Bus) (taskId : String) (agents : List String) :
    (b.beginConsume taskId agents).1.toBoard = b.toBoard := by
  unfold beginConsume
  dsimp only
  have hview : (if (b.delivered taskId).isSome = true then b else { b with refs := b.refs + 1 }).toBoard
      = b.toBoard := by split <;> rfl
  split
  · rw [toBoard_consumeNext, hview]
  · rw [toBoard_consumeNext]
    exact hview

@[simp] theorem toBoard_reconcileFromMessages (b : Bus) (taskId : String) :
    (b.reconcileFromMessages taskId).1.toBoard = b.toBoard := by
  unfold reconcileFromMessages
  split
  · next b' h =>
    obtain ⟨buffer, -, h⟩ := Option.bind_eq_some_iff.mp h
    unfold popBuffer at h
    split at h <;> cases h
    rfl
  · split
    · rfl
    · split
      · rfl
      · exact toBoard_beginConsume _ _ _

@[simp] theorem toBoard_discovered (b : Bus) (taskId : String) (seen : ℕ) :
    (b.discovered taskId seen).1.toBoard = b.toBoard := by
  unfold discovered
  split
  · rfl
  · exact toBoard_beginConsume _ _ _

theorem toBoard_takeMessage (taskId : String) (buffer : ℕ) (acc : Bus × ℕ) (m : ResultMessage) :
    (takeMessage taskId buffer acc m).1.toBoard = acc.1.toBoard := by
  unfold takeMessage
  dsimp only
  split
  · rfl
  · exact toBoard_markDelivered _ _ _

theorem toBoard_takeMessages (taskId : String) (buffer : ℕ) (ms : List ResultMessage) (acc : Bus × ℕ) :
    (ms.foldl (takeMessage taskId buffer) acc).1.toBoard = acc.1.toBoard := by
  induction ms generalizing acc with
  | nil => rfl
  | cons m ms ih =>
    rw [List.foldl_cons, ih]
    exact toBoard_takeMessage _ _ _ _

@[simp] theorem toBoard_consumed (b : Bus) (taskId : String) (delivered buffer : ℕ) (agent : String)
    (rest : List String) (afterId seen : ℕ) :
    (b.consumed taskId delivered buffer agent rest afterId seen).1.toBoard = b.toBoard := by
  unfold consumed
  dsimp only
  rw [toBoard_consumeNext, toBoard_takeMessages]
  dsimp only
  split <;> rfl

/-! ### The moves of each operation -/

theorem cancelTask_moves (fuel : ℕ) (b : Bus) (j : ℕ) : Moves ok b.toBoard (cancelTask fuel b j).toBoard := by
  induction fuel generalizing j with
  | zero => exact .refl _
  | succ fuel ih =>
    unfold cancelTask
    split
    · exact .refl _
    · exact .refl _
    · exact ih _
    · exact (Move.requestCancel j).single
    · exact (Move.requestCancel j).single

theorem cancel_moves (b : Bus) (j : ℕ) : Moves ok b.toBoard (b.cancel j).toBoard := cancelTask_moves _ _ _

theorem markUnlessTerminal_moves {b : Bus} {j : ℕ}
    (h : b.terminal j = false →
      b.status j = some .queued ∨ b.pc j = none ∨ b.pc j = some .finished ∨ ok .givesUp) :
    Moves ok b.toBoard (b.markUnlessTerminal j).toBoard := by
  unfold markUnlessTerminal
  split
  · exact .refl _
  · next ht => exact (Move.markAborted (h (by simpa using ht))).single

theorem drainQueue_drains {b b' : Bus} {r : ℕ} {trimRaises : Bool} {d : Drained}
    (h : b.drainQueue r trimRaises = (b', d)) (hok : trimRaises = true → ok .trimFailure) :
    ∃ next, Drains ok b.toBoard r b'.toBoard next ∧
      (d = .dispatched (next.getD 0) ∧ next.isSome = true ∨ (d = .nothing ∨ d = .raised) ∧ next = none) := by
  unfold drainQueue at h
  split at h
  · next hw =>
    cases h
    exact ⟨none, .nothing hw, .inr ⟨.inl rfl, rfl⟩⟩
  · next p rest hw =>
    dsimp only at h
    split at h
    · next ht =>
      cases h
      exact ⟨none, .lost hw (hok ht), .inr ⟨.inr rfl, rfl⟩⟩
    · cases h
      refine ⟨some p.jobId, ?_, .inl ⟨rfl, rfl⟩⟩
      rw [toBoard_dispatchTask]
      exact .dispatched hw

/-- A job that has left its session hands it on. -/
theorem handOn_moves {brd : Board} {b : Bus} {j r : ℕ} {trimRaises : Bool} (hf : Finishes brd j r b.toBoard)
    (hok : trimRaises = true → ok .trimFailure) : Moves ok brd (b.handOn j r trimRaises).toBoard := by
  obtain ⟨b', d, hd⟩ : ∃ b' d, b.drainQueue r trimRaises = (b', d) := ⟨_, _, rfl⟩
  obtain ⟨next, hdrains, h⟩ := drainQueue_drains hd hok
  have hmove := (Move.finish hf hdrains).single
  unfold handOn
  rw [hd]
  rcases h with ⟨rfl, hsome⟩ | ⟨h, rfl⟩
  · obtain ⟨c, rfl⟩ := Option.isSome_iff_exists.mp hsome
    exact hmove
  · rcases h with rfl | rfl
    · exact hmove
    · exact hmove

theorem finishJob_moves {b : Bus} {j r : ℕ} {sent trimRaises : Bool} (h : b.At j r (.publishing sent))
    (hok : trimRaises = true → ok .trimFailure) : Moves ok b.toBoard (b.finishJob j r trimRaises).toBoard := by
  unfold finishJob
  dsimp only
  split
  · next ht =>
    refine handOn_moves ?_ hok
    rw [toBoard_setBoard, toBoard_releaseJob]
    exact .untrimmed h ht
  · next hist ht =>
    split
    · rw [toBoard_setBoard, toBoard_releaseJob]
      exact (Move.offload h ht).single
    · refine handOn_moves ?_ hok
      rw [toBoard_setBoard, toBoard_releaseJob]
      exact .trimmed h ht

theorem offloaded_moves {b : Bus} {j r : ℕ} {ms : History} {bs : List TaskBoundary} {keep trimRaises : Bool}
    (h : b.At j r (.offloading ms bs)) (hok : trimRaises = true → ok .trimFailure) :
    Moves ok b.toBoard (b.offloaded j r (ms, bs) keep trimRaises).toBoard := by
  unfold offloaded
  refine handOn_moves ?_ hok
  rw [toBoard_setBoard]
  split
  · exact .offloaded h
  · exact .kept h

theorem Ending.success_result (e : Ending) (j : ℕ) : (e.result j).success = false := by
  cases e <;> rfl

theorem Ending.jobId_result (e : Ending) (j : ℕ) : (e.result j).jobId = some j := by
  cases e <;> rfl

theorem loopEnds_moves {b : Bus} {j r : ℕ} (h : b.At j r .loop) (o : LoopOutcome) :
    Moves ok b.toBoard (b.loopEnds j r o).toBoard := by
  cases o with
  | ended e => exact (Move.publishAborted h (.inl rfl) (e.success_result j) (e.jobId_result j)).single
  | returned newTurns finalContent stoppedBy =>
    have hextend : (b.extend r newTurns).At j r .loop := h
    refine Moves.trans (Move.extend newTurns h).single ?_
    unfold loopEnds
    dsimp only
    split
    · next hist hc => exact (Move.absorb hextend hc).single
    · exact (Move.publishAborted hextend (.inl rfl) rfl rfl).single

theorem adapterEnds_moves {b : Bus} {j r : ℕ} {o : AdapterOutcome} (h : b.At j r .adapter)
    (hres : ∀ res, o = .returned res → res.success = true → res.error = "aborted" → ok .mixedResult)
    (hown : ∀ res, o = .returned res → res.jobId ≠ some j → ok .foreignResult) :
    Moves ok b.toBoard (b.adapterEnds j r o).toBoard := by
  cases o with
  | returned res => exact (Move.publish h (hres res rfl) (hown res rfl)).single
  | ended e => exact (Move.publishAborted h (.inr rfl) (e.success_result j) (e.jobId_result j)).single

theorem failDispatch_moves (b : Bus) (j : ℕ) : Moves ok b.toBoard (b.failDispatch j).1.toBoard := by
  unfold failDispatch
  split
  · next hd => exact (Move.undo (done_iff.mp hd)).single
  · exact cancel_moves _ _

theorem abortEnds_moves {b : Bus} {j : ℕ} (h : b.done j = true) : Moves ok b.toBoard (b.abortEnds j).toBoard := by
  unfold abortEnds
  split
  · exact .refl _
  · next e he =>
    split
    · next hs => exact (Move.confirm he (done_iff.mp h) hs).single
    · split
      · exact .refl _
      · exact (Move.markAborted (.inr (.inr (.inl (done_iff.mp h))))).single

theorem pc_eq_none_of_task {brd : Board} {j : ℕ} {e : JobEntry} (he : brd.jobs j = some e) (ht : e.task = none) :
    brd.pc j = none := by
  simp [Board.pc, he, ht]

theorem abort_moves (b : Bus) (j : ℕ) : Moves ok b.toBoard (b.abort j).1.toBoard := by
  unfold abort
  split
  · exact .refl _
  · next e he =>
    split_ifs with h1 h2 h3
    · exact .refl _
    · have hparked : b.status j = some .queued ∨ b.pc j = none := by
        rcases h2 with h2 | h2
        · exact .inl (by simp [Board.status, he, h2])
        · exact .inr (pc_eq_none_of_task he h2)
      have hmove : Moves ok b.toBoard ((b.purge j).markAborted j) := (Move.cancelParked hparked).single
      dsimp only
      rwa [toBoard_markJobAborted, toBoard_purgeQueuedJob]
    · exact abortEnds_moves h3
    · exact cancel_moves _ _

theorem cancelNext_moves (b : Bus) (js : List ℕ) : Moves ok b.toBoard (b.cancelNext js).1.toBoard := by
  induction js generalizing b with
  | nil => exact .refl _
  | cons j js ih =>
    unfold cancelNext
    split_ifs with h1 h2
    · exact ih b
    · exact Moves.trans (Move.markAborted (.inr (.inr (.inl (done_iff.mp h2))))).single (ih (b.markJobAborted j))
    · exact cancel_moves _ _

theorem cancelParked_moves (b : Bus) (js : List ℕ) :
    Moves ok b.toBoard
      (js.foldl (fun b j => if b.parked j then (b.purgeQueuedJob j).markJobAborted j else b) b).toBoard := by
  induction js generalizing b with
  | nil => exact .refl _
  | cons j js ih =>
    rw [List.foldl_cons]
    refine Moves.trans ?_ (ih _)
    split
    · next hp =>
      have hparked : b.status j = some .queued ∨ b.pc j = none := by simpa [parked] using hp
      have hmove : Moves ok b.toBoard ((b.purge j).markAborted j) := (Move.cancelParked hparked).single
      rwa [toBoard_markJobAborted, toBoard_purgeQueuedJob]
    · exact .refl _

theorem cancelForParent_moves (b : Bus) (taskId : String) :
    Moves ok b.toBoard (b.cancelForParent taskId).1.toBoard :=
  Moves.trans (cancelParked_moves b _) (cancelNext_moves _ _)

theorem dropSession_moves (b : Bus) (r : ℕ) : Moves ok b.toBoard (b.dropSession r).toBoard :=
  Moves.trans (Move.dropResults (List.nil_sublist _)).single (Move.unlist r).single

theorem rescue_moves (b : Bus) (r : ℕ) : Moves ok b.toBoard (b.rescue r).toBoard :=
  (Move.dropResults (List.nil_sublist _)).single

/-- The current job of a session that is not busy with an unfinished task. -/
theorem markable_of_not_busy {b : Bus} {r j : ℕ} (hc : (b.sessions r).currentJobId = some j)
    (h : ¬(b.busy r && b.pc j != none && !b.done j) = true) (ht : b.terminal j = false) :
    b.status j = some .queued ∨ b.pc j = none ∨ b.pc j = some .finished ∨ ok .givesUp := by
  by_cases hpc : b.pc j = none
  · exact .inr (.inl hpc)
  · by_cases hd : b.done j = true
    · exact .inr (.inr (.inl (done_iff.mp hd)))
    · have hbusy : b.busy r = false := by
        simp only [Bool.not_eq_true] at hd
        simpa [hpc, hd] using h
      cases hj : b.jobs j with
      | none => exact absurd (by simp [Board.pc, hj]) hpc
      | some e =>
        refine .inl ?_
        simp only [Board.busy, hc, Option.any_some, Board.status, hj, Option.map_some, Bool.or_eq_false_iff,
          beq_eq_false_iff_ne, ne_eq, Option.some.injEq] at hbusy
        simp only [Board.terminal, Board.status, hj, Option.map_some, Option.any_some] at ht ⊢
        cases hst : e.status <;> simp_all [JobStatus.isTerminal]

theorem cleanNext_moves (b : Bus) (taskId : String) (sids : List String) :
    Moves ok b.toBoard (b.cleanNext taskId sids).1.toBoard := by
  induction sids generalizing b with
  | nil => exact .refl _
  | cons sid sids ih =>
    unfold cleanNext
    split
    · exact ih b
    · next r _ =>
      split
      · exact ih b
      · refine Moves.trans (rescue_moves b r) (Moves.trans (Move.abortPending r).single ?_)
        rw [← toBoard_abortQueue]
        dsimp only
        split
        · exact Moves.trans (dropSession_moves _ r) (ih _)
        · next j hc =>
          split
          · exact cancel_moves _ _
          · next hb =>
            exact Moves.trans (markUnlessTerminal_moves (markable_of_not_busy hc hb))
              (Moves.trans (dropSession_moves _ r) (ih _))

theorem cleanEnds_moves {b : Bus} {taskId sid : String} {r j : ℕ} {rest : List String}
    (h : b.done j = true ∨ ok .givesUp) : Moves ok b.toBoard (b.cleanEnds taskId sid r j rest).1.toBoard := by
  have hmark : Moves ok b.toBoard ((b.markUnlessTerminal j).rescue r).toBoard := by
    refine Moves.trans (markUnlessTerminal_moves fun _ => ?_) (rescue_moves _ r)
    rcases h with h | h
    · exact .inr (.inr (.inl (done_iff.mp h)))
    · exact .inr (.inr (.inr h))
  refine Moves.trans hmark ?_
  unfold cleanEnds
  dsimp only
  split
  · exact .refl _
  · next r' _ =>
    let b' := (b.markUnlessTerminal j).rescue r
    exact Moves.trans (Move.unlist r').single (cleanNext_moves (b'.setBoard (b'.unlist r')) taskId rest)

theorem reconcileSession_moves (taskId : String) (acc : Bus × List ℕ) (r : ℕ) :
    Moves ok acc.1.toBoard (reconcileSession taskId acc r).1.toBoard := by
  unfold reconcileSession
  dsimp only
  split
  · split
    · exact .refl _
    · next j hc =>
      split
      · exact .refl _
      · next e he =>
        split
        · next hd => exact (Move.reconcile hc he (done_iff.mp hd)).single
        · exact .refl _
  · exact .refl _

theorem reconcileTerminal_moves (b : Bus) (taskId : String) :
    Moves ok b.toBoard (b.reconcileTerminal taskId).1.toBoard := by
  unfold reconcileTerminal
  generalize List.range b.sessionCount = rs
  suffices h : ∀ acc : Bus × List ℕ, Moves ok acc.1.toBoard (rs.foldl (reconcileSession taskId) acc).1.toBoard from
    h (b, [])
  induction rs with
  | nil => exact fun acc => .refl _
  | cons r rs ih => exact fun acc => Moves.trans (reconcileSession_moves taskId acc r) (ih _)

theorem popReadyResult_moves {b b' : Bus} {taskId : String} (h : b.popReadyResult taskId = some b') :
    Moves ok b.toBoard b'.toBoard := by
  unfold popReadyResult at h
  split at h
  · cases h
  · next r _ =>
    split at h
    · cases h
    · next rep rest hr =>
      have hdrop : Move ok b.toBoard (b.dropResults r rest) := .dropResults (hr ▸ List.sublist_cons_self ..)
      cases h
      split
      · exact hdrop.single
      · dsimp only
        rw [toBoard_markDelivered]
        exact hdrop.single

theorem waitRest_moves (b : Bus) (taskId : String) (again : Bool) :
    Moves ok b.toBoard (b.waitRest taskId again).1.toBoard := by
  unfold waitRest
  split
  · next b' h => exact popReadyResult_moves h
  · have hmsg : Moves ok b.toBoard (b.reconcileFromMessages taskId).1.toBoard := by
      rw [toBoard_reconcileFromMessages]
      exact .refl _
    split
    · exact hmsg
    · split
      · exact hmsg
      · exact .refl _

theorem waitDrain_moves (taskId : String) (again : Bool) {trimRaises : Bool} (b : Bus) (rs : List ℕ)
    (hok : trimRaises = true → ok .trimFailure) (hlate : rs ≠ [] → ok .lateDrain) :
    Moves ok b.toBoard (waitDrain taskId again trimRaises b rs).1.toBoard := by
  induction rs generalizing b with
  | nil => exact waitRest_moves _ _ _
  | cons r rs ih =>
    have hl : ok .lateDrain := hlate (List.cons_ne_nil _ _)
    obtain ⟨b', d, hd⟩ : ∃ b' d, b.drainQueue r trimRaises = (b', d) := ⟨_, _, rfl⟩
    obtain ⟨next, hdrains, -⟩ := drainQueue_drains hd hok
    have hmove := (Move.lateDrain hdrains hl).single
    unfold waitDrain
    rw [hd]
    cases d with
    | nothing => exact Moves.trans hmove (ih b' fun _ => hl)
    | raised => exact hmove
    | dispatched next => exact hmove

theorem waitReconciled_moves (b : Bus) (taskId : String) (again : Bool) {trimRaises : Bool}
    (hok : trimRaises = true → ok .trimFailure)
    (hlate : (b.reconcileTerminal taskId).2 ≠ [] → ok .lateDrain) :
    Moves ok b.toBoard (b.waitReconciled taskId again trimRaises).1.toBoard :=
  Moves.trans (reconcileTerminal_moves b taskId) (waitDrain_moves taskId again _ _ hok hlate)

theorem waitAny_moves (b : Bus) (taskId : String) {trimRaises : Bool} (hok : trimRaises = true → ok .trimFailure)
    (hlate : (b.reconcileTerminal taskId).2 ≠ [] → ok .lateDrain) :
    Moves ok b.toBoard (b.waitAny taskId trimRaises).1.toBoard := by
  unfold waitAny
  split
  · next b' h => exact popReadyResult_moves h
  · exact waitReconciled_moves _ _ _ hok hlate

theorem submitTask_moves {b : Bus} {r : ℕ} (hr : r < b.sessionCount) (prompt recipient : String) (est : ℤ)
    (trimRaises : Bool) (hok : b.beingLeft r = true → ok .lateSubmission) :
    Moves ok b.toBoard (b.submitTask r prompt recipient est trimRaises).1.toBoard := by
  unfold submitTask
  dsimp only
  split
  · exact Move.tick.single
  · next b' hp =>
    have hb' : b'.toBoard = b.tick := toBoard_preCheck hp
    have hbusy : b'.busy r = b.busy r := by rw [hb']; rfl
    split_ifs with h1 h2
    · rw [toBoard_setBoard, hb']
      exact (Move.enqueue hr rfl (hbusy ▸ h1)).single
    · rw [toBoard_release, hb']
      exact Move.tick.single
    · dsimp only
      rw [toBoard_dispatchTask, hb']
      exact (Move.accept hr rfl (by rw [← hbusy]; simpa using h1) hok).single

theorem submit_moves (b : Bus) (parentTaskId : String) (depth est : ℤ) :
    Moves ok b.toBoard (b.submit parentTaskId depth est).toBoard := by
  unfold submit
  dsimp only
  split
  · exact Move.tick.single
  · next b' hp =>
    have hb' : b'.toBoard = b.tick := toBoard_preCheck hp
    rw [toBoard_setBoard, hb']
    exact (Move.addJob parentTaskId).single

theorem acquireSlot_moves {b : Bus} {j : ℕ} (h : b.pc j = some .created) (parent : String) :
    Moves ok b.toBoard (b.acquireSlot j parent).toBoard := by
  unfold acquireSlot
  split
  · exact (Move.beginRun (.inl h)).single
  · dsimp only
    split
    · exact (Move.beginRun (.inl h)).single
    · exact (Move.slot h).single

/-! ### Where tasks stand -/

theorem pc_updateJob {brd : Board} {j : ℕ} {f : JobEntry → JobEntry}
    (hf : ∀ e, (f e).task.map (·.pc) = e.task.map (·.pc)) (k : ℕ) : (brd.updateJob j f).pc k = brd.pc k := by
  unfold Board.updateJob Board.pc
  dsimp only
  by_cases hk : k = j
  · subst hk
    rw [Function.update_self]
    cases brd.jobs k with
    | none => rfl
    | some e => exact hf e
  · rw [Function.update_of_ne hk]

theorem pc_markAborted (brd : Board) (j k : ℕ) : (brd.markAborted j).pc k = brd.pc k := by
  refine pc_updateJob (fun e => ?_) k
  split <;> rfl

theorem pc_requestCancel (brd : Board) (j k : ℕ) : (brd.requestCancel j).pc k = brd.pc k := by
  refine pc_updateJob (fun e => ?_) k
  cases e.task <;> rfl

theorem pc_undo (brd : Board) (r j k : ℕ) : (brd.undo r j).pc k = brd.pc k := by
  unfold Board.undo
  split
  · rfl
  · exact pc_markAborted (brd.closeAborted r) j k

theorem pc_cancelTask (fuel : ℕ) (b : Bus) (j k : ℕ) : (cancelTask fuel b j).pc k = b.pc k := by
  induction fuel generalizing j with
  | zero => rfl
  | succ fuel ih =>
    unfold cancelTask
    split
    · rfl
    · rfl
    · exact ih _
    · exact pc_requestCancel _ _ _
    · exact pc_requestCancel _ _ _

theorem drainFails_moves {b : Bus} {j r next : ℕ} (h : b.pc j = some (.draining next)) :
    Moves ok b.toBoard (b.drainFails j r next).toBoard := by
  unfold drainFails
  split
  · next hd =>
    refine Moves.trans (Move.undo (r := r) (done_iff.mp hd)).single ?_
    exact (Move.settle (.inl ((pc_undo _ _ _ _).trans h)) (.inr rfl)).single
  · refine Moves.trans (cancel_moves b next) ?_
    exact (Move.settle (.inl ((pc_cancelTask _ _ _ _).trans h)) (.inl rfl)).single

/-! ### What a step of a job comes to -/

/-- The ways in which a step of a job goes, each with what it has looked at. -/
inductive JobStep (b : Bus) (j : ℕ) (e : JobEntry) (t : JobTask) : Event → Bus → Prop
  | abandon (hpc : t.pc = .created) (hc : t.cancelRequested = true) :
      JobStep b j e t (.start j) (b.setBoard (b.setPc j .finished))
  | acquire (hpc : t.pc = .created) : JobStep b j e t (.start j) (b.acquireSlot j e.parentTaskId)
  | resume {granted : Bool} (hpc : t.pc = .slot) (hg : b.slotGranted j e.parentTaskId = some granted) :
      JobStep b j e t (.resumeSlot j)
        ((b.resumeSlot j e.parentTaskId).setBoard (if granted then b.beginRun j else b.setPc j .finished))
  | conclude {o : AdapterOutcome} (hpc : t.pc = .loop) (hs : e.session = none) :
      JobStep b j e t (.runEnds j o) ((b.releaseJob j).setBoard (b.conclude j (o.result j)))
  | loopEnds {o : LoopOutcome} {r : ℕ} (hpc : t.pc = .loop) (hr : e.session = some r) :
      JobStep b j e t (.loopEnds j o) (b.loopEnds j r o)
  | adapterEnds {o : AdapterOutcome} {r : ℕ} (hpc : t.pc = .adapter) (hr : e.session = some r) :
      JobStep b j e t (.adapterEnds j o) (b.adapterEnds j r o)
  | send {r : ℕ} {res : SubAgentResult} (hpc : t.pc = .publishing false) (hr : e.session = some r)
      (hres : e.result = some res) :
      JobStep b j e t (.send j)
        { b.setBoard (b.markSent j) with
          store := b.store ++ [⟨(b.sessions r).taskId, e.recipient, j, (b.sessions r).sessionId, res⟩] }
  | published {sent trimRaises : Bool} {r : ℕ} (hpc : t.pc = .publishing sent) (hr : e.session = some r) :
      JobStep b j e t (.published j trimRaises) (b.finishJob j r trimRaises)
  | lostOffload {ms : History} {bs : List TaskBoundary} {keep trimRaises : Bool} (hpc : t.pc = .offloading ms bs)
      (hc : t.cancelRequested = true) :
      JobStep b j e t (.offloaded j keep trimRaises) (b.setBoard (b.setPc j .finished))
  | offloaded {ms : History} {bs : List TaskBoundary} {keep trimRaises : Bool} {r : ℕ}
      (hpc : t.pc = .offloading ms bs) (hr : e.session = some r) :
      JobStep b j e t (.offloaded j keep trimRaises) (b.offloaded j r (ms, bs) keep trimRaises)
  | drained {next : ℕ} (hpc : t.pc = .draining next) :
      JobStep b j e t (.drainEnds j) (b.setBoard (b.setPc j .finished))
  | drainFails {next r : ℕ} (hpc : t.pc = .draining next) (hr : e.session = some r) :
      JobStep b j e t (.drainFails j) (b.drainFails j r next)
  | undone {next r : ℕ} (hpc : t.pc = .undoing next) (hd : b.done next = true) (hr : e.session = some r) :
      JobStep b j e t (.undone j) ((b.undoDispatch r next).setBoard ((b.undo r next).setPc j .finished))

theorem stepJob_cases {b b' : Bus} {j : ℕ} {e : JobEntry} {t : JobTask} {ev : Event} (ha : ev.actor = .job j)
    (h : b.stepJob j e t ev = some b') : JobStep b j e t ev b' := by
  cases ev <;> simp only [Event.actor, Actor.job.injEq, reduceCtorEq] at ha
  all_goals subst ha
  all_goals simp only [stepJob] at h
  case start =>
    split_ifs at h with h1 h2
    · cases h
      exact .abandon h1 h2
    · cases h
      exact .acquire h1
  case resumeSlot =>
    split_ifs at h with h1
    obtain ⟨granted, hg, rfl⟩ := Option.map_eq_some_iff.mp h
    exact .resume h1 hg
  case runEnds =>
    split_ifs at h with h1
    cases h
    exact .conclude h1.1 h1.2
  case loopEnds =>
    split_ifs at h with h1
    obtain ⟨r, hr, rfl⟩ := Option.map_eq_some_iff.mp h
    exact .loopEnds h1 hr
  case adapterEnds =>
    split_ifs at h with h1
    obtain ⟨r, hr, rfl⟩ := Option.map_eq_some_iff.mp h
    exact .adapterEnds h1 hr
  case send =>
    split_ifs at h with h1
    split at h
    · next r res hr hres =>
      cases h
      exact .send h1.1 hr hres
    · cases h
  case published =>
    split at h
    · next sent h1 =>
      obtain ⟨r, hr, rfl⟩ := Option.map_eq_some_iff.mp h
      exact .published h1 hr
    · cases h
  case offloaded =>
    split at h
    · next ms bs h1 =>
      split_ifs at h with h2
      · cases h
        exact .lostOffload h1 h2
      · obtain ⟨r, hr, rfl⟩ := Option.map_eq_some_iff.mp h
        exact .offloaded h1 hr
    · cases h
  case drainEnds =>
    split at h
    · next next h1 =>
      split_ifs at h
      cases h
      exact .drained h1
    · cases h
  case drainFails =>
    split at h
    · next next h1 =>
      obtain ⟨r, hr, rfl⟩ := Option.map_eq_some_iff.mp h
      exact .drainFails h1 hr
    · cases h
  case undone =>
    split at h
    · next next h1 =>
      split_ifs at h with h2
      obtain ⟨r, hr, rfl⟩ := Option.map_eq_some_iff.mp h
      exact .undone h1 h2 hr
    · cases h

/-! ### The moves of an event -/

theorem stepJob_moves {s : System} {b' : Bus} {j : ℕ} {e : JobEntry} {t : JobTask} {ev : Event}
    (ha : ev.actor = .job j) (he : s.bus.jobs j = some e) (ht : e.task = some t)
    (h : s.bus.stepJob j e t ev = some b') :
    Moves (fun q => s.hits ev q = true) s.bus.toBoard b'.toBoard := by
  have hpc : s.bus.pc j = some t.pc := by simp [Board.pc, he, ht]
  have hat : ∀ r, e.session = some r → s.bus.At j r t.pc := fun r hr => ⟨e, t, he, hr, ht, rfl⟩
  have hcancel : s.bus.cancelRequested j = t.cancelRequested := by simp [Board.cancelRequested, he, ht]
  cases stepJob_cases ha h with
  | abandon h1 h2 =>
    refine (Move.abandon (.inl (by rw [hpc, h1])) ?_).single
    rw [System.hits, hcancel, h2]
  | acquire h1 => exact acquireSlot_moves (by rw [hpc, h1]) _
  | @resume granted h1 hg =>
    have hslot : s.bus.pc j = some .slot := by rw [hpc, h1]
    cases granted with
    | true => exact (Move.beginRun (.inr hslot)).single
    | false =>
      refine (Move.abandon (.inr hslot) ?_).single
      simp [System.hits, he, hg]
  | @conclude o h1 hs =>
    refine (Move.conclude (by rw [hpc, h1]) he hs fun hsucc ha => ?_).single
    cases o with
    | returned res =>
      simp only [AdapterOutcome.result] at hsucc ha
      simp [System.hits, hsucc, ha]
    | ended e => simp [AdapterOutcome.result, e.success_result] at hsucc
  | @loopEnds o r h1 hr => exact loopEnds_moves (h1 ▸ hat r hr) o
  | @adapterEnds o r h1 hr =>
    refine adapterEnds_moves (h1 ▸ hat r hr) (fun res ho hs ha => ?_) fun res ho hj => ?_
    · simpa [ho, System.hits] using And.intro hs ha
    · simpa [ho, System.hits] using hj
  | send h1 _ _ => exact (Move.markSent (by rw [hpc, h1])).single
  | @published sent trimRaises r h1 hr => exact finishJob_moves (h1 ▸ hat r hr) fun h2 => h2
  | lostOffload h1 h2 => exact (Move.lostOffload (by rw [hpc, h1]) (by rw [System.hits, hcancel, h2])).single
  | @offloaded ms bs keep trimRaises r h1 hr => exact offloaded_moves (h1 ▸ hat r hr) fun h3 => h3
  | drained h1 => exact (Move.settle (.inl (by rw [hpc, h1])) (.inr rfl)).single
  | drainFails h1 hr => exact drainFails_moves (by rw [hpc, h1])
  | @undone next r h1 hd hr =>
    refine Moves.trans (Move.undo (r := r) (done_iff.mp hd)).single ?_
    exact (Move.settle (.inr ((pc_undo _ _ _ _).trans (by rw [hpc, h1]))) (.inr rfl)).single

theorem stepCall_moves {s : System} {p : Bus × Option Call} {i : ℕ} {c : Call} {ev : Event}
    (ha : ev.actor = .call i) (hc : s.calls i = some c) (h : s.bus.stepCall c ev = some p) :
    Moves (fun q => s.hits ev q = true) s.bus.toBoard p.1.toBoard := by
  cases ev <;> simp only [Event.actor, Actor.call.injEq, reduceCtorEq] at ha
  all_goals subst ha
  all_goals cases c <;> simp only [stepCall, reduceCtorEq] at h
  case submitEnds.submitting => cases h; exact .refl _
  case submitFails.submitting => cases h; exact failDispatch_moves _ _
  case undoEnds.undoing =>
    split_ifs at h with h1
    cases h
    exact (Move.undo (done_iff.mp h1)).single
  case abortEnds.aborting =>
    split_ifs at h with h1
    cases h
    exact abortEnds_moves h1
  case cancelEnds.cancelling =>
    split_ifs at h with h1
    cases h
    exact Moves.trans (markUnlessTerminal_moves fun _ => .inr (.inr (.inl (done_iff.mp h1)))) (cancelNext_moves _ _)
  case cleanEnds.cleaning =>
    split_ifs at h with h1
    cases h
    exact cleanEnds_moves (.inl h1)
  case cleanGivesUp.cleaning =>
    split_ifs at h with h1
    cases h
    exact cleanEnds_moves (.inr rfl)
  case waitDrainEnds.draining =>
    cases h
    exact waitDrain_moves _ _ _ _ (fun h1 => h1) fun _ => rfl
  case waitDrainFails.draining => cases h; exact failDispatch_moves _ _
  case waitEnds.waiting =>
    split_ifs at h with h1
    cases h
    refine waitReconciled_moves _ _ _ (fun h2 => h2) fun h2 => ?_
    simpa [System.hits, hc] using h2
  case waitTimesOut.waiting => cases h; exact .refl _
  case discovered.discovering => cases h; rw [toBoard_discovered]; exact .refl _
  case consumed.consuming => cases h; rw [toBoard_consumed]; exact .refl _
  case consumeFails.consuming => cases h; rw [toBoard_consumeNext]; exact .refl _
  case interrupt.undoing => cases h; exact cancel_moves _ _
  case interrupt.aborting => cases h; exact cancel_moves _ _
  case interrupt.cancelling => cases h; exact cancel_moves _ _
  case interrupt.cleaning => cases h; exact cancel_moves _ _
  case interrupt.waiting => cases h; exact .refl _
  case interrupt.discovering => cases h; exact .refl _
  case interrupt.consuming => cases h; exact .refl _

theorem openCall_moves {s : System} {p : Bus × Option Call} {ev : Event} (h : s.bus.openCall ev = some p) :
    Moves (fun q => s.hits ev q = true) s.bus.toBoard p.1.toBoard := by
  cases ev <;> simp only [openCall, reduceCtorEq] at h
  case createSession taskId name =>
    cases h
    dsimp only
    split
    · exact .refl _
    · exact (Move.createSession _ _).single
  case submit => cases h; exact submit_moves _ _ _ _
  case submitTaskToSession r prompt recipient est trimRaises =>
    split_ifs at h with h1
    cases h
    exact submitTask_moves h1.1 _ _ _ _ fun h2 => h2
  case abort => cases h; exact abort_moves _ _
  case cancelForParent => cases h; exact cancelForParent_moves _ _
  case cleanupTask => cases h; exact cleanNext_moves _ _ _
  case waitAny => cases h; exact waitAny_moves _ _ (fun h1 => h1) fun h1 => by simpa [System.hits] using h1

end Bus

/-- **What an event does to the board**: a sequence of moves, the labelled ones
only where the event hits the quirk. -/
theorem step_moves {s s' : System} {ev : Bus.Event} (h : s.step ev = some s') :
    Moves (fun q => s.hits ev q = true) s.bus.toBoard s'.bus.toBoard := by
  unfold System.step at h
  split at h
  · next j ha =>
    obtain ⟨e, he, h⟩ := Option.bind_eq_some_iff.mp h
    obtain ⟨t, ht, h⟩ := Option.bind_eq_some_iff.mp h
    obtain ⟨b, hb, rfl⟩ := Option.map_eq_some_iff.mp h
    exact Bus.stepJob_moves ha he ht hb
  · next i ha =>
    obtain ⟨c, hc, h⟩ := Option.bind_eq_some_iff.mp h
    obtain ⟨p, hp, rfl⟩ := Option.map_eq_some_iff.mp h
    exact Bus.stepCall_moves ha hc hp
  · obtain ⟨p, hp, rfl⟩ := Option.map_eq_some_iff.mp h
    exact Bus.openCall_moves hp

end AgentBus
end AgentCore
