/-
# What a cleanup rescues

`cleanup_task` of `bus.py` empties the `pending_results` of each session of a
task, once before it waits for the session's running job and once behind that,
and puts the evidence and the assertions of what it found into the pool of the
task. It looks nowhere else: the results recovered from messages that no caller
has been given are dropped with their buffer, as is what the registry knows of
jobs that are of no session, and a report that is pending is rescued without a
look into the set of delivered jobs.

`Bus.cleanLoop` is the whole of a call: what the bus has become when a wait
ends is `world` of what it was, and the reports rescued are collected. It is the
steps of the call one after the other (`left_step`). What a wait allows for
(`Minds`) is what the jobs do when they go on (`minds_run`).

Key definitions: `Bus.cleanup`, `Bus.waits`, `Bus.undelivered`, `Bus.Minds`.
Key theorems: `cleanup_transfers`, `cleanup_transfers_iff`.
-/
import AgentCore.AgentBus.Exchange
import AgentCore.AgentBus.Status

namespace AgentCore
namespace AgentBus

/-- What the metadata of a result is read for. -/
structure Metadata (ε : Type) where
  evidenceCards : List ε := []
  assertions : List ε := []
  deriving DecidableEq, Repr

/-- `accumulate_task_metadata`; an empty list adds nothing. -/
def Metadata.accumulate {ε : Type} (pool more : Metadata ε) : Metadata ε where
  evidenceCards := pool.evidenceCards ++ more.evidenceCards
  assertions := pool.assertions ++ more.assertions

namespace Bus

/-- The ids `cleanup_task` looks at. -/
def sessionIds (b : Bus) : List String :=
  ((List.range b.sessionCount).filter fun r => (b.sessions r).listed).map fun r => (b.sessions r).sessionId

/-- The session's reports are rescued and its queue aborted. -/
def clear (b : Bus) (r : ℕ) : Bus := (b.rescue r).abortQueue r

/-- A call of `cleanup_task` over the session ids it has still to look at, with
the reports it has rescued; none when it raises. -/
def cleanLoop (world : List String → Bus → Bus) (taskId : String) : Bus → List String → List Report →
    Option (Bus × List Report)
  | b, [], rescued => some (b.forget taskId, rescued)
  | b, sid :: rest, rescued =>
    match b.find sid with
    | none => cleanLoop world taskId b rest rescued
    | some r =>
      if (b.sessions r).taskId ≠ taskId then cleanLoop world taskId b rest rescued
      else
        let rescued := rescued ++ (b.sessions r).pendingResults
        let b := b.clear r
        match (b.sessions r).currentJobId with
        | none => cleanLoop world taskId (b.dropSession r) rest (rescued ++ (b.sessions r).pendingResults)
        | some j =>
          if b.busy r && b.pc j != none && !b.done j then
            -- the wait for the job's task
            let b := (world rest (b.cancel j)).markUnlessTerminal j
            let rescued := rescued ++ (b.sessions r).pendingResults
            let b := b.rescue r
            match b.find sid with
            | none => none
            | some r' => cleanLoop world taskId (b.setBoard (b.unlist r')) rest rescued
          else
            let b := b.markUnlessTerminal j
            cleanLoop world taskId (b.dropSession r) rest (rescued ++ (b.sessions r).pendingResults)

/-- What a cleanup leaves: the bus, the reports it has rescued, and the pool. -/
structure Cleaned (ε : Type) where
  bus : Bus
  rescued : List Report
  pool : Metadata ε

/-- `cleanup_task`. The pool is dropped at first; `meanwhile` is what others
have put into it when the rescued is. The metadata of a result is that of its
job. -/
def cleanup {ε : Type} (b : Bus) (world : List String → Bus → Bus) (metadata : ℕ → Metadata ε)
    (meanwhile : Metadata ε) (taskId : String) : Option (Cleaned ε) :=
  (b.cleanLoop world taskId b.sessionIds []).map fun p =>
    { bus := p.1
      rescued := p.2
      pool := meanwhile.accumulate
        { evidenceCards := p.2.flatMap fun rep => (metadata rep.job).evidenceCards
          assertions := p.2.flatMap fun rep => (metadata rep.job).assertions } }

/-- The session of the task that is registered under an id. -/
def registered (b : Bus) (taskId sid : String) : Option ℕ :=
  (b.find sid).filter fun r => (b.sessions r).taskId == taskId

/-- The reports that wait in the session of the task under an id. -/
def awaiting (b : Bus) (taskId sid : String) : List Report :=
  ((b.registered taskId sid).map fun r => (b.sessions r).pendingResults).getD []

/-- How many of some reports are of the job. -/
def timesOf (j : ℕ) (reports : List Report) : ℕ := (reports.map (·.job)).count j

/-- How often a result of the job waits in the registered sessions of the
task. -/
def waits (b : Bus) (taskId : String) (j : ℕ) : ℕ := timesOf j (b.sessionIds.flatMap (b.awaiting taskId))

/-- The registry has a result of the job, which is of the task. -/
def finished (b : Bus) (taskId : String) (j : ℕ) : Bool :=
  (b.jobs j).any fun e => e.parentTaskId == taskId && e.result.isSome

/-- The job has a result: in the registry, recovered from a message, or
delivered. -/
def settled (b : Bus) (taskId : String) (j : ℕ) : Bool :=
  b.finished taskId j || b.isDelivered taskId j || decide (0 < b.buffered taskId j)

/-- The bus has a result of the job that no caller has been given: the registry
has it and it is not delivered, or it is among those recovered from messages. -/
def undelivered (b : Bus) (taskId : String) (j : ℕ) : Bool :=
  b.finished taskId j && !b.isDelivered taskId j || decide (0 < b.buffered taskId j)

theorem timesOf_append (j : ℕ) (xs ys : List Report) : timesOf j (xs ++ ys) = timesOf j xs + timesOf j ys := by
  simp only [timesOf, List.map_append, List.count_append]

@[simp] theorem timesOf_nil (j : ℕ) : timesOf j [] = 0 := rfl

/-! ### Where sessions are found -/

/-- What a session is found by. -/
def seat (b : Bus) (r : ℕ) : Bool × String × String :=
  ((b.sessions r).listed, (b.sessions r).sessionId, (b.sessions r).taskId)

/-- Every session is found as before. -/
structure Seated (b b' : Bus) : Prop where
  count : b'.sessionCount = b.sessionCount
  seat : ∀ r, b'.seat r = b.seat r

/-- The sessions with other ids are as they were. -/
structure Apart (sid : String) (b b' : Bus) : Prop where
  count : b'.sessionCount = b.sessionCount
  ids : ∀ r, (b'.sessions r).sessionId = (b.sessions r).sessionId
  seat : ∀ r, (b.sessions r).sessionId ≠ sid → b'.seat r = b.seat r
  pending : ∀ r, (b.sessions r).sessionId ≠ sid → (b'.sessions r).pendingResults = (b.sessions r).pendingResults

theorem find_some {b : Bus} {sid : String} {r : ℕ} (h : b.find sid = some r) : (b.sessions r).sessionId = sid := by
  have hp := List.find?_some h
  simp only [Bool.and_eq_true, beq_iff_eq] at hp
  exact hp.2

theorem registered_eq_some {b : Bus} {taskId sid : String} {r : ℕ} :
    b.registered taskId sid = some r ↔ b.find sid = some r ∧ (b.sessions r).taskId = taskId := by
  simp [registered, Option.filter_eq_some_iff]

theorem awaiting_of_registered {b : Bus} {taskId sid : String} {r : ℕ} (h : b.registered taskId sid = some r) :
    b.awaiting taskId sid = (b.sessions r).pendingResults := by
  rw [awaiting, h]
  rfl

theorem awaiting_of_not_registered {b : Bus} {taskId sid : String} (h : b.registered taskId sid = none) :
    b.awaiting taskId sid = [] := by
  rw [awaiting, h]
  rfl

namespace Seated

variable {b b' b'' : Bus} {r : ℕ} {f : SubAgentSession → SubAgentSession}

theorem trans (h : Seated b b') (h' : Seated b' b'') : Seated b b'' where
  count := h'.count.trans h.count
  seat r := (h'.seat r).trans (h.seat r)

theorem of_sessions (hc : b'.sessionCount = b.sessionCount) (hs : b'.sessions = b.sessions) : Seated b b' where
  count := hc
  seat r := by simp only [Bus.seat, hs]

theorem updateSession (hf : ∀ s, ((f s).listed, (f s).sessionId, (f s).taskId) = (s.listed, s.sessionId, s.taskId)) :
    Seated b (b.setBoard (b.updateSession r f)) where
  count := rfl
  seat r' := Board.forall_updateSession
    (P := fun r' s => (s.listed, s.sessionId, s.taskId) = b.seat r') (fun _ => rfl) (hf (b.sessions r)) r'

theorem registered_eq (h : Seated b b') (taskId sid : String) :
    b'.registered taskId sid = b.registered taskId sid := by
  have hfind : b'.find sid = b.find sid := by
    unfold find
    have hsame : ∀ r, ((b'.sessions r).listed && (b'.sessions r).sessionId == sid)
        = ((b.sessions r).listed && (b.sessions r).sessionId == sid) := by
      intro r
      have hseat := h.seat r
      simp only [Bus.seat, Prod.mk.injEq] at hseat
      rw [hseat.1, hseat.2.1]
    rw [h.count]
    simp only [hsame]
  have htask : ∀ r, ((b'.sessions r).taskId == taskId) = ((b.sessions r).taskId == taskId) := by
    intro r
    have hseat := h.seat r
    simp only [Bus.seat, Prod.mk.injEq] at hseat
    rw [hseat.2.2]
  unfold registered
  rw [hfind]
  simp only [htask]

end Seated

namespace Apart

variable {sid : String} {b b' b'' : Bus}

theorem trans (h : Apart sid b b') (h' : Apart sid b' b'') : Apart sid b b'' where
  count := h'.count.trans h.count
  ids r := (h'.ids r).trans (h.ids r)
  seat r hr := (h'.seat r (by rwa [h.ids r])).trans (h.seat r hr)
  pending r hr := (h'.pending r (by rwa [h.ids r])).trans (h.pending r hr)

theorem of_sessions (hc : b'.sessionCount = b.sessionCount) (hs : b'.sessions = b.sessions) : Apart sid b b' where
  count := hc
  ids r := by rw [hs]
  seat r _ := by simp only [Bus.seat, hs]
  pending r _ := by rw [hs]

theorem updateSession {r : ℕ} {f : SubAgentSession → SubAgentSession}
    (hid : (f (b.sessions r)).sessionId = (b.sessions r).sessionId) (hr : (b.sessions r).sessionId = sid) :
    Apart sid b (b.setBoard (b.updateSession r f)) := by
  have hsame : ∀ r', (b.sessions r').sessionId ≠ sid →
      (b.setBoard (b.updateSession r f)).sessions r' = b.sessions r' := by
    intro r' hr'
    have hne : r' ≠ r := fun h => hr' (h ▸ hr)
    exact Board.sessions_updateSession_ne hne
  refine ⟨rfl, fun r' => ?_, fun r' hr' => ?_, fun r' hr' => ?_⟩
  · exact Board.forall_updateSession (P := fun r' s => s.sessionId = (b.sessions r').sessionId) (fun _ => rfl) hid r'
  · simp only [Bus.seat, hsame r' hr']
  · rw [hsame r' hr']

/-- What is under another id is found as before. -/
theorem registered_eq (h : Apart sid b b') (taskId : String) {sid' : String} (hne : sid' ≠ sid) :
    b'.registered taskId sid' = b.registered taskId sid' := by
  have hseat : ∀ r, (b.sessions r).sessionId = sid' → b'.seat r = b.seat r := fun r hr => h.seat r (hr ▸ hne)
  have hsame : ∀ r, ((b'.sessions r).listed && (b'.sessions r).sessionId == sid')
      = ((b.sessions r).listed && (b.sessions r).sessionId == sid') := by
    intro r
    rw [h.ids r]
    by_cases hr : (b.sessions r).sessionId = sid'
    · have hlisted := congrArg (·.1) (hseat r hr)
      simp only [Bus.seat] at hlisted
      rw [hlisted]
    · have hoff : ((b.sessions r).sessionId == sid') = false := by simpa using hr
      rw [hoff, Bool.and_false, Bool.and_false]
  have hfind : b'.find sid' = b.find sid' := by
    unfold find
    rw [h.count]
    simp only [hsame]
  unfold registered
  rw [hfind]
  cases hf : b.find sid' with
  | none => rfl
  | some r =>
    have htask := congrArg (·.2.2) (hseat r (find_some hf))
    simp only [Bus.seat] at htask
    simp only [Option.filter, htask]

theorem awaiting_eq (h : Apart sid b b') (taskId : String) {sid' : String} (hne : sid' ≠ sid) :
    b'.awaiting taskId sid' = b.awaiting taskId sid' := by
  cases hr : b.registered taskId sid' with
  | none => rw [awaiting_of_not_registered hr, awaiting_of_not_registered ((h.registered_eq taskId hne).trans hr)]
  | some r =>
    have hid := find_some (registered_eq_some.mp hr).1
    rw [awaiting_of_registered hr, awaiting_of_registered ((h.registered_eq taskId hne).trans hr),
      h.pending r (hid ▸ hne)]

end Apart

/-! ### What a cleanup does to a session -/

theorem sessions_abortPending_fold (ps : List PendingSessionTask) : ∀ brd : Board,
    (ps.foldl (fun brd p => brd.markAborted p.jobId) brd).sessions = brd.sessions ∧
      (ps.foldl (fun brd p => brd.markAborted p.jobId) brd).sessionCount = brd.sessionCount := by
  induction ps with
  | nil => exact fun brd => ⟨rfl, rfl⟩
  | cons p ps ih => exact fun brd => ih (brd.markAborted p.jobId)

theorem sessions_cancelTask (fuel : ℕ) (b : Bus) (j : ℕ) :
    (cancelTask fuel b j).sessions = b.sessions ∧ (cancelTask fuel b j).sessionCount = b.sessionCount := by
  induction fuel generalizing j with
  | zero => exact ⟨rfl, rfl⟩
  | succ fuel ih =>
    unfold cancelTask
    split
    · exact ⟨rfl, rfl⟩
    · exact ⟨rfl, rfl⟩
    · exact ih _
    · exact ⟨rfl, rfl⟩
    · exact ⟨rfl, rfl⟩

theorem sessions_cancel (b : Bus) (j : ℕ) :
    (b.cancel j).sessions = b.sessions ∧ (b.cancel j).sessionCount = b.sessionCount :=
  sessions_cancelTask _ b j

theorem sessions_markUnlessTerminal (b : Bus) (j : ℕ) :
    (b.markUnlessTerminal j).sessions = b.sessions ∧ (b.markUnlessTerminal j).sessionCount = b.sessionCount := by
  unfold markUnlessTerminal
  split
  · exact ⟨rfl, rfl⟩
  · rw [toBoard_markJobAborted]
    exact ⟨rfl, rfl⟩

variable {b b' b'' : Bus} {taskId sid : String} {r : ℕ}

theorem pending_rescue (b : Bus) (r : ℕ) : ((b.rescue r).sessions r).pendingResults = [] := by
  rw [rescue, toBoard_setBoard, Board.dropResults, Board.sessions_updateSession_self]

theorem rescue_seated (b : Bus) (r : ℕ) : Seated b (b.rescue r) := .updateSession fun _ => rfl

theorem rescue_apart (hr : (b.sessions r).sessionId = sid) : Apart sid b (b.rescue r) := .updateSession rfl hr

/-- Of the sessions, only the queue of the one is touched. -/
theorem sessions_abortQueue (b : Bus) (r : ℕ) : (b.abortQueue r).sessions = (b.setPending r []).sessions := by
  obtain ⟨hs, -⟩ := sessions_abortPending_fold (b.sessions r).pendingTasks b.toBoard
  rw [toBoard_abortQueue, Board.abortPending, Board.setPending, Board.updateSession, hs]
  rfl

theorem sessionCount_abortQueue (b : Bus) (r : ℕ) : (b.abortQueue r).sessionCount = b.sessionCount :=
  (sessions_abortPending_fold (b.sessions r).pendingTasks b.toBoard).2

theorem pending_abortQueue (b : Bus) (r : ℕ) :
    ((b.abortQueue r).sessions r).pendingResults = (b.sessions r).pendingResults := by
  rw [sessions_abortQueue, Board.setPending, Board.sessions_updateSession_self]

theorem abortQueue_seated (b : Bus) (r : ℕ) : Seated b (b.abortQueue r) := by
  have hdrop : Seated b (b.setBoard (b.setPending r [])) := .updateSession fun _ => rfl
  exact hdrop.trans (.of_sessions (b.sessionCount_abortQueue r) (b.sessions_abortQueue r))

theorem abortQueue_apart (hr : (b.sessions r).sessionId = sid) : Apart sid b (b.abortQueue r) := by
  have hdrop : Apart sid b (b.setBoard (b.setPending r [])) := .updateSession rfl hr
  exact hdrop.trans (.of_sessions (b.sessionCount_abortQueue r) (b.sessions_abortQueue r))

theorem unlist_apart (hr : (b.sessions r).sessionId = sid) : Apart sid b (b.setBoard (b.unlist r)) :=
  .updateSession rfl hr

theorem dropSession_apart (hr : (b.sessions r).sessionId = sid) : Apart sid b (b.dropSession r) := by
  have hid : ((b.rescue r).sessions r).sessionId = sid := ((rescue_apart hr).ids r).trans hr
  exact (rescue_apart hr).trans (unlist_apart (b := b.rescue r) hid)

theorem clear_seated (b : Bus) (r : ℕ) : Seated b (b.clear r) := (rescue_seated b r).trans (abortQueue_seated _ r)

theorem clear_apart (hr : (b.sessions r).sessionId = sid) : Apart sid b (b.clear r) := by
  have hid : ((b.rescue r).sessions r).sessionId = sid := ((rescue_apart hr).ids r).trans hr
  exact (rescue_apart hr).trans (abortQueue_apart hid)

theorem pending_clear (b : Bus) (r : ℕ) : ((b.clear r).sessions r).pendingResults = [] :=
  (pending_abortQueue _ r).trans (pending_rescue b r)

/-! ### The whole call -/

/-- What others do to the sessions of the task under the ids while a call
waits: the sessions stay, and reports are filed in them, of jobs of which `fin`
does not hold. -/
structure Minds (taskId : String) (sids : List String) (fin : ℕ → Bool) (b b' : Bus) : Prop where
  registered : ∀ sid ∈ sids, b'.registered taskId sid = b.registered taskId sid
  files : ∀ sid ∈ sids, ∃ new, b'.awaiting taskId sid = b.awaiting taskId sid ++ new ∧
    ∀ rep ∈ new, fin rep.job = false

theorem Minds.refl {fin : ℕ → Bool} {sids : List String} (b : Bus) : Minds taskId sids fin b b :=
  ⟨fun _ _ => rfl, fun _ _ => ⟨[], (List.append_nil _).symm, fun _ hrep => by cases hrep⟩⟩

theorem Minds.of_apart {fin : ℕ → Bool} {sids : List String} (h : Apart sid b b') (hsid : sid ∉ sids) :
    Minds taskId sids fin b b' := by
  have hne : ∀ sid' ∈ sids, sid' ≠ sid := by
    rintro sid' hmem rfl
    exact hsid hmem
  refine ⟨fun sid' hmem => h.registered_eq taskId (hne sid' hmem), fun sid' hmem => ⟨[], ?_, ?_⟩⟩
  · rw [h.awaiting_eq taskId (hne sid' hmem), List.append_nil]
  · exact fun _ hrep => by cases hrep

theorem Minds.trans {fin : ℕ → Bool} {sids : List String} (h : Minds taskId sids fin b b')
    (h' : Minds taskId sids fin b' b'') : Minds taskId sids fin b b'' := by
  refine ⟨fun sid hmem => (h'.registered sid hmem).trans (h.registered sid hmem), fun sid hmem => ?_⟩
  obtain ⟨new, hnew, hfin⟩ := h.files sid hmem
  obtain ⟨new', hnew', hfin'⟩ := h'.files sid hmem
  refine ⟨new ++ new', by rw [hnew', hnew, List.append_assoc], fun rep hrep => ?_⟩
  exact (List.mem_append.mp hrep).elim (hfin rep) (hfin' rep)

theorem Minds.mono {fin : ℕ → Bool} {sids sids' : List String} (h : Minds taskId sids fin b b')
    (hsub : ∀ sid ∈ sids', sid ∈ sids) : Minds taskId sids' fin b b' :=
  ⟨fun sid hmem => h.registered sid (hsub sid hmem), fun sid hmem => h.files sid (hsub sid hmem)⟩

theorem timesOf_eq_zero {fin : ℕ → Bool} {j : ℕ} {reports : List Report} (hj : fin j = true)
    (h : ∀ rep ∈ reports, fin rep.job = false) : timesOf j reports = 0 := by
  refine List.count_eq_zero.mpr fun hmem => ?_
  obtain ⟨rep, hrep, rfl⟩ := List.mem_map.mp hmem
  rw [h rep hrep] at hj
  cases hj

/-- Of a job of which `fin` holds nothing is filed while a call waits. -/
theorem Minds.timesOf_eq {fin : ℕ → Bool} {j : ℕ} (hj : fin j = true) : ∀ {sids : List String},
    Minds taskId sids fin b b' →
      timesOf j (sids.flatMap (b'.awaiting taskId)) = timesOf j (sids.flatMap (b.awaiting taskId))
  | [], _ => rfl
  | sid :: sids, h => by
    obtain ⟨new, hnew, hfin⟩ := h.files sid List.mem_cons_self
    have hrest := timesOf_eq hj (h.mono fun _ hmem => List.mem_cons_of_mem sid hmem)
    rw [List.flatMap_cons, List.flatMap_cons, timesOf_append, timesOf_append, hrest, hnew, timesOf_append,
      timesOf_eq_zero hj hfin, Nat.add_zero]

variable {world : List String → Bus → Bus} {rest : List String} {rescued : List Report} {j : ℕ}

theorem cleanLoop_pass (h : b.registered taskId sid = none) :
    b.cleanLoop world taskId (sid :: rest) rescued = b.cleanLoop world taskId rest rescued := by
  cases hf : b.find sid with
  | none => simp only [cleanLoop, hf]
  | some r =>
    have htask : (b.sessions r).taskId ≠ taskId := fun htask => by
      rw [registered_eq_some.mpr ⟨hf, htask⟩] at h
      cases h
    simp only [cleanLoop, hf, if_pos htask]

theorem cleanLoop_idle (h : b.registered taskId sid = some r) (hcur : ((b.clear r).sessions r).currentJobId = none) :
    b.cleanLoop world taskId (sid :: rest) rescued =
      ((b.clear r).dropSession r).cleanLoop world taskId rest
        (rescued ++ (b.sessions r).pendingResults ++ ((b.clear r).sessions r).pendingResults) := by
  obtain ⟨hf, htask⟩ := registered_eq_some.mp h
  simp only [cleanLoop, hf, if_neg (not_not.mpr htask), hcur]

theorem cleanLoop_marks (h : b.registered taskId sid = some r)
    (hcur : ((b.clear r).sessions r).currentJobId = some j)
    (hw : ((b.clear r).busy r && (b.clear r).pc j != none && !(b.clear r).done j) = false) :
    b.cleanLoop world taskId (sid :: rest) rescued =
      (((b.clear r).markUnlessTerminal j).dropSession r).cleanLoop world taskId rest
        (rescued ++ (b.sessions r).pendingResults ++
          (((b.clear r).markUnlessTerminal j).sessions r).pendingResults) := by
  obtain ⟨hf, htask⟩ := registered_eq_some.mp h
  simp only [cleanLoop, hf, if_neg (not_not.mpr htask), hcur, hw, Bool.false_eq_true, if_false]

/-- The wait for the job's task, and the session dropped that is then found. -/
theorem cleanLoop_waits {r' : ℕ} {b₁ : Bus} (h : b.registered taskId sid = some r)
    (hcur : ((b.clear r).sessions r).currentJobId = some j)
    (hw : ((b.clear r).busy r && (b.clear r).pc j != none && !(b.clear r).done j) = true)
    (hb₁ : b₁ = (world rest ((b.clear r).cancel j)).markUnlessTerminal j) (hfind : (b₁.rescue r).find sid = some r') :
    b.cleanLoop world taskId (sid :: rest) rescued =
      ((b₁.rescue r).setBoard ((b₁.rescue r).unlist r')).cleanLoop world taskId rest
        (rescued ++ (b.sessions r).pendingResults ++ (b₁.sessions r).pendingResults) := by
  obtain ⟨hf, htask⟩ := registered_eq_some.mp h
  subst hb₁
  simp only [cleanLoop, hf, if_neg (not_not.mpr htask), hcur, hw, if_true, hfind]

/-- A session whose job the call has waited for: it is still the one under its
id, and what has been filed in it is of jobs that had no result. -/
theorem wait_minds {all : List String} {fin : ℕ → Bool} {woken : Bus} (j : ℕ)
    (hreg : b.registered taskId sid = some r) (hwait : Minds taskId all fin ((b.clear r).cancel j) woken)
    (hsid : sid ∈ all) (hrest : ∀ sid ∈ rest, sid ∈ all) (hnew : sid ∉ rest) :
    ((woken.markUnlessTerminal j).rescue r).find sid = some r ∧
      (∀ rep ∈ ((woken.markUnlessTerminal j).sessions r).pendingResults, fin rep.job = false) ∧
      Minds taskId rest fin b
        (((woken.markUnlessTerminal j).rescue r).setBoard (((woken.markUnlessTerminal j).rescue r).unlist r)) := by
  obtain ⟨hsAsked, hcAsked⟩ := sessions_cancel (b.clear r) j
  obtain ⟨hsMark, hcMark⟩ := sessions_markUnlessTerminal woken j
  have hasked : ((b.clear r).cancel j).registered taskId sid = some r := by
    rw [(Seated.of_sessions hcAsked hsAsked).registered_eq, (clear_seated b r).registered_eq, hreg]
  have hnone : ((b.clear r).cancel j).awaiting taskId sid = [] := by
    rw [awaiting_of_registered hasked, hsAsked, pending_clear]
  have hwoken : woken.registered taskId sid = some r := (hwait.registered sid hsid).trans hasked
  obtain ⟨new, hfiled, hfin⟩ := hwait.files sid hsid
  rw [hnone, List.nil_append, awaiting_of_registered hwoken] at hfiled
  have hend : ((woken.markUnlessTerminal j).rescue r).registered taskId sid = some r := by
    rw [(rescue_seated _ r).registered_eq, (Seated.of_sessions hcMark hsMark).registered_eq, hwoken]
  have hfind := (registered_eq_some.mp hend).1
  refine ⟨hfind, by rwa [hsMark, hfiled], ?_⟩
  have hid : (b.sessions r).sessionId = sid := find_some (registered_eq_some.mp hreg).1
  have hidWoken : (woken.sessions r).sessionId = sid := find_some (registered_eq_some.mp hwoken).1
  have hmark : Apart sid woken (woken.markUnlessTerminal j) := .of_sessions hcMark hsMark
  have hrescue := hmark.trans (rescue_apart ((hmark.ids r).trans hidWoken))
  have hbefore : Minds taskId rest fin b ((b.clear r).cancel j) :=
    .of_apart ((clear_apart hid).trans (.of_sessions hcAsked hsAsked)) hnew
  exact (hbefore.trans (hwait.mono hrest)).trans (.of_apart (hrescue.trans (unlist_apart (find_some hfind))) hnew)

/-- **What a call rescues**: it does not raise, and of a job of which `fin`
holds it rescues what waits in the sessions it has still to look at. -/
theorem cleanLoop_rescues {all : List String} {fin : ℕ → Bool}
    (hworld : ∀ rest b₁, Minds taskId all fin b₁ (world rest b₁)) :
    ∀ (sids : List String) (b : Bus) (rescued : List Report), sids.Nodup → (∀ sid ∈ sids, sid ∈ all) →
      ∃ b' reps, b.cleanLoop world taskId sids rescued = some (b', rescued ++ reps) ∧
        ∀ j, fin j = true → timesOf j reps = timesOf j (sids.flatMap (b.awaiting taskId))
  | [], b, rescued, _, _ => ⟨b.forget taskId, [], by rw [List.append_nil, cleanLoop], fun _ _ => rfl⟩
  | sid :: rest, b, rescued, hnodup, hall => by
    obtain ⟨hnew, hrest⟩ := List.nodup_cons.mp hnodup
    have hallRest : ∀ sid ∈ rest, sid ∈ all := fun sid hmem => hall sid (List.mem_cons_of_mem _ hmem)
    -- the rest of the call, once this session is done with
    have hgo : ∀ (b₁ : Bus) (got : List Report), Minds taskId rest fin b b₁ →
        (∀ j, fin j = true → timesOf j got = timesOf j (b.awaiting taskId sid)) →
        ∃ b' reps, b₁.cleanLoop world taskId rest (rescued ++ got) = some (b', rescued ++ reps) ∧
          ∀ j, fin j = true → timesOf j reps = timesOf j ((sid :: rest).flatMap (b.awaiting taskId)) := by
      intro b₁ got hminds hgot
      obtain ⟨b', reps, hloop, hreps⟩ := cleanLoop_rescues hworld rest b₁ (rescued ++ got) hrest hallRest
      refine ⟨b', got ++ reps, by rw [hloop, List.append_assoc], fun j hj => ?_⟩
      rw [timesOf_append, List.flatMap_cons, timesOf_append, hgot j hj, hreps j hj, hminds.timesOf_eq hj]
    cases hreg : b.registered taskId sid with
    | none =>
      have h := hgo b [] (.of_apart (Apart.of_sessions rfl rfl) hnew) fun j _ => by
        rw [awaiting_of_not_registered hreg]
      rw [cleanLoop_pass hreg]
      rwa [List.append_nil] at h
    | some r =>
      have hid : (b.sessions r).sessionId = sid := find_some (registered_eq_some.mp hreg).1
      have hwaits : b.awaiting taskId sid = (b.sessions r).pendingResults := awaiting_of_registered hreg
      have hapart : Apart sid b (b.clear r) := clear_apart hid
      have hidClear : ((b.clear r).sessions r).sessionId = sid := (hapart.ids r).trans hid
      cases hcur : ((b.clear r).sessions r).currentJobId with
      | none =>
        rw [cleanLoop_idle hreg hcur, pending_clear, List.append_nil]
        exact hgo _ _ (.of_apart (hapart.trans (dropSession_apart hidClear)) hnew) fun j _ => by rw [hwaits]
      | some j =>
        cases hw : (b.clear r).busy r && (b.clear r).pc j != none && !(b.clear r).done j with
        | false =>
          obtain ⟨hs, hc⟩ := sessions_markUnlessTerminal (b.clear r) j
          have hmark : Apart sid b ((b.clear r).markUnlessTerminal j) := hapart.trans (.of_sessions hc hs)
          have hidMark := (hmark.ids r).trans hid
          rw [cleanLoop_marks hreg hcur hw, hs, pending_clear, List.append_nil]
          exact hgo _ _ (.of_apart (hmark.trans (dropSession_apart hidMark)) hnew) fun j _ => by rw [hwaits]
        | true =>
          obtain ⟨hfind, hfiled, hminds⟩ :=
            wait_minds j hreg (hworld rest _) (hall sid List.mem_cons_self) hallRest hnew
          rw [cleanLoop_waits hreg hcur hw rfl hfind, List.append_assoc]
          exact hgo _ _ hminds fun k hk => by
            rw [timesOf_append, timesOf_eq_zero hk hfiled, Nat.add_zero, hwaits]

/-! ### Jobs that go on while a call waits -/

/-- No session is found in another place, and reports are filed only, of jobs
of which `fin` does not hold. -/
structure Fills (fin : ℕ → Bool) (brd brd' : Board) : Prop where
  count : brd'.sessionCount = brd.sessionCount
  session : ∀ r, (brd'.sessions r).listed = (brd.sessions r).listed ∧
    (brd'.sessions r).sessionId = (brd.sessions r).sessionId ∧ (brd'.sessions r).taskId = (brd.sessions r).taskId ∧
    ∃ new, (brd'.sessions r).pendingResults = (brd.sessions r).pendingResults ++ new ∧
      ∀ rep ∈ new, fin rep.job = false

namespace Fills

variable {fin : ℕ → Bool} {brd brd' brd'' : Board}

theorem trans (h : Fills fin brd brd') (h' : Fills fin brd' brd'') : Fills fin brd brd'' := by
  refine ⟨h'.count.trans h.count, fun r => ?_⟩
  obtain ⟨hl, hi, ht, new, hnew, hfin⟩ := h.session r
  obtain ⟨hl', hi', ht', new', hnew', hfin'⟩ := h'.session r
  refine ⟨hl'.trans hl, hi'.trans hi, ht'.trans ht, new ++ new', by rw [hnew', hnew, List.append_assoc], ?_⟩
  exact fun rep hrep => (List.mem_append.mp hrep).elim (hfin rep) (hfin' rep)

theorem of_sessions (hc : brd'.sessionCount = brd.sessionCount) (hs : brd'.sessions = brd.sessions) :
    Fills fin brd brd' := by
  refine ⟨hc, fun r => ?_⟩
  rw [hs]
  exact ⟨rfl, rfl, rfl, [], (List.append_nil _).symm, fun _ hrep => by cases hrep⟩

/-- One session changes; reports are filed at the end. -/
theorem updateSession {f : SubAgentSession → SubAgentSession} (new : List Report)
    (hseat : (f (brd.sessions r)).listed = (brd.sessions r).listed ∧
      (f (brd.sessions r)).sessionId = (brd.sessions r).sessionId ∧
      (f (brd.sessions r)).taskId = (brd.sessions r).taskId)
    (hnew : (f (brd.sessions r)).pendingResults = (brd.sessions r).pendingResults ++ new)
    (hfin : ∀ rep ∈ new, fin rep.job = false) : Fills fin brd (brd.updateSession r f) := by
  refine ⟨rfl, fun r' => ?_⟩
  by_cases hr : r' = r
  · subst hr
    rw [Board.sessions_updateSession_self]
    exact ⟨hseat.1, hseat.2.1, hseat.2.2, new, hnew, hfin⟩
  · rw [Board.sessions_updateSession_ne hr]
    exact ⟨rfl, rfl, rfl, [], (List.append_nil _).symm, fun _ hrep => by cases hrep⟩

/-- A session changes in what is not read of it. -/
theorem keep {f : SubAgentSession → SubAgentSession}
    (hf : ∀ s, (f s).listed = s.listed ∧ (f s).sessionId = s.sessionId ∧ (f s).taskId = s.taskId ∧
      (f s).pendingResults = s.pendingResults) : Fills fin brd (brd.updateSession r f) := by
  obtain ⟨hl, hi, ht, hp⟩ := hf (brd.sessions r)
  exact updateSession [] ⟨hl, hi, ht⟩ (hp.trans (List.append_nil _).symm) fun _ hrep => by cases hrep

theorem setHistory (h : History × List TaskBoundary) : Fills fin brd (brd.setHistory r h) :=
  keep fun _ => ⟨rfl, rfl, rfl, rfl⟩

theorem clearCurrent : Fills fin brd (brd.clearCurrent r j) := keep fun _ => ⟨rfl, rfl, rfl, rfl⟩

theorem setPending (ps : List PendingSessionTask) : Fills fin brd (brd.setPending r ps) :=
  keep fun _ => ⟨rfl, rfl, rfl, rfl⟩

theorem extend (newTurns : History) : Fills fin brd (brd.extend r newTurns) := keep fun _ => ⟨rfl, rfl, rfl, rfl⟩

theorem dispatch (p : PendingSessionTask) : Fills fin brd (brd.dispatch r p) := by
  have hjob : ∀ (brd : Board) (e : JobEntry), Fills fin brd (brd.setJob p.jobId e) := fun _ _ => .of_sessions rfl rfl
  unfold Board.dispatch
  refine trans ?_ (hjob _ _)
  exact keep fun _ => ⟨rfl, rfl, rfl, rfl⟩

theorem leave (pc : Pc) : Fills fin brd (brd.leave j r pc) := clearCurrent.trans (.of_sessions rfl rfl)

theorem undo : Fills fin brd (brd.undo r j) := by
  unfold Board.undo
  split
  · exact clearCurrent
  · have hclose : Fills fin brd ((brd.closeAborted r).markAborted j) := (setHistory _).trans (.of_sessions rfl rfl)
    exact hclose.trans clearCurrent

/-- A job of which `fin` does not hold files its report. -/
theorem publish (hfin : fin j = false) (res : SubAgentResult) : Fills fin brd (brd.publish j r res) := by
  have hjob : Fills fin brd (brd.updateJob j fun e =>
      { e with status := res.status, result := some res, task := some { pc := .publishing false } }) :=
    .of_sessions rfl rfl
  refine hjob.trans (.updateSession [⟨j, (brd.sessions r).sessionId, res⟩] ⟨rfl, rfl, rfl⟩ rfl fun rep hrep => ?_)
  rw [List.mem_singleton.mp hrep]
  exact hfin

theorem publishAborted (hfin : fin j = false) (res : SubAgentResult) :
    Fills fin brd ((brd.closeAborted r).publish j r res) :=
  (setHistory _).trans (publish hfin res)

end Fills

variable {fin : ℕ → Bool}

theorem fills_drainQueue (b : Bus) (r : ℕ) (trimRaises : Bool) :
    Fills fin b.toBoard (b.drainQueue r trimRaises).1.toBoard := by
  unfold drainQueue
  split
  · exact .setPending _
  · dsimp only
    split
    · exact .setPending _
    · rw [toBoard_dispatchTask]
      exact (Fills.setPending _).trans (.dispatch _)

theorem fills_handOn (b : Bus) (j r : ℕ) (trimRaises : Bool) :
    Fills fin b.toBoard (b.handOn j r trimRaises).toBoard := by
  have hdrain : Fills fin b.toBoard (b.drainQueue r trimRaises).1.toBoard := fills_drainQueue b r trimRaises
  unfold handOn
  split
  · next hd =>
    rw [hd] at hdrain
    exact hdrain.trans (.of_sessions rfl rfl)
  · next hd =>
    rw [hd] at hdrain
    exact hdrain

theorem fills_finishJob (b : Bus) (j r : ℕ) (trimRaises : Bool) :
    Fills fin b.toBoard (b.finishJob j r trimRaises).toBoard := by
  have hrelease : Fills fin b.toBoard (b.releaseJob j).toBoard := by
    rw [toBoard_releaseJob]
    exact .of_sessions rfl rfl
  unfold finishJob
  dsimp only
  split
  · refine Fills.trans ?_ (fills_handOn _ j r trimRaises)
    exact hrelease.trans (.leave _)
  · split
    · exact hrelease.trans (.leave _)
    · refine Fills.trans ?_ (fills_handOn _ j r trimRaises)
      exact (hrelease.trans (.leave _)).trans (.setHistory _)

theorem fills_offloaded (b : Bus) (j r : ℕ) (h : History × List TaskBoundary) (ok trimRaises : Bool) :
    Fills fin b.toBoard (b.offloaded j r h ok trimRaises).toBoard := by
  have hdone : Fills fin b.toBoard (b.setPc j .finished) := .of_sessions rfl rfl
  unfold offloaded
  refine Fills.trans ?_ (fills_handOn _ j r trimRaises)
  cases ok
  · exact hdone
  · exact hdone.trans (.setHistory h)

theorem fills_drainFails (b : Bus) (j r next : ℕ) : Fills fin b.toBoard (b.drainFails j r next).toBoard := by
  unfold drainFails
  split
  · exact Fills.undo.trans (.of_sessions rfl rfl)
  · obtain ⟨hs, hc⟩ := sessions_cancel b next
    exact (Fills.of_sessions hc hs).trans (.of_sessions rfl rfl)

theorem fills_loopEnds (b : Bus) (r : ℕ) (o : LoopOutcome) (hfin : fin j = false) :
    Fills fin b.toBoard (b.loopEnds j r o).toBoard := by
  cases o with
  | ended e => exact .publishAborted hfin _
  | returned newTurns finalContent stoppedBy =>
    unfold loopEnds
    dsimp only
    split
    · exact ((Fills.extend newTurns).trans (.setHistory _)).trans (.of_sessions rfl rfl)
    · exact (Fills.extend newTurns).trans (.publishAborted hfin _)

theorem fills_adapterEnds (b : Bus) (r : ℕ) (o : AdapterOutcome) (hfin : fin j = false) :
    Fills fin b.toBoard (b.adapterEnds j r o).toBoard := by
  cases o with
  | returned res => exact .publish hfin res
  | ended e => exact .publishAborted hfin _

theorem fills_acquireSlot (b : Bus) (j : ℕ) (parent : String) :
    Fills fin b.toBoard (b.acquireSlot j parent).toBoard := by
  unfold acquireSlot
  split
  · exact .of_sessions rfl rfl
  · dsimp only
    split <;> exact .of_sessions rfl rfl

/-- A step of a job; a job at work is one of which `fin` does not hold. -/
theorem stepJob_fills {e : JobEntry} {t : JobTask} {ev : Event} (ha : ev.actor = .job j)
    (h : b.stepJob j e t ev = some b') (hwork : t.pc = .loop ∨ t.pc = .adapter → fin j = false) :
    Fills fin b.toBoard b'.toBoard := by
  cases stepJob_cases ha h with
  | abandon _ _ => exact .of_sessions rfl rfl
  | acquire _ => exact fills_acquireSlot _ _ _
  | @resume granted _ _ => cases granted <;> exact .of_sessions rfl rfl
  | conclude _ _ =>
    rw [toBoard_setBoard]
    exact .of_sessions rfl rfl
  | loopEnds hpc _ => exact fills_loopEnds _ _ _ (hwork (.inl hpc))
  | adapterEnds hpc _ => exact fills_adapterEnds _ _ _ (hwork (.inr hpc))
  | send _ _ _ => exact .of_sessions rfl rfl
  | published _ _ => exact fills_finishJob _ _ _ _
  | lostOffload _ _ => exact .of_sessions rfl rfl
  | offloaded _ _ => exact fills_offloaded _ _ _ _ _ _
  | drained _ => exact .of_sessions rfl rfl
  | drainFails _ _ => exact fills_drainFails _ _ _ _
  | undone _ _ _ => exact Fills.undo.trans (.of_sessions rfl rfl)

/-- A job goes on, one without a result if it is at work. -/
def GoesOn (fin : ℕ → Bool) (s : System) (ev : Event) : Prop :=
  ∃ j, ev.actor = .job j ∧ (s.bus.pc j = some .loop ∨ s.bus.pc j = some .adapter → fin j = false)

theorem step_fills {s s' : System} {ev : Event} (hgo : GoesOn fin s ev) (h : s.step ev = some s') :
    Fills fin s.bus.toBoard s'.bus.toBoard := by
  obtain ⟨j, ha, hwork⟩ := hgo
  simp only [System.step, ha] at h
  obtain ⟨e, he, h⟩ := Option.bind_eq_some_iff.mp h
  obtain ⟨t, ht, h⟩ := Option.bind_eq_some_iff.mp h
  obtain ⟨b, hb, rfl⟩ := Option.map_eq_some_iff.mp h
  have hpc : s.bus.pc j = some t.pc := by rw [Board.pc, he, Option.bind_some, ht, Option.map_some]
  refine stepJob_fills ha hb fun hat => hwork ?_
  rw [hpc]
  exact hat.imp (congrArg some) (congrArg some)

theorem Minds.of_fills {sids : List String} (h : Fills fin b.toBoard b'.toBoard) : Minds taskId sids fin b b' := by
  have hseat : Seated b b' := by
    refine ⟨h.count, fun r => ?_⟩
    obtain ⟨hl, hi, ht, -⟩ := h.session r
    simp only [seat, hl, hi, ht]
  refine ⟨fun sid _ => hseat.registered_eq taskId sid, fun sid _ => ?_⟩
  cases hr : b.registered taskId sid with
  | none =>
    rw [awaiting_of_not_registered hr, awaiting_of_not_registered ((hseat.registered_eq taskId sid).trans hr)]
    exact ⟨[], rfl, fun _ hrep => by cases hrep⟩
  | some r =>
    rw [awaiting_of_registered hr, awaiting_of_registered ((hseat.registered_eq taskId sid).trans hr)]
    exact (h.session r).2.2.2

/-- Jobs that go on, for as long as they like, are what a wait allows for. -/
theorem minds_run {s s' : System} {es : List Event} (sids : List String)
    (h : Runs.Trace System.step (fun _ => GoesOn fin) s es s') : Minds taskId sids fin s.bus s'.bus := by
  refine Minds.of_fills ?_
  refine Runs.Trace.invariant (I := fun _ s' => Fills fin s.bus.toBoard s'.bus.toBoard) (.of_sessions rfl rfl) ?_ h
  exact fun _ s₁ ev s₂ hI hgo hstep => hI.trans (step_fills hgo hstep)

/-! ### The steps of a call -/

/-- The bus when a wait is over and the session it was for is dropped; none
when the session is gone. -/
def afterWait (b : Bus) (sid : String) (r j : ℕ) : Option Bus :=
  let b := (b.markUnlessTerminal j).rescue r
  (b.find sid).map fun r' => b.setBoard (b.unlist r')

theorem cleanEnds_eq (b : Bus) (taskId sid : String) (r j : ℕ) (rest : List String) :
    b.cleanEnds taskId sid r j rest =
      ((b.afterWait sid r j).map fun b' => b'.cleanNext taskId rest).getD
        ((b.markUnlessTerminal j).rescue r, none) := by
  unfold cleanEnds afterWait
  cases hf : ((b.markUnlessTerminal j).rescue r).find sid with
  | none => simp only [hf, Option.map_none, Option.getD_none]
  | some r' => simp only [hf, Option.map_some, Option.getD_some]

/-- The bus a call leaves, whatever it has rescued so far. -/
def left (world : List String → Bus → Bus) (taskId : String) (b : Bus) (sids : List String) : Option Bus :=
  (b.cleanLoop world taskId sids []).map (·.1)

theorem left_eq (world : List String → Bus → Bus) (taskId : String) : ∀ (sids : List String) (b : Bus)
    (rescued : List Report), (b.cleanLoop world taskId sids rescued).map (·.1) = left world taskId b sids
  | [], _, _ => rfl
  | sid :: rest, b, rescued => by
    unfold left cleanLoop
    have ih := left_eq world taskId rest
    cases b.find sid with
    | none => exact (ih _ _).trans (ih _ _).symm
    | some r =>
      dsimp only
      split
      · exact (ih _ _).trans (ih _ _).symm
      · split
        · exact (ih _ _).trans (ih _ _).symm
        · split
          · split
            · rfl
            · exact (ih _ _).trans (ih _ _).symm
          · exact (ih _ _).trans (ih _ _).symm

/-- What a call that has come to its next await, or to its end, leaves. -/
def fromAwait (world : List String → Bus → Bus) (taskId : String) : Bus × Option Call → Option Bus
  | (b, some (.cleaning _ sid r j rest)) =>
    ((world rest b).afterWait sid r j).bind fun b => left world taskId b rest
  | (b, _) => some b

/-- The loop is the steps of the call, one after the other. -/
theorem left_step (world : List String → Bus → Bus) (taskId : String) : ∀ (sids : List String) (b : Bus),
    left world taskId b sids = fromAwait world taskId (b.cleanNext taskId sids)
  | [], _ => rfl
  | sid :: rest, b => by
    have ih := left_step world taskId rest
    have hloop := left_eq world taskId rest
    unfold left cleanLoop cleanNext
    cases b.find sid with
    | none => exact ih b
    | some r =>
      dsimp only
      split
      · exact ih b
      · rw [show (b.rescue r).abortQueue r = b.clear r from rfl]
        cases ((b.clear r).sessions r).currentJobId with
        | none => exact (hloop _ _).trans (ih _)
        | some j =>
          dsimp only
          split
          · unfold fromAwait afterWait
            dsimp only
            cases (((world rest ((b.clear r).cancel j)).markUnlessTerminal j).rescue r).find sid with
            | none => rfl
            | some r' => exact hloop _ _
          · exact (hloop _ _).trans (ih _)

/-! ### What a cleanup transfers -/

variable {ε : Type}

/-- There is something in the metadata. -/
def carries (m : Metadata ε) : Prop := m.evidenceCards ≠ [] ∨ m.assertions ≠ []

/-- What a cleanup has put into the pool is, of the jobs that had a result with
evidence or assertions when it was called, that of the undelivered ones, each
once. -/
def Transfers (b : Bus) (metadata : ℕ → Metadata ε) (taskId : String) (out : Cleaned ε) : Prop :=
  ∀ j, b.settled taskId j = true → carries (metadata j) →
    timesOf j out.rescued = if b.undelivered taskId j then 1 else 0

/-- **What a cleanup transfers**: of a job that had a result, what waits in the
registered sessions of the task. -/
theorem cleanup_transfers (b : Bus) (metadata : ℕ → Metadata ε) (meanwhile : Metadata ε) (taskId : String)
    (hids : b.sessionIds.Nodup)
    (hworld : ∀ rest b₁, Minds taskId b.sessionIds (b.settled taskId) b₁ (world rest b₁)) :
    ∃ out, b.cleanup world metadata meanwhile taskId = some out ∧
      ∀ j, b.settled taskId j = true → timesOf j out.rescued = b.waits taskId j := by
  obtain ⟨b', reps, hloop, hreps⟩ := cleanLoop_rescues hworld b.sessionIds b [] hids fun _ hmem => hmem
  rw [List.nil_append] at hloop
  refine ⟨_, by rw [cleanup, hloop]; rfl, fun j hj => ?_⟩
  exact hreps j hj

/-- **When a cleanup loses no evidence**: when of the jobs with a result, the
undelivered ones and no others wait in the registered sessions of the task, and
each of them once. -/
theorem cleanup_transfers_iff (b : Bus) (metadata : ℕ → Metadata ε) (meanwhile : Metadata ε) (taskId : String)
    (hids : b.sessionIds.Nodup)
    (hworld : ∀ rest b₁, Minds taskId b.sessionIds (b.settled taskId) b₁ (world rest b₁)) :
    ∃ out, b.cleanup world metadata meanwhile taskId = some out ∧
      (b.Transfers metadata taskId out ↔ ∀ j, b.settled taskId j = true → carries (metadata j) →
        b.waits taskId j = if b.undelivered taskId j then 1 else 0) := by
  obtain ⟨out, hout, hreps⟩ := cleanup_transfers b metadata meanwhile taskId hids hworld
  refine ⟨out, hout, fun h j hj hm => ?_, fun h j hj hm => ?_⟩
  · rw [← hreps j hj]
    exact h j hj hm
  · rw [hreps j hj]
    exact h j hj hm

/-- A job has reported in one session of the task while that of another is at
work. -/
def oneAtWork : List Event :=
  [.createSession "t" "a", .submitTaskToSession 0 "p" "m" 0 false, .submitEnds 1, .start 1,
    .loopEnds 1 (.returned [] "x" ""), .adapterEnds 1 (.returned { success := true, jobId := some 1 }),
    .published 1 false, .createSession "t" "b", .submitTaskToSession 1 "q" "m" 0 false, .submitEnds 3, .start 2]

theorem cleanup_transfers_oneAtWork :
    ∃ s, Runs.run System.step (System.fresh false false none []) oneAtWork = some s ∧
      s.bus.undelivered "t" 1 = true ∧ s.bus.waits "t" 1 = 1 ∧
      ∃ out, s.bus.cleanup (fun _ b => b) (fun j => ({ evidenceCards := [j] } : Metadata ℕ)) {} "t" = some out ∧
        (s.bus.Transfers (fun j => ({ evidenceCards := [j] } : Metadata ℕ)) "t" out ↔
          ∀ j, s.bus.settled "t" j = true → carries ({ evidenceCards := [j] } : Metadata ℕ) →
            s.bus.waits "t" j = if s.bus.undelivered "t" j then 1 else 0) :=
  ⟨_, rfl, by decide, by decide,
    cleanup_transfers_iff _ (fun j => ({ evidenceCards := [j] } : Metadata ℕ)) {} "t" (by decide)
      fun _ b => Minds.refl b⟩

/-- A bus that is started on a log with the results of two jobs is asked for
one: it is given the first, and the second is kept for the next caller. A
cleanup then leaves nothing of it. -/
theorem cleanup_drops_recovered :
    ∃ s, Runs.run System.step
        (System.fresh false true none
          [⟨"t", "m", 1, "t::a", { success := true, jobId := some 1 }⟩,
            ⟨"t", "m", 2, "t::b", { success := true, jobId := some 2 }⟩])
        [.waitAny "t" false, .discovered 0 2, .consumed 0 2] = some s ∧
      s.bus.handed = [("t", 1)] ∧ s.bus.undelivered "t" 2 = true ∧
      (s.bus.cleanup (fun _ b => b) (fun j => ({ evidenceCards := [j] } : Metadata ℕ)) {} "t").map (·.pool) =
        some {} ∧
      ¬∃ out, s.bus.cleanup (fun _ b => b) (fun j => ({ evidenceCards := [j] } : Metadata ℕ)) {} "t" = some out ∧
        s.bus.Transfers (fun j => ({ evidenceCards := [j] } : Metadata ℕ)) "t" out := by
  refine ⟨_, rfl, rfl, by decide, rfl, ?_⟩
  rintro ⟨out, hout, h⟩
  have hnone : out.rescued = [] := by
    cases hout
    rfl
  have hone := h 2 (by decide) (.inl (by decide))
  rw [hnone] at hone
  exact absurd hone (by decide)

end Bus
end AgentBus
end AgentCore
