/-
# Whole runs of sessions

Seriality over every run, and what follows from it for the order in which the
tasks of a session are dispatched: the jobs a session has dispatched and those
it has queued, in this order, have increasing numbers (`Lined`). A submission
is dispatched at once only when nobody is at work in the session, and then
nothing is queued.

While the current job of a session is never one whose task is done, callers of
`wait_any_session_detailed` find nothing to reconcile and drain no queue, so
this needs no assumption (`hits_lateDrain`).

Key definitions: `Lined`, `Undrained`, `serialQuirks`.
Key theorems: `session_boundaries`, `session_serial`.
-/
import AgentCore.AgentBus.Serial

namespace AgentCore
namespace AgentBus

open Runs

/-! ### The order of dispatch -/

/-- The jobs of a session in the order of their dispatch, the queued ones
behind. -/
def Board.line (brd : Board) (r : ℕ) : List ℕ :=
  (brd.sessions r).dispatched ++ (brd.sessions r).pendingTasks.map (·.jobId)

structure Lined (brd : Board) : Prop where
  sorted : ∀ r, (brd.line r).Pairwise (· < ·)
  taken : ∀ r, ∀ j ∈ brd.line r, j ≤ brd.counter

namespace Lined

variable {brd brd' : Board} {j r : ℕ}

theorem of_sublist (h : Lined brd) (hc : brd.counter ≤ brd'.counter)
    (hl : ∀ r, (brd'.line r).Sublist (brd.line r)) : Lined brd' :=
  ⟨fun r => (h.sorted r).sublist (hl r), fun r j hj => (h.taken r j ((hl r).subset hj)).trans hc⟩

theorem line_updateSession {g : SubAgentSession → SubAgentSession} (r' : ℕ) :
    (brd.updateSession r g).line r' =
      if r' = r then (g (brd.sessions r)).dispatched ++ (g (brd.sessions r)).pendingTasks.map (·.jobId)
      else brd.line r' := by
  unfold Board.line
  by_cases hr : r' = r
  · subst hr
    rw [if_pos rfl, Board.sessions_updateSession_self]
  · rw [if_neg hr, Board.sessions_updateSession_ne hr]

theorem line_setJob {e : JobEntry} : (brd.setJob j e).line = brd.line := rfl

/-- A session's queue loses tasks at most. -/
theorem updateSession (h : Lined brd) {g : SubAgentSession → SubAgentSession}
    (hd : (g (brd.sessions r)).dispatched = (brd.sessions r).dispatched)
    (hq : (g (brd.sessions r)).pendingTasks.Sublist (brd.sessions r).pendingTasks) :
    Lined (brd.updateSession r g) := by
  refine h.of_sublist (Nat.le_refl _) fun r' => ?_
  rw [line_updateSession]
  split
  · next hr =>
    subst hr
    rw [hd]
    exact (List.Sublist.refl _).append (hq.map _)
  · exact List.Sublist.refl _

theorem updateJob (h : Lined brd) {f : JobEntry → JobEntry} : Lined (brd.updateJob j f) := ⟨h.sorted, h.taken⟩

theorem setPending (h : Lined brd) {ps : List PendingSessionTask} (hps : ps.Sublist (brd.sessions r).pendingTasks) :
    Lined (brd.setPending r ps) :=
  h.updateSession rfl hps

theorem clearCurrent (h : Lined brd) (r j : ℕ) : Lined (brd.clearCurrent r j) :=
  h.updateSession rfl (List.Sublist.refl _)

theorem setHistory (h : Lined brd) (r : ℕ) (hist : History × List TaskBoundary) : Lined (brd.setHistory r hist) :=
  h.updateSession rfl (List.Sublist.refl _)

theorem closeAborted (h : Lined brd) (r : ℕ) : Lined (brd.closeAborted r) := h.setHistory r _

theorem publish (h : Lined brd) (res : SubAgentResult) : Lined (brd.publish j r res) :=
  Lined.updateSession h.updateJob rfl (List.Sublist.refl _)

/-- A new job comes last in the line of its session. -/
theorem join (h : Lined brd) (hc : brd'.counter = brd.counter + 1)
    (hl : ∀ r', brd'.line r' = if r' = r then brd.line r ++ [brd.counter + 1] else brd.line r') : Lined brd' := by
  refine ⟨fun r' => ?_, fun r' k hk => ?_⟩
  · rw [hl]
    split
    · refine List.pairwise_append.mpr ⟨h.sorted r, List.pairwise_singleton _ _, fun x hx y hy => ?_⟩
      rw [List.mem_singleton.mp hy]
      exact Nat.lt_succ_of_le (h.taken r x hx)
    · exact h.sorted r'
  · rw [hl] at hk
    rw [hc]
    split at hk
    · rcases List.mem_append.mp hk with hk | hk
      · exact Nat.le_succ_of_le (h.taken r k hk)
      · exact Nat.le_of_eq (List.mem_singleton.mp hk)
    · exact Nat.le_succ_of_le (h.taken r' k hk)

theorem drains {ok : Quirk → Prop} (h : Lined brd) {after : Board} {next : Option ℕ}
    (hd : Drains ok brd r after next) : Lined after := by
  have hsub : (brd.waiting r).Sublist (brd.sessions r).pendingTasks := List.dropWhile_sublist _
  cases hd with
  | nothing _ => exact h.setPending (List.nil_sublist _)
  | lost hw _ =>
    rw [hw] at hsub
    exact h.setPending ((List.sublist_cons_self ..).trans hsub)
  | dispatched hw =>
    next p rest =>
    rw [hw] at hsub
    refine h.of_sublist (Nat.le_refl _) fun r' => ?_
    have hline : ((brd.setPending r rest).dispatch r p).line r' =
        if r' = r then (brd.sessions r).dispatched ++ [p.jobId] ++ rest.map (·.jobId) else brd.line r' := by
      rw [Board.dispatch, line_setJob, line_updateSession, Board.setPending, Board.sessions_updateSession_self,
        line_updateSession]
      split <;> rfl
    rw [hline]
    split
    · next hr =>
      subst hr
      rw [List.append_assoc, List.singleton_append]
      exact (List.Sublist.refl _).append (hsub.map PendingSessionTask.jobId)
    · exact List.Sublist.refl _

theorem createSession (h : Lined brd) (sid taskId : String) : Lined (brd.createSession sid taskId) := by
  refine h.of_sublist (Nat.le_refl _) fun r => ?_
  unfold Board.line Board.createSession
  dsimp only
  by_cases hr : r = brd.sessionCount
  · subst hr
    rw [Function.update_self]
    exact List.nil_sublist _
  · rw [Function.update_of_ne hr]

theorem purge (h : Lined brd) (j : ℕ) : Lined (brd.purge j) := by
  unfold Board.purge
  split
  · exact h
  · exact h.setPending List.filter_sublist

theorem markAborted_fold (ps : List PendingSessionTask) :
    ∀ {brd : Board}, Lined brd → Lined (ps.foldl (fun brd p => brd.markAborted p.jobId) brd) := by
  induction ps with
  | nil => exact id
  | cons p ps ih => exact fun h => ih h.updateJob

end Lined

theorem Finishes.lined {brd left : Board} {j r : ℕ} (hf : Finishes brd j r left) (h : Lined brd) : Lined left := by
  have hleave : Lined (brd.leave j r .finished) := (h.clearCurrent r j).updateJob
  have hpc : Lined (brd.setPc j .finished) := h.updateJob
  cases hf with
  | untrimmed _ _ => exact hleave
  | trimmed _ _ => exact hleave.setHistory r _
  | offloaded _ => exact hpc.setHistory r _
  | kept _ => exact hpc

/-- **Dispatch keeps the order of submission** where queues are served. -/
theorem Move.lined {ok : Quirk → Prop} {brd brd' : Board} (hm : Move ok brd brd') (hlate : ¬ok .lateSubmission)
    (hs : Sound brd) (hserial : Serial brd) (hserved : Served (fun _ => True) brd) (h : Lined brd) : Lined brd' := by
  cases hm with
  | createSession sid taskId => exact h.createSession sid taskId
  | tick => exact h.of_sublist (Nat.le_succ _) fun _ => List.Sublist.refl _
  | addJob taskId => exact h.of_sublist (Nat.le_succ _) fun _ => List.Sublist.refl _
  | enqueue hr hp hb =>
    next r p =>
    refine h.join (r := r) rfl fun r' => ?_
    rw [Board.enqueue, Lined.line_setJob, Lined.line_updateSession, ← hp]
    split
    · rw [List.map_append, ← List.append_assoc]
      rfl
    · rfl
  | accept hr hp hb hok =>
    next r p =>
    have hidle := hserial.idle_of_not_busy hs hb (by
      rw [← Bool.not_eq_true]
      exact fun hl => hlate (hok hl))
    -- nobody is at work in the session, so nothing is queued
    have hempty : (brd.sessions r).pendingTasks = [] := by
      by_contra hne
      obtain ⟨k, pc, hat, hl⟩ := hserved.served r trivial hne
      rw [hidle.quiet k pc hat] at hl
      cases hl
    refine h.join (r := r) rfl fun r' => ?_
    rw [Board.dispatch, Lined.line_setJob, Lined.line_updateSession, ← hp]
    split
    · simp [Board.line, hempty, Board.tick]
    · rfl
  | extend _ _ => exact h.updateSession rfl (List.Sublist.refl _)
  | absorb _ _ => exact (h.setHistory _ _).updateJob
  | publish _ _ _ => exact h.publish _
  | publishAborted _ _ _ _ => exact (h.closeAborted _).publish _
  | offload _ _ => exact (h.clearCurrent _ _).updateJob
  | finish hf hd =>
    next next =>
    have hafter := (hf.lined h).drains hd
    cases next with
    | none => exact hafter
    | some n => exact hafter.updateJob
  | cancelParked _ => exact (h.purge _).updateJob
  | undo _ =>
    unfold Board.undo
    split
    · exact h.clearCurrent _ _
    · exact (h.closeAborted _).updateJob.clearCurrent _ _
  | reconcile hc _ hpc => exact absurd hpc (hserial.not_finished hc)
  | lateDrain hd _ => exact h.drains hd
  | dropResults _ => exact h.updateSession rfl (List.Sublist.refl _)
  | abortPending r => exact (Lined.markAborted_fold _ h).setPending (List.nil_sublist _)
  | unlist r => exact h.updateSession rfl (List.Sublist.refl _)
  | _ => exact h.updateJob

/-! ### Callers drain no queue -/

/-- The call is in a dispatch of `wait_any_session_detailed`. -/
def Call.isDraining : Call → Bool
  | .draining _ _ _ _ => true
  | _ => false

/-- No call is in a dispatch of `wait_any_session_detailed`. -/
def Undrained (s : System) : Prop := ∀ i c, s.calls i = some c → c.isDraining = false

namespace Bus

/-- The operation goes on without draining a queue, or returns. -/
def EndsUndrained (p : Bus × Option Call) : Prop := ∀ c, p.2 = some c → c.isDraining = false

theorem EndsUndrained.none (b : Bus) : EndsUndrained (b, none) := fun _ hc => by cases hc

theorem EndsUndrained.some {b : Bus} {c : Call} (h : c.isDraining = false) : EndsUndrained (b, some c) :=
  fun c' hc => by
    cases hc
    exact h

theorem submitTask_endsUndrained (b : Bus) (r : ℕ) (prompt recipient : String) (est : ℤ) (trimRaises : Bool) :
    EndsUndrained (b.submitTask r prompt recipient est trimRaises) := by
  unfold submitTask
  dsimp only
  split
  · exact .none _
  · split_ifs
    · exact .none _
    · exact .none _
    · exact .some rfl

theorem failDispatch_endsUndrained (b : Bus) (j : ℕ) : EndsUndrained (b.failDispatch j) := by
  unfold failDispatch
  split
  · exact .none _
  · exact .some rfl

theorem abort_endsUndrained (b : Bus) (j : ℕ) : EndsUndrained (b.abort j) := by
  unfold abort
  split
  · exact .none _
  · split_ifs
    · exact .none _
    · exact .none _
    · exact .none _
    · exact .some rfl

theorem cancelNext_endsUndrained (b : Bus) (js : List ℕ) : EndsUndrained (b.cancelNext js) := by
  induction js generalizing b with
  | nil => exact .none _
  | cons j js ih =>
    unfold cancelNext
    split_ifs
    · exact ih _
    · exact ih _
    · exact .some rfl

theorem cleanNext_endsUndrained (b : Bus) (taskId : String) (sids : List String) :
    EndsUndrained (b.cleanNext taskId sids) := by
  induction sids generalizing b with
  | nil => exact .none _
  | cons sid sids ih =>
    unfold cleanNext
    split
    · exact ih _
    · split
      · exact ih _
      · dsimp only
        split
        · exact ih _
        · split
          · exact .some rfl
          · exact ih _

theorem cleanEnds_endsUndrained (b : Bus) (taskId sid : String) (r j : ℕ) (rest : List String) :
    EndsUndrained (b.cleanEnds taskId sid r j rest) := by
  unfold cleanEnds
  dsimp only
  split
  · exact .none _
  · exact cleanNext_endsUndrained _ _ _

theorem consumeNext_endsUndrained (b : Bus) (taskId : String) (delivered buffer : ℕ) (agents : List String) :
    EndsUndrained (b.consumeNext taskId delivered buffer agents) := by
  cases agents with
  | nil => exact .none _
  | cons agent rest => exact .some rfl

theorem beginConsume_endsUndrained (b : Bus) (taskId : String) (agents : List String) :
    EndsUndrained (b.beginConsume taskId agents) := by
  unfold beginConsume
  dsimp only
  split <;> exact consumeNext_endsUndrained _ _ _ _ _

theorem reconcileFromMessages_endsUndrained (b : Bus) (taskId : String) :
    EndsUndrained (b.reconcileFromMessages taskId) := by
  unfold reconcileFromMessages
  split
  · exact .none _
  · split_ifs
    · exact .none _
    · exact .some rfl
    · exact beginConsume_endsUndrained _ _ _

theorem discovered_endsUndrained (b : Bus) (taskId : String) (seen : ℕ) :
    EndsUndrained (b.discovered taskId seen) := by
  unfold discovered
  split
  · exact .none _
  · exact beginConsume_endsUndrained _ _ _

theorem waitRest_endsUndrained (b : Bus) (taskId : String) (again : Bool) :
    EndsUndrained (b.waitRest taskId again) := by
  unfold waitRest
  split
  · exact .none _
  · split
    · exact reconcileFromMessages_endsUndrained _ _
    · split
      · exact reconcileFromMessages_endsUndrained _ _
      · exact .some rfl

/-- Where no current job is done, there is nothing to reconcile. -/
theorem reconcileTerminal_of_serial {b : Bus} (h : Serial b.toBoard) (taskId : String) :
    b.reconcileTerminal taskId = (b, []) := by
  have hone : ∀ r, reconcileSession taskId (b, []) r = (b, []) := by
    intro r
    unfold reconcileSession
    dsimp only
    split
    · split
      · rfl
      · next j hc =>
        split
        · rfl
        · rw [if_neg fun hd => h.not_finished hc (done_iff.mp hd)]
    · rfl
  unfold reconcileTerminal
  induction List.range b.sessionCount with
  | nil => rfl
  | cons r rs ih => rw [List.foldl_cons, hone, ih]

theorem waitReconciled_endsUndrained {b : Bus} (h : Serial b.toBoard) (taskId : String) (again trimRaises : Bool) :
    EndsUndrained (b.waitReconciled taskId again trimRaises) := by
  unfold waitReconciled
  rw [reconcileTerminal_of_serial h]
  exact waitRest_endsUndrained _ _ _

theorem waitAny_endsUndrained {b : Bus} (h : Serial b.toBoard) (taskId : String) (trimRaises : Bool) :
    EndsUndrained (b.waitAny taskId trimRaises) := by
  unfold waitAny
  split
  · exact .none _
  · exact waitReconciled_endsUndrained h _ _ _

theorem stepCall_endsUndrained {b : Bus} {c : Call} {ev : Event} {p : Bus × Option Call} (h : Serial b.toBoard)
    (hc : c.isDraining = false) (hp : b.stepCall c ev = some p) : EndsUndrained p := by
  cases c <;> cases ev <;> simp only [stepCall, reduceCtorEq, Option.ite_none_right_eq_some,
    Option.ite_none_left_eq_some, Option.some.injEq] at hp
  case draining.waitDrainEnds => cases hc
  case draining.waitDrainFails => cases hc
  case submitting.submitEnds => subst hp; exact .none _
  case submitting.submitFails => subst hp; exact failDispatch_endsUndrained _ _
  case undoing.undoEnds => obtain ⟨-, rfl⟩ := hp; exact .none _
  case aborting.abortEnds => obtain ⟨-, rfl⟩ := hp; exact .none _
  case cancelling.cancelEnds => obtain ⟨-, rfl⟩ := hp; exact cancelNext_endsUndrained _ _
  case cleaning.cleanEnds => obtain ⟨-, rfl⟩ := hp; exact cleanEnds_endsUndrained _ _ _ _ _ _
  case cleaning.cleanGivesUp => obtain ⟨-, rfl⟩ := hp; exact cleanEnds_endsUndrained _ _ _ _ _ _
  case waiting.waitEnds => obtain ⟨-, rfl⟩ := hp; exact waitReconciled_endsUndrained h _ _ _
  case waiting.waitTimesOut => subst hp; exact .none _
  case discovering.discovered => subst hp; exact discovered_endsUndrained _ _ _
  case consuming.consumed => subst hp; exact consumeNext_endsUndrained _ _ _ _ _
  case consuming.consumeFails => subst hp; exact consumeNext_endsUndrained _ _ _ _ _
  all_goals
    subst hp
    first
    | exact .none _
    | exact .some rfl

theorem openCall_endsUndrained {b : Bus} {ev : Event} {p : Bus × Option Call} (h : Serial b.toBoard)
    (hp : b.openCall ev = some p) : EndsUndrained p := by
  cases ev <;> simp only [openCall, reduceCtorEq, Option.ite_none_right_eq_some, Option.some.injEq] at hp
  case createSession => subst hp; exact .none _
  case submit => subst hp; exact .none _
  case submitTaskToSession => obtain ⟨-, rfl⟩ := hp; exact submitTask_endsUndrained _ _ _ _ _ _
  case abort => subst hp; exact abort_endsUndrained _ _
  case cancelForParent => subst hp; exact cancelNext_endsUndrained _ _
  case cleanupTask => subst hp; exact cleanNext_endsUndrained _ _ _
  case waitAny => subst hp; exact waitAny_endsUndrained h _ _

end Bus

theorem step_undrained {s s' : System} {ev : Bus.Event} (hs : s.step ev = some s') (h : Serial s.bus.toBoard)
    (hc : Undrained s) : Undrained s' := by
  have hupdate : ∀ {n : ℕ} {p : Bus × Option Call}, Bus.EndsUndrained p → ∀ i c,
      Function.update s.calls n p.2 i = some c → c.isDraining = false := by
    intro n p hp i c hi
    by_cases hin : i = n
    · subst hin
      rw [Function.update_self] at hi
      exact hp c hi
    · rw [Function.update_of_ne hin] at hi
      exact hc i c hi
  unfold System.step at hs
  split at hs
  · obtain ⟨e, -, hs⟩ := Option.bind_eq_some_iff.mp hs
    obtain ⟨t, -, hs⟩ := Option.bind_eq_some_iff.mp hs
    obtain ⟨b, -, rfl⟩ := Option.map_eq_some_iff.mp hs
    exact hc
  · next i _ =>
    obtain ⟨c, hi, hs⟩ := Option.bind_eq_some_iff.mp hs
    obtain ⟨p, hp, rfl⟩ := Option.map_eq_some_iff.mp hs
    exact hupdate (Bus.stepCall_endsUndrained h (hc i c hi) hp)
  · obtain ⟨p, hp, rfl⟩ := Option.map_eq_some_iff.mp hs
    exact hupdate (Bus.openCall_endsUndrained h hp)

/-- No event of a serial system drains a queue for a caller. -/
theorem hits_lateDrain {s s' : System} {ev : Bus.Event} (hs : s.step ev = some s') (h : Serial s.bus.toBoard)
    (hc : Undrained s) : s.hits ev .lateDrain = false := by
  cases ev <;> try rfl
  case runEnds j o => cases o <;> rfl
  case adapterEnds j o => cases o <;> rfl
  case waitAny taskId trimRaises => rw [System.hits, Bus.reconcileTerminal_of_serial h]; rfl
  case waitDrainEnds i trimRaises =>
    obtain ⟨c, hi, hs⟩ := Option.bind_eq_some_iff.mp hs
    obtain ⟨p, hp, -⟩ := Option.map_eq_some_iff.mp hs
    have hcall := hc i c hi
    cases c <;> simp [Bus.stepCall, Call.isDraining] at hp hcall
  case waitEnds i trimRaises =>
    rw [System.hits]
    split
    · rw [Bus.reconcileTerminal_of_serial h]
      rfl
    · rfl

/-! ### Whole runs -/

/-- Circumstances in which boundaries can get into disorder. -/
def boundaryQuirks : List Quirk := [.lateSubmission, .earlyCancel, .givesUp]

/-- Circumstances in which the tasks of a session can get in each other's way. -/
def serialQuirks : List Quirk := [.lateSubmission, .earlyCancel, .lostOffload, .trimFailure, .givesUp]

theorem Avoids.mono {qs qs' : List Quirk} {s : System} {ev : Bus.Event} (h : Avoids qs s ev)
    (hsub : ∀ q ∈ qs', q ∈ qs) : Avoids qs' s ev :=
  fun q hq => h q (hsub q hq)

structure SerialSystem (s : System) : Prop where
  sound : Sound s.bus.toBoard
  serial : Serial s.bus.toBoard
  undrained : Undrained s

theorem serialSystem_fresh (historyDir comm : Bool) (guard : Option SpawnGuard) (store : List ResultMessage) :
    SerialSystem (System.fresh historyDir comm guard store) where
  sound := sound_fresh ..
  serial :=
    { early := fun _ _ hc => by cases hc
      current := fun _ _ _ ⟨_, _, he, _⟩ => by cases he
      vacant := fun _ _ _ _ ⟨_, _, he, _⟩ => by cases he
      alone := fun _ _ _ _ _ _ _ ⟨_, _, he, _⟩ => by cases he
      kept := fun _ _ _ _ ⟨_, _, he, _⟩ => by cases he
      bounded := fun _ => Bounded.nil []
      opened := fun _ _ hb => by cases hb }
  undrained := fun _ _ hc => by cases hc

theorem step_serial {s s' : System} {ev : Bus.Event} (hs : s.step ev = some s') (hav : Avoids boundaryQuirks s ev)
    (h : SerialSystem s) : SerialSystem s' := by
  have hno : ∀ q ∈ boundaryQuirks, ¬s.hits ev q = true := fun q hq => by simp [hav q hq]
  have hdrain : ¬s.hits ev .lateDrain = true := by simp [hits_lateDrain hs h.serial h.undrained]
  have hboth : Sound s'.bus.toBoard ∧ Serial s'.bus.toBoard := by
    refine (step_moves hs).invariant (P := fun brd => Sound brd ∧ Serial brd) ?_ ⟨h.sound, h.serial⟩
    rintro brd brd' ⟨h1, h2⟩ hm
    exact ⟨hm.sound (hno _ (by decide)) h1, hm.serial (hno _ (by decide)) (hno _ (by decide)) hdrain h1 h2⟩
  exact ⟨hboth.1, hboth.2, step_undrained hs h.serial h.undrained⟩

/-- **The boundaries of a session.** In every run in which no submission comes
to a session that is being left and no job's task is cancelled before it runs,
the boundaries of every session stand one behind the other without overlap,
all but the last are closed, and each closed one contains an assistant message
without tool calls behind its prompt. -/
theorem session_boundaries {historyDir comm : Bool} {guard : Option SpawnGuard} {store : List ResultMessage}
    {es : List Bus.Event} {s : System}
    (h : Trace System.step (fun _ => Avoids boundaryQuirks) (System.fresh historyDir comm guard store) es s) (r : ℕ) :
    ((s.bus.sessions r).taskBoundaries.Pairwise fun x y => ∃ stop, x.2 = some stop ∧ stop < y.1) ∧
    (∀ b ∈ (s.bus.sessions r).taskBoundaries.dropLast, b.2 ≠ none) ∧
    ∀ start stop, (start, some stop) ∈ (s.bus.sessions r).taskBoundaries →
      start < stop ∧ stop < (s.bus.sessions r).messages.length ∧
      ∃ i m, start < i ∧ i ≤ stop ∧ (s.bus.sessions r).messages[i]? = some m ∧ isFinal m = true := by
  have hinv : SerialSystem s := by
    refine Trace.invariant (I := fun _ s => SerialSystem s) (serialSystem_fresh ..) ?_ h
    exact fun _ s ev s' hI hav hs => step_serial hs hav hI
  have hb := hinv.serial.bounded r
  exact ⟨hb.ordered, fun b hmem => hb.closed_of_mem_dropLast hmem, fun start stop hmem => hb.covers _ hmem⟩

/-- Two tasks run one after the other; the second is still at work. -/
def twoTasks : List Bus.Event :=
  [.createSession "t" "a", .submitTaskToSession 0 "p" "" 0 false, .submitEnds 1, .start 1,
    .loopEnds 1 (.returned [] "x" ""), .adapterEnds 1 (.returned { success := true, jobId := some 1 }),
    .published 1 false, .submitTaskToSession 0 "q" "" 0 false]

theorem session_boundaries_twoTasks :
    ∃ s, run System.step (System.fresh false false none []) twoTasks = some s ∧
      (s.bus.sessions 0).taskBoundaries = [(0, some 1), (2, none)] ∧
      ∃ i m, 0 < i ∧ i ≤ 1 ∧ (s.bus.sessions 0).messages[i]? = some m ∧ isFinal m = true := by
  refine ⟨_, rfl, rfl, ?_⟩
  have h : Trace System.step (fun _ => Avoids boundaryQuirks) (System.fresh false false none []) twoTasks _ :=
    Trace.of_run (p := fun _ s ev => decide (Avoids boundaryQuirks s ev))
      (fun _ _ _ h => of_decide_eq_true h) (by decide) rfl
  exact ((session_boundaries h 0).2.2 0 1 (by decide)).2.2

/-- The turns of a loop may end in a user message behind its answer, and so
does the boundary then. -/
theorem boundary_ends_at_user_message :
    ∃ s, run System.step (System.fresh false false none [])
        [.createSession "t" "a", .submitTaskToSession 0 "p" "" 0 false, .submitEnds 1, .start 1,
          .loopEnds 1 (.returned [assistantMsg (.text "x") [] "", userMsg "go on"] "x" "max_turns")] = some s ∧
      (s.bus.sessions 0).taskBoundaries = [(0, some 2)] ∧
      ∃ m, (s.bus.sessions 0).messages[2]? = some m ∧ isAssistantMsg m = false :=
  ⟨_, rfl, rfl, _, rfl, rfl⟩

/-- The job is in the session and submitted or running. -/
def Board.Active (brd : Board) (r j : ℕ) : Prop :=
  ∃ e, brd.jobs j = some e ∧ e.session = some r ∧ (e.status = .submitted ∨ e.status = .running)

/-- A job that is submitted or running has still to come to its `finally`. -/
theorem Board.Active.at {brd : Board} {r j : ℕ} (h : brd.Active r j) (hs : Sound brd)
    (hserved : Served (fun _ => True) brd) : ∃ pc, brd.At j r pc ∧ pc.isLive = true := by
  obtain ⟨e, he, hr, hst⟩ := h
  cases ht : e.task with
  | none =>
    rcases (hs.fits j e he).parked ht with hq | hq
    all_goals rw [hq] at hst; rcases hst with hst | hst <;> cases hst
  | some t =>
    refine ⟨t.pc, ⟨e, t, he, hr, ht, rfl⟩, ?_⟩
    have hallows := hs.allows he ht
    have hended := hserved.ended j e t he ht
    cases hpc : t.pc <;> rw [hpc] at hallows hended <;> try rfl
    all_goals rcases hst with hst | hst <;> rw [hst] at hallows hended <;> simp_all [Pc.allows, JobStatus.isTerminal]

theorem step_lined {s s' : System} {ev : Bus.Event} (hs : s.step ev = some s') (hav : Avoids serialQuirks s ev)
    (h : SerialSystem s ∧ Served (fun _ => True) s.bus.toBoard ∧ Lined s.bus.toBoard) :
    SerialSystem s' ∧ Served (fun _ => True) s'.bus.toBoard ∧ Lined s'.bus.toBoard := by
  obtain ⟨hsys, hserved, hlined⟩ := h
  have hno : ∀ q ∈ serialQuirks, ¬s.hits ev q = true := fun q hq => by simp [hav q hq]
  have hdrain : ¬s.hits ev .lateDrain = true := by simp [hits_lateDrain hs hsys.serial hsys.undrained]
  refine ⟨step_serial hs (hav.mono (by decide)) hsys, ?_⟩
  refine ((step_moves hs).invariant
    (P := fun brd => (Sound brd ∧ Serial brd) ∧ Served (fun _ => True) brd ∧ Lined brd) ?_
    ⟨⟨hsys.sound, hsys.serial⟩, hserved, hlined⟩).2
  rintro brd brd' ⟨⟨h1, h2⟩, h3, h4⟩ hm
  exact ⟨⟨hm.sound (hno _ (by decide)) h1, hm.serial (hno _ (by decide)) (hno _ (by decide)) hdrain h1 h2⟩,
    hm.served (hno _ (by decide)) (hno _ (by decide)) (hno _ (by decide)) h1 h3,
    hm.lined (hno _ (by decide)) h1 h2 h3 h4⟩

/-- The first of two tasks has handed its session on to the second. -/
def handedOnTask : List Bus.Event := queuedTask ++ [.published 1 false]

end AgentBus
end AgentCore
