/-
# What the bus keeps of deliveries

The set of delivered jobs of a task and the buffer of its recovered results
are objects the bus has references to (`Exchange`). A reference belongs to one
task only (`Refs`), so marking a job of one task says nothing of another.

Most of the bus hands out nothing: submitting, running, cancelling and draining
leave sets, buffers, messages and what has been handed out alone (`Quiet`).

Key definitions: `Exchange.isDelivered`, `Exchange.total`, `Exchange.Refs`,
`Bus.Quiet`.
Key theorem: `Bus.isDelivered_markDelivered`.
-/
import AgentCore.AgentBus.Moves

namespace AgentCore
namespace AgentBus

namespace Exchange

/-- `job_id in self._delivered_jobs.get(task_id, set())`. -/
def isDelivered (x : Exchange) (taskId : String) (j : ℕ) : Bool :=
  (x.delivered taskId).any fun ref => decide (j ∈ x.sets ref)

/-- How many of the recovered results of the task are of the job. -/
def buffered (x : Exchange) (taskId : String) (j : ℕ) : ℕ :=
  match x.recovered taskId with
  | none => 0
  | some ref => ((x.buffers ref).map (·.job)).count j

/-- How often the result of the job has been handed out or is about to be. -/
def total (x : Exchange) (taskId : String) (j : ℕ) : ℕ := x.handed.count (taskId, j) + x.buffered taskId j

/-- The exchange but for what is read of messages. -/
def ledger (x : Exchange) : Exchange := { x with recipients := fun _ => [], cursors := fun _ => 0 }

/-- Sets and buffers belong to one task each, and new ones are empty. -/
structure Refs (x : Exchange) : Prop where
  delivered_lt : ∀ taskId ref, x.delivered taskId = some ref → ref < x.refs
  delivered_inj : ∀ taskId taskId' ref, x.delivered taskId = some ref → x.delivered taskId' = some ref →
    taskId = taskId'
  recovered_lt : ∀ taskId ref, x.recovered taskId = some ref → ref < x.refs
  recovered_inj : ∀ taskId taskId' ref, x.recovered taskId = some ref → x.recovered taskId' = some ref →
    taskId = taskId'
  fresh : ∀ ref, x.refs ≤ ref → x.buffers ref = []

end Exchange

theorem Exchange.isDelivered_iff {x : Exchange} {taskId : String} {j : ℕ} :
    x.isDelivered taskId j = true ↔ ∃ ref, x.delivered taskId = some ref ∧ j ∈ x.sets ref := by
  simp [Exchange.isDelivered, Option.any_eq_true]

/-- A table in which one task has got a reference. -/
theorem update_eq_some {refs : String → Option ℕ} {taskId t : String} {new ref : ℕ}
    (h : Function.update refs taskId (some new) t = some ref) :
    t = taskId ∧ ref = new ∨ t ≠ taskId ∧ refs t = some ref := by
  by_cases ht : t = taskId
  · subst ht
    rw [Function.update_self, Option.some.injEq] at h
    exact .inl ⟨rfl, h.symm⟩
  · rw [Function.update_of_ne ht] at h
    exact .inr ⟨ht, h⟩

namespace Bus

variable {b b' : Bus} {taskId : String} {j : ℕ}

/-! ### Marking a job -/

theorem refs_markDelivered (h : b.toExchange.Refs) (taskId : String) (j : ℕ) :
    (b.markDelivered taskId j).toExchange.Refs := by
  unfold markDelivered
  split
  · exact ⟨h.delivered_lt, h.delivered_inj, h.recovered_lt, h.recovered_inj, h.fresh⟩
  · have hlt : ∀ t ref, Function.update b.delivered taskId (some b.refs) t = some ref →
        t = taskId ∧ ref = b.refs ∨ t ≠ taskId ∧ b.delivered t = some ref ∧ ref < b.refs := by
      intro t ref ht
      rcases update_eq_some ht with hnew | ⟨hne, hold⟩
      · exact .inl hnew
      · exact .inr ⟨hne, hold, h.delivered_lt t ref hold⟩
    refine ⟨fun t ref ht => ?_, fun t t' ref ht ht' => ?_, fun t ref ht => ?_, h.recovered_inj, fun ref hle => ?_⟩
    · rcases hlt t ref ht with ⟨-, rfl⟩ | ⟨-, -, h'⟩
      · exact Nat.lt_succ_self _
      · exact h'.trans (Nat.lt_succ_self _)
    · rcases hlt t ref ht with ⟨rfl, rfl⟩ | ⟨hne, h1, h2⟩
      · rcases hlt t' _ ht' with ⟨rfl, -⟩ | ⟨-, -, h3⟩
        · rfl
        · exact absurd h3 (Nat.lt_irrefl _)
      · rcases hlt t' _ ht' with ⟨-, rfl⟩ | ⟨-, h3, -⟩
        · exact absurd h2 (Nat.lt_irrefl _)
        · exact h.delivered_inj t t' ref h1 h3
    · exact (h.recovered_lt t ref ht).trans (Nat.lt_succ_self _)
    · exact h.fresh ref (Nat.le_of_succ_le hle)

theorem isDelivered_markDelivered (h : b.toExchange.Refs) (taskId : String) (j : ℕ) (t : String) (k : ℕ) :
    (b.markDelivered taskId j).isDelivered t k = (b.isDelivered t k || decide (t = taskId ∧ k = j)) := by
  rw [Bool.eq_iff_iff, Bool.or_eq_true, decide_eq_true_iff, Exchange.isDelivered_iff, Exchange.isDelivered_iff]
  unfold markDelivered
  split
  · next ref href =>
    dsimp only
    by_cases ht : t = taskId
    · subst ht
      simp [href, or_comm]
    · have hsets : ∀ ref', b.delivered t = some ref' →
          Function.update b.sets ref (j :: b.sets ref) ref' = b.sets ref' := by
        intro ref' href'
        refine Function.update_of_ne ?_ _ _
        rintro rfl
        exact ht (h.delivered_inj t taskId ref' href' href)
      refine ⟨fun ⟨ref', href', hk⟩ => .inl ⟨ref', href', hsets ref' href' ▸ hk⟩, ?_⟩
      rintro (⟨ref', href', hk⟩ | ⟨rfl, -⟩)
      · exact ⟨ref', href', (hsets ref' href').symm ▸ hk⟩
      · exact absurd rfl ht
  · next href =>
    dsimp only
    by_cases ht : t = taskId
    · subst ht
      simp [href]
    · have hsets : ∀ ref', b.delivered t = some ref' → Function.update b.sets b.refs [j] ref' = b.sets ref' :=
        fun ref' href' => Function.update_of_ne (Nat.ne_of_lt (h.delivered_lt t ref' href')) _ _
      rw [Function.update_of_ne ht]
      refine ⟨fun ⟨ref', href', hk⟩ => .inl ⟨ref', href', hsets ref' href' ▸ hk⟩, ?_⟩
      rintro (⟨ref', href', hk⟩ | ⟨rfl, -⟩)
      · exact ⟨ref', href', (hsets ref' href').symm ▸ hk⟩
      · exact absurd rfl ht

/-- Marking touches nothing but the sets. -/
theorem markDelivered_frame (b : Bus) (taskId : String) (j : ℕ) :
    (b.markDelivered taskId j).recovered = b.recovered ∧ (b.markDelivered taskId j).buffers = b.buffers ∧
      (b.markDelivered taskId j).handed = b.handed ∧ (b.markDelivered taskId j).store = b.store := by
  unfold markDelivered
  split <;> exact ⟨rfl, rfl, rfl, rfl⟩

/-! ### Operations that hand out nothing -/

/-- A call that reads messages fills the buffer of its task. -/
def Holds (b : Bus) : Call → Prop
  | .consuming taskId _ buffer _ _ _ => b.recovered taskId = some buffer
  | _ => True

/-- A buffer that stays is still that of the call. -/
theorem Holds.stays {c : Call} (h : b.Holds c)
    (hb : ∀ t ref, b.recovered t = some ref → b'.recovered t = some ref) : b'.Holds c := by
  cases c with
  | consuming taskId delivered buffer agent rest afterId => exact hb taskId buffer h
  | _ => trivial

/-- The exchange but for what is read of messages is as it was, and no reading
begins. -/
def Quiet (b : Bus) (p : Bus × Option Call) : Prop :=
  p.1.toExchange.ledger = b.toExchange.ledger ∧ ∀ c, p.2 = some c → ∀ b' : Bus, b'.Holds c

theorem Quiet.none (h : b'.toExchange.ledger = b.toExchange.ledger) : Quiet b (b', none) :=
  ⟨h, fun _ hc => by cases hc⟩

theorem Quiet.some {c : Call} (h : b'.toExchange.ledger = b.toExchange.ledger) (hc : ∀ b' : Bus, b'.Holds c) :
    Quiet b (b', some c) := by
  refine ⟨h, fun _ hc' => ?_⟩
  cases hc'
  exact hc

theorem Quiet.after {p : Bus × Option Call} (h : Quiet b' p) (hb : b'.toExchange.ledger = b.toExchange.ledger) :
    Quiet b p :=
  ⟨h.1.trans hb, h.2⟩

theorem ledger_releaseJob (b : Bus) (j : ℕ) : (b.releaseJob j).toExchange.ledger = b.toExchange.ledger := by
  unfold releaseJob
  split <;> rfl

theorem ledger_markJobAborted (b : Bus) (j : ℕ) : (b.markJobAborted j).toExchange.ledger = b.toExchange.ledger :=
  ledger_releaseJob b j

theorem ledger_markUnlessTerminal (b : Bus) (j : ℕ) :
    (b.markUnlessTerminal j).toExchange.ledger = b.toExchange.ledger := by
  unfold markUnlessTerminal
  split
  · rfl
  · exact ledger_markJobAborted b j

theorem ledger_cancelParked (b : Bus) (j : ℕ) :
    ((b.purgeQueuedJob j).markJobAborted j).toExchange.ledger = b.toExchange.ledger := by
  rw [ledger_markJobAborted]
  unfold purgeQueuedJob
  dsimp only
  split
  · exact ledger_releaseJob _ j
  · rfl

theorem ledger_dispatchTask (b : Bus) (r : ℕ) (p : PendingSessionTask) :
    (b.dispatchTask r p).toExchange.ledger = b.toExchange.ledger := by
  unfold dispatchTask noteResultRecipient
  split <;> rfl

theorem ledger_drainQueue (b : Bus) (r : ℕ) (trimRaises : Bool) :
    (b.drainQueue r trimRaises).1.toExchange.ledger = b.toExchange.ledger := by
  unfold drainQueue
  split
  · rfl
  · dsimp only
    split
    · rfl
    · exact ledger_dispatchTask _ _ _

theorem ledger_preCheck {depth est : ℤ} (h : b.preCheck taskId j depth est = some b') :
    b'.toExchange.ledger = b.toExchange.ledger := by
  unfold preCheck at h
  split at h
  · cases h
    rfl
  · split at h <;> cases h
    rfl

theorem ledger_cancelTask (fuel : ℕ) (b : Bus) (j : ℕ) :
    (cancelTask fuel b j).toExchange.ledger = b.toExchange.ledger := by
  induction fuel generalizing j with
  | zero => rfl
  | succ fuel ih =>
    unfold cancelTask
    split
    · rfl
    · rfl
    · exact ih _
    · rfl
    · rfl

theorem ledger_submit (b : Bus) (parentTaskId : String) (depth est : ℤ) :
    (b.submit parentTaskId depth est).toExchange.ledger = b.toExchange.ledger := by
  unfold submit
  dsimp only
  split
  · rfl
  · next b' hb =>
    have hl := ledger_preCheck (b := b.setBoard b.tick) hb
    exact hl

theorem submitTask_quiet (b : Bus) (r : ℕ) (prompt recipient : String) (est : ℤ) (trimRaises : Bool) :
    Quiet b (b.submitTask r prompt recipient est trimRaises) := by
  unfold submitTask
  dsimp only
  split
  · exact .none rfl
  · next b' hb =>
    have hl := ledger_preCheck (b := b.setBoard b.tick) hb
    split
    · exact .none hl
    · split
      · exact .none hl
      · exact .some ((ledger_dispatchTask b' _ _).trans hl) fun _ => trivial

theorem failDispatch_quiet (b : Bus) (j : ℕ) : Quiet b (b.failDispatch j) := by
  unfold failDispatch
  split
  · exact .none (ledger_releaseJob b j)
  · exact .some (ledger_cancelTask _ _ _) fun _ => trivial

theorem ledger_abortEnds (b : Bus) (j : ℕ) : (b.abortEnds j).toExchange.ledger = b.toExchange.ledger := by
  unfold abortEnds
  split
  · rfl
  · split
    · rfl
    · split
      · rfl
      · exact ledger_markJobAborted b j

theorem abort_quiet (b : Bus) (j : ℕ) : Quiet b (b.abort j) := by
  unfold abort
  split
  · exact .none rfl
  · split_ifs
    · exact .none rfl
    · exact .none (ledger_cancelParked b j)
    · exact .none (ledger_abortEnds b j)
    · exact .some (ledger_cancelTask _ _ _) fun _ => trivial

theorem cancelNext_quiet (b : Bus) (js : List ℕ) : Quiet b (b.cancelNext js) := by
  induction js generalizing b with
  | nil => exact .none rfl
  | cons j js ih =>
    unfold cancelNext
    split_ifs
    · exact ih b
    · exact (ih _).after (ledger_markJobAborted b j)
    · exact .some (ledger_cancelTask _ _ _) fun _ => trivial

theorem cancelForParent_quiet (b : Bus) (taskId : String) : Quiet b (b.cancelForParent taskId) := by
  unfold cancelForParent
  dsimp only
  have hparked : ∀ (js : List ℕ) (b : Bus),
      (js.foldl (fun b j => if b.parked j then (b.purgeQueuedJob j).markJobAborted j else b) b).toExchange.ledger =
        b.toExchange.ledger := by
    intro js
    induction js with
    | nil => exact fun _ => rfl
    | cons j js ih =>
      intro b
      rw [List.foldl_cons, ih]
      split
      · exact ledger_cancelParked b j
      · rfl
  exact (cancelNext_quiet _ _).after (hparked _ b)

theorem ledger_handOn (b : Bus) (j r : ℕ) (trimRaises : Bool) :
    (b.handOn j r trimRaises).toExchange.ledger = b.toExchange.ledger := by
  have hl := ledger_drainQueue b r trimRaises
  unfold handOn
  split
  · next b' next hd =>
    rw [hd] at hl
    exact hl
  · next b' d _ hd =>
    rw [hd] at hl
    exact hl

theorem ledger_finishJob (b : Bus) (j r : ℕ) (trimRaises : Bool) :
    (b.finishJob j r trimRaises).toExchange.ledger = b.toExchange.ledger := by
  unfold finishJob
  dsimp only
  split
  · exact (ledger_handOn _ _ _ _).trans (ledger_releaseJob b j)
  · split
    · exact ledger_releaseJob b j
    · exact (ledger_handOn _ _ _ _).trans (ledger_releaseJob b j)

theorem ledger_drainFails (b : Bus) (j r next : ℕ) :
    (b.drainFails j r next).toExchange.ledger = b.toExchange.ledger := by
  unfold drainFails
  split
  · exact ledger_releaseJob b next
  · exact ledger_cancelTask _ _ _

theorem ledger_acquireSlot (b : Bus) (j : ℕ) (parent : String) :
    (b.acquireSlot j parent).toExchange.ledger = b.toExchange.ledger := by
  unfold acquireSlot
  split
  · rfl
  · dsimp only
    split <;> rfl

theorem ledger_loopEnds (b : Bus) (j r : ℕ) (o : LoopOutcome) :
    (b.loopEnds j r o).toExchange.ledger = b.toExchange.ledger := by
  cases o with
  | ended e => rfl
  | returned newTurns finalContent stoppedBy =>
    unfold loopEnds
    dsimp only
    split <;> rfl

theorem ledger_adapterEnds (b : Bus) (j r : ℕ) (o : AdapterOutcome) :
    (b.adapterEnds j r o).toExchange.ledger = b.toExchange.ledger := by
  cases o <;> rfl

theorem ledger_reconcileTerminal (b : Bus) (taskId : String) :
    (b.reconcileTerminal taskId).1.toExchange.ledger = b.toExchange.ledger := by
  have hsession : ∀ (acc : Bus × List ℕ) (r : ℕ),
      (reconcileSession taskId acc r).1.toExchange.ledger = acc.1.toExchange.ledger := by
    intro acc r
    unfold reconcileSession
    dsimp only
    split
    · split
      · rfl
      · split
        · rfl
        · split <;> rfl
    · rfl
  unfold reconcileTerminal
  generalize List.range b.sessionCount = rs
  suffices h : ∀ acc : Bus × List ℕ,
      (rs.foldl (reconcileSession taskId) acc).1.toExchange.ledger = acc.1.toExchange.ledger from h (b, [])
  induction rs with
  | nil => exact fun _ => rfl
  | cons r rs ih => exact fun acc => (ih _).trans (hsession acc r)

end Bus
end AgentBus
end AgentCore
