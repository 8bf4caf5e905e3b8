/-
# Collecting jobs

`collect` of `bus.py` looks at every job it is asked for, waits for the tasks
of those that have no result yet, and looks at the jobs of the tasks that are
done once more. Everything else goes on while it waits, so the second look is
at another bus, of which nothing is assumed.

A job with a result is completed or failed, one whose task is not there or not
done is pending. A job whose task is done and has left no result is in none of
the three lists: its task was cancelled before it ran, or ended in an
exception. `_reconcile_terminal_session_jobs` makes a result for such a job,
`collect` passes over it.

Key definitions: `CollectResult`, `CollectResult.places`, `Bus.collect`,
`Bus.awaits`.
Key theorem: `collect_partitions_iff`.
-/
import AgentCore.AgentBus.Status

namespace AgentCore
namespace AgentBus

/-- The three lists `collect` returns; a result stands with the job from whose
entry it was taken. -/
structure CollectResult where
  completed : List (ℕ × SubAgentResult) := []
  pending : List ℕ := []
  failed : List (ℕ × SubAgentResult) := []
  deriving DecidableEq, Repr

namespace CollectResult

def addResult (c : CollectResult) (j : ℕ) (res : SubAgentResult) (failed : Bool) : CollectResult :=
  if failed then { c with failed := c.failed ++ [(j, res)] }
  else { c with completed := c.completed ++ [(j, res)] }

def addPending (c : CollectResult) (js : List ℕ) : CollectResult := { c with pending := c.pending ++ js }

/-- In how many places the job is. -/
def places (c : CollectResult) (j : ℕ) : ℕ :=
  (c.completed.map (·.1)).count j + (c.failed.map (·.1)).count j + c.pending.count j

theorem places_addResult (c : CollectResult) (j : ℕ) (res : SubAgentResult) (failed : Bool) (k : ℕ) :
    (c.addResult j res failed).places k = c.places k + [j].count k := by
  unfold addResult places
  cases failed <;> simp only [Bool.false_eq_true, if_true, if_false, List.map_append, List.map_cons, List.map_nil,
    List.count_append] <;> omega

theorem places_addPending (c : CollectResult) (js : List ℕ) (k : ℕ) :
    (c.addPending js).places k = c.places k + js.count k := by
  unfold addPending places
  simp only [List.count_append]
  omega

end CollectResult

namespace Bus

open Runs

def result (b : Bus) (j : ℕ) : Option SubAgentResult := (b.jobs j).bind (·.result)

def known (b : Bus) (j : ℕ) : Bool := (b.jobs j).isSome

/-- The job has no result and a task that can be waited for. -/
def awaits (b : Bus) (j : ℕ) : Bool :=
  (b.jobs j).any fun e => e.result.isNone && e.status != .queued && e.task.isSome

/-- The first look at a job; the jobs whose tasks are to be waited for are
collected. -/
def collectJob (b : Bus) (acc : CollectResult × List ℕ) (j : ℕ) : CollectResult × List ℕ :=
  match b.jobs j with
  | none => acc
  | some e =>
    match e.result with
    | some res => (acc.1.addResult j res (e.status == .failed || !res.success), acc.2)
    | none =>
      if e.status = .queued ∨ e.task = none then (acc.1.addPending [j], acc.2)
      else (acc.1, if j ∈ acc.2 then acc.2 else acc.2 ++ [j])

/-- The second look at a job, whose task is done. -/
def collectDone (b : Bus) (c : CollectResult) (j : ℕ) : CollectResult :=
  match b.result j with
  | some res => c.addResult j res (!res.success)
  | none => c

/-- `collect` of the jobs `ids`. Its wait ends in `b'`, the tasks of the jobs
of which `done` holds being done. -/
def collect (b b' : Bus) (done : ℕ → Bool) (ids : List ℕ) : CollectResult :=
  let (c, waited) := ids.foldl b.collectJob ({}, [])
  if waited = [] then c
  else ((waited.filter done).foldl b'.collectDone c).addPending (waited.filter fun j => !done j)

variable {b b' : Bus} {done : ℕ → Bool} {ids : List ℕ}

theorem count_cons_eq (j k : ℕ) (js : List ℕ) : (j :: js).count k = [j].count k + js.count k := by
  rw [← List.count_append, List.singleton_append]

/-! ### The first look -/

/-- A job without a result is waited for unless it is queued or has no task. -/
theorem awaits_eq {j : ℕ} {e : JobEntry} (he : b.jobs j = some e) (hres : e.result = none) :
    b.awaits j = !decide (e.status = .queued ∨ e.task = none) := by
  rw [awaits, he, Option.any_some, hres]
  by_cases hq : e.status = .queued
  · simp [hq]
  · cases ht : e.task <;> simp [hq]

theorem not_awaits_of_result {j : ℕ} {e : JobEntry} {res : SubAgentResult} (he : b.jobs j = some e)
    (hres : e.result = some res) : b.awaits j = false := by
  rw [awaits, he, Option.any_some, hres]
  rfl

theorem collectJob_places (b : Bus) (acc : CollectResult × List ℕ) (j k : ℕ) :
    (b.collectJob acc j).1.places k = acc.1.places k + if b.known j && !b.awaits j then [j].count k else 0 := by
  unfold collectJob known
  cases he : b.jobs j with
  | none => simp
  | some e =>
    cases hres : e.result with
    | some res =>
      have hawaits := not_awaits_of_result he hres
      simp [CollectResult.places_addResult, hawaits, hres]
    | none =>
      have hawaits := awaits_eq he hres
      by_cases hwait : e.status = .queued ∨ e.task = none
      · simp [hres, hwait, hawaits, CollectResult.places_addPending]
      · simp [hres, hwait, hawaits]

theorem collectJob_waited (b : Bus) (acc : CollectResult × List ℕ) {j : ℕ} (hj : j ∉ acc.2) :
    (b.collectJob acc j).2 = acc.2 ++ if b.awaits j then [j] else [] := by
  unfold collectJob
  cases he : b.jobs j with
  | none => simp [awaits, he]
  | some e =>
    cases hres : e.result with
    | some res =>
      have hawaits := not_awaits_of_result he hres
      simp [hawaits, hres]
    | none =>
      have hawaits := awaits_eq he hres
      by_cases hwait : e.status = .queued ∨ e.task = none
      · simp [hres, hwait, hawaits]
      · simp [hres, hwait, hawaits, hj]

/-- What the first look places: the known jobs that need not be waited for. -/
theorem firstLook_places (b : Bus) (k : ℕ) : ∀ (ids : List ℕ) (acc : CollectResult × List ℕ),
    (ids.foldl b.collectJob acc).1.places k
      = acc.1.places k + (ids.filter fun j => b.known j && !b.awaits j).count k
  | [], acc => rfl
  | j :: ids, acc => by
    rw [List.foldl_cons, firstLook_places b k ids, collectJob_places, List.filter_cons]
    split
    · rw [count_cons_eq j k (ids.filter _)]
      omega
    · rfl

theorem firstLook_waited (b : Bus) : ∀ (ids : List ℕ) (acc : CollectResult × List ℕ), ids.Nodup →
    (∀ j ∈ ids, j ∉ acc.2) → (ids.foldl b.collectJob acc).2 = acc.2 ++ ids.filter b.awaits
  | [], acc, _, _ => (List.append_nil _).symm
  | j :: ids, acc, hnodup, hnew => by
    obtain ⟨hj, hids⟩ := List.nodup_cons.mp hnodup
    have hstep := collectJob_waited b acc (hnew j List.mem_cons_self)
    have hrest : ∀ i ∈ ids, i ∉ (b.collectJob acc j).2 := by
      intro i hi hmem
      have hij : i ≠ j := fun h => hj (h ▸ hi)
      have hold := hnew i (List.mem_cons_of_mem j hi)
      rw [hstep] at hmem
      split at hmem <;> simp_all
    rw [List.foldl_cons, firstLook_waited b ids _ hids hrest, hstep, List.filter_cons, List.append_assoc]
    split <;> simp

/-! ### The second look -/

theorem secondLook_places (b : Bus) (k : ℕ) : ∀ (js : List ℕ) (c : CollectResult),
    (js.foldl b.collectDone c).places k = c.places k + (js.filter fun j => (b.result j).isSome).count k
  | [], c => rfl
  | j :: js, c => by
    rw [List.foldl_cons, secondLook_places b k js, List.filter_cons]
    unfold collectDone
    cases b.result j with
    | none => simp
    | some res =>
      simp only [CollectResult.places_addResult, Option.isSome_some, if_true]
      rw [count_cons_eq j k (js.filter _)]
      omega

theorem known_of_awaits {j : ℕ} (h : b.awaits j = true) : b.known j = true := by
  obtain ⟨e, he, -⟩ := (Option.any_eq_true ..).mp h
  rw [known, he]
  rfl

/-- **Where a job is placed**: nowhere if the bus does not know it, or if its
task was waited for, is done, and has left no result; in one place otherwise. -/
theorem collect_places (b b' : Bus) (done : ℕ → Bool) (hnodup : ids.Nodup) (j : ℕ) :
    (b.collect b' done ids).places j =
      if j ∈ ids ∧ b.known j = true ∧ (b.awaits j = true → done j = true → (b'.result j).isSome = true)
      then 1 else 0 := by
  have hfirst := firstLook_places b j ids ({}, [])
  have hwaited := firstLook_waited b ids ({}, []) hnodup (fun _ _ h => by cases h)
  rw [List.nil_append] at hwaited
  have hcount : ∀ p : ℕ → Bool, (ids.filter p).count j = if j ∈ ids ∧ p j = true then 1 else 0 := by
    intro p
    rw [(hnodup.filter p).count]
    simp only [List.mem_filter]
  have hplaces : (b.collect b' done ids).places j =
      (ids.filter fun j => b.known j && !b.awaits j).count j
        + (((ids.filter b.awaits).filter done).filter fun j => (b'.result j).isSome).count j
        + ((ids.filter b.awaits).filter fun j => !done j).count j := by
    have hnone : CollectResult.places {} j = 0 := rfl
    unfold collect
    rw [hnone, Nat.zero_add] at hfirst
    dsimp only
    rw [hwaited]
    split
    · next hnil => simp [hfirst, hnil]
    · rw [CollectResult.places_addPending, secondLook_places, hfirst]
  rw [hplaces, List.filter_filter, List.filter_filter, List.filter_filter, hcount, hcount, hcount]
  by_cases hj : j ∈ ids
  · by_cases ha : b.awaits j = true
    · simp [hj, ha, known_of_awaits ha]
      cases done j <;> cases (b'.result j) <;> simp
    · simp [hj, ha]
  · simp [hj]

/-- **Collecting partitions the jobs**, whatever is known of them, when no job
that was waited for has its task done and no result, and only then. -/
theorem collect_partitions_iff (b b' : Bus) (done : ℕ → Bool) (hnodup : ids.Nodup)
    (hknown : ∀ j ∈ ids, b.known j = true) :
    (∀ j, (b.collect b' done ids).places j = if j ∈ ids then 1 else 0) ↔
      ∀ j ∈ ids, b.awaits j = true → done j = true → (b'.result j).isSome = true := by
  constructor
  · intro h j hj ha hd
    have hone := h j
    rw [collect_places b b' done hnodup, if_pos hj] at hone
    by_contra hres
    rw [if_neg fun hall => hres (hall.2.2 ha hd)] at hone
    cases hone
  · intro h j
    rw [collect_places b b' done hnodup]
    by_cases hj : j ∈ ids
    · rw [if_pos hj, if_pos ⟨hj, hknown j hj, h j hj⟩]
    · rw [if_neg hj, if_neg fun hall => hj hall.1]

/-- A bus with a job that is completed and one that has not started. -/
def oneDone : Bus :=
  ((run System.step (System.fresh false false none [])
    [.submit "t" 0 0, .start 1, .runEnds 1 (.returned { success := true, jobId := some 1 }),
      .submit "t" 0 0]).map (·.bus)).getD (System.fresh false false none []).bus

theorem collect_partitions_oneDone :
    (∀ j, (oneDone.collect oneDone oneDone.done [1, 2]).places j = if j ∈ [1, 2] then 1 else 0) ↔
      ∀ j ∈ [1, 2], oneDone.awaits j = true → oneDone.done j = true → (oneDone.result j).isSome = true :=
  collect_partitions_iff oneDone oneDone oneDone.done (by decide) (by decide)

/-- A job's task is cancelled before it runs, and its job is not yet marked
aborted: the job is known and in none of the lists. -/
theorem collect_passes_over :
    ∃ s, run System.step (System.fresh false false none []) [.submit "t" 0 0, .abort 1, .start 1] = some s ∧
      s.bus.known 1 = true ∧ s.bus.done 1 = true ∧ s.bus.collect s.bus s.bus.done [1] = {} ∧
      (s.bus.collect s.bus s.bus.done [1]).places 1 = 0 :=
  ⟨_, rfl, rfl, rfl, rfl, rfl⟩

end Bus

open Runs

/-! ### Jobs that end without a result -/

/-- If the task is done there is a result. -/
def JobEntry.Landed (e : JobEntry) : Prop := ∀ t, e.task = some t → t.pc = .finished → e.result.isSome = true

def Landed (jobs : ℕ → Option JobEntry) : Prop := ∀ j e, jobs j = some e → e.Landed

theorem JobEntry.landed_of_result {e : JobEntry} (h : e.result.isSome = true) : e.Landed := fun _ _ _ => h

theorem JobEntry.landed_of_pc {e : JobEntry} {t : JobTask} (ht : e.task = some t) (hpc : t.pc ≠ .finished) :
    e.Landed := by
  intro t' ht' hfin
  rw [ht, Option.some.injEq] at ht'
  exact absurd (ht' ▸ hfin) hpc

namespace Landed

variable {brd : Board} {j r : ℕ}

theorem updateJob {f : JobEntry → JobEntry} (h : Landed brd.jobs)
    (hf : ∀ e, brd.jobs j = some e → e.Landed → (f e).Landed) : Landed (brd.updateJob j f).jobs := by
  intro k e' hk
  rcases Board.jobs_updateJob.mp hk with ⟨rfl, e, he, rfl⟩ | ⟨-, hk⟩
  · exact hf e he (h k e he)
  · exact h k e' hk

theorem setJob {e : JobEntry} (h : Landed brd.jobs) (he : e.Landed) : Landed (brd.setJob j e).jobs := by
  intro k e' hk
  rcases Board.jobs_setJob.mp hk with ⟨-, rfl⟩ | ⟨-, hk⟩
  · exact he
  · exact h k e' hk

theorem setPc {pc : Pc} (h : Landed brd.jobs) (hpc : pc ≠ .finished) : Landed (brd.setPc j pc).jobs :=
  h.updateJob fun _ _ _ => JobEntry.landed_of_pc rfl hpc

/-- A task that ends behind its result. -/
theorem setPc_late {pc pc' : Pc} (h : Landed brd.jobs) (hs : Sound brd) (hpc : brd.pc j = some pc)
    (hlate : ∀ st : JobStatus, pc.allows st = true → st.isTerminal = true) : Landed (brd.setPc j pc').jobs := by
  refine h.updateJob fun e he _ => JobEntry.landed_of_result ?_
  obtain ⟨e', t, he', ht, rfl⟩ := Board.pc_eq_some.mp hpc
  cases he.symm.trans he'
  have hfits := hs.fits j e he
  exact hfits.reported.trans (hlate e.status (hfits.stands t ht))

theorem markAborted (h : Landed brd.jobs) (j : ℕ) : Landed (brd.markAborted j).jobs := by
  refine h.updateJob fun e _ he => ?_
  split
  · exact he
  · exact JobEntry.landed_of_result (by cases e.result <;> rfl)

theorem markAborted_fold : ∀ (ps : List PendingSessionTask) {brd : Board}, Landed brd.jobs →
    Landed (ps.foldl (fun brd p => brd.markAborted p.jobId) brd).jobs
  | [], _, h => h
  | p :: ps, _, h => markAborted_fold ps (h.markAborted p.jobId)

theorem dispatch {p : PendingSessionTask} (h : Landed brd.jobs) : Landed (brd.dispatch r p).jobs := by
  have hentry : (brd.dispatchEntry r p).task = some { pc := .created } := by
    unfold Board.dispatchEntry
    split <;> rfl
  have hnew : (brd.dispatchEntry r p).Landed := JobEntry.landed_of_pc hentry fun hpc => by cases hpc
  exact h.setJob hnew

theorem drains {ok : Quirk → Prop} {after : Board} {next : Option ℕ} (hd : Drains ok brd r after next)
    (h : Landed brd.jobs) : Landed after.jobs := by
  cases hd with
  | nothing _ => exact h
  | lost _ _ => exact h
  | @dispatched p rest _ =>
    have hpopped : Landed (brd.setPending r rest).jobs := h
    exact hpopped.dispatch

end Landed

theorem Finishes.landed {brd left : Board} {j r : ℕ} (hf : Finishes brd j r left) (hs : Sound brd)
    (h : Landed brd.jobs) : Landed left.jobs := by
  have hcleared : Landed (brd.clearCurrent r j).jobs := h
  cases hf with
  | untrimmed hat _ => exact hcleared.setPc_late (hs.clearCurrent _ _) hat.pc_eq fun _ => id
  | trimmed hat _ => exact hcleared.setPc_late (hs.clearCurrent _ _) hat.pc_eq fun _ => id
  | offloaded hat => exact h.setPc_late hs hat.pc_eq fun _ => id
  | kept hat => exact h.setPc_late hs hat.pc_eq fun _ => id

/-- **A task that is done has left a result**, after every move but that of a
task cancelled before it runs. -/
theorem Move.landed {ok : Quirk → Prop} {brd brd' : Board} (hm : Move ok brd brd') (hearly : ¬ok .earlyCancel)
    (hs : Sound brd) (h : Landed brd.jobs) : Landed brd'.jobs := by
  cases hm with
  | requestCancel j =>
    refine h.updateJob fun e _ he t ht hfin => ?_
    obtain ⟨t₀, ht₀, rfl⟩ := Option.map_eq_some_iff.mp ht
    exact he t₀ ht₀ hfin
  | createSession sid taskId => exact h
  | tick => exact h
  | addJob taskId => exact h.setJob (JobEntry.landed_of_pc rfl (by simp))
  | enqueue hr hp _ => exact h.setJob fun t ht => by cases ht
  | accept hr hp _ _ =>
    have hticked : Landed brd.tick.jobs := h
    exact hticked.dispatch
  | slot _ => exact h.setPc (by simp)
  | beginRun _ => exact h.updateJob fun _ _ _ => JobEntry.landed_of_pc rfl (by simp)
  | abandon _ hok => exact absurd hok hearly
  | conclude _ _ _ _ => exact h.updateJob fun _ _ _ => JobEntry.landed_of_result rfl
  | extend _ _ => exact h
  | absorb _ _ => exact h.updateJob fun _ _ _ => JobEntry.landed_of_pc rfl (by simp)
  | publish _ _ _ => exact h.updateJob fun _ _ _ => JobEntry.landed_of_result rfl
  | publishAborted _ _ _ _ => exact h.updateJob fun _ _ _ => JobEntry.landed_of_result rfl
  | markSent _ =>
    refine h.updateJob fun e _ _ t ht hfin => ?_
    obtain ⟨t₀, -, rfl⟩ := Option.map_eq_some_iff.mp ht
    cases hfin
  | offload _ _ => exact h.updateJob fun _ _ _ => JobEntry.landed_of_pc rfl (by simp)
  | finish hf hd =>
    next next =>
    have hafter := Landed.drains hd (hf.landed hs h)
    cases next with
    | none => exact hafter
    | some n => exact hafter.setPc (by simp)
  | lostOffload hpc _ => exact h.setPc_late hs hpc fun _ => id
  | settle hpc _ =>
    rcases hpc with hpc | hpc
    · exact h.setPc_late hs hpc fun _ => id
    · exact h.setPc_late hs hpc fun _ => id
  | markAborted _ => exact h.markAborted _
  | cancelParked _ =>
    next j _ =>
    have hpurged : Landed (brd.purge j).jobs := by rwa [Board.jobs_purge]
    exact hpurged.markAborted j
  | undo _ =>
    next r j _ =>
    have hclosed : Landed (if brd.terminal j then brd else (brd.closeAborted r).markAborted j).jobs := by
      split
      · exact h
      · exact h.markAborted j
    exact hclosed
  | confirm _ _ _ => exact h.updateJob fun _ _ he => he
  | reconcile hc he hpc =>
    next r j e =>
    have hclosed : Landed (if e.result.isSome then brd else brd.closeAborted r).jobs := by
      split <;> exact h
    exact hclosed.updateJob fun _ _ _ => JobEntry.landed_of_result rfl
  | lateDrain hd _ => exact Landed.drains hd h
  | dropResults _ => exact h
  | abortPending r => exact Landed.markAborted_fold _ h
  | unlist r => exact h

theorem Moves.landed {ok : Quirk → Prop} {brd brd' : Board} (hm : Moves ok brd brd') (hup : ¬ok .givesUp)
    (hearly : ¬ok .earlyCancel) (hs : Sound brd) (h : Landed brd.jobs) : Sound brd' ∧ Landed brd'.jobs := by
  induction hm with
  | refl => exact ⟨hs, h⟩
  | tail _ hlast ih => exact ⟨hlast.sound hup ih.1, hlast.landed hearly ih.1 ih.2⟩

/-- In a run in which no task is cancelled before it runs, collecting
partitions the jobs. -/
theorem collect_partitions_run {historyDir comm : Bool} {guard : Option SpawnGuard} {store : List ResultMessage}
    {es : List Bus.Event} {s' : System}
    (h : Trace System.step (fun _ => Avoids [.earlyCancel, .givesUp]) (System.fresh historyDir comm guard store) es s')
    (b : Bus) {ids : List ℕ} (hnodup : ids.Nodup) (hknown : ∀ j ∈ ids, b.known j = true) (j : ℕ) :
    (b.collect s'.bus s'.bus.done ids).places j = if j ∈ ids then 1 else 0 := by
  have hs : Sound s'.bus.toBoard ∧ Landed s'.bus.jobs := by
    refine Trace.invariant (I := fun _ s => Sound s.bus.toBoard ∧ Landed s.bus.jobs)
      ⟨sound_fresh .., fun k e hk => by cases hk⟩ ?_ h
    intro _ s ev s' hI hav hstep
    exact (step_moves hstep).landed (by simp [hav .givesUp]) (by simp [hav .earlyCancel]) hI.1 hI.2
  have hlanded : s'.bus.done j = true → (s'.bus.result j).isSome = true := by
    intro hd
    obtain ⟨e, t, he, ht, hpc⟩ := Board.pc_eq_some.mp (beq_iff_eq.mp hd)
    rw [Bus.result, he]
    exact hs.2 j e he t ht hpc
  rw [Bus.collect_places b s'.bus _ hnodup]
  by_cases hj : j ∈ ids
  · rw [if_pos hj, if_pos ⟨hj, hknown j hj, fun _ => hlanded⟩]
  · rw [if_neg hj, if_neg fun hall => hj hall.1]

end AgentBus
end AgentCore
