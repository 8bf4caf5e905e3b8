/-
# What holds of jobs and sessions throughout

`Sound` is kept by every move but that of a cleanup that gives up on a task.
The status of a job follows where its task stands, a job has a result exactly
when its status is terminal, queued tasks are jobs of the session that have no
task yet, and the current job of a session is one that has not come to its
`finally`. A job whose task was cancelled before it ran stays current with its
task done; it is submitted then, or has been marked aborted.

Key definitions: `Pc.allows`, `JobEntry.Fits`, `Sound`.
Key theorem: `Move.sound`.
-/
import AgentCore.AgentBus.Moves
import Mathlib.Data.List.Nodup

namespace AgentCore
namespace AgentBus

/-- The statuses of a job whose task stands here. -/
def Pc.allows : Pc → JobStatus → Bool
  | .created, st => st == .submitted
  | .slot, st => st == .submitted
  | .loop, st => st == .running
  | .adapter, st => st == .running
  | .finished, st => st == .submitted || st.isTerminal
  | _, st => st.isTerminal

theorem Pc.finished_allows (st : JobStatus) (h : st.isTerminal = true) : Pc.finished.allows st = true := by
  simp [Pc.allows, h]

/-- The task has not come to its `finally`. -/
def Pc.isEarly : Pc → Bool
  | .created | .slot | .loop | .adapter | .publishing _ => true
  | _ => false

structure JobEntry.Fits (e : JobEntry) : Prop where
  parked : e.task = none → e.status = .queued ∨ e.status = .aborted
  stands : ∀ t, e.task = some t → t.pc.allows e.status = true
  reported : e.result.isSome = e.status.isTerminal

/-- The job may be the current one of its session. -/
def JobEntry.MayBeCurrent (e : JobEntry) (j : ℕ) : Prop :=
  ∃ t, e.task = some t ∧
    (t.pc.isEarly = true ∨ t.pc = .finished ∧ (e.status = .submitted ∨ e.result = some (abortedResult j)))

structure Sound (brd : Board) : Prop where
  fresh : ∀ j e, brd.jobs j = some e → j ≤ brd.counter
  home : ∀ j e r, brd.jobs j = some e → e.session = some r → r < brd.sessionCount
  fits : ∀ j e, brd.jobs j = some e → e.Fits
  queue : ∀ r, ∀ p ∈ (brd.sessions r).pendingTasks,
    ∃ e, brd.jobs p.jobId = some e ∧ e.session = some r ∧ e.task = none
  nodup : ∀ r, ((brd.sessions r).pendingTasks.map (·.jobId)).Nodup
  current : ∀ r j, (brd.sessions r).currentJobId = some j →
    ∃ e, brd.jobs j = some e ∧ e.session = some r ∧ e.MayBeCurrent j

/-! ### Updates -/

namespace Board

variable {brd : Board} {j k r r' : ℕ} {e : JobEntry} {f : JobEntry → JobEntry}
  {g : SubAgentSession → SubAgentSession}

theorem jobs_updateJob : (brd.updateJob j f).jobs k = some e ↔
    (k = j ∧ ∃ e₀, brd.jobs j = some e₀ ∧ f e₀ = e) ∨ (k ≠ j ∧ brd.jobs k = some e) := by
  unfold updateJob
  by_cases hk : k = j
  · subst hk
    simp [Function.update_self]
  · simp [hk]

theorem jobs_updateJob_of (h : brd.jobs j = some e) : (brd.updateJob j f).jobs j = some (f e) :=
  jobs_updateJob.mpr (.inl ⟨rfl, e, h, rfl⟩)

theorem jobs_updateJob_ne (h : k ≠ j) : (brd.updateJob j f).jobs k = brd.jobs k := Function.update_of_ne h _ _

theorem updateJob_none (h : brd.jobs j = none) : brd.updateJob j f = brd := by
  unfold updateJob
  rw [h, Option.map_none, ← h, Function.update_eq_self]

theorem jobs_setJob {e' : JobEntry} : (brd.setJob j e').jobs k = some e ↔
    (k = j ∧ e' = e) ∨ (k ≠ j ∧ brd.jobs k = some e) := by
  unfold setJob
  by_cases hk : k = j
  · subst hk
    simp [Function.update_self]
  · simp [hk]

@[simp] theorem jobs_updateSession : (brd.updateSession r g).jobs = brd.jobs := rfl

@[simp] theorem sessions_updateJob : (brd.updateJob j f).sessions = brd.sessions := rfl

@[simp] theorem sessions_setJob {e' : JobEntry} : (brd.setJob j e').sessions = brd.sessions := rfl

/-- Jobs and sessions change independently of each other. -/
theorem updateSession_updateJob :
    (brd.updateJob j f).updateSession r g = (brd.updateSession r g).updateJob j f := rfl

theorem updateSession_setJob {e' : JobEntry} :
    (brd.updateSession r g).setJob j e' = (brd.setJob j e').updateSession r g := rfl

theorem jobs_purge : (brd.purge j).jobs = brd.jobs := by
  unfold purge
  split <;> rfl

theorem sessions_updateSession_self : (brd.updateSession r g).sessions r = g (brd.sessions r) :=
  Function.update_self _ _ _

theorem sessions_updateSession_ne (h : r' ≠ r) : (brd.updateSession r g).sessions r' = brd.sessions r' :=
  Function.update_of_ne h _ _

/-- What holds of every session when it held and holds of the changed one. -/
theorem forall_updateSession {P : ℕ → SubAgentSession → Prop} (h : ∀ r, P r (brd.sessions r))
    (hr : P r (g (brd.sessions r))) (r' : ℕ) : P r' ((brd.updateSession r g).sessions r') := by
  by_cases h' : r' = r
  · subst h'
    rwa [sessions_updateSession_self]
  · rw [sessions_updateSession_ne h']
    exact h r'

theorem pc_eq_some {pc : Pc} :
    brd.pc j = some pc ↔ ∃ e t, brd.jobs j = some e ∧ e.task = some t ∧ t.pc = pc := by
  simp only [Board.pc, Option.bind_eq_some_iff, Option.map_eq_some_iff]
  constructor
  · rintro ⟨e, he, t, ht, h⟩
    exact ⟨e, t, he, ht, h⟩
  · rintro ⟨e, t, he, ht, h⟩
    exact ⟨e, he, t, ht, h⟩

theorem At.pc_eq {pc : Pc} (h : brd.At j r pc) : brd.pc j = some pc := by
  obtain ⟨e, t, he, -, ht, hpc⟩ := h
  exact pc_eq_some.mpr ⟨e, t, he, ht, hpc⟩

end Board

namespace Sound

variable {brd : Board} {j r : ℕ}

/-- One job changes, staying in its session. -/
theorem updateJob (h : Sound brd) {f : JobEntry → JobEntry} {e : JobEntry} (he : brd.jobs j = some e)
    (hs : (f e).session = e.session) (hfits : (f e).Fits) (hq : e.task = none → (f e).task = none)
    (hc : ∀ r, (brd.sessions r).currentJobId = some j → e.MayBeCurrent j → (f e).MayBeCurrent j) :
    Sound (brd.updateJob j f) where
  fresh k e' hk := by
    rcases Board.jobs_updateJob.mp hk with ⟨rfl, e₀, h₀, -⟩ | ⟨-, h₀⟩
    · exact h.fresh k e₀ h₀
    · exact h.fresh k e' h₀
  home k e' r hk hr := by
    rcases Board.jobs_updateJob.mp hk with ⟨rfl, e₀, h₀, rfl⟩ | ⟨-, h₀⟩
    · cases he.symm.trans h₀
      exact h.home k e r he (hs ▸ hr)
    · exact h.home k e' r h₀ hr
  fits k e' hk := by
    rcases Board.jobs_updateJob.mp hk with ⟨rfl, e₀, h₀, rfl⟩ | ⟨-, h₀⟩
    · cases he.symm.trans h₀
      exact hfits
    · exact h.fits k e' h₀
  queue r p hp := by
    obtain ⟨e', he', hr, ht⟩ := h.queue r p hp
    by_cases hk : p.jobId = j
    · subst hk
      cases he.symm.trans he'
      exact ⟨f e, Board.jobs_updateJob_of he, hs.trans hr, hq ht⟩
    · exact ⟨e', by rwa [Board.jobs_updateJob_ne hk], hr, ht⟩
  nodup := h.nodup
  current r k hk := by
    obtain ⟨e', he', hr, hm⟩ := h.current r k hk
    by_cases hkj : k = j
    · subst hkj
      cases he.symm.trans he'
      exact ⟨f e, Board.jobs_updateJob_of he, hs.trans hr, hc r hk hm⟩
    · exact ⟨e', by rwa [Board.jobs_updateJob_ne hkj], hr, hm⟩

/-- One session changes, its queue losing tasks at most and its current job
cleared at most. -/
theorem updateSession (h : Sound brd) {g : SubAgentSession → SubAgentSession}
    (hq : (g (brd.sessions r)).pendingTasks.Sublist (brd.sessions r).pendingTasks)
    (hc : (g (brd.sessions r)).currentJobId = (brd.sessions r).currentJobId ∨
      (g (brd.sessions r)).currentJobId = none) : Sound (brd.updateSession r g) where
  fresh := h.fresh
  home := h.home
  fits := h.fits
  queue := Board.forall_updateSession (P := fun r s => ∀ p ∈ s.pendingTasks,
    ∃ e, brd.jobs p.jobId = some e ∧ e.session = some r ∧ e.task = none) h.queue
      fun p hp => h.queue r p (hq.subset hp)
  nodup := Board.forall_updateSession (P := fun _ s => (s.pendingTasks.map (·.jobId)).Nodup) h.nodup
    ((h.nodup r).sublist (hq.map _))
  current := Board.forall_updateSession (P := fun r s => ∀ j, s.currentJobId = some j →
    ∃ e, brd.jobs j = some e ∧ e.session = some r ∧ e.MayBeCurrent j) h.current fun j hj => by
      rcases hc with hc | hc
      · exact h.current r j (hc ▸ hj)
      · rw [hc] at hj
        cases hj

/-! ### The current job and the queue -/

/-- A job is current in its own session only. -/
theorem current_eq (h : Sound brd) {e : JobEntry} {r' : ℕ} (he : brd.jobs j = some e) (hr : e.session = some r)
    (hc : (brd.sessions r').currentJobId = some j) : r' = r := by
  obtain ⟨e', he', hr', -⟩ := h.current r' j hc
  rw [he, Option.some.injEq] at he'
  subst he'
  rw [hr, Option.some.injEq] at hr'
  exact hr'.symm

/-- A job without a session is never current. -/
theorem not_current_of_plain (h : Sound brd) {e : JobEntry} (he : brd.jobs j = some e) (hs : e.session = none)
    (r : ℕ) : (brd.sessions r).currentJobId ≠ some j := by
  intro hc
  obtain ⟨e', he', hr', -⟩ := h.current r j hc
  rw [he, Option.some.injEq] at he'
  subst he'
  rw [hs] at hr'
  cases hr'

/-- A job that has come to its `finally` is not current until its task is
done. -/
theorem not_current_of_late (h : Sound brd) {pc : Pc} (hpc : brd.pc j = some pc) (hlate : pc.isEarly = false)
    (hne : pc ≠ .finished) (r : ℕ) : (brd.sessions r).currentJobId ≠ some j := by
  intro hc
  obtain ⟨e, t, he, ht, rfl⟩ := Board.pc_eq_some.mp hpc
  obtain ⟨e', he', -, t', ht', hm⟩ := h.current r j hc
  cases he.symm.trans he'
  cases ht.symm.trans ht'
  rcases hm with hm | hm
  · rw [hlate] at hm
    cases hm
  · exact hne hm.1

theorem jobs_succ (h : Sound brd) : brd.jobs (brd.counter + 1) = none := by
  cases hj : brd.jobs (brd.counter + 1) with
  | none => rfl
  | some e =>
    have := h.fresh _ e hj
    omega

theorem allows (h : Sound brd) {e : JobEntry} {t : JobTask} (he : brd.jobs j = some e) (ht : e.task = some t) :
    t.pc.allows e.status = true :=
  (h.fits j e he).stands t ht

/-! ### Moves of a job's task -/

theorem fits_of_task {e : JobEntry} {t : JobTask} (ht : e.task = some t) (ha : t.pc.allows e.status = true)
    (hr : e.result.isSome = e.status.isTerminal) : e.Fits :=
  ⟨fun h => by simp [ht] at h, fun t' ht' => by rw [ht, Option.some.injEq] at ht'; exact ht' ▸ ha, hr⟩

/-- A task moves on to a place its status allows, one before its `finally` if
its job is current. -/
theorem setPc (h : Sound brd) {pc : Pc} {e : JobEntry} (he : brd.jobs j = some e) (ht : e.task ≠ none)
    (ha : pc.allows e.status = true)
    (hc : ∀ r, (brd.sessions r).currentJobId = some j → pc.isEarly = true ∨ pc = .finished ∧ e.status = .submitted) :
    Sound (brd.setPc j pc) := by
  refine h.updateJob he rfl (fits_of_task rfl ha (h.fits j e he).reported) (fun hnone => absurd hnone ht)
    fun r hr _ => ⟨_, rfl, ?_⟩
  exact (hc r hr).imp id fun hcur => ⟨hcur.1, .inl hcur.2⟩

/-- A task past its `finally` moves on. -/
theorem setPc_late (h : Sound brd) {pc pc' : Pc} (hpc : brd.pc j = some pc) (hlate : pc.isEarly = false)
    (hne : pc ≠ .finished) (hterm : ∀ st : JobStatus, pc.allows st = true → st.isTerminal = true)
    (hallows : ∀ st : JobStatus, st.isTerminal = true → pc'.allows st = true) : Sound (brd.setPc j pc') := by
  have hnot := h.not_current_of_late hpc hlate hne
  obtain ⟨e, t, he, ht, rfl⟩ := Board.pc_eq_some.mp hpc
  exact h.setPc he (by simp [ht]) (hallows _ (hterm _ (h.allows he ht))) fun r hc => absurd hc (hnot r)

theorem requestCancel (h : Sound brd) (j : ℕ) : Sound (brd.requestCancel j) := by
  cases he : brd.jobs j with
  | none => rwa [Board.requestCancel, Board.updateJob_none he]
  | some e =>
    have hfits := h.fits j e he
    refine h.updateJob he rfl ⟨fun ht => hfits.parked (by simpa using ht), fun t ht => ?_, hfits.reported⟩
      (fun ht => by simp [ht]) fun r _ hm => ?_
    · obtain ⟨t', ht', rfl⟩ := Option.map_eq_some_iff.mp ht
      exact hfits.stands t' ht'
    · obtain ⟨t, ht, hm⟩ := hm
      exact ⟨{ t with cancelRequested := true }, by simp [ht], hm⟩

theorem markSent (h : Sound brd) (hpc : brd.pc j = some (.publishing false)) : Sound (brd.markSent j) := by
  obtain ⟨e, t, he, ht, hpc⟩ := Board.pc_eq_some.mp hpc
  have hallows := h.allows he ht
  rw [hpc] at hallows
  have htask : (e.task.map fun t => { t with pc := .publishing true }) = some { t with pc := .publishing true } := by
    simp [ht]
  exact h.updateJob he rfl (fits_of_task htask hallows (h.fits j e he).reported)
    (fun hnone => by simp [ht] at hnone) fun r _ _ => ⟨_, htask, .inl rfl⟩

theorem submitted_of_unstarted (h : Sound brd) (hpc : brd.pc j = some .created ∨ brd.pc j = some .slot) :
    ∃ e t, brd.jobs j = some e ∧ e.task = some t ∧ e.status = .submitted := by
  rcases hpc with hpc | hpc
  all_goals
    obtain ⟨e, t, he, ht, hpc⟩ := Board.pc_eq_some.mp hpc
    have hallows := h.allows he ht
    rw [hpc] at hallows
    exact ⟨e, t, he, ht, by simpa [Pc.allows] using hallows⟩

theorem beginRun (h : Sound brd) (hpc : brd.pc j = some .created ∨ brd.pc j = some .slot) :
    Sound (brd.beginRun j) := by
  obtain ⟨e, t, he, ht, hst⟩ := h.submitted_of_unstarted hpc
  have hreported := (h.fits j e he).reported
  rw [hst] at hreported
  exact h.updateJob he rfl (fits_of_task rfl rfl hreported) (fun hnone => by simp [ht] at hnone)
    fun r _ _ => ⟨_, rfl, .inl rfl⟩

theorem isTerminal_status (res : SubAgentResult) : res.status.isTerminal = true := by
  unfold SubAgentResult.status
  split_ifs <;> rfl

theorem isTerminal_reconciledStatus (res : SubAgentResult) : res.reconciledStatus.isTerminal = true := by
  unfold SubAgentResult.reconciledStatus
  split_ifs <;> rfl

theorem conclude (h : Sound brd) {e : JobEntry} (he : brd.jobs j = some e) (hpc : brd.pc j = some .loop)
    (hs : e.session = none) (res : SubAgentResult) : Sound (brd.conclude j res) := by
  obtain ⟨e', t, he', ht, -⟩ := Board.pc_eq_some.mp hpc
  cases he.symm.trans he'
  refine h.updateJob he rfl (fits_of_task rfl ?_ (isTerminal_status res).symm)
    (fun hnone => by simp [ht] at hnone) fun r hc _ => absurd hc (h.not_current_of_plain he hs r)
  exact Pc.finished_allows _ (isTerminal_status res)

theorem setHistory (h : Sound brd) (r : ℕ) (hist : History × List TaskBoundary) : Sound (brd.setHistory r hist) :=
  h.updateSession (List.Sublist.refl _) (.inl rfl)

theorem closeAborted (h : Sound brd) (r : ℕ) : Sound (brd.closeAborted r) := h.setHistory r _

theorem publish (h : Sound brd) {pc : Pc} (hat : brd.At j r pc) (res : SubAgentResult) :
    Sound (brd.publish j r res) := by
  obtain ⟨e, t, he, -, ht, -⟩ := hat
  have hjob : Sound (brd.updateJob j fun e =>
      { e with status := res.status, result := some res, task := some { pc := .publishing false } }) :=
    h.updateJob he rfl (fits_of_task rfl (isTerminal_status res) (isTerminal_status res).symm)
      (fun hnone => by simp [ht] at hnone) fun r _ _ => ⟨_, rfl, .inl rfl⟩
  exact hjob.updateSession (List.Sublist.refl _) (.inl rfl)

theorem clearCurrent (h : Sound brd) (r j : ℕ) : Sound (brd.clearCurrent r j) := by
  refine h.updateSession (List.Sublist.refl _) ?_
  dsimp only
  split
  · exact .inr rfl
  · exact .inl rfl

/-- Cleared in its own session, a job is current nowhere. -/
theorem not_current_clearCurrent (h : Sound brd) {pc : Pc} (hat : brd.At j r pc) (r' : ℕ) :
    ((brd.clearCurrent r j).sessions r').currentJobId ≠ some j := by
  obtain ⟨e, t, he, hr, -, -⟩ := hat
  intro hc
  by_cases hr' : r' = r
  · subst hr'
    rw [Board.clearCurrent, Board.sessions_updateSession_self] at hc
    dsimp only at hc
    split at hc
    · cases hc
    · next hne => exact hne hc
  · rw [Board.clearCurrent, Board.sessions_updateSession_ne hr'] at hc
    exact hr' (h.current_eq he hr hc)

theorem leave (h : Sound brd) {sent : Bool} (hat : brd.At j r (.publishing sent)) {pc : Pc}
    (hpc : ∀ st : JobStatus, st.isTerminal = true → pc.allows st = true) : Sound (brd.leave j r pc) := by
  have hclear := h.clearCurrent r j
  have hnot := h.not_current_clearCurrent hat
  obtain ⟨e, t, he, hr, ht, htp⟩ := hat
  have hallows := h.allows he ht
  rw [htp] at hallows
  exact hclear.setPc he (by simp [ht]) (hpc _ hallows) fun r' hc => absurd hc (hnot r')

/-! ### Cancelling -/

theorem result_none (h : Sound brd) {e : JobEntry} (he : brd.jobs j = some e) (hst : e.status.isTerminal = false) :
    e.result = none := by
  rw [← Option.not_isSome_iff_eq_none, (h.fits j e he).reported, hst]
  exact Bool.false_ne_true

/-- Of the tasks whose jobs may be marked, only a finished one is there. -/
theorem finished_of_markable (h : Sound brd) {e : JobEntry} {t : JobTask} (he : brd.jobs j = some e)
    (ht : e.task = some t)
    (hj : brd.status j = some .queued ∨ brd.pc j = none ∨ brd.pc j = some .finished) : t.pc = .finished := by
  have hpc : brd.pc j = some t.pc := Board.pc_eq_some.mpr ⟨e, t, he, ht, rfl⟩
  rcases hj with hj | hj | hj
  · have hallows := h.allows he ht
    rw [Board.status, he, Option.map_some, Option.some.injEq] at hj
    rw [hj] at hallows
    cases htp : t.pc <;> rw [htp] at hallows <;> simp [Pc.allows, JobStatus.isTerminal] at hallows
  · rw [hpc] at hj
    cases hj
  · rwa [hpc, Option.some.injEq] at hj

theorem markAborted (h : Sound brd)
    (hj : brd.status j = some .queued ∨ brd.pc j = none ∨ brd.pc j = some .finished) : Sound (brd.markAborted j) := by
  cases he : brd.jobs j with
  | none => rwa [Board.markAborted, Board.updateJob_none he]
  | some e =>
    cases hterm : e.status.isTerminal with
    | true =>
      refine h.updateJob he ?_ ?_ ?_ ?_
      all_goals rw [if_pos hterm]
      · exact h.fits j e he
      · exact id
      · exact fun _ _ => id
    | false =>
      have hnone := h.result_none he hterm
      refine h.updateJob he ?_ ?_ ?_ ?_
      all_goals rw [if_neg (by simp [hterm])]
      · refine ⟨fun _ => .inr rfl, fun t ht => ?_, by simp [hnone, JobStatus.isTerminal]⟩
        rw [h.finished_of_markable he ht hj]
        rfl
      · exact id
      · rintro r - ⟨t, ht, hm⟩
        exact ⟨t, ht, hm.imp id fun hm => ⟨hm.1, .inr (by simp [hnone])⟩⟩

theorem setPending (h : Sound brd) {ps : List PendingSessionTask} (hps : ps.Sublist (brd.sessions r).pendingTasks) :
    Sound (brd.setPending r ps) :=
  h.updateSession hps (.inl rfl)

theorem purge (h : Sound brd) (j : ℕ) : Sound (brd.purge j) := by
  unfold Board.purge
  split
  · exact h
  · exact h.setPending List.filter_sublist

theorem undo (h : Sound brd) (r : ℕ) (hj : brd.pc j = some .finished) : Sound (brd.undo r j) := by
  unfold Board.undo
  split
  · exact h.clearCurrent r j
  · exact ((h.closeAborted r).markAborted (.inr (.inr hj))).clearCurrent r j

theorem confirm (h : Sound brd) {e : JobEntry} (he : brd.jobs j = some e) (hpc : brd.pc j = some .finished)
    (hs : e.result.any (·.success) = true) : Sound (brd.confirm j) := by
  obtain ⟨e', t, he', ht, htp⟩ := Board.pc_eq_some.mp hpc
  cases he.symm.trans he'
  cases hres : e.result with
  | none => simp [hres] at hs
  | some res =>
    have hterm : e.status.isTerminal = true := by rw [← (h.fits j e he).reported, hres]; rfl
    refine h.updateJob he rfl (fits_of_task ht (by rw [htp]; rfl) (by simp [hres, JobStatus.isTerminal])) id ?_
    rintro r - ⟨t', ht', hm⟩
    refine ⟨t', ht', hm.imp id fun hm => ⟨hm.1, .inr (hm.2.resolve_left fun hst => ?_)⟩⟩
    rw [hst] at hterm
    cases hterm

theorem abortPending_fold (ps : List PendingSessionTask) :
    ∀ {brd : Board}, Sound brd → (∀ p ∈ ps, brd.pc p.jobId = none) →
      Sound (ps.foldl (fun brd p => brd.markAborted p.jobId) brd) := by
  induction ps with
  | nil => exact fun h _ => h
  | cons p ps ih =>
    intro brd h hps
    refine ih (h.markAborted (.inr (.inl (hps p List.mem_cons_self)))) fun q hq => ?_
    rw [Bus.pc_markAborted]
    exact hps q (List.mem_cons_of_mem _ hq)

theorem pc_none_of_queued (h : Sound brd) {p : PendingSessionTask} (hp : p ∈ (brd.sessions r).pendingTasks) :
    brd.pc p.jobId = none := by
  obtain ⟨e, he, -, ht⟩ := h.queue r p hp
  simp [Board.pc, he, ht]

theorem abortPending (h : Sound brd) (r : ℕ) : Sound (brd.abortPending r) :=
  (abortPending_fold _ h fun _ hp => h.pc_none_of_queued hp).setPending (List.nil_sublist _)

/-! ### Reconciling -/

theorem reconcile (h : Sound brd) {e : JobEntry} (hc : (brd.sessions r).currentJobId = some j)
    (he : brd.jobs j = some e) (hpc : brd.pc j = some .finished) : Sound (brd.reconcile r j e) := by
  obtain ⟨e', t, he', ht, htp⟩ := Board.pc_eq_some.mp hpc
  cases he.symm.trans he'
  obtain ⟨e', he', hhome, -⟩ := h.current r j hc
  cases he.symm.trans he'
  have hclosed : Sound (if e.result.isSome then brd else brd.closeAborted r) := by
    split
    · exact h
    · exact h.closeAborted r
  have hjobs : (if e.result.isSome then brd else brd.closeAborted r).jobs j = some e := by split <;> exact he
  unfold Board.reconcile
  dsimp only
  -- the session is changed first: no session then has the job as its current one
  rw [Board.updateSession_updateJob]
  refine (hclosed.updateSession (List.Sublist.refl _) (.inr rfl)).updateJob hjobs rfl
    (fits_of_task ht ?_ (isTerminal_reconciledStatus _).symm) id fun r' hr' => ?_
  · rw [htp]
    exact Pc.finished_allows _ (isTerminal_reconciledStatus _)
  · by_cases hne : r' = r
    · subst hne
      rw [Board.sessions_updateSession_self] at hr'
      cases hr'
    · rw [Board.sessions_updateSession_ne hne] at hr'
      exact absurd (hclosed.current_eq hjobs hhome hr') hne

/-! ### New jobs and dispatching -/

theorem tick (h : Sound brd) : Sound brd.tick where
  fresh j e he := Nat.le_succ_of_le (h.fresh j e he)
  home := h.home
  fits := h.fits
  queue := h.queue
  nodup := h.nodup
  current := h.current

theorem createSession (h : Sound brd) (sid taskId : String) : Sound (brd.createSession sid taskId) := by
  have hsess : ∀ r, ((brd.createSession sid taskId).sessions r).pendingTasks.Sublist
        (brd.sessions r).pendingTasks ∧
      (((brd.createSession sid taskId).sessions r).currentJobId = (brd.sessions r).currentJobId ∨
        ((brd.createSession sid taskId).sessions r).currentJobId = none) := by
    intro r
    unfold Board.createSession
    dsimp only
    by_cases hr : r = brd.sessionCount
    · subst hr
      rw [Function.update_self]
      exact ⟨List.nil_sublist _, .inr rfl⟩
    · rw [Function.update_of_ne hr]
      exact ⟨List.Sublist.refl _, .inl rfl⟩
  refine ⟨h.fresh, fun j e r he hr => Nat.lt_succ_of_lt (h.home j e r he hr), h.fits,
    fun r p hp => h.queue r p ((hsess r).1.subset hp), fun r => (h.nodup r).sublist ((hsess r).1.map _),
    fun r j hj => ?_⟩
  rcases (hsess r).2 with heq | hnone
  · exact h.current r j (heq ▸ hj)
  · rw [hnone] at hj
    cases hj

/-- A job gets its first entry, or a new one that may be current and is not
queued. -/
theorem setJob (h : Sound brd) {e : JobEntry} (hj : j ≤ brd.counter)
    (hhome : ∀ r, e.session = some r → r < brd.sessionCount) (hfits : e.Fits)
    (hqueue : ∀ r, ∀ p ∈ (brd.sessions r).pendingTasks, p.jobId ≠ j)
    (hcur : ∀ r, (brd.sessions r).currentJobId ≠ some j) : Sound (brd.setJob j e) where
  fresh k e' hk := by
    rcases Board.jobs_setJob.mp hk with ⟨rfl, -⟩ | ⟨-, hk⟩
    · exact hj
    · exact h.fresh k e' hk
  home k e' r hk hr := by
    rcases Board.jobs_setJob.mp hk with ⟨rfl, rfl⟩ | ⟨-, hk⟩
    · exact hhome r hr
    · exact h.home k e' r hk hr
  fits k e' hk := by
    rcases Board.jobs_setJob.mp hk with ⟨rfl, rfl⟩ | ⟨-, hk⟩
    · exact hfits
    · exact h.fits k e' hk
  queue r p hp := by
    obtain ⟨e', he', hrest⟩ := h.queue r p hp
    exact ⟨e', Board.jobs_setJob.mpr (.inr ⟨hqueue r p hp, he'⟩), hrest⟩
  nodup := h.nodup
  current r k hk := by
    obtain ⟨e', he', hrest⟩ := h.current r k hk
    exact ⟨e', Board.jobs_setJob.mpr (.inr ⟨fun heq => hcur r (heq ▸ hk), he'⟩), hrest⟩

/-- A number no job has is not queued and not current. -/
theorem not_queued_of_none (h : Sound brd) (hj : brd.jobs j = none) :
    (∀ r, ∀ p ∈ (brd.sessions r).pendingTasks, p.jobId ≠ j) ∧ ∀ r, (brd.sessions r).currentJobId ≠ some j := by
  constructor
  · rintro r p hp rfl
    obtain ⟨e, he, -⟩ := h.queue r p hp
    rw [hj] at he
    cases he
  · intro r hr
    obtain ⟨e, he, -⟩ := h.current r j hr
    rw [hj] at he
    cases he

theorem addJob (h : Sound brd) (taskId : String) : Sound (brd.tick.addJob (brd.counter + 1) taskId) := by
  obtain ⟨hq, hc⟩ := h.not_queued_of_none h.jobs_succ
  exact h.tick.setJob (Nat.le_refl _) (fun r hr => by cases hr) (fits_of_task rfl rfl rfl) hq hc

/-- A session takes up a job that has just got its entry. -/
theorem setJob_updateSession (h : Sound brd) {g : SubAgentSession → SubAgentSession} {e : JobEntry}
    (he : brd.jobs j = some e) (hhome : e.session = some r)
    (hq : (g (brd.sessions r)).pendingTasks = (brd.sessions r).pendingTasks ∨
      ∃ p, (g (brd.sessions r)).pendingTasks = (brd.sessions r).pendingTasks ++ [p] ∧ p.jobId = j ∧
        e.task = none ∧ ∀ q ∈ (brd.sessions r).pendingTasks, q.jobId ≠ j)
    (hc : (g (brd.sessions r)).currentJobId = (brd.sessions r).currentJobId ∨
      (g (brd.sessions r)).currentJobId = some j ∧ e.MayBeCurrent j) : Sound (brd.updateSession r g) where
  fresh := h.fresh
  home := h.home
  fits := h.fits
  queue := Board.forall_updateSession (P := fun r s => ∀ p ∈ s.pendingTasks,
    ∃ e, brd.jobs p.jobId = some e ∧ e.session = some r ∧ e.task = none) h.queue fun p hp => by
      rcases hq with hq | ⟨q, hq, hid, ht, -⟩
      · exact h.queue r p (hq ▸ hp)
      · rw [hq] at hp
        rcases List.mem_append.mp hp with hp | hp
        · exact h.queue r p hp
        · rw [List.mem_singleton.mp hp, hid]
          exact ⟨e, he, hhome, ht⟩
  nodup := Board.forall_updateSession (P := fun _ s => (s.pendingTasks.map (·.jobId)).Nodup) h.nodup (by
    rcases hq with hq | ⟨q, hq, hid, -, hne⟩
    · rw [hq]
      exact h.nodup r
    · rw [hq, List.map_append, List.nodup_append]
      refine ⟨h.nodup r, List.nodup_singleton _, fun a ha b hb => ?_⟩
      obtain ⟨p, hp, rfl⟩ := List.mem_map.mp ha
      rw [List.map_singleton, List.mem_singleton] at hb
      rw [hb, hid]
      exact hne p hp)
  current := Board.forall_updateSession (P := fun r s => ∀ j, s.currentJobId = some j →
    ∃ e, brd.jobs j = some e ∧ e.session = some r ∧ e.MayBeCurrent j) h.current fun k hk => by
      rcases hc with hc | ⟨hc, hm⟩
      · exact h.current r k (hc ▸ hk)
      · rw [hc, Option.some.injEq] at hk
        subst hk
        exact ⟨e, he, hhome, hm⟩

theorem enqueue (h : Sound brd) {p : PendingSessionTask} (hr : r < brd.sessionCount)
    (hp : p.jobId = brd.counter + 1) : Sound (brd.tick.enqueue r p) := by
  obtain ⟨hq, hc⟩ := h.not_queued_of_none (hp ▸ h.jobs_succ)
  have hjob : Sound (brd.tick.setJob p.jobId
      { parentTaskId := (brd.sessions r).taskId, status := .queued, session := some r, recipient := p.recipient }) :=
    h.tick.setJob (Nat.le_of_eq hp) (fun r' hr' => by cases hr'; exact hr)
      { parked := fun _ => .inl rfl
        stands := fun t ht => by cases ht
        reported := rfl } hq hc
  rw [Board.enqueue, Board.updateSession_setJob]
  exact hjob.setJob_updateSession (Board.jobs_setJob.mpr (.inl ⟨rfl, rfl⟩)) rfl
    (.inr ⟨p, rfl, rfl, rfl, hq r⟩) (.inl rfl)

/-- A job without a task that waits in no queue is dispatched. -/
theorem dispatch (h : Sound brd) {p : PendingSessionTask} (hr : r < brd.sessionCount) (hp : p.jobId ≤ brd.counter)
    (hq : ∀ r', ∀ q ∈ (brd.sessions r').pendingTasks, q.jobId ≠ p.jobId)
    (he : ∀ e, brd.jobs p.jobId = some e → e.session = some r ∧ e.status = .queued) : Sound (brd.dispatch r p) := by
  have hcur : ∀ r', (brd.sessions r').currentJobId ≠ some p.jobId := by
    intro r' hr'
    obtain ⟨e, hj, -, t, ht, -⟩ := h.current r' _ hr'
    have hallows := h.allows hj ht
    rw [(he e hj).2] at hallows
    cases htp : t.pc <;> rw [htp] at hallows <;> simp [Pc.allows, JobStatus.isTerminal] at hallows
  have hentry : (brd.dispatchEntry r p).session = some r ∧ (brd.dispatchEntry r p).Fits ∧
      (brd.dispatchEntry r p).MayBeCurrent p.jobId := by
    unfold Board.dispatchEntry
    split
    · next e hj =>
      have hnone := h.result_none hj (by rw [(he e hj).2]; rfl)
      exact ⟨(he e hj).1, fits_of_task rfl rfl (by simp [hnone, JobStatus.isTerminal]), _, rfl, .inl rfl⟩
    · exact ⟨rfl, fits_of_task rfl rfl rfl, _, rfl, .inl rfl⟩
  have hjob : Sound (brd.setJob p.jobId (brd.dispatchEntry r p)) :=
    h.setJob hp (fun r' hr' => by rw [hentry.1] at hr'; cases hr'; exact hr) hentry.2.1 hq hcur
  rw [Board.dispatch, Board.updateSession_setJob]
  exact hjob.setJob_updateSession (Board.jobs_setJob.mpr (.inl ⟨rfl, rfl⟩)) hentry.1 (.inl rfl)
    (.inr ⟨rfl, hentry.2.2⟩)

theorem accept (h : Sound brd) {p : PendingSessionTask} (hr : r < brd.sessionCount)
    (hp : p.jobId = brd.counter + 1) : Sound (brd.tick.dispatch r p) := by
  have hnone : brd.jobs p.jobId = none := hp ▸ h.jobs_succ
  exact h.tick.dispatch hr (Nat.le_of_eq hp) (h.not_queued_of_none hnone).1
    fun e he => by rw [show brd.tick.jobs p.jobId = brd.jobs p.jobId from rfl, hnone] at he; cases he

/-! ### Draining -/

/-- What is found to dispatch is the end of the queue, with a queued job
first. -/
theorem waiting_cons (h : Sound brd) {p : PendingSessionTask} {rest : List PendingSessionTask}
    (hw : brd.waiting r = p :: rest) :
    (p :: rest).Sublist (brd.sessions r).pendingTasks ∧
      ∃ e, brd.jobs p.jobId = some e ∧ e.session = some r ∧ e.task = none ∧ e.status = .queued := by
  have hsub : (p :: rest).Sublist (brd.sessions r).pendingTasks := hw ▸ List.dropWhile_sublist _
  obtain ⟨e, he, hr, ht⟩ := h.queue r p (hsub.subset List.mem_cons_self)
  refine ⟨hsub, e, he, hr, ht, ((h.fits _ e he).parked ht).resolve_right fun hst => ?_⟩
  have hhead := List.head?_dropWhile_not (fun p => brd.status p.jobId == some .aborted)
    (brd.sessions r).pendingTasks
  rw [show (brd.sessions r).pendingTasks.dropWhile _ = p :: rest from hw] at hhead
  simp [Board.status, he, hst] at hhead

theorem drains (h : Sound brd) {ok : Quirk → Prop} {after : Board} {next : Option ℕ}
    (hd : Drains ok brd r after next) : Sound after := by
  cases hd with
  | nothing hw => exact h.setPending (List.nil_sublist _)
  | lost hw _ => exact h.setPending ((List.sublist_cons_self ..).trans (h.waiting_cons hw).1)
  | dispatched hw =>
    next p rest =>
    obtain ⟨hsub, e, he, hhome, ht, hst⟩ := h.waiting_cons hw
    have hpop : Sound (brd.setPending r rest) := h.setPending ((List.sublist_cons_self ..).trans hsub)
    refine hpop.dispatch (h.home _ e r he hhome) (h.fresh _ e he) (fun r' q hq heq => ?_) fun e' he' => ?_
    · by_cases hne : r' = r
      · subst hne
        rw [Board.setPending, Board.sessions_updateSession_self] at hq
        have hnodup := (h.nodup r').sublist (hsub.map (·.jobId))
        rw [List.map_cons, List.nodup_cons] at hnodup
        exact hnodup.1 (heq ▸ List.mem_map_of_mem hq)
      · rw [Board.setPending, Board.sessions_updateSession_ne hne] at hq
        obtain ⟨e', he', hhome', -⟩ := h.queue r' q hq
        rw [heq, he, Option.some.injEq] at he'
        subst he'
        rw [hhome, Option.some.injEq] at hhome'
        exact hne hhome'.symm
    · cases he.symm.trans he'
      exact ⟨hhome, hst⟩

end Sound

/-- Draining touches only the job it dispatches, which had no task. -/
theorem Drains.frame {ok : Quirk → Prop} {brd after : Board} {r : ℕ} {next : Option ℕ}
    (hd : Drains ok brd r after next) (h : Sound brd) {j : ℕ} {e : JobEntry} {t : JobTask}
    (he : brd.jobs j = some e) (ht : e.task = some t) :
    after.jobs j = some e ∧ next ≠ some j ∧
      ∀ r', (after.sessions r').currentJobId = some j → (brd.sessions r').currentJobId = some j := by
  have hset : ∀ ps r', ((brd.setPending r ps).sessions r').currentJobId = (brd.sessions r').currentJobId := by
    intro ps r'
    by_cases hne : r' = r
    · subst hne
      rw [Board.setPending, Board.sessions_updateSession_self]
    · rw [Board.setPending, Board.sessions_updateSession_ne hne]
  cases hd with
  | nothing hw => exact ⟨he, by simp, fun r' hr' => hset [] r' ▸ hr'⟩
  | lost hw _ => exact ⟨he, by simp, fun r' hr' => hset _ r' ▸ hr'⟩
  | dispatched hw =>
    next p rest =>
    obtain ⟨-, e', he', -, ht', -⟩ := h.waiting_cons hw
    have hne : j ≠ p.jobId := by
      rintro rfl
      cases he.symm.trans he'
      rw [ht] at ht'
      cases ht'
    refine ⟨Board.jobs_setJob.mpr (.inr ⟨hne, he⟩), fun hn => hne (Option.some.inj hn).symm, fun r' hr' => ?_⟩
    rw [Board.dispatch, Board.sessions_setJob] at hr'
    by_cases hr : r' = r
    · subst hr
      rw [Board.sessions_updateSession_self] at hr'
      exact absurd (Option.some.inj hr').symm hne
    · rw [Board.sessions_updateSession_ne hr] at hr'
      rwa [hset] at hr'

/-- A job that is over but for its queue is current nowhere, and its status is
terminal. -/
theorem Finishes.sound {brd left : Board} {j r : ℕ} (hf : Finishes brd j r left) (h : Sound brd) :
    Sound left ∧ (∀ r', (left.sessions r').currentJobId ≠ some j) ∧
      ∃ e, left.jobs j = some e ∧ e.task = some { pc := .finished } ∧ e.status.isTerminal = true := by
  have hleave : ∀ {sent}, brd.At j r (.publishing sent) → Sound (brd.leave j r .finished) ∧
      (∀ r', ((brd.leave j r .finished).sessions r').currentJobId ≠ some j) ∧
      ∃ e, (brd.leave j r .finished).jobs j = some e ∧ e.task = some { pc := .finished } ∧
        e.status.isTerminal = true := by
    intro sent hat
    refine ⟨h.leave hat Pc.finished_allows, h.not_current_clearCurrent hat, ?_⟩
    obtain ⟨e, t, he, hr, ht, htp⟩ := hat
    have hallows := h.allows he ht
    rw [htp] at hallows
    exact ⟨_, Board.jobs_updateJob_of he, rfl, hallows⟩
  have hoff : ∀ {ms bs}, brd.At j r (.offloading ms bs) → Sound (brd.setPc j .finished) ∧
      (∀ r', (brd.sessions r').currentJobId ≠ some j) ∧
      ∃ e, (brd.setPc j .finished).jobs j = some e ∧ e.task = some { pc := .finished } ∧
        e.status.isTerminal = true := by
    rintro ms bs ⟨e, t, he, hr, ht, htp⟩
    have hallows := h.allows he ht
    rw [htp] at hallows
    have hnot := h.not_current_of_late (Board.pc_eq_some.mpr ⟨e, t, he, ht, htp⟩) rfl (by simp)
    exact ⟨h.setPc he (by simp [ht]) (Pc.finished_allows _ hallows) fun r' hc => absurd hc (hnot r'), hnot,
      _, Board.jobs_updateJob_of he, rfl, hallows⟩
  have hhist : ∀ {brd : Board} hist, (∀ r', (brd.sessions r').currentJobId ≠ some j) →
      ∀ r', ((brd.setHistory r hist).sessions r').currentJobId ≠ some j := by
    intro brd hist hb
    exact Board.forall_updateSession (P := fun _ s => s.currentJobId ≠ some j) hb (hb r)
  cases hf with
  | untrimmed hat _ => exact hleave hat
  | trimmed hat _ =>
    obtain ⟨h1, h2, h3⟩ := hleave hat
    exact ⟨h1.setHistory r _, hhist _ h2, h3⟩
  | offloaded hat =>
    obtain ⟨h1, h2, h3⟩ := hoff hat
    exact ⟨h1.setHistory r _, hhist _ h2, h3⟩
  | kept hat => exact hoff hat

/-- **The board stays sound** under every move but that of a cleanup that gives
up. -/
theorem Move.sound {ok : Quirk → Prop} {brd brd' : Board} (hm : Move ok brd brd') (hok : ¬ok .givesUp)
    (h : Sound brd) : Sound brd' := by
  cases hm with
  | requestCancel j => exact h.requestCancel j
  | createSession sid taskId => exact h.createSession sid taskId
  | tick => exact h.tick
  | addJob taskId => exact h.addJob taskId
  | enqueue hr hp _ => exact h.enqueue hr hp
  | accept hr hp _ _ => exact h.accept hr hp
  | slot hpc =>
    obtain ⟨e, t, he, ht, htp⟩ := Board.pc_eq_some.mp hpc
    have hallows := h.allows he ht
    rw [htp] at hallows
    exact h.setPc he (by simp [ht]) hallows fun _ _ => .inl rfl
  | beginRun hpc => exact h.beginRun hpc
  | abandon hpc _ =>
    obtain ⟨e, t, he, ht, hst⟩ := h.submitted_of_unstarted hpc
    exact h.setPc he (by simp [ht]) (by simp [Pc.allows, hst]) fun _ _ => .inr ⟨rfl, hst⟩
  | conclude hpc he hs _ => exact h.conclude he hpc hs _
  | extend newTurns _ => exact h.updateSession (List.Sublist.refl _) (.inl rfl)
  | absorb hat _ =>
    obtain ⟨e, t, he, -, ht, htp⟩ := hat
    have hallows := h.allows he ht
    rw [htp] at hallows
    exact (h.setHistory _ _).setPc he (by simp [ht]) hallows fun _ _ => .inl rfl
  | publish hat _ _ => exact h.publish hat _
  | publishAborted hat _ _ _ => exact (h.closeAborted _).publish hat _
  | markSent hpc => exact h.markSent hpc
  | offload hat _ => exact h.leave hat fun _ hst => hst
  | finish hf hd =>
    next j r left after next =>
    obtain ⟨hleft, hcur, e, he, ht, hst⟩ := hf.sound h
    have hafter := hleft.drains hd
    obtain ⟨he', -, hcur'⟩ := hd.frame hleft he ht
    cases next with
    | none => exact hafter
    | some n => exact hafter.setPc he' (by simp [ht]) hst fun r' hc => absurd (hcur' r' hc) (hcur r')
  | lostOffload hpc _ =>
    exact h.setPc_late hpc rfl (by simp) (fun st hst => hst) Pc.finished_allows
  | settle hpc hpc' =>
    next pc =>
    have hallows : ∀ st : JobStatus, st.isTerminal = true → pc.allows st = true := by
      rcases hpc' with rfl | rfl
      · exact fun st hst => hst
      · exact Pc.finished_allows
    rcases hpc with hpc | hpc
    · exact h.setPc_late hpc rfl (by simp) (fun st hst => hst) hallows
    · exact h.setPc_late hpc rfl (by simp) (fun st hst => hst) hallows
  | markAborted hj => exact h.markAborted (hj.imp id fun hj => hj.imp id fun hj => hj.resolve_right hok)
  | cancelParked hj =>
    refine (h.purge _).markAborted ?_
    rw [Board.status, Board.pc, Board.jobs_purge]
    exact hj.imp id .inl
  | undo hpc => exact h.undo _ hpc
  | confirm he hpc hs => exact h.confirm he hpc hs
  | reconcile hc he hpc => exact h.reconcile hc he hpc
  | lateDrain hd _ => exact h.drains hd
  | dropResults _ => exact h.updateSession (List.Sublist.refl _) (.inl rfl)
  | abortPending r => exact h.abortPending r
  | unlist r => exact h.updateSession (List.Sublist.refl _) (.inl rfl)

end AgentBus
end AgentCore
