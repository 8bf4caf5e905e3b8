/-
# The status of a job is final once it is terminal

Five places of the code write the status of a job: its own coroutine, `abort`,
`_mark_job_aborted`, `_reconcile_terminal_session_jobs` and the dispatch. What
keeps them from undoing a terminal status is that each writes only while the
status is not terminal, or writes what the job's result says already
(`JobEntry.Honest`).

A cleanup that gives up on a task marks its job aborted while the coroutine
runs on and will write its own outcome; and a result that is a success and
says `aborted` makes an aborted job completed when `abort` looks at it.

Key definitions: `JobEntry.Honest`, `Keeps`, `Absorbs`.
Key theorem: `status_absorbing`.
-/
import AgentCore.AgentBus.Invariant

namespace AgentCore
namespace AgentBus

open Runs

/-- The status is the one the result gives. -/
def JobEntry.Honest (e : JobEntry) : Prop :=
  ∀ res, e.result = some res →
    (res.success = true → e.status = .completed) ∧ (res.error = "aborted" → e.status = .aborted)

/-- What becomes of a job's entry leaves a terminal status alone. -/
def Keeps (e e' : JobEntry) : Prop :=
  e.Honest → e'.Honest ∧ (e.status.isTerminal = true → e'.status = e.status)

theorem Keeps.of_eq {e e' : JobEntry} (hst : e'.status = e.status) (hres : e'.result = e.result) : Keeps e e' := by
  intro h
  refine ⟨fun res hr => ?_, fun _ => hst⟩
  rw [hst]
  exact h res (hres ▸ hr)

/-- A status that is not terminal may become anything honest. -/
theorem Keeps.of_active {e e' : JobEntry} (hst : e.status.isTerminal = false) (h : e'.Honest) : Keeps e e' :=
  fun _ => ⟨h, fun ht => by simp [hst] at ht⟩

theorem Keeps.refl (e : JobEntry) : Keeps e e := .of_eq rfl rfl

theorem Keeps.trans {e e' e'' : JobEntry} (h : Keeps e e') (h' : Keeps e' e'') : Keeps e e'' := by
  intro he
  obtain ⟨he', hs⟩ := h he
  obtain ⟨he'', hs'⟩ := h' he'
  exact ⟨he'', fun ht => (hs' (by rwa [hs ht])).trans (hs ht)⟩

/-- No job vanishes, every job's status is kept, and new jobs are honest. -/
structure Absorbs (jobs jobs' : ℕ → Option JobEntry) : Prop where
  old : ∀ k e, jobs k = some e → ∃ e', jobs' k = some e' ∧ Keeps e e'
  new : ∀ k e', jobs' k = some e' → jobs k = none → e'.Honest

namespace Absorbs

variable {jobs jobs' jobs'' : ℕ → Option JobEntry} {brd : Board} {j : ℕ}

theorem refl (jobs : ℕ → Option JobEntry) : Absorbs jobs jobs where
  old k e hk := ⟨e, hk, .refl e⟩
  new k e' hk hnone := by
    rw [hnone] at hk
    cases hk

theorem trans (h : Absorbs jobs jobs') (h' : Absorbs jobs' jobs'') : Absorbs jobs jobs'' where
  old k e hk := by
    obtain ⟨e', hk', h1⟩ := h.old k e hk
    obtain ⟨e'', hk'', h2⟩ := h'.old k e' hk'
    exact ⟨e'', hk'', h1.trans h2⟩
  new k e'' hk hnone := by
    cases hk' : jobs' k with
    | none => exact h'.new k e'' hk hk'
    | some e' =>
      obtain ⟨e₁, h₁, hkeeps⟩ := h'.old k e' hk'
      cases hk.symm.trans h₁
      exact (hkeeps (h.new k e' hk' hnone)).1

theorem updateJob {f : JobEntry → JobEntry} (hf : ∀ e, brd.jobs j = some e → Keeps e (f e)) :
    Absorbs brd.jobs (brd.updateJob j f).jobs where
  old k e hk := by
    by_cases hkj : k = j
    · subst hkj
      exact ⟨f e, Board.jobs_updateJob_of hk, hf e hk⟩
    · exact ⟨e, by rwa [Board.jobs_updateJob_ne hkj], .refl e⟩
  new k e' hk hnone := by
    rcases Board.jobs_updateJob.mp hk with ⟨rfl, e₀, h₀, -⟩ | ⟨-, h₀⟩
    all_goals
      rw [hnone] at h₀
      cases h₀

theorem setJob {e' : JobEntry} (h : ∀ e, brd.jobs j = some e → Keeps e e') (hnew : brd.jobs j = none → e'.Honest) :
    Absorbs brd.jobs (brd.setJob j e').jobs where
  old k e hk := by
    by_cases hkj : k = j
    · subst hkj
      exact ⟨e', Board.jobs_setJob.mpr (.inl ⟨rfl, rfl⟩), h e hk⟩
    · exact ⟨e, Board.jobs_setJob.mpr (.inr ⟨hkj, hk⟩), .refl e⟩
  new k e hk hnone := by
    rcases Board.jobs_setJob.mp hk with ⟨rfl, rfl⟩ | ⟨-, hk⟩
    · exact hnew hnone
    · rw [hnone] at hk
      cases hk

/-- A new job without a result. -/
theorem setJob_fresh (brd : Board) {e : JobEntry} (hj : brd.jobs j = none) (he : e.result = none) :
    Absorbs brd.jobs (brd.setJob j e).jobs := by
  refine .setJob (fun e' he' => ?_) fun _ res hr => ?_
  · rw [hj] at he'
    cases he'
  · rw [he] at hr
    cases hr

end Absorbs

/-! ### The entries the code writes -/

theorem honest_of_none {e : JobEntry} (h : e.result = none) : e.Honest := by
  intro res hr
  rw [h] at hr
  cases hr

/-- The entry of a job that has just got its result. -/
theorem honest_of_status {res : SubAgentResult} {e : JobEntry}
    (h : ¬(res.success = true ∧ res.error = "aborted")) (hst : e.status = res.status) (hres : e.result = some res) :
    e.Honest := by
  intro res' hr
  cases hres.symm.trans hr
  rw [hst, SubAgentResult.status]
  constructor
  · intro hs
    rw [if_neg fun ha => h ⟨hs, ha⟩, if_pos hs]
  · intro ha
    rw [if_pos ha]

theorem absorbs_markAborted {brd : Board} (h : Sound brd) (j : ℕ) : Absorbs brd.jobs (brd.markAborted j).jobs := by
  refine .updateJob fun e he => ?_
  split
  · exact .refl e
  · next ht =>
    have hst : e.status.isTerminal = false := by simpa using ht
    have hnot : ¬((abortedResult j).success = true ∧ (abortedResult j).error = "aborted") := by simp [abortedResult]
    refine .of_active hst (honest_of_status hnot rfl ?_)
    simp [h.result_none he hst]

theorem absorbs_dispatch {brd : Board} (h : Sound brd) {r : ℕ} {p : PendingSessionTask}
    (hst : ∀ e, brd.jobs p.jobId = some e → e.status = .queued) : Absorbs brd.jobs (brd.dispatch r p).jobs := by
  refine (Absorbs.setJob (fun e he => ?_) fun hnone => ?_ :
    Absorbs brd.jobs (brd.setJob p.jobId (brd.dispatchEntry r p)).jobs)
  · have hactive : e.status.isTerminal = false := by rw [hst e he]; rfl
    refine .of_active hactive (honest_of_none ?_)
    simp [Board.dispatchEntry, he, h.result_none he hactive]
  · rw [Board.dispatchEntry, hnone]
    exact honest_of_none rfl

theorem Drains.absorbs {ok : Quirk → Prop} {brd after : Board} {r : ℕ} {next : Option ℕ}
    (hd : Drains ok brd r after next) (h : Sound brd) : Absorbs brd.jobs after.jobs := by
  cases hd with
  | nothing _ => exact .refl _
  | lost _ _ => exact .refl _
  | dispatched hw =>
    next p rest =>
    obtain ⟨hsub, e, he, -, -, hst⟩ := h.waiting_cons hw
    have hpop : Sound (brd.setPending r rest) := h.setPending ((List.sublist_cons_self ..).trans hsub)
    exact absorbs_dispatch hpop fun e' he' => by
      cases he.symm.trans he'
      exact hst

theorem absorbs_setPc (brd : Board) (j : ℕ) (pc : Pc) : Absorbs brd.jobs (brd.setPc j pc).jobs :=
  .updateJob fun _ _ => .of_eq rfl rfl

theorem Finishes.absorbs {brd left : Board} {j r : ℕ} (hf : Finishes brd j r left) :
    Absorbs brd.jobs left.jobs := by
  cases hf with
  | untrimmed _ _ => exact absorbs_setPc (brd.clearCurrent r j) j _
  | trimmed _ _ => exact absorbs_setPc (brd.clearCurrent r j) j _
  | offloaded _ => exact absorbs_setPc brd j _
  | kept _ => exact absorbs_setPc brd j _

/-- A job whose task is in its loop or adapter has no result yet. -/
theorem Sound.running {brd : Board} (h : Sound brd) {j : ℕ} {pc : Pc} (hat : brd.pc j = some pc)
    (hpc : pc = .loop ∨ pc = .adapter) {e : JobEntry} (he : brd.jobs j = some e) : e.status.isTerminal = false := by
  obtain ⟨e', t, he', ht, htp⟩ := Board.pc_eq_some.mp hat
  cases he.symm.trans he'
  have hallows := h.allows he ht
  rw [htp] at hallows
  rcases hpc with rfl | rfl
  all_goals
    have hst : e.status = .running := by simpa [Pc.allows] using hallows
    rw [hst]
    rfl

theorem absorbs_publish {brd : Board} (h : Sound brd) {j r : ℕ} {pc : Pc} {res : SubAgentResult}
    (hat : brd.At j r pc) (hpc : pc = .loop ∨ pc = .adapter)
    (hres : ¬(res.success = true ∧ res.error = "aborted")) : Absorbs brd.jobs (brd.publish j r res).jobs :=
  .updateJob fun _ he => .of_active (h.running hat.pc_eq hpc he) (honest_of_status hres rfl rfl)

theorem absorbs_abortPending_fold (ps : List PendingSessionTask) :
    ∀ {brd : Board}, Sound brd → (∀ p ∈ ps, brd.pc p.jobId = none) →
      Absorbs brd.jobs (ps.foldl (fun brd p => brd.markAborted p.jobId) brd).jobs := by
  induction ps with
  | nil => exact fun _ _ => .refl _
  | cons p ps ih =>
    intro brd h hps
    refine (absorbs_markAborted h p.jobId).trans
      (ih (h.markAborted (.inr (.inl (hps p List.mem_cons_self)))) fun q hq => ?_)
    rw [Bus.pc_markAborted]
    exact hps q (List.mem_cons_of_mem _ hq)

/-- A job that is current with its task done is not terminal, or is aborted
with the result that says so. -/
theorem Sound.current_done {brd : Board} (h : Sound brd) {j r : ℕ} {e : JobEntry}
    (hc : (brd.sessions r).currentJobId = some j) (he : brd.jobs j = some e) (hpc : brd.pc j = some .finished) :
    e.status.isTerminal = false ∨ e.result = some (abortedResult j) := by
  obtain ⟨e', he', -, t, ht, hm⟩ := h.current r j hc
  cases he.symm.trans he'
  have htp : t.pc = .finished := by
    have hpc' : brd.pc j = some t.pc := Board.pc_eq_some.mpr ⟨e, t, he, ht, rfl⟩
    rwa [hpc', Option.some.injEq] at hpc
  rw [htp] at hm
  rcases hm with hm | ⟨-, hst | hres⟩
  · cases hm
  · rw [hst]
    exact .inl rfl
  · exact .inr hres

theorem absorbs_reconcile {brd : Board} (h : Sound brd) {j r : ℕ} {e : JobEntry}
    (hc : (brd.sessions r).currentJobId = some j) (he : brd.jobs j = some e) (hpc : brd.pc j = some .finished) :
    Absorbs brd.jobs (brd.reconcile r j e).jobs := by
  have hjobs : (if e.result.isSome then brd else brd.closeAborted r).jobs = brd.jobs := by split <;> rfl
  have habsorbs : Absorbs (if e.result.isSome then brd else brd.closeAborted r).jobs (brd.reconcile r j e).jobs := by
    refine .updateJob fun e' he' => ?_
    rw [hjobs] at he'
    cases he.symm.trans he'
    rcases h.current_done hc he hpc with hst | hres
    · refine .of_active hst fun res hr => ?_
      rw [h.result_none he hst, Option.getD_none, Option.some.injEq] at hr
      subst hr
      exact ⟨fun hs => absurd hs (by simp [unpublishedResult]), fun ha => absurd ha (by simp [unpublishedResult])⟩
    · intro hh
      obtain ⟨-, hst⟩ := hh _ hres
      rw [hres]
      refine ⟨fun res hr => ?_, fun _ => (hst rfl).symm⟩
      cases hr
      exact ⟨fun hs => absurd hs (by simp [abortedResult]), fun _ => rfl⟩
  rwa [hjobs] at habsorbs

/-- **A move leaves every terminal status alone.** -/
theorem Move.absorbs {ok : Quirk → Prop} {brd brd' : Board} (hm : Move ok brd brd') (hmix : ¬ok .mixedResult)
    (h : Sound brd) : Absorbs brd.jobs brd'.jobs := by
  have hfresh := h.jobs_succ
  cases hm with
  | requestCancel j => exact .updateJob fun _ _ => .of_eq rfl rfl
  | createSession sid taskId => exact .refl _
  | tick => exact .refl _
  | addJob taskId => exact .setJob_fresh brd.tick hfresh rfl
  | enqueue hr hp _ =>
    rw [← hp] at hfresh
    exact .setJob_fresh (brd.tick.updateSession _ _) hfresh rfl
  | accept hr hp _ _ =>
    rw [← hp] at hfresh
    exact absorbs_dispatch h.tick fun e he => by
      rw [show brd.tick.jobs = brd.jobs from rfl, hfresh] at he
      cases he
  | slot _ => exact absorbs_setPc brd _ _
  | beginRun hpc =>
    obtain ⟨e, t, he, -, hst⟩ := h.submitted_of_unstarted hpc
    refine .updateJob fun e' he' => ?_
    cases he.symm.trans he'
    have hactive : e.status.isTerminal = false := by rw [hst]; rfl
    have hnone := h.result_none he hactive
    exact .of_active hactive (honest_of_none hnone)
  | abandon _ _ => exact absorbs_setPc brd _ _
  | conclude hpc he hs hres =>
    refine .updateJob fun e' he' => .of_active (h.running hpc (.inl rfl) he') ?_
    exact honest_of_status (fun hb => hmix (hres hb.1 hb.2)) rfl rfl
  | extend _ _ => exact .refl _
  | absorb _ _ => exact absorbs_setPc (brd.setHistory _ _) _ _
  | publish hat hres _ => exact absorbs_publish h hat (.inr rfl) fun hb => hmix (hres hb.1 hb.2)
  | publishAborted hat hpc hres _ =>
    exact absorbs_publish (h.closeAborted _) hat hpc fun hb => by rw [hres] at hb; cases hb.1
  | markSent _ => exact .updateJob fun _ _ => .of_eq rfl rfl
  | offload _ _ => exact absorbs_setPc (brd.clearCurrent _ _) _ _
  | finish hf hd =>
    next j r left after next =>
    have hleft := (hf.sound h).1
    refine hf.absorbs.trans ((hd.absorbs hleft).trans ?_)
    cases next with
    | none => exact .refl _
    | some n => exact absorbs_setPc after _ _
  | lostOffload _ _ => exact absorbs_setPc brd _ _
  | settle _ _ => exact absorbs_setPc brd _ _
  | markAborted _ => exact absorbs_markAborted h _
  | cancelParked _ =>
    next j _ =>
    have hmark := absorbs_markAborted (h.purge j) j
    rwa [Board.jobs_purge] at hmark
  | undo hpc =>
    rw [Board.undo]
    split
    · exact .refl _
    · exact absorbs_markAborted (h.closeAborted _) _
  | confirm he hpc hs =>
    next e =>
    refine .updateJob fun e' he' hh => ?_
    cases he.symm.trans he'
    obtain ⟨res, hres, hs⟩ := (Option.any_eq_true ..).mp hs
    have hst := (hh res hres).1 hs
    refine ⟨fun res' hres' => ⟨fun _ => rfl, fun ha => ?_⟩, fun _ => hst.symm⟩
    rw [← hst]
    exact (hh res' hres').2 ha
  | reconcile hc he hpc => exact absorbs_reconcile h hc he hpc
  | lateDrain hd _ => exact hd.absorbs h
  | dropResults _ => exact .refl _
  | abortPending r => exact absorbs_abortPending_fold _ h fun _ hp => h.pc_none_of_queued hp
  | unlist r => exact .refl _

/-! ### Whole runs -/

theorem Moves.absorbs {ok : Quirk → Prop} {brd brd' : Board} (hm : Moves ok brd brd') (hup : ¬ok .givesUp)
    (hmix : ¬ok .mixedResult) (h : Sound brd) : Sound brd' ∧ Absorbs brd.jobs brd'.jobs := by
  induction hm with
  | refl => exact ⟨h, .refl _⟩
  | tail _ hlast ih => exact ⟨hlast.sound hup ih.1, ih.2.trans (hlast.absorbs hmix ih.1)⟩

/-- The invariant of runs. -/
def Settled (s : System) : Prop := Sound s.bus.toBoard ∧ ∀ k e, s.bus.jobs k = some e → e.Honest

theorem step_settled {s s' : System} {ev : Bus.Event} (hs : s.step ev = some s')
    (hav : Avoids [.givesUp, .mixedResult] s ev) (h : Settled s) :
    Settled s' ∧ Absorbs s.bus.jobs s'.bus.jobs := by
  obtain ⟨hsound, habs⟩ := (step_moves hs).absorbs (by simp [hav .givesUp]) (by simp [hav .mixedResult]) h.1
  refine ⟨⟨hsound, fun k e' hk => ?_⟩, habs⟩
  cases hk' : s.bus.jobs k with
  | none => exact habs.new k e' hk hk'
  | some e =>
    obtain ⟨e₁, h₁, hkeeps⟩ := habs.old k e hk'
    cases hk.symm.trans h₁
    exact (hkeeps (h.2 k e hk')).1

theorem sound_fresh (historyDir comm : Bool) (guard : Option SpawnGuard) (store : List ResultMessage) :
    Sound (System.fresh historyDir comm guard store).bus.toBoard where
  fresh j e he := by cases he
  home j e r he := by cases he
  fits j e he := by cases he
  queue r p hp := by cases hp
  nodup r := List.nodup_nil
  current r j hj := by cases hj

/-- **The status of a job is absorbing.** In every run in which no cleanup gives
up on a task and no adapter returns a success that says `aborted`, a job that
is completed, failed or aborted in some state is so in every later one. -/
theorem status_absorbing {historyDir comm : Bool} {guard : Option SpawnGuard} {store : List ResultMessage}
    {es es' : List Bus.Event} {s s' : System}
    (h : Trace System.step (fun _ => Avoids [.givesUp, .mixedResult]) (System.fresh historyDir comm guard store) es s)
    (h' : Trace System.step (fun _ => Avoids [.givesUp, .mixedResult]) s es' s') {j : ℕ} {st : JobStatus}
    (hj : s.bus.status j = some st) (hterm : st.isTerminal = true) : s'.bus.status j = some st := by
  have hs : Settled s := by
    refine Trace.invariant (I := fun _ s => Settled s) ⟨sound_fresh .., fun k e hk => by cases hk⟩ ?_ h
    exact fun _ s ev s' hI hav hstep => (step_settled hstep hav hI).1
  have hlater : Settled s' ∧ s'.bus.status j = some st := by
    refine Trace.invariant (I := fun _ s' => Settled s' ∧ s'.bus.status j = some st) ⟨hs, hj⟩ ?_ h'
    rintro _ s₁ ev s₂ ⟨hI, hst⟩ hav hstep
    obtain ⟨hI', habs⟩ := step_settled hstep hav hI
    refine ⟨hI', ?_⟩
    obtain ⟨e, he, rfl⟩ := Option.map_eq_some_iff.mp hst
    obtain ⟨e', he', hkeeps⟩ := habs.old j e he
    rw [Board.status, he', Option.map_some, ((hkeeps (hI.2 j e he)).2 hterm)]
  exact hlater.2

/-- The bus after a session task was cancelled in its adapter. -/
def abortedTask : System :=
  (run System.step (System.fresh false false none [])
    [.createSession "t" "a", .submitTaskToSession 0 "p" "" 0 false, .submitEnds 1, .start 1,
      .loopEnds 1 (.returned [] "x" ""), .adapterEnds 1 (.ended .cancelled)]).getD (System.fresh false false none [])

theorem status_absorbing_abortedTask :
    ∃ s, run System.step abortedTask [.published 1 false, .abort 1] = some s ∧
      abortedTask.bus.status 1 = some .aborted ∧ s.bus.status 1 = some .aborted := by
  have h : Trace System.step (fun _ => Avoids [.givesUp, .mixedResult]) (System.fresh false false none [])
      [.createSession "t" "a", .submitTaskToSession 0 "p" "" 0 false, .submitEnds 1, .start 1,
        .loopEnds 1 (.returned [] "x" ""), .adapterEnds 1 (.ended .cancelled)] abortedTask :=
    Trace.of_run (p := fun _ s ev => decide (Avoids [.givesUp, .mixedResult] s ev))
      (fun _ _ _ h => of_decide_eq_true h) (by decide) rfl
  have h' : Trace System.step (fun _ => Avoids [.givesUp, .mixedResult]) abortedTask
      [.published 1 false, .abort 1] _ :=
    Trace.of_run (p := fun _ s ev => decide (Avoids [.givesUp, .mixedResult] s ev))
      (fun _ _ _ h => of_decide_eq_true h) (by decide) rfl
  exact ⟨_, rfl, rfl, status_absorbing h h' rfl rfl⟩

/-- The cleanup of a task stops waiting for its job, which is then aborted; the
job's loop returns and its own coroutine makes it completed. -/
theorem cleanup_gives_up_then_completed :
    ∃ s s', run System.step (System.fresh false false none [])
        [.createSession "t" "a", .submitTaskToSession 0 "p" "" 0 false, .submitEnds 1, .start 1,
          .cleanupTask "t", .cleanGivesUp 2] = some s ∧
      run System.step s
        [.loopEnds 1 (.returned [] "x" ""), .adapterEnds 1 (.returned { success := true, jobId := some 1 })] = some s' ∧
      s.bus.status 1 = some .aborted ∧ s'.bus.status 1 = some .completed :=
  ⟨_, _, rfl, rfl, rfl, rfl⟩

end AgentBus
end AgentCore
