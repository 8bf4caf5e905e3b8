/-
# Reports of session jobs

A job of a session files its report in `pending_results` once: at the end of
its own coroutine, or, when its task was done before it could report, in the
reconciliation that finds it still current. From then on it has reported
(`Board.Reported`), which no move undoes; so a report that a caller has taken
is not filed a second time.

`Reports` is what a move, and so any number of them, does about reports: it
drops some of those that are filed and files new ones, of jobs that had not
reported.

Key definitions: `Board.Reported`, `Reports`, `Filed`.
Key theorems: `Move.reports`, `Filed.reports`.
-/
import AgentCore.AgentBus.Status

namespace AgentCore
namespace AgentBus

/-- The task is past the point where it files its report. -/
def Pc.isLate : Pc → Bool
  | .publishing _ | .offloading _ _ | .draining _ | .undoing _ | .finished => true
  | _ => false

namespace Board

/-- The job of the session has reported, or never will. -/
def Reported (brd : Board) (j r : ℕ) : Prop :=
  ∃ pc, brd.At j r pc ∧ pc.isLate = true ∧ (pc = .finished → (brd.sessions r).currentJobId ≠ some j)

/-- What is filed in a session is some of what was, and behind it reports of
jobs that had none. -/
def Files (brd brd' : Board) (r : ℕ) : Prop :=
  ∃ kept new, (brd'.sessions r).pendingResults = kept ++ new ∧ kept.Sublist (brd.sessions r).pendingResults ∧
    (new.map (·.job)).Nodup ∧
    ∀ rep ∈ new, rep.result.jobId = some rep.job ∧ (∀ r', ¬brd.Reported rep.job r') ∧ brd'.Reported rep.job r

end Board

structure Reports (brd brd' : Board) : Prop where
  grows : brd.sessionCount ≤ brd'.sessionCount
  tasks : ∀ r < brd.sessionCount, (brd'.sessions r).taskId = (brd.sessions r).taskId
  old : ∀ j e, brd.jobs j = some e →
    ∃ e', brd'.jobs j = some e' ∧ e'.parentTaskId = e.parentTaskId ∧ e'.session = e.session
  new : ∀ j e' r, brd'.jobs j = some e' → brd.jobs j = none → e'.session = some r →
    r < brd'.sessionCount ∧ e'.parentTaskId = (brd'.sessions r).taskId
  reported : ∀ j r, brd.Reported j r → brd'.Reported j r
  files : ∀ r, brd.Files brd' r

/-- The reports of a board: each is of a job of its session that has reported,
under the job's own id, and no job has two. -/
structure Filed (brd : Board) : Prop where
  housed : ∀ j e r, brd.jobs j = some e → e.session = some r → e.parentTaskId = (brd.sessions r).taskId
  own : ∀ r, ∀ rep ∈ (brd.sessions r).pendingResults, rep.result.jobId = some rep.job ∧ brd.Reported rep.job r
  nodup : ∀ r, ((brd.sessions r).pendingResults.map (·.job)).Nodup

namespace Board

variable {brd brd' : Board} {j r : ℕ}

theorem Reported.job (h : brd.Reported j r) : ∃ e, brd.jobs j = some e ∧ e.session = some r := by
  obtain ⟨_, ⟨e, t, he, hr, -⟩, -⟩ := h
  exact ⟨e, he, hr⟩

theorem Reported.unique {r' : ℕ} (h : brd.Reported j r) (h' : brd.Reported j r') : r = r' := by
  obtain ⟨e, he, hr⟩ := h.job
  obtain ⟨e', he', hr'⟩ := h'.job
  cases he.symm.trans he'
  exact Option.some.inj (hr.symm.trans hr')

theorem not_reported_of_early {pc : Pc} (hpc : brd.pc j = some pc) (h : pc.isLate = false) (r : ℕ) :
    ¬brd.Reported j r := by
  rintro ⟨pc', hat, hlate, -⟩
  rw [hat.pc_eq, Option.some.injEq] at hpc
  rw [hpc, h] at hlate
  cases hlate

theorem not_reported_of_pc_none (hpc : brd.pc j = none) (r : ℕ) : ¬brd.Reported j r := by
  rintro ⟨pc', hat, -, -⟩
  rw [hat.pc_eq] at hpc
  cases hpc

theorem Files.of_sublist (h : (brd'.sessions r).pendingResults.Sublist (brd.sessions r).pendingResults) :
    brd.Files brd' r :=
  ⟨_, [], (List.append_nil _).symm, h, List.nodup_nil, fun _ hrep => by cases hrep⟩

end Board

namespace Reports

variable {brd brd' brd'' : Board} {j r : ℕ}

theorem refl (brd : Board) : Reports brd brd where
  grows := le_rfl
  tasks _ _ := rfl
  old _ e he := ⟨e, he, rfl, rfl⟩
  new j e' r he' hnone := by
    rw [hnone] at he'
    cases he'
  reported _ _ h := h
  files _ := .of_sublist (List.Sublist.refl _)

theorem files_trans (h : Reports brd brd') (h' : Reports brd' brd'') (r : ℕ) : brd.Files brd'' r := by
  obtain ⟨kept, new, hp, hkept, hnew, hown⟩ := h.files r
  obtain ⟨kept', new', hp', hkept', hnew', hown'⟩ := h'.files r
  rw [hp] at hkept'
  obtain ⟨left, right, rfl, hleft, hright⟩ := List.sublist_append_iff.mp hkept'
  refine ⟨left, right ++ new', by rw [hp', List.append_assoc], hleft.trans hkept, ?_, ?_⟩
  · rw [List.map_append, List.nodup_append]
    refine ⟨hnew.sublist (hright.map _), hnew', ?_⟩
    rintro k hk k' hk' rfl
    obtain ⟨rep, hrep, hj⟩ := List.mem_map.mp hk
    obtain ⟨rep', hrep', hj'⟩ := List.mem_map.mp hk'
    have hreported := (hown rep (hright.subset hrep)).2.2
    rw [hj, ← hj'] at hreported
    exact (hown' rep' hrep').2.1 r hreported
  · intro rep hrep
    rcases List.mem_append.mp hrep with hrep | hrep
    · obtain ⟨h1, h2, h3⟩ := hown rep (hright.subset hrep)
      exact ⟨h1, h2, h'.reported _ _ h3⟩
    · obtain ⟨h1, h2, h3⟩ := hown' rep hrep
      exact ⟨h1, fun r' hr' => h2 r' (h.reported _ _ hr'), h3⟩

theorem trans (h : Reports brd brd') (h' : Reports brd' brd'') : Reports brd brd'' where
  grows := h.grows.trans h'.grows
  tasks r hr := (h'.tasks r (hr.trans_le h.grows)).trans (h.tasks r hr)
  old j e he := by
    obtain ⟨e', he', hp, hs⟩ := h.old j e he
    obtain ⟨e'', he'', hp', hs'⟩ := h'.old j e' he'
    exact ⟨e'', he'', hp'.trans hp, hs'.trans hs⟩
  new j e'' r he'' hnone hr := by
    cases he' : brd'.jobs j with
    | none => exact h'.new j e'' r he'' he' hr
    | some e' =>
      obtain ⟨e₁, h₁, hp, hs⟩ := h'.old j e' he'
      cases he''.symm.trans h₁
      obtain ⟨hlt, htask⟩ := h.new j e' r he' hnone (hs ▸ hr)
      exact ⟨hlt.trans_le h'.grows, by rw [hp, htask, h'.tasks r hlt]⟩
  reported j r hr := h'.reported j r (h.reported j r hr)
  files := h.files_trans h'

/-- Nothing but the counter changes. -/
theorem of_same (hj : brd'.jobs = brd.jobs) (hs : brd'.sessions = brd.sessions)
    (hc : brd'.sessionCount = brd.sessionCount) : Reports brd brd' where
  grows := hc.ge
  tasks r _ := by rw [hs]
  old j e he := ⟨e, by rwa [hj], rfl, rfl⟩
  new j e' r he' hnone := by
    rw [hj, hnone] at he'
    cases he'
  reported j r h := by
    obtain ⟨pc, ⟨e, t, he, hr⟩, hlate⟩ := h
    exact ⟨pc, ⟨e, t, by rwa [hj], hr⟩, by rwa [hs]⟩
  files r := .of_sublist (by rw [hs])

/-- One job changes; if it has reported it stays past that point, and is not
current when its task is done. -/
theorem updateJob {f : JobEntry → JobEntry}
    (hf : ∀ e, (f e).parentTaskId = e.parentTaskId ∧ (f e).session = e.session)
    (hlate : ∀ e t, brd.jobs j = some e → e.task = some t → t.pc.isLate = true →
      ∃ t', (f e).task = some t' ∧ t'.pc.isLate = true ∧
        (t'.pc = .finished → t.pc = .finished ∨ ∀ r, (brd.sessions r).currentJobId ≠ some j)) :
    Reports brd (brd.updateJob j f) where
  grows := le_rfl
  tasks _ _ := rfl
  old k e he := by
    by_cases hk : k = j
    · subst hk
      exact ⟨f e, Board.jobs_updateJob_of he, hf e⟩
    · exact ⟨e, by rwa [Board.jobs_updateJob_ne hk], rfl, rfl⟩
  new k e' r he' hnone := by
    rcases Board.jobs_updateJob.mp he' with ⟨rfl, e₀, h₀, -⟩ | ⟨-, h₀⟩
    all_goals
      rw [hnone] at h₀
      cases h₀
  reported k r := by
    rintro ⟨_, ⟨e, t, he, hr, ht, rfl⟩, hl, hc⟩
    by_cases hk : k = j
    · subst hk
      obtain ⟨t', ht', hl', hc'⟩ := hlate e t he ht hl
      refine ⟨t'.pc, ⟨f e, t', Board.jobs_updateJob_of he, (hf e).2 ▸ hr, ht', rfl⟩, hl', fun hfin => ?_⟩
      exact (hc' hfin).elim hc fun hnot => hnot r
    · exact ⟨t.pc, ⟨e, t, by rwa [Board.jobs_updateJob_ne hk], hr, ht, rfl⟩, hl, hc⟩
  files _ := .of_sublist (List.Sublist.refl _)

/-- One session changes, but for its reports. -/
theorem updateSession {g : SubAgentSession → SubAgentSession}
    (htask : (g (brd.sessions r)).taskId = (brd.sessions r).taskId)
    (hcur : ∀ k, brd.Reported k r → (g (brd.sessions r)).currentJobId = some k →
      (brd.sessions r).currentJobId = some k)
    (hp : (g (brd.sessions r)).pendingResults.Sublist (brd.sessions r).pendingResults) :
    Reports brd (brd.updateSession r g) where
  grows := le_rfl
  tasks r' _ := Board.forall_updateSession (P := fun r s => s.taskId = (brd.sessions r).taskId) (fun _ => rfl) htask r'
  old _ e he := ⟨e, he, rfl, rfl⟩
  new j e' r he' hnone := by
    rw [Board.jobs_updateSession, hnone] at he'
    cases he'
  reported k r' h := by
    have hcopy := h
    obtain ⟨pc, hat, hl, hc⟩ := h
    refine ⟨pc, hat, hl, fun hfin => ?_⟩
    by_cases hr : r' = r
    · subst hr
      rw [Board.sessions_updateSession_self]
      exact fun hk => hc hfin (hcur k hcopy hk)
    · rw [Board.sessions_updateSession_ne hr]
      exact hc hfin
  files r' := .of_sublist (Board.forall_updateSession
    (P := fun r s => s.pendingResults.Sublist (brd.sessions r).pendingResults) (fun _ => List.Sublist.refl _) hp r')

/-- A job that has not reported gets an entry. -/
theorem setJob {e' : JobEntry} (hnot : ∀ r, ¬brd.Reported j r)
    (hold : ∀ e, brd.jobs j = some e → e'.parentTaskId = e.parentTaskId ∧ e'.session = e.session)
    (hnew : brd.jobs j = none → ∀ r, e'.session = some r →
      r < brd.sessionCount ∧ e'.parentTaskId = (brd.sessions r).taskId) : Reports brd (brd.setJob j e') where
  grows := le_rfl
  tasks _ _ := rfl
  old k e he := by
    by_cases hk : k = j
    · subst hk
      exact ⟨e', Board.jobs_setJob.mpr (.inl ⟨rfl, rfl⟩), hold e he⟩
    · exact ⟨e, Board.jobs_setJob.mpr (.inr ⟨hk, he⟩), rfl, rfl⟩
  new k e r he hnone hr := by
    rcases Board.jobs_setJob.mp he with ⟨rfl, rfl⟩ | ⟨-, he⟩
    · exact hnew hnone r hr
    · rw [hnone] at he
      cases he
  reported k r h := by
    have hk : k ≠ j := by
      rintro rfl
      exact hnot r h
    obtain ⟨pc, ⟨e, t, he, hr⟩, hl⟩ := h
    exact ⟨pc, ⟨e, t, Board.jobs_setJob.mpr (.inr ⟨hk, he⟩), hr⟩, hl⟩
  files _ := .of_sublist (List.Sublist.refl _)

/-- A job that has not reported changes its task. -/
theorem updateJob_early {f : JobEntry → JobEntry} {pc : Pc} (hpc : brd.pc j = some pc) (h : pc.isLate = false)
    (hf : ∀ e, (f e).parentTaskId = e.parentTaskId ∧ (f e).session = e.session) :
    Reports brd (brd.updateJob j f) := by
  refine updateJob hf fun e t he ht hlate => ?_
  rw [Board.pc_eq_some.mpr ⟨e, t, he, ht, rfl⟩, Option.some.injEq] at hpc
  rw [hpc, h] at hlate
  cases hlate

/-- A job changes, its task staying where it is. -/
theorem updateJob_kept {f : JobEntry → JobEntry}
    (hf : ∀ e, (f e).parentTaskId = e.parentTaskId ∧ (f e).session = e.session)
    (ht : ∀ e, (f e).task.map (·.pc) = e.task.map (·.pc)) : Reports brd (brd.updateJob j f) := by
  refine updateJob hf fun e t he hte hlate => ?_
  have hpc : (f e).task.map (·.pc) = some t.pc := by rw [ht, hte, Option.map_some]
  obtain ⟨t', ht', hpc'⟩ := Option.map_eq_some_iff.mp hpc
  exact ⟨t', ht', hpc' ▸ hlate, fun hfin => .inl (hpc' ▸ hfin)⟩

/-- A job past its report moves on, to the end only when it is not current. -/
theorem setPc_late {pc : Pc} (h : pc.isLate = true)
    (hc : pc = .finished → ∀ r, (brd.sessions r).currentJobId ≠ some j) : Reports brd (brd.setPc j pc) :=
  updateJob (fun _ => ⟨rfl, rfl⟩) fun _ _ _ _ _ => ⟨_, rfl, h, fun hfin => .inr (hc hfin)⟩

theorem setHistory (hist : History × List TaskBoundary) : Reports brd (brd.setHistory r hist) :=
  updateSession rfl (fun _ _ => id) (List.Sublist.refl _)

theorem reported_of_setHistory {hist : History × List TaskBoundary} {r' : ℕ}
    (h : (brd.setHistory r hist).Reported j r') : brd.Reported j r' := by
  obtain ⟨pc, hat, hl, hc⟩ := h
  have hsame : ((brd.setHistory r hist).sessions r').currentJobId = (brd.sessions r').currentJobId :=
    Board.forall_updateSession (P := fun r s => s.currentJobId = (brd.sessions r).currentJobId) (fun _ => rfl) rfl r'
  exact ⟨pc, hat, hl, fun hfin => hsame ▸ hc hfin⟩

theorem setPending (ps : List PendingSessionTask) : Reports brd (brd.setPending r ps) :=
  updateSession rfl (fun _ _ => id) (List.Sublist.refl _)

theorem clearCurrent : Reports brd (brd.clearCurrent r j) := by
  refine updateSession rfl (fun k _ hk => ?_) (List.Sublist.refl _)
  dsimp only at hk
  split at hk
  · cases hk
  · exact hk

theorem markAborted : Reports brd (brd.markAborted j) := by
  refine updateJob_kept (fun e => ?_) fun e => ?_
  all_goals split
  · exact ⟨rfl, rfl⟩
  · exact ⟨rfl, rfl⟩
  · rfl
  · rfl

theorem purge : Reports brd (brd.purge j) := by
  unfold Board.purge
  split
  · exact .refl _
  · exact setPending _

theorem undo : Reports brd (brd.undo r j) := by
  unfold Board.undo
  split
  · exact clearCurrent
  · exact ((setHistory _).trans markAborted).trans clearCurrent

theorem abortPending_fold (ps : List PendingSessionTask) :
    ∀ brd : Board, Reports brd (ps.foldl (fun brd p => brd.markAborted p.jobId) brd) := by
  induction ps with
  | nil => exact refl
  | cons p ps ih => exact fun brd => markAborted.trans (ih _)

/-- A job that had not reported files its report. -/
theorem file {f : JobEntry → JobEntry} {g : SubAgentSession → SubAgentSession} {e : JobEntry} (rep : Report)
    (he : brd.jobs j = some e) (hr : e.session = some r) (hnot : ∀ r', ¬brd.Reported j r')
    (hf : ∀ e, (f e).parentTaskId = e.parentTaskId ∧ (f e).session = e.session)
    (htask : (g (brd.sessions r)).taskId = (brd.sessions r).taskId)
    (hcur : (g (brd.sessions r)).currentJobId = (brd.sessions r).currentJobId ∨
      (g (brd.sessions r)).currentJobId = none)
    (hp : (g (brd.sessions r)).pendingResults = (brd.sessions r).pendingResults ++ [rep])
    (hrep : rep.job = j ∧ rep.result.jobId = some j)
    (hdone : ∃ t, (f e).task = some t ∧ t.pc.isLate = true ∧
      (t.pc = .finished → (g (brd.sessions r)).currentJobId ≠ some j)) :
    Reports brd ((brd.updateJob j f).updateSession r g) := by
  have hreported : ((brd.updateJob j f).updateSession r g).Reported j r := by
    obtain ⟨t, ht, hl, hc⟩ := hdone
    refine ⟨t.pc, ⟨f e, t, Board.jobs_updateJob_of he, (hf e).2 ▸ hr, ht, rfl⟩, hl, fun hfin => ?_⟩
    rw [Board.sessions_updateSession_self]
    exact hc hfin
  have hjob : Reports brd (brd.updateJob j f) := by
    refine updateJob hf fun e' t he' ht hl => ?_
    cases he.symm.trans he'
    obtain ⟨t', ht', hl', hc'⟩ := hdone
    refine ⟨t', ht', hl', fun _ => .inl ?_⟩
    by_contra hne
    exact hnot r ⟨t.pc, ⟨e, t, he, hr, ht, rfl⟩, hl, fun hfin => absurd hfin hne⟩
  refine
    { grows := le_rfl
      tasks := Board.forall_updateSession (P := fun r s => r < brd.sessionCount → s.taskId = (brd.sessions r).taskId)
        (fun _ _ => rfl) fun _ => htask
      old := hjob.old
      new := fun k e' r' he' hnone => ?_
      reported := fun k r' hk => ?_
      files := fun r' => ?_ }
  · rcases Board.jobs_updateJob.mp he' with ⟨rfl, e₀, h₀, -⟩ | ⟨-, h₀⟩
    all_goals
      rw [hnone] at h₀
      cases h₀
  · obtain ⟨pc, hat, hl, hc⟩ := hjob.reported k r' hk
    refine ⟨pc, hat, hl, fun hfin => ?_⟩
    by_cases hr' : r' = r
    · subst hr'
      rw [Board.sessions_updateSession_self]
      rcases hcur with hcur | hcur
      · exact hcur ▸ hc hfin
      · rw [Board.sessions_updateJob, hcur]
        exact fun h => by cases h
    · rw [Board.sessions_updateSession_ne hr']
      exact hc hfin
  · by_cases hr' : r' = r
    · subst hr'
      refine ⟨_, [rep], ?_, List.Sublist.refl _, List.nodup_singleton _, fun rep' hrep' => ?_⟩
      · rw [Board.sessions_updateSession_self, Board.sessions_updateJob, hp]
      · rw [List.mem_singleton.mp hrep', hrep.1]
        exact ⟨hrep.2, hnot, hreported⟩
    · refine .of_sublist ?_
      rw [Board.sessions_updateSession_ne hr']
      exact List.Sublist.refl _

theorem publish {pc : Pc} {res : SubAgentResult} (h : brd.At j r pc) (hpc : pc = .loop ∨ pc = .adapter)
    (hown : res.jobId = some j) : Reports brd (brd.publish j r res) := by
  have hearly : pc.isLate = false := by rcases hpc with rfl | rfl <;> rfl
  have hnot := Board.not_reported_of_early h.pc_eq hearly
  obtain ⟨e, t, he, hr, -⟩ := h
  exact file ⟨j, _, res⟩ he hr hnot (fun _ => ⟨rfl, rfl⟩) rfl (.inl rfl) rfl ⟨rfl, hown⟩
    ⟨_, rfl, rfl, fun hfin => by cases hfin⟩

/-- A job whose task was done before it reported is still current. -/
theorem reconcile (h : Sound brd) {e : JobEntry} (hc : (brd.sessions r).currentJobId = some j)
    (he : brd.jobs j = some e) (hpc : brd.pc j = some .finished) (hfiled : Filed brd) :
    Reports brd (brd.reconcile r j e) := by
  obtain ⟨e', he', hr, t, ht, -⟩ := h.current r j hc
  cases he.symm.trans he'
  have htp : t.pc = .finished := by
    rwa [Board.pc_eq_some.mpr ⟨e, t, he, ht, rfl⟩, Option.some.injEq] at hpc
  have hnot : ∀ r', ¬brd.Reported j r' := by
    rintro r' ⟨pc', hat, -, hnot⟩
    have hfin : pc' = .finished := Option.some.inj (hat.pc_eq.symm.trans hpc)
    obtain ⟨e₁, -, he₁, hr₁, -⟩ := hat
    cases he.symm.trans he₁
    cases hr.symm.trans hr₁
    exact hnot hfin hc
  have hown : (e.result.getD (unpublishedResult j)).jobId = some j := by
    rcases h.current_done hc he hpc with hst | hres
    · rw [h.result_none he hst]
      rfl
    · rw [hres]
      rfl
  have hnone : ((brd.sessions r).pendingResults.any fun rep => rep.result.jobId == some j) = false := by
    rw [Bool.eq_false_iff]
    intro hany
    obtain ⟨rep, hrep, hj⟩ := List.any_eq_true.mp hany
    obtain ⟨hjob, hreported⟩ := hfiled.own r rep hrep
    rw [hjob, beq_iff_eq, Option.some.injEq] at hj
    exact hnot r (hj ▸ hreported)
  let closed := if e.result.isSome then brd else brd.closeAborted r
  have hclosed : closed.jobs = brd.jobs ∧ Reports brd closed ∧
      (closed.sessions r).pendingResults = (brd.sessions r).pendingResults ∧ ∀ r', ¬closed.Reported j r' := by
    unfold closed
    split
    · exact ⟨rfl, .refl _, rfl, hnot⟩
    · refine ⟨rfl, setHistory _, ?_, fun r' hr' => hnot r' (reported_of_setHistory hr')⟩
      rw [Board.closeAborted, Board.setHistory, Board.sessions_updateSession_self]
  obtain ⟨hjobs, hreports, hpend, hnot'⟩ := hclosed
  refine hreports.trans ?_
  unfold Board.reconcile
  refine file ⟨j, (closed.sessions r).sessionId, e.result.getD (unpublishedResult j)⟩ (hjobs ▸ he) hr hnot'
    (fun _ => ⟨rfl, rfl⟩) rfl (.inr rfl) ?_ ⟨rfl, hown⟩ ⟨t, ht, by rw [htp]; rfl, fun _ hk => by cases hk⟩
  dsimp only
  rw [hpend, hnone, if_neg Bool.false_ne_true]

/-- A job without a task is dispatched in its session. -/
theorem dispatch {p : PendingSessionTask} (hr : r < brd.sessionCount) (hpc : brd.pc p.jobId = none) :
    Reports brd (brd.dispatch r p) := by
  have hnot := Board.not_reported_of_pc_none hpc
  have hentry : Reports brd (brd.setJob p.jobId (brd.dispatchEntry r p)) := by
    refine setJob hnot (fun e hj => ?_) fun hj r' hr' => ?_
    · rw [Board.dispatchEntry, hj]
      exact ⟨rfl, rfl⟩
    · rw [Board.dispatchEntry, hj] at hr' ⊢
      cases hr'
      exact ⟨hr, rfl⟩
  have hnot' : ¬(brd.setJob p.jobId (brd.dispatchEntry r p)).Reported p.jobId r := by
    have hcreated : (brd.setJob p.jobId (brd.dispatchEntry r p)).pc p.jobId = some .created := by
      unfold Board.pc Board.dispatchEntry
      rw [Board.jobs_setJob.mpr (.inl ⟨rfl, rfl⟩)]
      split <;> rfl
    exact Board.not_reported_of_early hcreated rfl r
  rw [Board.dispatch, Board.updateSession_setJob]
  refine hentry.trans (updateSession rfl (fun k hk hcur => ?_) (List.Sublist.refl _))
  cases hcur
  exact absurd hk hnot'

theorem createSession (h : Sound brd) (sid taskId : String) : Reports brd (brd.createSession sid taskId) := by
  have hlt : ∀ r < brd.sessionCount, (brd.createSession sid taskId).sessions r = brd.sessions r := fun r hr =>
    Function.update_of_ne (Nat.ne_of_lt hr) _ _
  refine
    { grows := Nat.le_succ _
      tasks := fun r hr => by rw [hlt r hr]
      old := fun _ e he => ⟨e, he, rfl, rfl⟩
      new := fun j e' r he' hnone => by rw [show (brd.createSession sid taskId).jobs = brd.jobs from rfl, hnone] at he'; cases he'
      reported := fun j r hj => ?_
      files := fun r => .of_sublist ?_ }
  · obtain ⟨e, he, hr⟩ := hj.job
    obtain ⟨pc, hat, hl, hc⟩ := hj
    refine ⟨pc, hat, hl, fun hfin => ?_⟩
    rw [hlt r (h.home j e r he hr)]
    exact hc hfin
  · unfold Board.createSession
    dsimp only
    by_cases hr : r = brd.sessionCount
    · subst hr
      rw [Function.update_self]
      exact List.nil_sublist _
    · rw [Function.update_of_ne hr]

theorem drains (h : Sound brd) {ok : Quirk → Prop} {after : Board} {next : Option ℕ}
    (hd : Drains ok brd r after next) : Reports brd after := by
  cases hd with
  | nothing _ => exact setPending _
  | lost _ _ => exact setPending _
  | dispatched hw =>
    next p rest =>
    obtain ⟨-, e, he, hr, ht, -⟩ := h.waiting_cons hw
    exact (setPending rest).trans (dispatch (h.home _ e r he hr) (Bus.pc_eq_none_of_task he ht))

theorem leave (h : Sound brd) {sent : Bool} (hat : brd.At j r (.publishing sent)) {pc : Pc} (hpc : pc.isLate = true) :
    Reports brd (brd.leave j r pc) :=
  clearCurrent.trans (setPc_late hpc fun _ => h.not_current_clearCurrent hat)

end Reports

theorem Finishes.reports {brd left : Board} {j r : ℕ} (hf : Finishes brd j r left) (h : Sound brd) :
    Reports brd left := by
  cases hf with
  | untrimmed hat _ => exact .leave h hat rfl
  | trimmed hat _ => exact (Reports.leave h hat rfl).trans (.setHistory _)
  | offloaded hat =>
    have hnot := h.not_current_of_late hat.pc_eq rfl (by simp)
    exact (Reports.setPc_late rfl fun _ => hnot).trans (.setHistory _)
  | kept hat => exact .setPc_late rfl fun _ => h.not_current_of_late hat.pc_eq rfl (by simp)

/-- **What a move does about reports.** -/
theorem Move.reports {ok : Quirk → Prop} {brd brd' : Board} (hm : Move ok brd brd') (hown : ¬ok .foreignResult)
    (h : Sound brd) (hfiled : Filed brd) : Reports brd brd' := by
  have hfresh := h.jobs_succ
  cases hm with
  | requestCancel j => exact .updateJob_kept (fun _ => ⟨rfl, rfl⟩) fun e => by cases e.task <;> rfl
  | createSession sid taskId => exact .createSession h sid taskId
  | tick => exact .of_same rfl rfl rfl
  | addJob taskId =>
    refine (Reports.of_same rfl rfl rfl : Reports brd brd.tick).trans (.setJob ?_ (fun e he => ?_) fun _ r hr => ?_)
    · exact Board.not_reported_of_pc_none (by simp [Board.pc, Board.tick, hfresh])
    · rw [show brd.tick.jobs = brd.jobs from rfl, hfresh] at he
      cases he
    · cases hr
  | enqueue hr hp _ =>
    next r p =>
    rw [← hp] at hfresh
    have htick : Reports brd brd.tick := .of_same rfl rfl rfl
    refine htick.trans (.trans (.updateSession rfl (fun _ _ => id) (List.Sublist.refl _))
      (.setJob ?_ (fun e he => ?_) fun _ r' hr' => ?_))
    · exact Board.not_reported_of_pc_none (by simp [Board.pc, Board.updateSession, Board.tick, hfresh])
    · rw [Board.jobs_updateSession, show brd.tick.jobs = brd.jobs from rfl, hfresh] at he
      cases he
    · cases hr'
      refine ⟨hr, ?_⟩
      rw [Board.sessions_updateSession_self]
  | accept hr hp _ _ =>
    next r p =>
    rw [← hp] at hfresh
    refine (Reports.of_same rfl rfl rfl : Reports brd brd.tick).trans (.dispatch hr ?_)
    simp [Board.pc, Board.tick, hfresh]
  | slot hpc => exact .updateJob_early hpc rfl fun _ => ⟨rfl, rfl⟩
  | beginRun hpc => rcases hpc with hpc | hpc <;> exact .updateJob_early hpc rfl fun _ => ⟨rfl, rfl⟩
  | abandon hpc _ => rcases hpc with hpc | hpc <;> exact .updateJob_early hpc rfl fun _ => ⟨rfl, rfl⟩
  | conclude hpc _ _ _ => exact .updateJob_early hpc rfl fun _ => ⟨rfl, rfl⟩
  | extend _ _ => exact .updateSession rfl (fun _ _ => id) (List.Sublist.refl _)
  | absorb hat _ =>
    next j r hist _ _ _ =>
    have hpc : (brd.setHistory r hist).pc j = some .loop := hat.pc_eq
    exact (Reports.setHistory _).trans (.updateJob_early hpc rfl fun _ => ⟨rfl, rfl⟩)
  | publish hat _ hres => exact .publish hat (.inr rfl) (not_not.mp fun hne => hown (hres hne))
  | publishAborted hat hpc _ hres =>
    next j r pc res _ =>
    have hat' : (brd.closeAborted r).At j r pc := hat
    exact (Reports.setHistory _).trans (.publish hat' hpc hres)
  | markSent hpc =>
    refine .updateJob (fun _ => ⟨rfl, rfl⟩) fun e t _ ht _ => ?_
    dsimp only
    rw [ht]
    exact ⟨_, rfl, rfl, fun hfin => by cases hfin⟩
  | offload hat _ => exact .leave h hat rfl
  | finish hf hd =>
    next j r left after next =>
    refine (hf.reports h).trans ((Reports.drains (hf.sound h).1 hd).trans ?_)
    cases next with
    | none => exact .refl _
    | some n => exact .setPc_late rfl fun hfin => by cases hfin
  | lostOffload hpc _ => exact .setPc_late rfl fun _ => h.not_current_of_late hpc rfl (by simp)
  | settle hpc hpc' =>
    next j next pc =>
    have hnot : ∀ r, (brd.sessions r).currentJobId ≠ some j := by
      rcases hpc with hpc | hpc <;> exact h.not_current_of_late hpc rfl (by simp)
    refine .setPc_late ?_ fun _ => hnot
    rcases hpc' with rfl | rfl <;> rfl
  | markAborted _ => exact .markAborted
  | cancelParked _ => exact Reports.purge.trans .markAborted
  | undo _ => exact .undo
  | confirm _ _ _ => exact .updateJob_kept (fun _ => ⟨rfl, rfl⟩) fun _ => rfl
  | reconcile hc he hpc => exact .reconcile h hc he hpc hfiled
  | lateDrain hd _ => exact .drains h hd
  | dropResults hsub => exact .updateSession rfl (fun _ _ => id) hsub
  | abortPending r => exact (Reports.abortPending_fold _ _).trans (.setPending _)
  | unlist r => exact .updateSession rfl (fun _ _ => id) (List.Sublist.refl _)

/-- Reports stay in order whatever becomes of them. -/
theorem Filed.reports {brd brd' : Board} (h : Filed brd) (hs : Sound brd) (hr : Reports brd brd') : Filed brd' where
  housed j e' r he' hsome := by
    cases hj : brd.jobs j with
    | none => exact (hr.new j e' r he' hj hsome).2
    | some e =>
      obtain ⟨e₁, h₁, hp, hses⟩ := hr.old j e hj
      cases he'.symm.trans h₁
      rw [hses] at hsome
      rw [hp, h.housed j e r hj hsome, hr.tasks r (hs.home j e r hj hsome)]
  own r rep hrep := by
    obtain ⟨kept, new, hp, hkept, -, hnew⟩ := hr.files r
    rw [hp] at hrep
    rcases List.mem_append.mp hrep with hrep | hrep
    · obtain ⟨hid, hreported⟩ := h.own r rep (hkept.subset hrep)
      exact ⟨hid, hr.reported _ _ hreported⟩
    · exact ⟨(hnew rep hrep).1, (hnew rep hrep).2.2⟩
  nodup r := by
    obtain ⟨kept, new, hp, hkept, hnodup, hnew⟩ := hr.files r
    rw [hp, List.map_append, List.nodup_append]
    refine ⟨(h.nodup r).sublist (hkept.map _), hnodup, ?_⟩
    rintro k hk k' hk' rfl
    obtain ⟨rep, hrep, hj⟩ := List.mem_map.mp hk
    obtain ⟨rep', hrep', hj'⟩ := List.mem_map.mp hk'
    have hreported := (h.own r rep (hkept.subset hrep)).2
    rw [hj, ← hj'] at hreported
    exact (hnew rep' hrep').2.1 r hreported

/-- **The rule for reports**: a sequence of moves keeps the board sound and its
reports in order. -/
theorem Moves.reports {ok : Quirk → Prop} {brd brd' : Board} (hm : Moves ok brd brd') (hup : ¬ok .givesUp)
    (hown : ¬ok .foreignResult) (h : Sound brd) (hfiled : Filed brd) :
    Sound brd' ∧ Filed brd' ∧ Reports brd brd' := by
  induction hm with
  | refl => exact ⟨h, hfiled, .refl _⟩
  | tail _ hlast ih =>
    obtain ⟨h₁, hf₁, hr₁⟩ := ih
    have hr := hlast.reports hown h₁ hf₁
    exact ⟨hlast.sound hup h₁, hf₁.reports h₁ hr, hr₁.trans hr⟩

end AgentBus
end AgentCore
