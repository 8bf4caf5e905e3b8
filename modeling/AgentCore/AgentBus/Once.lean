/-
# A task runs at most once

In every run of the bus, whatever its quirks, each session task is in the queue of one
session or has been dispatched by it, once, or was dropped on the way; and it has an asyncio
task exactly when it was dispatched. Submissions that come too late, cancellations, raising
trimmers and a cleanup that gives up may lose a task or run two of a session at a time, but
none of them runs one twice.

Key definitions: `AtMostOnce`.
Key theorem: `dispatched_once`.
-/
import AgentCore.AgentBus.Queue

namespace AgentCore
namespace AgentBus

open Runs

structure AtMostOnce (brd : Board) : Prop where
  fresh : ∀ j e, brd.jobs j = some e → j ≤ brd.counter
  home : ∀ j e r, brd.jobs j = some e → e.session = some r → r < brd.sessionCount
  queue : ∀ r, ∀ p ∈ (brd.sessions r).pendingTasks,
    ∃ e, brd.jobs p.jobId = some e ∧ e.session = some r ∧ e.task = none
  nodup : ∀ r, ((brd.sessions r).pendingTasks.map (·.jobId)).Nodup
  known : ∀ r, ∀ j ∈ (brd.sessions r).dispatched, ∃ e, brd.jobs j = some e ∧ e.session = some r ∧ e.task ≠ none
  started : ∀ j e r, brd.jobs j = some e → e.session = some r → e.task ≠ none → j ∈ (brd.sessions r).dispatched
  once : ∀ r, (brd.sessions r).dispatched.Nodup

namespace AtMostOnce

variable {brd brd' : Board} {j r : ℕ}

/-! ### Changes that dispatch nothing -/

theorem updateJob (h : AtMostOnce brd) {f : JobEntry → JobEntry}
    (hf : ∀ e, brd.jobs j = some e → (f e).session = e.session ∧ ((f e).task = none ↔ e.task = none)) :
    AtMostOnce (brd.updateJob j f) := by
  have hkeeps : ∀ {k e r}, brd.jobs k = some e → e.session = some r →
      ∃ e', (brd.updateJob j f).jobs k = some e' ∧ e'.session = some r ∧ (e'.task = none ↔ e.task = none) := by
    intro k e r he hr
    by_cases hk : k = j
    · subst hk
      exact ⟨f e, Board.jobs_updateJob_of he, (hf e he).1.trans hr, (hf e he).2⟩
    · exact ⟨e, (Board.jobs_updateJob_ne hk).trans he, hr, Iff.rfl⟩
  have hback : ∀ {k e'}, (brd.updateJob j f).jobs k = some e' →
      ∃ e, brd.jobs k = some e ∧ e'.session = e.session ∧ (e'.task = none ↔ e.task = none) := by
    intro k e' he'
    rcases Board.jobs_updateJob.mp he' with ⟨rfl, e, he, rfl⟩ | ⟨-, he⟩
    · exact ⟨e, he, hf e he⟩
    · exact ⟨e', he, rfl, Iff.rfl⟩
  refine ⟨fun k e' he' => ?_, fun k e' r he' hr => ?_, fun r p hp => ?_, h.nodup, fun r k hk => ?_,
    fun k e' r he' hr ht => ?_, h.once⟩
  · obtain ⟨e, he, -⟩ := hback he'
    exact h.fresh k e he
  · obtain ⟨e, he, hsame, -⟩ := hback he'
    exact h.home k e r he (hsame ▸ hr)
  · obtain ⟨e, he, hr, ht⟩ := h.queue r p hp
    obtain ⟨e', he', hr', hiff⟩ := hkeeps he hr
    exact ⟨e', he', hr', hiff.mpr ht⟩
  · obtain ⟨e, he, hr, ht⟩ := h.known r k hk
    obtain ⟨e', he', hr', hiff⟩ := hkeeps he hr
    exact ⟨e', he', hr', fun hnone => ht (hiff.mp hnone)⟩
  · obtain ⟨e, he, hsame, hiff⟩ := hback he'
    exact h.started k e r he (hsame ▸ hr) fun hnone => ht (hiff.mpr hnone)

/-- A job with a task goes on. -/
theorem setTask (h : AtMostOnce brd) {pc : Pc} {f : JobEntry → JobEntry} (hpc : brd.pc j = some pc)
    (hf : ∀ e, (f e).session = e.session ∧ (e.task ≠ none → (f e).task ≠ none)) : AtMostOnce (brd.updateJob j f) := by
  obtain ⟨e, t, he, ht, -⟩ := Board.pc_eq_some.mp hpc
  have hsome : e.task ≠ none := by
    rw [ht]
    exact Option.some_ne_none t
  refine h.updateJob fun e' he' => ⟨(hf e').1, ?_⟩
  cases he.symm.trans he'
  exact iff_of_false ((hf e).2 hsome) hsome

theorem setPc (h : AtMostOnce brd) {pc : Pc} (hpc : brd.pc j = some pc) (pc' : Pc) : AtMostOnce (brd.setPc j pc') :=
  h.setTask hpc fun _ => ⟨rfl, fun _ => Option.some_ne_none _⟩

theorem updateSession (h : AtMostOnce brd) {g : SubAgentSession → SubAgentSession}
    (hpending : (g (brd.sessions r)).pendingTasks.Sublist (brd.sessions r).pendingTasks)
    (hdispatched : (g (brd.sessions r)).dispatched = (brd.sessions r).dispatched) : AtMostOnce (brd.updateSession r g) where
  fresh := h.fresh
  home := h.home
  queue := Board.forall_updateSession (P := fun r s => ∀ p ∈ s.pendingTasks,
    ∃ e, brd.jobs p.jobId = some e ∧ e.session = some r ∧ e.task = none) h.queue
    fun p hp => h.queue r p (hpending.subset hp)
  nodup := Board.forall_updateSession (P := fun _ s => (s.pendingTasks.map (·.jobId)).Nodup) h.nodup
    ((h.nodup r).sublist (hpending.map _))
  known := Board.forall_updateSession (P := fun r s => ∀ j ∈ s.dispatched,
    ∃ e, brd.jobs j = some e ∧ e.session = some r ∧ e.task ≠ none) h.known fun k hk => h.known r k (hdispatched ▸ hk)
  started := fun k e r' he hr ht =>
    Board.forall_updateSession (P := fun r' s => brd.jobs k = some e → e.session = some r' → e.task ≠ none → k ∈ s.dispatched)
      (fun r' => h.started k e r') (hdispatched ▸ h.started k e r) r' he hr ht
  once := Board.forall_updateSession (P := fun _ s => s.dispatched.Nodup) h.once (hdispatched ▸ h.once r)

theorem setPending (h : AtMostOnce brd) {ps : List PendingSessionTask} (hps : ps.Sublist (brd.sessions r).pendingTasks) :
    AtMostOnce (brd.setPending r ps) := h.updateSession hps rfl

theorem setHistory (h : AtMostOnce brd) (r : ℕ) (hist : History × List TaskBoundary) : AtMostOnce (brd.setHistory r hist) :=
  h.updateSession (List.Sublist.refl _) rfl

theorem markAborted (h : AtMostOnce brd) (j : ℕ) : AtMostOnce (brd.markAborted j) :=
  h.updateJob fun e _ => by
    split
    all_goals exact ⟨rfl, Iff.rfl⟩

theorem clearCurrent (h : AtMostOnce brd) (r j : ℕ) : AtMostOnce (brd.clearCurrent r j) := h.updateSession (List.Sublist.refl _) rfl

theorem purge (h : AtMostOnce brd) (j : ℕ) : AtMostOnce (brd.purge j) := by
  unfold Board.purge
  split
  · exact h
  · exact h.setPending List.filter_sublist

theorem undo (h : AtMostOnce brd) (r j : ℕ) : AtMostOnce (brd.undo r j) := by
  unfold Board.undo
  split
  · exact h.clearCurrent r j
  · exact ((h.setHistory r _).markAborted j).clearCurrent r j

theorem abortPending (h : AtMostOnce brd) (r : ℕ) : AtMostOnce (brd.abortPending r) := by
  have hfold : ∀ (ps : List PendingSessionTask) {brd : Board}, AtMostOnce brd →
      AtMostOnce (ps.foldl (fun brd p => brd.markAborted p.jobId) brd) := by
    intro ps
    induction ps with
    | nil => exact fun h => h
    | cons p ps ih => exact fun h => ih (h.markAborted p.jobId)
  exact (hfold _ h).setPending (List.nil_sublist _)

theorem reconcile (h : AtMostOnce brd) (r j : ℕ) (e : JobEntry) : AtMostOnce (brd.reconcile r j e) := by
  have hclosed : AtMostOnce (if e.result.isSome then brd else brd.closeAborted r) := by
    split
    · exact h
    · exact h.setHistory r _
  have hjob := hclosed.updateJob (j := j) (f := fun e' =>
    { e' with result := some (e.result.getD (unpublishedResult j))
              status := (e.result.getD (unpublishedResult j)).reconciledStatus }) fun _ _ => ⟨rfl, Iff.rfl⟩
  unfold Board.reconcile
  refine updateSession hjob (List.Sublist.refl _) ?_
  rfl

theorem publish (h : AtMostOnce brd) {pc : Pc} (hpc : brd.pc j = some pc) (r : ℕ) (res : SubAgentResult) :
    AtMostOnce (brd.publish j r res) := by
  have hjob : AtMostOnce (brd.updateJob j fun e =>
      { e with status := res.status, result := some res, task := some { pc := .publishing false } }) :=
    h.setTask hpc fun _ => ⟨rfl, fun _ => Option.some_ne_none _⟩
  exact hjob.updateSession (List.Sublist.refl _) rfl

/-! ### New jobs and dispatches -/

theorem jobs_succ (h : AtMostOnce brd) : brd.jobs (brd.counter + 1) = none := by
  cases hj : brd.jobs (brd.counter + 1) with
  | none => rfl
  | some e => exact absurd (h.fresh _ e hj) (Nat.not_succ_le_self _)

theorem tick (h : AtMostOnce brd) : AtMostOnce brd.tick :=
  { h with fresh := fun j e he => Nat.le_succ_of_le (h.fresh j e he) }

theorem createSession (h : AtMostOnce brd) (sid taskId : String) : AtMostOnce (brd.createSession sid taskId) := by
  have hsess : ∀ r, (brd.createSession sid taskId).sessions r = brd.sessions r ∨
      r = brd.sessionCount ∧ (brd.createSession sid taskId).sessions r = { sessionId := sid, taskId } := by
    intro r
    by_cases hr : r = brd.sessionCount
    · exact .inr ⟨hr, hr ▸ Function.update_self _ _ _⟩
    · exact .inl (Function.update_of_ne hr _ _)
  refine ⟨h.fresh, fun j e r he hr => Nat.lt_succ_of_lt (h.home j e r he hr), fun r p hp => ?_, fun r => ?_,
    fun r j hj => ?_, fun j e r he hr ht => ?_, fun r => ?_⟩
  · rcases hsess r with heq | ⟨-, heq⟩
    · exact h.queue r p (heq ▸ hp)
    · rw [heq] at hp
      cases hp
  · rcases hsess r with heq | ⟨-, heq⟩
    · exact heq ▸ h.nodup r
    · rw [heq]
      exact List.nodup_nil
  · rcases hsess r with heq | ⟨-, heq⟩
    · exact h.known r j (heq ▸ hj)
    · rw [heq] at hj
      cases hj
  · rcases hsess r with heq | ⟨rfl, -⟩
    · exact heq ▸ h.started j e r he hr ht
    · exact absurd (h.home j e _ he hr) (Nat.lt_irrefl _)
  · rcases hsess r with heq | ⟨-, heq⟩
    · exact heq ▸ h.once r
    · rw [heq]
      exact List.nodup_nil

/-- A job that nobody knows yet. -/
theorem not_mem_of_none (h : AtMostOnce brd) (hj : brd.jobs j = none) (r : ℕ) :
    (∀ p ∈ (brd.sessions r).pendingTasks, p.jobId ≠ j) ∧ j ∉ (brd.sessions r).dispatched := by
  constructor
  · rintro p hp rfl
    obtain ⟨e, he, -⟩ := h.queue r p hp
    rw [hj] at he
    cases he
  · intro hmem
    obtain ⟨e, he, -⟩ := h.known r j hmem
    rw [hj] at he
    cases he

/-- A job gets its entry or a new one, and its session dispatches it exactly if that has a task. -/
theorem setJob_updateSession (h : AtMostOnce brd) {e : JobEntry} {g : SubAgentSession → SubAgentSession} (hj : j ≤ brd.counter)
    (hr : r < brd.sessionCount) (hhome : e.session = some r)
    (hunstarted : ∀ e', brd.jobs j = some e' → e'.session = some r ∧ e'.task = none)
    (hpending : ∀ p ∈ (g (brd.sessions r)).pendingTasks,
      p ∈ (brd.sessions r).pendingTasks ∧ p.jobId ≠ j ∨ p.jobId = j ∧ e.task = none)
    (hnodup : ((g (brd.sessions r)).pendingTasks.map (·.jobId)).Nodup)
    (hdispatched : (g (brd.sessions r)).dispatched =
      if e.task = none then (brd.sessions r).dispatched else (brd.sessions r).dispatched ++ [j]) :
    AtMostOnce ((brd.updateSession r g).setJob j e) := by
  have hother : ∀ r', r' ≠ r → ∀ p ∈ (brd.sessions r').pendingTasks, p.jobId ≠ j := by
    rintro r' hne p hp rfl
    obtain ⟨e', he', hr', -⟩ := h.queue r' p hp
    rw [(hunstarted e' he').1] at hr'
    exact hne (Option.some.inj hr').symm
  have hnew : ∀ r', j ∉ (brd.sessions r').dispatched := by
    intro r' hmem
    obtain ⟨e', he', -, ht⟩ := h.known r' j hmem
    exact ht (hunstarted e' he').2
  have hold : ∀ {k e'}, k ≠ j → brd.jobs k = some e' → ((brd.updateSession r g).setJob j e).jobs k = some e' :=
    fun hne he' => Board.jobs_setJob.mpr (.inr ⟨hne, he'⟩)
  have hself : ((brd.updateSession r g).setJob j e).jobs j = some e := Board.jobs_setJob.mpr (.inl ⟨rfl, rfl⟩)
  refine ⟨fun k e' he' => ?_, fun k e' r' he' hr' => ?_, ?_, ?_, ?_, fun k e' r' he' hr' ht => ?_, ?_⟩
  · rcases Board.jobs_setJob.mp he' with ⟨rfl, -⟩ | ⟨-, he'⟩
    · exact hj
    · exact h.fresh k e' he'
  · rcases Board.jobs_setJob.mp he' with ⟨rfl, rfl⟩ | ⟨-, he'⟩
    · rw [hhome, Option.some.injEq] at hr'
      exact hr' ▸ hr
    · exact h.home k e' r' he' hr'
  · intro r' p hp
    by_cases hne : r' = r
    · subst hne
      rw [Board.sessions_setJob, Board.sessions_updateSession_self] at hp
      rcases hpending p hp with ⟨hp, hid⟩ | ⟨rfl, ht⟩
      · obtain ⟨e', he', hr', ht⟩ := h.queue r' p hp
        exact ⟨e', hold hid he', hr', ht⟩
      · exact ⟨e, hself, hhome, ht⟩
    · rw [Board.sessions_setJob, Board.sessions_updateSession_ne hne] at hp
      obtain ⟨e', he', hr', ht⟩ := h.queue r' p hp
      exact ⟨e', hold (hother r' hne p hp) he', hr', ht⟩
  · exact Board.forall_updateSession (P := fun _ s => (s.pendingTasks.map (·.jobId)).Nodup) h.nodup hnodup
  · intro r' k hk
    have hbefore : k ∈ (brd.sessions r').dispatched →
        ∃ e', ((brd.updateSession r g).setJob j e).jobs k = some e' ∧ e'.session = some r' ∧ e'.task ≠ none := fun hk => by
      obtain ⟨e', he', hr', ht⟩ := h.known r' k hk
      exact ⟨e', hold (fun heq => hnew r' (heq ▸ hk)) he', hr', ht⟩
    by_cases hne : r' = r
    · subst hne
      rw [Board.sessions_setJob, Board.sessions_updateSession_self, hdispatched] at hk
      split at hk
      · exact hbefore hk
      · rename_i ht
        rcases List.mem_append.mp hk with hk | hk
        · exact hbefore hk
        · rw [List.mem_singleton.mp hk]
          exact ⟨e, hself, hhome, ht⟩
    · rw [Board.sessions_setJob, Board.sessions_updateSession_ne hne] at hk
      exact hbefore hk
  · by_cases hne : r' = r
    · subst hne
      rw [Board.sessions_setJob, Board.sessions_updateSession_self, hdispatched]
      rcases Board.jobs_setJob.mp he' with ⟨rfl, rfl⟩ | ⟨-, he'⟩
      · rw [if_neg ht]
        exact List.mem_append_right _ (List.mem_singleton_self _)
      · have hmem := h.started k e' r' he' hr' ht
        split
        · exact hmem
        · exact List.mem_append_left _ hmem
    · rw [Board.sessions_setJob, Board.sessions_updateSession_ne hne]
      rcases Board.jobs_setJob.mp he' with ⟨rfl, rfl⟩ | ⟨-, he'⟩
      · rw [hhome, Option.some.injEq] at hr'
        exact absurd hr'.symm hne
      · exact h.started k e' r' he' hr' ht
  · refine Board.forall_updateSession (P := fun _ s => s.dispatched.Nodup) h.once ?_
    rw [hdispatched]
    split
    · exact h.once r
    · exact List.nodup_append.mpr ⟨h.once r, List.nodup_singleton _, fun k hk k' hk' heq =>
        hnew r (List.mem_singleton.mp hk' ▸ heq ▸ hk)⟩

theorem addJob (h : AtMostOnce brd) (taskId : String) : AtMostOnce (brd.tick.addJob (brd.counter + 1) taskId) := by
  have hne : ∀ {k e}, brd.jobs k = some e → k ≠ brd.counter + 1 := by
    rintro k e he rfl
    rw [h.jobs_succ] at he
    cases he
  refine ⟨fun k e he => ?_, fun k e r he hr => ?_, fun r p hp => ?_, h.nodup, fun r k hk => ?_,
    fun k e r he hr ht => ?_, h.once⟩
  · rcases Board.jobs_setJob.mp he with ⟨rfl, -⟩ | ⟨-, he⟩
    · exact Nat.le_refl _
    · exact h.tick.fresh k e he
  · rcases Board.jobs_setJob.mp he with ⟨-, rfl⟩ | ⟨-, he⟩
    · cases hr
    · exact h.home k e r he hr
  · obtain ⟨e, he, hrest⟩ := h.queue r p hp
    exact ⟨e, Board.jobs_setJob.mpr (.inr ⟨hne he, he⟩), hrest⟩
  · obtain ⟨e, he, hrest⟩ := h.known r k hk
    exact ⟨e, Board.jobs_setJob.mpr (.inr ⟨hne he, he⟩), hrest⟩
  · rcases Board.jobs_setJob.mp he with ⟨-, rfl⟩ | ⟨-, he⟩
    · cases hr
    · exact h.started k e r he hr ht

theorem enqueue (h : AtMostOnce brd) {p : PendingSessionTask} (hr : r < brd.sessionCount)
    (hp : p.jobId = brd.counter + 1) : AtMostOnce (brd.tick.enqueue r p) := by
  have hnone : brd.jobs p.jobId = none := hp ▸ h.jobs_succ
  have hnew := (h.not_mem_of_none hnone r).1
  refine h.tick.setJob_updateSession (Nat.le_of_eq hp) hr rfl
    (fun e he => absurd (hnone.symm.trans he) (Option.some_ne_none e).symm) (fun q hq => ?_) ?_ rfl
  · rcases List.mem_append.mp hq with hq | hq
    · exact .inl ⟨hq, hnew q hq⟩
    · exact .inr ⟨by rw [List.mem_singleton.mp hq], rfl⟩
  · rw [List.map_append, List.nodup_append]
    refine ⟨h.nodup r, List.nodup_singleton _, fun a ha b hb => ?_⟩
    obtain ⟨q, hq, rfl⟩ := List.mem_map.mp ha
    rw [List.map_singleton, List.mem_singleton] at hb
    rw [hb]
    exact hnew q hq

/-- A job of the session that has no task yet is dispatched, waiting in no queue any more. -/
theorem dispatch (h : AtMostOnce brd) {p : PendingSessionTask} (hr : r < brd.sessionCount) (hp : p.jobId ≤ brd.counter)
    (hq : ∀ q ∈ (brd.sessions r).pendingTasks, q.jobId ≠ p.jobId)
    (he : ∀ e, brd.jobs p.jobId = some e → e.session = some r ∧ e.task = none) : AtMostOnce (brd.dispatch r p) := by
  have hentry : (brd.dispatchEntry r p).session = some r ∧ (brd.dispatchEntry r p).task ≠ none := by
    unfold Board.dispatchEntry
    split
    · next e hj => exact ⟨(he e hj).1, Option.some_ne_none _⟩
    · exact ⟨rfl, Option.some_ne_none _⟩
  refine h.setJob_updateSession hp hr hentry.1 he (fun q hmem => .inl ⟨hmem, hq q hmem⟩) (h.nodup r) ?_
  rw [if_neg hentry.2]

theorem accept (h : AtMostOnce brd) {p : PendingSessionTask} (hr : r < brd.sessionCount)
    (hp : p.jobId = brd.counter + 1) : AtMostOnce (brd.tick.dispatch r p) := by
  have hnone : brd.jobs p.jobId = none := hp ▸ h.jobs_succ
  exact h.tick.dispatch hr (Nat.le_of_eq hp) (h.not_mem_of_none hnone r).1 fun e he =>
    absurd (hnone.symm.trans he) (Option.some_ne_none e).symm

/-! ### Moves -/

theorem drains (h : AtMostOnce brd) {ok : Quirk → Prop} {after : Board} {next : Option ℕ}
    (hd : Drains ok brd r after next) : AtMostOnce after := by
  have hsub : ∀ {ps}, brd.waiting r = ps → ps.Sublist (brd.sessions r).pendingTasks := fun hw =>
    hw ▸ List.dropWhile_sublist _
  cases hd with
  | nothing hw => exact h.setPending (List.nil_sublist _)
  | lost hw _ => exact h.setPending ((List.sublist_cons_self ..).trans (hsub hw))
  | dispatched hw =>
    next p rest =>
    obtain ⟨e, he, hhome, ht⟩ := h.queue r p ((hsub hw).subset List.mem_cons_self)
    have hpop : AtMostOnce (brd.setPending r rest) := h.setPending ((List.sublist_cons_self ..).trans (hsub hw))
    refine hpop.dispatch (h.home _ e r he hhome) (h.fresh _ e he) (fun q hq heq => ?_) fun e' he' => ?_
    · rw [Board.setPending, Board.sessions_updateSession_self] at hq
      have hnodup := (h.nodup r).sublist ((hsub hw).map (·.jobId))
      rw [List.map_cons, List.nodup_cons] at hnodup
      exact hnodup.1 (heq ▸ List.mem_map_of_mem hq)
    · cases he.symm.trans he'
      exact ⟨hhome, ht⟩

theorem leave (h : AtMostOnce brd) {pc : Pc} (hat : brd.At j r pc) (pc' : Pc) : AtMostOnce (brd.leave j r pc') :=
  (h.clearCurrent r j).setPc hat.pc_eq pc'

theorem finishes (h : AtMostOnce brd) {left : Board} (hf : Finishes brd j r left) :
    AtMostOnce left ∧ left.pc j = some .finished := by
  have hpc : ∀ {brd : Board} {pc : Pc}, brd.pc j = some pc → (brd.setPc j .finished).pc j = some .finished := by
    intro brd pc hpc
    obtain ⟨e, -, he, -⟩ := Board.pc_eq_some.mp hpc
    exact Board.pc_eq_some.mpr ⟨_, _, Board.jobs_updateJob_of he, rfl, rfl⟩
  cases hf with
  | untrimmed hat _ => exact ⟨h.leave hat _, @hpc (brd.clearCurrent r j) _ hat.pc_eq⟩
  | trimmed hat _ => exact ⟨(h.leave hat _).setHistory r _, @hpc (brd.clearCurrent r j) _ hat.pc_eq⟩
  | offloaded hat => exact ⟨(h.setPc hat.pc_eq _).setHistory r _, hpc hat.pc_eq⟩
  | kept hat => exact ⟨h.setPc hat.pc_eq _, hpc hat.pc_eq⟩

end AtMostOnce

/-- What a queue hands on leaves the task of a running job where it is. -/
theorem Drains.pc_of_task {ok : Quirk → Prop} {brd after : Board} {r j : ℕ} {next : Option ℕ} {pc : Pc}
    (hd : Drains ok brd r after next) (h : AtMostOnce brd) (hpc : brd.pc j = some pc) : after.pc j = some pc := by
  cases hd with
  | nothing hw => exact hpc
  | lost hw _ => exact hpc
  | dispatched hw =>
    next p rest =>
    obtain ⟨e, t, he, ht, htp⟩ := Board.pc_eq_some.mp hpc
    have hmem : p ∈ (brd.sessions r).pendingTasks :=
      (hw ▸ List.dropWhile_sublist _ : (p :: rest).Sublist _).subset List.mem_cons_self
    obtain ⟨e', he', -, ht'⟩ := h.queue r p hmem
    have hne : j ≠ p.jobId := by
      rintro rfl
      cases he.symm.trans he'
      rw [ht] at ht'
      cases ht'
    exact Board.pc_eq_some.mpr ⟨e, t, Board.jobs_setJob.mpr (.inr ⟨hne, he⟩), ht, htp⟩

theorem Move.once {ok : Quirk → Prop} {brd brd' : Board} (hm : Move ok brd brd') (h : AtMostOnce brd) : AtMostOnce brd' := by
  cases hm with
  | requestCancel j =>
    refine h.updateJob fun e _ => ⟨rfl, ?_⟩
    exact Option.map_eq_none_iff
  | createSession sid taskId => exact h.createSession sid taskId
  | tick => exact h.tick
  | addJob taskId => exact h.addJob taskId
  | enqueue hr hp _ => exact h.enqueue hr hp
  | accept hr hp _ _ => exact h.accept hr hp
  | slot hpc => exact h.setPc hpc _
  | beginRun hpc =>
    rcases hpc with hpc | hpc
    all_goals exact h.setTask hpc fun _ => ⟨rfl, fun _ => Option.some_ne_none _⟩
  | abandon hpc _ =>
    rcases hpc with hpc | hpc
    all_goals exact h.setPc hpc _
  | conclude hpc he hs _ => exact h.setTask hpc fun _ => ⟨rfl, fun _ => Option.some_ne_none _⟩
  | extend newTurns _ => exact h.updateSession (List.Sublist.refl _) rfl
  | absorb hat _ => exact (h.setHistory _ _).setPc hat.pc_eq _
  | publish hat _ _ => exact h.publish hat.pc_eq _ _
  | publishAborted hat _ _ _ =>
    exact AtMostOnce.publish (h.setHistory _ _) hat.pc_eq _ _
  | markSent hpc =>
    exact h.setTask hpc fun e => ⟨rfl, fun ht => mt Option.map_eq_none_iff.mp ht⟩
  | offload hat _ => exact h.leave hat _
  | finish hf hd =>
    next j r left after next =>
    obtain ⟨hleft, hpc⟩ := h.finishes hf
    have hafter := hleft.drains hd
    cases next with
    | none => exact hafter
    | some n => exact hafter.setPc (hd.pc_of_task hleft hpc) _
  | lostOffload hpc _ => exact h.setPc hpc _
  | settle hpc _ =>
    rcases hpc with hpc | hpc
    all_goals exact h.setPc hpc _
  | markAborted hj => exact h.markAborted _
  | cancelParked hj => exact (h.purge _).markAborted _
  | undo hpc => exact h.undo _ _
  | confirm he hpc hs => exact h.updateJob fun _ _ => ⟨rfl, Iff.rfl⟩
  | reconcile hc he hpc => exact h.reconcile _ _ _
  | lateDrain hd _ => exact h.drains hd
  | dropResults _ => exact h.updateSession (List.Sublist.refl _) rfl
  | abortPending r => exact h.abortPending r
  | unlist r => exact h.updateSession (List.Sublist.refl _) rfl

theorem once_fresh (historyDir comm : Bool) (guard : Option SpawnGuard) (store : List ResultMessage) :
    AtMostOnce (System.fresh historyDir comm guard store).bus.toBoard where
  fresh := fun _ _ he => by cases he
  home := fun _ _ _ he _ => by cases he
  queue := fun _ _ hp => by cases hp
  nodup := fun _ => List.nodup_nil
  known := fun _ _ hj => by cases hj
  started := fun _ _ _ he _ _ => by cases he
  once := fun _ => List.nodup_nil

/-- **No session task runs twice.** In every run a task is dispatched once at most and by one
session; exactly the tasks that were dispatched have an asyncio task, and a task in a queue,
where it waits once, has none. -/
theorem dispatched_once {historyDir comm : Bool} {guard : Option SpawnGuard} {store : List ResultMessage}
    {es : List Bus.Event} {s : System} (h : run System.step (System.fresh historyDir comm guard store) es = some s) :
    (∀ r, (s.bus.sessions r).dispatched.Nodup) ∧
    (∀ r r' j, j ∈ (s.bus.sessions r).dispatched → j ∈ (s.bus.sessions r').dispatched → r = r') ∧
    (∀ r j, j ∈ (s.bus.sessions r).dispatched ↔
      ∃ e, s.bus.jobs j = some e ∧ e.session = some r ∧ e.task ≠ none) ∧
    ∀ r, ((s.bus.sessions r).pendingTasks.map (·.jobId)).Nodup ∧
      ∀ p ∈ (s.bus.sessions r).pendingTasks, s.bus.pc p.jobId = none ∧
        ∀ r', p.jobId ∉ (s.bus.sessions r').dispatched := by
  have htrace : Trace System.step (fun _ _ _ => True) (System.fresh historyDir comm guard store) es s :=
    Trace.of_forall (fun _ _ _ _ => trivial) h
  have honce : AtMostOnce s.bus.toBoard := by
    refine Trace.invariant (I := fun _ s => AtMostOnce s.bus.toBoard) (once_fresh ..) ?_ htrace
    exact fun _ s ev s' hI _ hs => (step_moves hs).invariant (fun _ _ hI hm => hm.once hI) hI
  have hiff : ∀ r j, j ∈ (s.bus.sessions r).dispatched ↔
      ∃ e, s.bus.jobs j = some e ∧ e.session = some r ∧ e.task ≠ none :=
    fun r j => ⟨honce.known r j, fun ⟨e, he, hr, ht⟩ => honce.started j e r he hr ht⟩
  refine ⟨honce.once, fun r r' j hr hr' => ?_, hiff, fun r => ⟨honce.nodup r, fun p hp => ?_⟩⟩
  · obtain ⟨e, he, hr, -⟩ := (hiff r j).mp hr
    obtain ⟨e', he', hr', -⟩ := (hiff r' j).mp hr'
    cases he.symm.trans he'
    exact Option.some.inj (hr.symm.trans hr')
  · obtain ⟨e, he, -, ht⟩ := honce.queue r p hp
    refine ⟨by rw [Board.pc, he, Option.bind_some, ht, Option.map_none], fun r' hmem => ?_⟩
    obtain ⟨e', he', -, ht'⟩ := honce.known r' _ hmem
    cases he.symm.trans he'
    exact ht' ht

theorem dispatched_once_queuedTask :
    ∃ s, run System.step (System.fresh false false none []) (queuedTask ++ [.published 1 false]) = some s ∧
      (s.bus.sessions 0).dispatched = [1, 2] ∧ (s.bus.sessions 0).dispatched.Nodup := by
  refine ⟨_, rfl, rfl, ?_⟩
  have h : run System.step (System.fresh false false none []) (queuedTask ++ [.published 1 false]) = some _ := rfl
  exact (dispatched_once h).1 0

end AgentBus
end AgentCore
