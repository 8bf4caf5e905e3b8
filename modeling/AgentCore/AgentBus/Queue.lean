/-
# No queued task is lost or stranded

A task is queued only while a job of its session is at work, and whoever is at
work drains the queue when it is done, so a queue with tasks in it always has
a job that will come to it (`Served`). A job whose status is `queued` is in
the queue of its session until it is dispatched or marked aborted.

Three things break this. A task that is cancelled before it runs, or while it
offloads, ends without its `finally` and drains nothing. A trimmer that raises
in a drain loses the task that was popped and leaves the rest behind.

Key definitions: `Pc.isLive`, `Served`.
Key theorem: `queue_conserved`.
-/
import AgentCore.AgentBus.Status
import Mathlib.Data.List.TakeWhile

namespace AgentCore
namespace AgentBus

open Runs

/-- The task has still to drain the queue of its session. -/
def Pc.isLive : Pc → Bool
  | .created | .slot | .loop | .adapter | .publishing _ | .offloading _ _ => true
  | _ => false

/-- A job of the session has still to drain its queue. -/
def Board.HasLive (brd : Board) (r : ℕ) : Prop := ∃ j pc, brd.At j r pc ∧ pc.isLive = true

/-- Queued jobs are in queues, and queues are served, at least those of the
sessions in `R`. -/
structure Served (R : ℕ → Prop) (brd : Board) : Prop where
  ended : ∀ j e t, brd.jobs j = some e → e.task = some t → t.pc = .finished → e.status.isTerminal = true
  parked : ∀ j e, brd.jobs j = some e → e.status = .queued →
    ∃ r, e.session = some r ∧ ∃ p ∈ (brd.sessions r).pendingTasks, p.jobId = j
  served : ∀ r, R r → (brd.sessions r).pendingTasks ≠ [] → brd.HasLive r

namespace Served

variable {R : ℕ → Prop} {brd : Board} {j r : ℕ}

theorem weaken {R' : ℕ → Prop} (h : Served R brd) (hR : ∀ r, R' r → R r) : Served R' brd :=
  ⟨h.ended, h.parked, fun r hr => h.served r (hR r hr)⟩

/-! ### Updates -/

/-- What may become of a job's entry: its session and whether it is queued stay,
and it goes on serving. -/
structure Kept (R : ℕ → Prop) (e e' : JobEntry) : Prop where
  session : e'.session = e.session
  queued : e'.status = .queued → e.status = .queued
  live : ∀ t r, e.session = some r → R r → e.task = some t → t.pc.isLive = true →
    ∃ t', e'.task = some t' ∧ t'.pc.isLive = true
  ended : ∀ t, e'.task = some t → t.pc = .finished → e'.status.isTerminal = true

theorem hasLive_updateJob {f : JobEntry → JobEntry} (hR : R r)
    (hf : ∀ e, brd.jobs j = some e → Kept R e (f e)) (h : brd.HasLive r) : (brd.updateJob j f).HasLive r := by
  obtain ⟨k, pc, ⟨e, t, he, hs, ht, rfl⟩, hlive⟩ := h
  by_cases hk : k = j
  · subst hk
    obtain ⟨t', ht', hlive'⟩ := (hf e he).live t r hs hR ht hlive
    exact ⟨k, t'.pc, ⟨f e, t', Board.jobs_updateJob_of he, (hf e he).session.trans hs, ht', rfl⟩, hlive'⟩
  · exact ⟨k, t.pc, ⟨e, t, by rwa [Board.jobs_updateJob_ne hk], hs, ht, rfl⟩, hlive⟩

theorem updateJob (h : Served R brd) {f : JobEntry → JobEntry} (hf : ∀ e, brd.jobs j = some e → Kept R e (f e)) :
    Served R (brd.updateJob j f) where
  ended k e t hk := by
    rcases Board.jobs_updateJob.mp hk with ⟨rfl, e₀, h₀, rfl⟩ | ⟨-, h₀⟩
    · exact (hf e₀ h₀).ended t
    · exact h.ended k e t h₀
  parked k e hk hst := by
    rcases Board.jobs_updateJob.mp hk with ⟨rfl, e₀, h₀, rfl⟩ | ⟨-, h₀⟩
    · rw [(hf e₀ h₀).session]
      exact h.parked k e₀ h₀ ((hf e₀ h₀).queued hst)
    · exact h.parked k e h₀ hst
  served r hr hne := hasLive_updateJob hr hf (h.served r hr hne)

theorem updateSession (h : Served R brd) {g : SubAgentSession → SubAgentSession}
    (hq : (g (brd.sessions r)).pendingTasks = (brd.sessions r).pendingTasks) : Served R (brd.updateSession r g) := by
  have hqueue : ∀ r', ((brd.updateSession r g).sessions r').pendingTasks = (brd.sessions r').pendingTasks :=
    Board.forall_updateSession (P := fun r' s => s.pendingTasks = (brd.sessions r').pendingTasks) (fun _ => rfl) hq
  refine ⟨h.ended, fun k e hk hst => ?_, fun r' hr hne => ?_⟩
  · obtain ⟨r', hs, p, hp, hid⟩ := h.parked k e hk hst
    exact ⟨r', hs, p, by rwa [hqueue], hid⟩
  · rw [hqueue] at hne
    exact h.served r' hr hne

/-- A job that has just got its entry. -/
theorem setJob (h : Served R brd) {e' : JobEntry} (hnew : ∀ e t, brd.jobs j = some e → e.task = some t → t.pc.isLive = false)
    (hst : e'.status ≠ .queued) (hended : ∀ t, e'.task = some t → t.pc ≠ .finished) : Served R (brd.setJob j e') where
  ended k e t hk := by
    rcases Board.jobs_setJob.mp hk with ⟨rfl, rfl⟩ | ⟨-, hk⟩
    · exact fun ht hfin => absurd hfin (hended t ht)
    · exact h.ended k e t hk
  parked k e hk hq := by
    rcases Board.jobs_setJob.mp hk with ⟨rfl, rfl⟩ | ⟨-, hk⟩
    · exact absurd hq hst
    · exact h.parked k e hk hq
  served r hr hne := by
    obtain ⟨k, pc, ⟨e, t, he, hs, ht, rfl⟩, hlive⟩ := h.served r hr hne
    refine ⟨k, t.pc, ⟨e, t, Board.jobs_setJob.mpr (.inr ⟨?_, he⟩), hs, ht, rfl⟩, hlive⟩
    rintro rfl
    rw [hnew e t he ht] at hlive
    cases hlive

/-! ### Moves of a job's task -/

/-- A task moves on without changing what it owes to its session. -/
theorem setPc (h : Served R brd) {pc : Pc} (hlive : ∀ e r, brd.jobs j = some e → e.session = some r → R r →
      ∀ t, e.task = some t → t.pc.isLive = true → pc.isLive = true)
    (hended : pc = .finished → ∀ e, brd.jobs j = some e → e.status.isTerminal = true) : Served R (brd.setPc j pc) :=
  h.updateJob fun e he =>
    { session := rfl
      queued := id
      live := fun t r hs hR ht hl => ⟨_, rfl, hlive e r he hs hR t ht hl⟩
      ended := fun t ht hfin => by
        cases ht
        exact hended hfin e he }

theorem setPc_live (h : Served R brd) {pc : Pc} (hlive : pc.isLive = true) : Served R (brd.setPc j pc) :=
  h.setPc (fun _ _ _ _ _ _ _ _ => hlive) fun hfin => by rw [hfin] at hlive; cases hlive

theorem setHistory (h : Served R brd) (r : ℕ) (hist : History × List TaskBoundary) :
    Served R (brd.setHistory r hist) :=
  h.updateSession rfl

theorem publish (h : Served R brd) (res : SubAgentResult) : Served R (brd.publish j r res) := by
  refine Served.updateSession (h.updateJob fun e he => ?_) rfl
  exact
    { session := rfl
      queued := fun hst => by
        have hterm := Sound.isTerminal_status res
        rw [show res.status = .queued from hst] at hterm
        cases hterm
      live := fun _ _ _ _ _ _ => ⟨_, rfl, rfl⟩
      ended := fun t ht hfin => by
        cases ht
        cases hfin }

theorem clearCurrent (h : Served R brd) (r j : ℕ) : Served R (brd.clearCurrent r j) := h.updateSession rfl

theorem markAborted (h : Served R brd) (j : ℕ) : Served R (brd.markAborted j) := by
  refine h.updateJob fun e he => ?_
  split
  · exact ⟨rfl, id, fun t r _ _ ht hl => ⟨t, ht, hl⟩, fun t ht => h.ended j e t he ht⟩
  · exact ⟨rfl, (fun hst => by cases hst), fun t r _ _ ht hl => ⟨t, ht, hl⟩, fun _ _ _ => rfl⟩

theorem closeAborted (h : Served R brd) (r : ℕ) : Served R (brd.closeAborted r) := h.setHistory r _

theorem undo (h : Served R brd) (r j : ℕ) : Served R (brd.undo r j) := by
  unfold Board.undo
  split
  · exact h.clearCurrent r j
  · exact ((h.closeAborted r).markAborted j).clearCurrent r j

theorem confirm (h : Served R brd) : Served R (brd.confirm j) :=
  h.updateJob fun _ _ => ⟨rfl, (fun hst => by cases hst), fun t _ _ _ ht hl => ⟨t, ht, hl⟩, fun _ _ _ => rfl⟩

theorem reconcile (h : Served R brd) (e : JobEntry) : Served R (brd.reconcile r j e) := by
  have hclosed : Served R (if e.result.isSome then brd else brd.closeAborted r) := by
    split
    · exact h
    · exact h.closeAborted r
  unfold Board.reconcile
  refine Served.updateSession (hclosed.updateJob fun e' _ => ?_) rfl
  have hterm := Sound.isTerminal_reconciledStatus (e.result.getD (unpublishedResult j))
  refine ⟨rfl, fun hst => ?_, fun t _ _ _ ht hl => ⟨t, ht, hl⟩, fun _ _ _ => hterm⟩
  dsimp only at hst
  rw [hst] at hterm
  cases hterm

/-! ### Queues -/

/-- Tasks leave a queue whose jobs are not queued any more. -/
theorem setPending (h : Served R brd) {ps : List PendingSessionTask}
    (hsub : ps.Sublist (brd.sessions r).pendingTasks)
    (hgone : ∀ p ∈ (brd.sessions r).pendingTasks, p ∉ ps → brd.status p.jobId ≠ some .queued) :
    Served R (brd.setPending r ps) := by
  have hsessions : ∀ r', ((brd.setPending r ps).sessions r').pendingTasks =
      if r' = r then ps else (brd.sessions r').pendingTasks := by
    intro r'
    by_cases hr : r' = r
    · subst hr
      rw [if_pos rfl, Board.setPending, Board.sessions_updateSession_self]
    · rw [if_neg hr, Board.setPending, Board.sessions_updateSession_ne hr]
  refine ⟨h.ended, fun k e hk hst => ?_, fun r' hr hne => ?_⟩
  · obtain ⟨r', hs, p, hp, hid⟩ := h.parked k e hk hst
    refine ⟨r', hs, p, ?_, hid⟩
    rw [hsessions]
    split
    · next hr =>
      subst hr
      by_contra hnot
      refine hgone p hp hnot ?_
      rw [hid, Board.status, show brd.jobs k = some e from hk, Option.map_some, hst]
    · exact hp
  · refine h.served r' hr fun hnil => hne ?_
    rw [hsessions]
    split
    · next hr =>
      subst hr
      rw [hnil] at hsub
      exact List.sublist_nil.mp hsub
    · exact hnil

/-- A marked job is not queued any more, and marking queues none. -/
theorem status_markAborted {k : ℕ} (h : k = j ∨ brd.status k ≠ some .queued) :
    (brd.markAborted j).status k ≠ some .queued := by
  intro hq
  obtain ⟨e, he, hst⟩ := Option.map_eq_some_iff.mp hq
  rcases Board.jobs_updateJob.mp he with ⟨rfl, e₀, h₀, rfl⟩ | ⟨hne, h₀⟩
  · split at hst
    · next ht =>
      rw [hst] at ht
      cases ht
    · cases hst
  · refine (h.resolve_left hne) ?_
    rw [Board.status, h₀, Option.map_some, hst]

/-- A job that is not queued any more leaves its queue. -/
theorem purge (h : Served R brd) (hq : brd.status j ≠ some .queued) : Served R (brd.purge j) := by
  unfold Board.purge
  split
  · exact h
  · refine h.setPending List.filter_sublist fun p hp hnot => ?_
    by_cases hne : p.jobId = j
    · rwa [hne]
    · exact absurd (List.mem_filter.mpr ⟨hp, by simpa using hne⟩) hnot

/-- Queues and job entries change independently of each other. -/
theorem purge_markAborted (brd : Board) (j : ℕ) : (brd.purge j).markAborted j = (brd.markAborted j).purge j := by
  unfold Board.purge
  rw [show (brd.markAborted j).sessionCount = brd.sessionCount from rfl,
    show (brd.markAborted j).sessions = brd.sessions from rfl]
  cases (List.range brd.sessionCount).find? fun r =>
    (brd.sessions r).listed && (brd.sessions r).pendingTasks.any fun p => p.jobId == j
  · rfl
  · rfl

theorem cancelParked (h : Served R brd) (j : ℕ) : Served R ((brd.purge j).markAborted j) := by
  rw [purge_markAborted]
  exact (h.markAborted j).purge (status_markAborted (.inl rfl))

theorem markAborted_fold (ps : List PendingSessionTask) :
    ∀ {brd : Board}, Served R brd →
      Served R (ps.foldl (fun brd p => brd.markAborted p.jobId) brd) ∧
        (ps.foldl (fun brd p => brd.markAborted p.jobId) brd).sessions = brd.sessions ∧
        ∀ k, (k ∈ ps.map (·.jobId) ∨ brd.status k ≠ some .queued) →
          (ps.foldl (fun brd p => brd.markAborted p.jobId) brd).status k ≠ some .queued := by
  induction ps with
  | nil => exact fun h => ⟨h, rfl, fun k hk => hk.resolve_left (by simp)⟩
  | cons p ps ih =>
    intro brd h
    obtain ⟨h1, h2, h3⟩ := ih (h.markAborted p.jobId)
    refine ⟨h1, h2, fun k hk => h3 k ?_⟩
    rw [List.map_cons, List.mem_cons, or_assoc] at hk
    rcases hk with hk | hk | hk
    · exact .inr (status_markAborted (.inl hk))
    · exact .inl hk
    · exact .inr (status_markAborted (.inr hk))

theorem abortPending (h : Served R brd) (r : ℕ) : Served R (brd.abortPending r) := by
  obtain ⟨h1, h2, h3⟩ := markAborted_fold (brd.sessions r).pendingTasks h
  refine h1.setPending (List.nil_sublist _) fun p hp _ => h3 p.jobId (.inl ?_)
  rw [h2] at hp
  exact List.mem_map_of_mem hp

/-! ### Submitting and dispatching -/

/-- A job that is busy is live. -/
theorem hasLive_of_busy (h : Served R brd) (hs : Sound brd) (hb : brd.busy r = true) : brd.HasLive r := by
  obtain ⟨j, hc, hst⟩ := (Option.any_eq_true ..).mp hb
  obtain ⟨e, he, hr, t, ht, hm⟩ := hs.current r j hc
  have hactive : e.status.isTerminal = false := by
    have hstatus : brd.status j = some e.status := by rw [Board.status, he, Option.map_some]
    rw [hstatus, Bool.or_eq_true, beq_iff_eq, beq_iff_eq, Option.some.injEq, Option.some.injEq] at hst
    rcases hst with hst | hst <;> rw [hst] <;> rfl
  refine ⟨j, t.pc, ⟨e, t, he, hr, ht, rfl⟩, ?_⟩
  rcases hm with hm | hm
  · cases hpc : t.pc <;> rw [hpc] at hm <;> first | rfl | cases hm
  · have hterm := h.ended j e t he ht hm.1
    rw [hactive] at hterm
    cases hterm

theorem tick (h : Served R brd) : Served R brd.tick := ⟨h.ended, h.parked, h.served⟩

theorem createSession (h : Served R brd) (hs : Sound brd) (sid taskId : String) :
    Served R (brd.createSession sid taskId) := by
  have hsessions : ∀ r, r ≠ brd.sessionCount → (brd.createSession sid taskId).sessions r = brd.sessions r :=
    fun r hr => Function.update_of_ne hr _ _
  refine ⟨h.ended, fun k e hk hst => ?_, fun r hr hne => ?_⟩
  · obtain ⟨r, hr, p, hp, hid⟩ := h.parked k e hk hst
    refine ⟨r, hr, p, ?_, hid⟩
    rwa [hsessions r (Nat.ne_of_lt (hs.home k e r hk hr))]
  · by_cases hr' : r = brd.sessionCount
    · subst hr'
      refine absurd ?_ hne
      simp [Board.createSession]
    · rw [hsessions r hr'] at hne
      exact h.served r hr hne

theorem addJob (h : Served R brd) (hs : Sound brd) (taskId : String) :
    Served R (brd.tick.addJob (brd.counter + 1) taskId) := by
  refine h.tick.setJob (fun e t he => ?_) (by simp) fun t ht => by cases ht; simp
  rw [show brd.tick.jobs = brd.jobs from rfl, hs.jobs_succ] at he
  cases he

theorem accept (h : Served R brd) (hs : Sound brd) {p : PendingSessionTask} (hp : p.jobId = brd.counter + 1) :
    Served R (brd.tick.dispatch r p) := by
  have hnone : brd.tick.jobs p.jobId = none := hp ▸ hs.jobs_succ
  rw [Board.dispatch, Board.updateSession_setJob]
  refine Served.updateSession (h.tick.setJob (fun e t he => ?_) ?_ fun t ht => ?_) rfl
  · rw [hnone] at he
    cases he
  · rw [Board.dispatchEntry, hnone]
    exact JobStatus.noConfusion
  · rw [Board.dispatchEntry, hnone] at ht
    cases ht
    exact Pc.noConfusion

theorem enqueue (h : Served R brd) (hs : Sound brd) {p : PendingSessionTask} (hp : p.jobId = brd.counter + 1)
    (hb : brd.busy r = true) : Served R (brd.tick.enqueue r p) := by
  have hnone : brd.jobs p.jobId = none := hp ▸ hs.jobs_succ
  have hother : ∀ {k e}, brd.jobs k = some e → (brd.tick.enqueue r p).jobs k = some e := by
    intro k e hk
    refine Board.jobs_setJob.mpr (.inr ⟨?_, hk⟩)
    rintro rfl
    rw [hnone] at hk
    cases hk
  have hlive : ∀ {r'}, brd.HasLive r' → (brd.tick.enqueue r p).HasLive r' := by
    rintro r' ⟨k, pc, ⟨e, t, he, hrest⟩, hl⟩
    exact ⟨k, pc, ⟨e, t, hother he, hrest⟩, hl⟩
  have hqueue : ∀ r', ((brd.tick.enqueue r p).sessions r').pendingTasks =
      if r' = r then (brd.sessions r).pendingTasks ++ [p] else (brd.sessions r').pendingTasks := by
    intro r'
    by_cases hr : r' = r
    · subst hr
      rw [if_pos rfl, Board.enqueue, Board.sessions_setJob, Board.sessions_updateSession_self]
      rfl
    · rw [if_neg hr, Board.enqueue, Board.sessions_setJob, Board.sessions_updateSession_ne hr]
      rfl
  refine ⟨fun k e t hk ht hfin => ?_, fun k e hk hst => ?_, fun r' hr hne => ?_⟩
  · rcases Board.jobs_setJob.mp hk with ⟨rfl, rfl⟩ | ⟨-, hk⟩
    · cases ht
    · exact h.ended k e t hk ht hfin
  · rcases Board.jobs_setJob.mp hk with ⟨rfl, rfl⟩ | ⟨-, hk⟩
    · exact ⟨r, rfl, p, by simp [hqueue], rfl⟩
    · obtain ⟨r', hs', q, hq, hid⟩ := h.parked k e hk hst
      refine ⟨r', hs', q, ?_, hid⟩
      rw [hqueue]
      split
      · next hr =>
        subst hr
        exact List.mem_append_left _ hq
      · exact hq
  · by_cases hr' : r' = r
    · subst hr'
      exact hlive (h.hasLive_of_busy hs hb)
    · rw [hqueue, if_neg hr'] at hne
      exact hlive (h.served r' hr hne)

/-- **A drain serves the queue again**: it is empty, or the job dispatched is
live. -/
theorem drains {ok : Quirk → Prop} (h : Served (· ≠ r) brd) (hs : Sound brd) {after : Board} {next : Option ℕ}
    (hd : Drains ok brd r after next) (hok : ¬ok .trimFailure) : Served (fun _ => True) after := by
  have hsplit : ∀ p ∈ (brd.sessions r).pendingTasks, p ∉ brd.waiting r → brd.status p.jobId = some .aborted := by
    intro p hp hnot
    rw [← List.takeWhile_append_dropWhile (p := fun p => brd.status p.jobId == some .aborted)
      (l := (brd.sessions r).pendingTasks)] at hp
    rcases List.mem_append.mp hp with hp | hp
    · simpa using List.mem_takeWhile_imp hp
    · exact absurd hp hnot
  cases hd with
  | nothing hw =>
    have hpop : Served (· ≠ r) (brd.setPending r []) := by
      refine h.setPending (List.nil_sublist _) fun p hp _ => ?_
      rw [hsplit p hp (by simp [hw])]
      simp
    refine ⟨hpop.ended, hpop.parked, fun r' _ hne => hpop.served r' ?_ hne⟩
    rintro rfl
    rw [Board.setPending, Board.sessions_updateSession_self] at hne
    exact hne rfl
  | lost _ ht => exact absurd ht hok
  | dispatched hw =>
    next p rest =>
    obtain ⟨-, e₀, he₀, hhome, htask, -⟩ := hs.waiting_cons hw
    have hentry : (brd.setPending r rest).dispatchEntry r p =
        { e₀ with status := .submitted, task := some { pc := .created } } := by
      rw [Board.dispatchEntry, show (brd.setPending r rest).jobs p.jobId = some e₀ from he₀]
    have hqueue : ∀ r', (((brd.setPending r rest).dispatch r p).sessions r').pendingTasks =
        if r' = r then rest else (brd.sessions r').pendingTasks := by
      intro r'
      rw [Board.dispatch, Board.sessions_setJob]
      by_cases hr : r' = r
      · subst hr
        rw [if_pos rfl, Board.sessions_updateSession_self, Board.setPending, Board.sessions_updateSession_self]
      · rw [if_neg hr, Board.sessions_updateSession_ne hr, Board.setPending, Board.sessions_updateSession_ne hr]
    refine ⟨fun k e t hk ht hfin => ?_, fun k e hk hst => ?_, fun r' _ hne => ?_⟩
    · rcases Board.jobs_setJob.mp hk with ⟨rfl, rfl⟩ | ⟨-, hk⟩
      · rw [hentry] at ht
        cases ht
        cases hfin
      · exact h.ended k e t hk ht hfin
    · rcases Board.jobs_setJob.mp hk with ⟨rfl, rfl⟩ | ⟨hne, hk⟩
      · rw [hentry] at hst
        cases hst
      · obtain ⟨r', hs', q, hq, hid⟩ := h.parked k e hk hst
        refine ⟨r', hs', q, ?_, hid⟩
        rw [hqueue]
        split
        · next hr =>
          subst hr
          by_cases hmem : q ∈ brd.waiting r'
          · rw [hw, List.mem_cons] at hmem
            exact hmem.resolve_left fun heq => hne (by rw [← hid, heq])
          · have hab := hsplit q hq hmem
            rw [hid, Board.status, show brd.jobs k = some e from hk, Option.map_some, hst] at hab
            cases hab
        · exact hq
    · by_cases hr : r' = r
      · subst hr
        refine ⟨p.jobId, .created, ⟨_, { pc := .created }, Board.jobs_setJob.mpr (.inl ⟨rfl, hentry⟩), hhome, rfl,
          rfl⟩, rfl⟩
      · rw [hqueue, if_neg hr] at hne
        obtain ⟨k, pc, ⟨e, t, he, hrest⟩, hl⟩ := h.served r' hr hne
        refine ⟨k, pc, ⟨e, t, Board.jobs_setJob.mpr (.inr ⟨?_, he⟩), hrest⟩, hl⟩
        rintro rfl
        cases he₀.symm.trans he
        rw [htask] at hrest
        cases hrest.2.1

end Served

theorem Finishes.served {brd left : Board} {j r : ℕ} (hf : Finishes brd j r left) (hs : Sound brd)
    (h : Served (fun _ => True) brd) : Served (· ≠ r) left := by
  have hpc : ∀ {b : Board} {pc₀}, Served (fun _ => True) b → b.At j r pc₀ →
      (∀ e, b.jobs j = some e → e.status.isTerminal = true) → Served (· ≠ r) (b.setPc j .finished) := by
    rintro b pc₀ hb ⟨e₀, t₀, he₀, hr₀, -⟩ hterm
    refine (hb.weaken fun _ _ => trivial).setPc (fun e r' he hr' hne t _ _ => ?_) fun _ => hterm
    cases he₀.symm.trans he
    rw [hr₀, Option.some.injEq] at hr'
    exact absurd hr'.symm hne
  have hterm : ∀ {pc}, brd.At j r pc → (∀ st : JobStatus, pc.allows st = true → st.isTerminal = true) →
      ∀ e, brd.jobs j = some e → e.status.isTerminal = true := by
    rintro pc ⟨e₀, t, he₀, -, ht, rfl⟩ hall e he
    cases he₀.symm.trans he
    exact hall _ (hs.allows he ht)
  cases hf with
  | untrimmed hat _ => exact hpc (h.clearCurrent r j) hat (hterm hat fun _ => id)
  | trimmed hat _ => exact (hpc (h.clearCurrent r j) hat (hterm hat fun _ => id)).setHistory r _
  | offloaded hat => exact (hpc h hat (hterm hat fun _ => id)).setHistory r _
  | kept hat => exact hpc h hat (hterm hat fun _ => id)

/-- A move that neither abandons a job nor loses a queued task keeps queues
served. -/
theorem Move.served {ok : Quirk → Prop} {brd brd' : Board} (hm : Move ok brd brd') (hearly : ¬ok .earlyCancel)
    (hlost : ¬ok .lostOffload) (htrim : ¬ok .trimFailure) (hs : Sound brd) (h : Served (fun _ => True) brd) :
    Served (fun _ => True) brd' := by
  cases hm with
  | requestCancel j =>
    refine h.updateJob fun e he => ⟨rfl, id, fun t _ _ _ ht hl => ?_, fun t ht hfin => ?_⟩
    · exact ⟨{ t with cancelRequested := true }, by simp [ht], hl⟩
    obtain ⟨t', ht', rfl⟩ := Option.map_eq_some_iff.mp ht
    exact h.ended j e t' he ht' hfin
  | createSession sid taskId => exact h.createSession hs sid taskId
  | tick => exact h.tick
  | addJob taskId => exact h.addJob hs taskId
  | enqueue hr hp hb => exact h.enqueue hs hp hb
  | accept hr hp _ _ => exact h.accept hs hp
  | slot _ => exact h.setPc_live rfl
  | beginRun hpc =>
    refine h.updateJob fun e he => ⟨rfl, (fun hst => by cases hst), fun _ _ _ _ _ _ => ⟨_, rfl, rfl⟩,
      fun t ht hfin => ?_⟩
    cases ht
    cases hfin
  | abandon _ hok => exact absurd hok hearly
  | conclude hpc he hsess _ =>
    next res _ =>
    have hterm := Sound.isTerminal_status res
    refine h.updateJob fun e' he' => ⟨rfl, fun hst => ?_, fun t r hr => ?_, fun _ _ _ => hterm⟩
    · rw [show res.status = .queued from hst] at hterm
      cases hterm
    · cases he.symm.trans he'
      rw [hsess] at hr
      cases hr
  | extend _ _ => exact h.updateSession rfl
  | absorb _ _ => exact (h.setHistory _ _).setPc_live rfl
  | publish _ _ _ => exact h.publish _
  | publishAborted _ _ _ _ => exact (h.closeAborted _).publish _
  | markSent hpc =>
    refine h.updateJob fun e he => ⟨rfl, id, fun t _ _ _ ht _ => ?_, fun t ht hfin => ?_⟩
    · exact ⟨{ t with pc := .publishing true }, by simp [ht], rfl⟩
    · obtain ⟨t', -, rfl⟩ := Option.map_eq_some_iff.mp ht
      cases hfin
  | offload _ _ => exact (h.clearCurrent _ _).setPc_live rfl
  | finish hf hd =>
    next j r left after next =>
    obtain ⟨hleft, -, e, he, ht, hst⟩ := hf.sound hs
    have hafter := (hf.served hs h).drains hleft hd htrim
    obtain ⟨he', -, -⟩ := hd.frame hleft he ht
    cases next with
    | none => exact hafter
    | some n =>
      refine hafter.setPc (fun e₁ _ he₁ _ _ t ht' hl => ?_) fun hfin => by cases hfin
      cases he'.symm.trans he₁
      cases ht.symm.trans ht'
      cases hl
  | lostOffload _ hok => exact absurd hok hlost
  | settle hpc hpc' =>
    next j _ _ =>
    have hlate : ∃ pc₀, brd.pc j = some pc₀ ∧ pc₀.isLive = false ∧
        ∀ st : JobStatus, pc₀.allows st = true → st.isTerminal = true := by
      rcases hpc with hpc | hpc
      · exact ⟨_, hpc, rfl, fun _ => id⟩
      · exact ⟨_, hpc, rfl, fun _ => id⟩
    obtain ⟨pc₀, hpc, hdead, hterm⟩ := hlate
    obtain ⟨e, t, he, ht, rfl⟩ := Board.pc_eq_some.mp hpc
    refine h.setPc (fun e' _ he' _ _ t' ht' hl => ?_) fun _ e' he' => ?_
    · cases he.symm.trans he'
      cases ht.symm.trans ht'
      rw [hdead] at hl
      cases hl
    · cases he.symm.trans he'
      exact hterm _ (hs.allows he ht)
  | markAborted _ => exact h.markAborted _
  | cancelParked _ => exact h.cancelParked _
  | undo _ => exact h.undo _ _
  | confirm _ _ _ => exact h.confirm
  | reconcile _ _ _ => exact h.reconcile _
  | lateDrain hd _ => exact (h.weaken fun _ _ => trivial).drains hs hd htrim
  | dropResults _ => exact h.updateSession rfl
  | abortPending r => exact h.abortPending r
  | unlist r => exact h.updateSession rfl

/-! ### Whole runs -/

/-- Circumstances in which a queued task can be lost or stranded. -/
def strandingQuirks : List Quirk := [.earlyCancel, .lostOffload, .trimFailure, .givesUp]

theorem served_fresh (historyDir comm : Bool) (guard : Option SpawnGuard) (store : List ResultMessage) :
    Served (fun _ => True) (System.fresh historyDir comm guard store).bus.toBoard :=
  ⟨(fun _ _ _ he => by cases he), (fun _ _ he => by cases he), fun _ _ hne => absurd rfl hne⟩

theorem step_served {s s' : System} {ev : Bus.Event} (hs : s.step ev = some s')
    (hav : Avoids strandingQuirks s ev) (h : Sound s.bus.toBoard ∧ Served (fun _ => True) s.bus.toBoard) :
    Sound s'.bus.toBoard ∧ Served (fun _ => True) s'.bus.toBoard := by
  have hno : ∀ q ∈ strandingQuirks, ¬s.hits ev q = true := fun q hq => by simp [hav q hq]
  refine (step_moves hs).invariant (P := fun brd => Sound brd ∧ Served (fun _ => True) brd) ?_ h
  rintro brd brd' ⟨h1, h2⟩ hm
  exact ⟨hm.sound (hno _ (by decide)) h1,
    hm.served (hno _ (by decide)) (hno _ (by decide)) (hno _ (by decide)) h1 h2⟩

/-- The asyncio task of a job of the session has been created and is not done. -/
def Board.Running (brd : Board) (r j : ℕ) : Prop :=
  ∃ e t, brd.jobs j = some e ∧ e.session = some r ∧ e.task = some t ∧ t.pc ≠ .finished

/-- **Queued tasks are conserved.** In every run in which no job's task is
cancelled before it runs or while it offloads, and no trimmer raises in a
drain, a job whose status is `queued` is in exactly one queue and there once,
and a session none of whose tasks runs has nothing queued. -/
theorem queue_conserved {historyDir comm : Bool} {guard : Option SpawnGuard} {store : List ResultMessage}
    {es : List Bus.Event} {s : System}
    (h : Trace System.step (fun _ => Avoids strandingQuirks) (System.fresh historyDir comm guard store) es s) :
    (∀ j, s.bus.status j = some .queued →
      ∃ r, ((s.bus.sessions r).pendingTasks.map (·.jobId)).count j = 1 ∧
        ∀ r', r' ≠ r → j ∉ (s.bus.sessions r').pendingTasks.map (·.jobId)) ∧
    ∀ r, (∀ j, ¬s.bus.Running r j) → (s.bus.sessions r).pendingTasks = [] := by
  have hinv : Sound s.bus.toBoard ∧ Served (fun _ => True) s.bus.toBoard := by
    refine Trace.invariant (I := fun _ s => Sound s.bus.toBoard ∧ Served (fun _ => True) s.bus.toBoard) ?_ ?_ h
    · exact ⟨sound_fresh .., served_fresh ..⟩
    · exact fun _ s ev s' hI hav hs => step_served hs hav hI
  obtain ⟨hsound, hserved⟩ := hinv
  refine ⟨fun j hst => ?_, fun r hquiet => ?_⟩
  · obtain ⟨e, he, hst⟩ := Option.map_eq_some_iff.mp hst
    obtain ⟨r, hr, p, hp, rfl⟩ := hserved.parked j e he hst
    refine ⟨r, List.count_eq_one_of_mem (hsound.nodup r) (List.mem_map_of_mem hp), fun r' hne hmem => ?_⟩
    obtain ⟨q, hq, hid⟩ := List.mem_map.mp hmem
    obtain ⟨e', he', hr', -⟩ := hsound.queue r' q hq
    rw [hid, he, Option.some.injEq] at he'
    subst he'
    rw [hr, Option.some.injEq] at hr'
    exact hne hr'.symm
  · by_contra hne
    obtain ⟨j, pc, ⟨e, t, he, hr, ht, rfl⟩, hlive⟩ := hserved.served r trivial hne
    refine hquiet j ⟨e, t, he, hr, ht, fun hfin => ?_⟩
    rw [hfin] at hlive
    cases hlive

/-- A second task is queued behind a first one, which ends and hands the
session on. -/
def queuedTask : List Bus.Event :=
  [.createSession "t" "a", .submitTaskToSession 0 "p" "" 0 false, .submitEnds 1, .start 1,
    .submitTaskToSession 0 "q" "" 0 false, .loopEnds 1 (.returned [] "x" ""),
    .adapterEnds 1 (.returned { success := true, jobId := some 1 })]

theorem queue_conserved_queuedTask :
    ∃ s, run System.step (System.fresh false false none []) queuedTask = some s ∧
      s.bus.status 2 = some .queued ∧
      ∃ r, ((s.bus.sessions r).pendingTasks.map (·.jobId)).count 2 = 1 ∧
        ∀ r', r' ≠ r → 2 ∉ (s.bus.sessions r').pendingTasks.map (·.jobId) := by
  refine ⟨_, rfl, rfl, ?_⟩
  have h : Trace System.step (fun _ => Avoids strandingQuirks) (System.fresh false false none []) queuedTask _ :=
    Trace.of_run (p := fun _ s ev => decide (Avoids strandingQuirks s ev))
      (fun _ _ _ h => of_decide_eq_true h) (by decide) rfl
  exact (queue_conserved h).1 2 rfl

/-- The trimmer raises when the first of three tasks hands its session on: the
second is queued but in no queue, and the third waits with nothing running. -/
theorem trim_failure_strands :
    ∃ s, run System.step (System.fresh false false none [])
        [.createSession "t" "a", .submitTaskToSession 0 "p" "" 0 false, .submitEnds 1, .start 1,
          .submitTaskToSession 0 "q" "" 0 false, .submitTaskToSession 0 "r" "" 0 false,
          .loopEnds 1 (.returned [] "x" ""), .adapterEnds 1 (.returned { success := true, jobId := some 1 }),
          .published 1 true] = some s ∧
      (s.bus.status 2 = some .queued ∧
        ∀ r < s.bus.sessionCount, 2 ∉ (s.bus.sessions r).pendingTasks.map (·.jobId)) ∧
      (s.bus.sessions 0).pendingTasks.map (·.jobId) = [3] ∧ s.bus.counter = 3 ∧
      s.bus.pc 1 = some .finished ∧ s.bus.pc 2 = none ∧ s.bus.pc 3 = none :=
  ⟨_, rfl, ⟨rfl, by decide⟩, rfl, rfl, rfl, rfl, rfl⟩

end AgentBus
end AgentCore
