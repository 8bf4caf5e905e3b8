/-
# Sessions run their tasks one at a time

While a job is before its `finally` it is the current one of its session, and
while it offloads the session has no current job and nobody else touches its
messages (`Serial`). So at most one job of a session is submitted or running,
boundaries are opened behind closed ones, and with queues served a task is
dispatched only when nothing is queued before it.

A submission breaks this when it comes between the result of a job and the
drain of its queue: the session is not busy, so the new task is dispatched, and
the drain dispatches another one beside it.

Key definitions: `Serial`, `Idle`.
Key theorems: `session_serial`, `session_boundaries`.
-/
import AgentCore.AgentBus.Queue

namespace AgentCore
namespace AgentBus

open Runs

/-- The boundary of the task is open. -/
def Pc.isOpen : Pc → Bool
  | .created | .slot | .loop => true
  | _ => false

theorem Pc.isEarly_of_isOpen {pc : Pc} (h : pc.isOpen = true) : pc.isEarly = true := by
  cases pc <;> first | rfl | cases h

namespace Board

def current (brd : Board) (r : ℕ) : Option ℕ := (brd.sessions r).currentJobId

def hist (brd : Board) (r : ℕ) : History × List TaskBoundary :=
  ((brd.sessions r).messages, (brd.sessions r).taskBoundaries)

end Board

structure Serial (brd : Board) : Prop where
  /-- The current job is before its `finally`, and conversely. -/
  early : ∀ r j, brd.current r = some j → ∃ pc, brd.At j r pc ∧ pc.isEarly = true
  current : ∀ j r pc, brd.At j r pc → pc.isEarly = true → brd.current r = some j
  /-- A job that offloads has the session for itself. -/
  vacant : ∀ j r ms bs, brd.At j r (.offloading ms bs) → brd.current r = none
  alone : ∀ j j' r ms bs ms' bs', brd.At j r (.offloading ms bs) → brd.At j' r (.offloading ms' bs') → j' = j
  kept : ∀ j r ms bs, brd.At j r (.offloading ms bs) →
    trimAndRemapBoundaries (brd.hist r).1 (brd.hist r).2 = some (ms, bs)
  bounded : ∀ r, Bounded (brd.hist r).1 (brd.hist r).2
  opened : ∀ r, ∀ b ∈ (brd.hist r).2, b.2 = none →
    ∃ j pc, brd.At j r pc ∧ pc.isOpen = true

/-- Nobody is at work in the session. -/
structure Idle (brd : Board) (r : ℕ) : Prop where
  current : brd.current r = none
  quiet : ∀ j pc, brd.At j r pc → pc.isLive = false

theorem Board.At.unique {brd : Board} {j r r' : ℕ} {pc pc' : Pc} (h : brd.At j r pc) (h' : brd.At j r' pc') :
    r' = r ∧ pc' = pc := by
  obtain ⟨e, t, he, hr, ht, rfl⟩ := h
  obtain ⟨e', t', he', hr', ht', rfl⟩ := h'
  cases he.symm.trans he'
  cases ht.symm.trans ht'
  rw [hr, Option.some.injEq] at hr'
  exact ⟨hr'.symm, rfl⟩

theorem Pc.isLive_of_isEarly {pc : Pc} (h : pc.isEarly = true) : pc.isLive = true := by
  cases pc <;> first | rfl | cases h

theorem Pc.isLive_cases {pc : Pc} (h : pc.isLive = true) :
    pc.isEarly = true ∨ ∃ ms bs, pc = .offloading ms bs := by
  cases pc <;> first | exact .inl rfl | exact .inr ⟨_, _, rfl⟩ | cases h

namespace Serial

variable {brd brd' : Board} {j r : ℕ}

/-- Two jobs of a session at work are the same job. -/
theorem live_unique (h : Serial brd) {j j' : ℕ} {pc pc' : Pc} (hj : brd.At j r pc) (hj' : brd.At j' r pc')
    (hl : pc.isLive = true) (hl' : pc'.isLive = true) : j' = j := by
  rcases Pc.isLive_cases hl with he | ⟨ms, bs, rfl⟩
  · have hc := h.current j r pc hj he
    rcases Pc.isLive_cases hl' with he' | ⟨ms', bs', rfl⟩
    · exact Option.some.inj ((h.current j' r pc' hj' he').symm.trans hc)
    · rw [h.vacant j' r ms' bs' hj'] at hc
      cases hc
  · rcases Pc.isLive_cases hl' with he' | ⟨ms', bs', rfl⟩
    · have hc := h.current j' r pc' hj' he'
      rw [h.vacant j r ms bs hj] at hc
      cases hc
    · exact h.alone j j' r ms bs ms' bs' hj hj'

/-- A job whose task is done is not current. -/
theorem not_finished (h : Serial brd) (hc : brd.current r = some j) : brd.pc j ≠ some .finished := by
  intro hpc
  obtain ⟨pc, hat, he⟩ := h.early r j hc
  rw [hat.pc_eq, Option.some.injEq] at hpc
  rw [hpc] at he
  cases he

/-- An idle session has no open boundary. -/
theorem closed_of_idle (h : Serial brd) (hi : Idle brd r) : ∀ b ∈ (brd.hist r).2, b.2 ≠ none := by
  intro b hb hnone
  obtain ⟨j, pc, hat, hopen⟩ := h.opened r b hb hnone
  have hc := h.current j r pc hat (Pc.isEarly_of_isOpen hopen)
  rw [hi.current] at hc
  cases hc

/-! ### Changes that leave the work of sessions alone -/

theorem of_same (h : Serial brd) (hat : ∀ k r pc, pc.isLive = true → (brd'.At k r pc ↔ brd.At k r pc))
    (hcur : ∀ r, brd'.current r = brd.current r) (hhist : ∀ r, brd'.hist r = brd.hist r) : Serial brd' where
  early r j hc := by
    obtain ⟨pc, hj, he⟩ := h.early r j (hcur r ▸ hc)
    exact ⟨pc, (hat j r pc (Pc.isLive_of_isEarly he)).mpr hj, he⟩
  current j r pc hj he := (hcur r).trans (h.current j r pc ((hat j r pc (Pc.isLive_of_isEarly he)).mp hj) he)
  vacant j r ms bs hj := (hcur r).trans (h.vacant j r ms bs ((hat j r _ rfl).mp hj))
  alone j j' r ms bs ms' bs' hj hj' := h.alone j j' r ms bs ms' bs' ((hat j r _ rfl).mp hj) ((hat j' r _ rfl).mp hj')
  kept j r ms bs hj := by
    rw [hhist]
    exact h.kept j r ms bs ((hat j r _ rfl).mp hj)
  bounded r := by
    rw [hhist]
    exact h.bounded r
  opened r b hb hnone := by
    rw [hhist] at hb
    obtain ⟨j, pc, hj, ho⟩ := h.opened r b hb hnone
    exact ⟨j, pc, (hat j r pc (Pc.isLive_of_isEarly (Pc.isEarly_of_isOpen ho))).mpr hj, ho⟩

theorem at_iff {k : ℕ} {pc : Pc} :
    brd.At k r pc ↔ ∃ e, brd.jobs k = some e ∧ e.session = some r ∧ e.task.map (·.pc) = some pc := by
  constructor
  · rintro ⟨e, t, he, hr, ht, rfl⟩
    exact ⟨e, he, hr, by rw [ht]; rfl⟩
  · rintro ⟨e, he, hr, ht⟩
    obtain ⟨t, ht, htp⟩ := Option.map_eq_some_iff.mp ht
    exact ⟨e, t, he, hr, ht, htp⟩

/-- A job's entry changes, its task staying where it is as far as its session
is concerned. -/
theorem updateJob (h : Serial brd) {f : JobEntry → JobEntry}
    (hf : ∀ e, brd.jobs j = some e → ∀ r pc, pc.isLive = true →
      ((f e).session = some r ∧ (f e).task.map (·.pc) = some pc ↔
        e.session = some r ∧ e.task.map (·.pc) = some pc)) : Serial (brd.updateJob j f) := by
  refine h.of_same (fun k r pc hl => ?_) (fun _ => rfl) fun _ => rfl
  rw [at_iff, at_iff]
  by_cases hk : k = j
  · subst hk
    constructor
    · rintro ⟨e, he, hrest⟩
      rcases Board.jobs_updateJob.mp he with ⟨-, e₀, h₀, rfl⟩ | ⟨hne, -⟩
      · exact ⟨e₀, h₀, (hf e₀ h₀ r pc hl).mp hrest⟩
      · exact absurd rfl hne
    · rintro ⟨e, he, hrest⟩
      exact ⟨f e, Board.jobs_updateJob_of he, (hf e he r pc hl).mpr hrest⟩
  · rw [Board.jobs_updateJob_ne hk]

/-- A session changes in something else than its work. -/
theorem updateSession (h : Serial brd) {g : SubAgentSession → SubAgentSession}
    (hg : ∀ s, (g s).currentJobId = s.currentJobId ∧ (g s).messages = s.messages ∧
      (g s).taskBoundaries = s.taskBoundaries) : Serial (brd.updateSession r g) := by
  have hall : ∀ r', ((brd.updateSession r g).sessions r').currentJobId = (brd.sessions r').currentJobId ∧
      ((brd.updateSession r g).sessions r').messages = (brd.sessions r').messages ∧
      ((brd.updateSession r g).sessions r').taskBoundaries = (brd.sessions r').taskBoundaries :=
    Board.forall_updateSession (P := fun r' s => s.currentJobId = (brd.sessions r').currentJobId ∧
      s.messages = (brd.sessions r').messages ∧ s.taskBoundaries = (brd.sessions r').taskBoundaries)
      (fun _ => ⟨rfl, rfl, rfl⟩) (hg _)
  exact h.of_same (fun _ _ _ _ => Iff.rfl) (fun r' => (hall r').1)
    fun r' => Prod.ext (hall r').2.1 (hall r').2.2

theorem markAborted (h : Serial brd) (j : ℕ) : Serial (brd.markAborted j) := by
  refine h.updateJob fun e _ r pc _ => ?_
  split <;> exact Iff.rfl

theorem purge (h : Serial brd) (j : ℕ) : Serial (brd.purge j) := by
  unfold Board.purge
  split
  · exact h
  · exact h.updateSession fun _ => ⟨rfl, rfl, rfl⟩

theorem markAborted_fold (ps : List PendingSessionTask) :
    ∀ {brd : Board}, Serial brd → Serial (ps.foldl (fun brd p => brd.markAborted p.jobId) brd) := by
  induction ps with
  | nil => exact id
  | cons p ps ih => exact fun h => ih (h.markAborted p.jobId)

/-! ### The job at work -/

/-- The job at work in a session moves on, and with it perhaps the session's
messages; an open boundary needs a job that has one. -/
theorem advance (h : Serial brd) {pc pc' : Pc} (hj : brd.At j r pc) (he : pc.isEarly = true)
    (he' : pc'.isEarly = true)
    (hat : ∀ k r' pc'', brd'.At k r' pc'' ↔ (k = j ∧ r' = r ∧ pc'' = pc') ∨ (k ≠ j ∧ brd.At k r' pc''))
    (hcur : ∀ r, brd'.current r = brd.current r) (hhist : ∀ r', r' ≠ r → brd'.hist r' = brd.hist r')
    (hb : Bounded (brd'.hist r).1 (brd'.hist r).2)
    (ho : ∀ b ∈ (brd'.hist r).2, b.2 = none → pc'.isOpen = true) : Serial brd' := by
  have hself : brd'.At j r pc' := (hat ..).mpr (.inl ⟨rfl, rfl, rfl⟩)
  have hc := h.current j r pc hj he
  -- a job that offloads is another session's, and has not moved
  have hoff : ∀ {k r' ms bs}, brd'.At k r' (.offloading ms bs) → r' ≠ r ∧ brd.At k r' (.offloading ms bs) := by
    intro k r' ms bs hk
    rcases (hat ..).mp hk with ⟨-, -, hpc⟩ | ⟨-, hk⟩
    · rw [← hpc] at he'
      cases he'
    · refine ⟨?_, hk⟩
      rintro rfl
      rw [h.vacant k r' ms bs hk] at hc
      cases hc
  refine
    { early := fun r' k hk => ?_
      current := fun k r' pc'' hk hek => ?_
      vacant := fun k r' ms bs hk => ?_
      alone := fun k k' r' ms bs ms' bs' hk hk' => ?_
      kept := fun k r' ms bs hk => ?_
      bounded := fun r' => ?_
      opened := fun r' b hmem hnone => ?_ }
  · rw [hcur] at hk
    obtain ⟨pc'', hk', hek⟩ := h.early r' k hk
    by_cases hkj : k = j
    · subst hkj
      obtain ⟨rfl, -⟩ := hj.unique hk'
      exact ⟨pc', hself, he'⟩
    · exact ⟨pc'', (hat ..).mpr (.inr ⟨hkj, hk'⟩), hek⟩
  · rw [hcur]
    rcases (hat ..).mp hk with ⟨rfl, rfl, rfl⟩ | ⟨-, hk⟩
    · exact hc
    · exact h.current k r' pc'' hk hek
  · rw [hcur]
    exact h.vacant k r' ms bs (hoff hk).2
  · exact h.alone k k' r' ms bs ms' bs' (hoff hk).2 (hoff hk').2
  · rw [hhist r' (hoff hk).1]
    exact h.kept k r' ms bs (hoff hk).2
  · by_cases hr : r' = r
    · subst hr
      exact hb
    · rw [hhist r' hr]
      exact h.bounded r'
  · by_cases hr : r' = r
    · subst hr
      exact ⟨j, pc', hself, ho b hmem hnone⟩
    · rw [hhist r' hr] at hmem
      obtain ⟨k, pc'', hk, hko⟩ := h.opened r' b hmem hnone
      refine ⟨k, pc'', (hat ..).mpr (.inr ⟨?_, hk⟩), hko⟩
      rintro rfl
      exact hr (hj.unique hk).1

/-- Only the job at work can have an open boundary. -/
theorem isOpen_of_opened (h : Serial brd) {pc : Pc} (hj : brd.At j r pc) (he : pc.isEarly = true)
    {b : TaskBoundary} (hb : b ∈ (brd.hist r).2) (hnone : b.2 = none) : pc.isOpen = true := by
  obtain ⟨k, pc', hk, hko⟩ := h.opened r b hb hnone
  have hc := h.current j r pc hj he
  rw [h.current k r pc' hk (Pc.isEarly_of_isOpen hko), Option.some.injEq] at hc
  subst hc
  obtain ⟨-, rfl⟩ := hj.unique hk
  exact hko

/-- Where tasks stand when one of them has moved. -/
theorem at_moved {b : Board} {pc' : Pc} (hb : ∀ k, k ≠ j → b.jobs k = brd.jobs k)
    (hself : ∃ e t, b.jobs j = some e ∧ e.session = some r ∧ e.task = some t ∧ t.pc = pc') (k r' : ℕ) (pc'' : Pc) :
    b.At k r' pc'' ↔ (k = j ∧ r' = r ∧ pc'' = pc') ∨ (k ≠ j ∧ brd.At k r' pc'') := by
  have hself : b.At j r pc' := hself
  constructor
  · intro hk
    by_cases hkj : k = j
    · subst hkj
      obtain ⟨rfl, rfl⟩ := hself.unique hk
      exact .inl ⟨rfl, rfl, rfl⟩
    · obtain ⟨e, t, he, hrest⟩ := hk
      exact .inr ⟨hkj, e, t, by rwa [← hb k hkj], hrest⟩
  · rintro (⟨rfl, rfl, rfl⟩ | ⟨hkj, e, t, he, hrest⟩)
    · exact hself
    · exact ⟨e, t, by rwa [hb k hkj], hrest⟩

/-- The job at work leaves its session, or goes on to offload what was dropped of
its messages. -/
theorem depart (h : Serial brd) {pc pc' : Pc} (hj : brd.At j r pc) (hlive : pc.isLive = true)
    (he' : pc'.isEarly = false)
    (hat : ∀ k r' pc'', brd'.At k r' pc'' ↔ (k = j ∧ r' = r ∧ pc'' = pc') ∨ (k ≠ j ∧ brd.At k r' pc''))
    (hcur : ∀ r', brd'.current r' = if r' = r then none else brd.current r')
    (hhist : ∀ r', r' ≠ r → brd'.hist r' = brd.hist r')
    (hb : Bounded (brd'.hist r).1 (brd'.hist r).2) (hclosed : ∀ b ∈ (brd'.hist r).2, b.2 ≠ none)
    (hkept : ∀ ms bs, pc' = .offloading ms bs →
      trimAndRemapBoundaries (brd'.hist r).1 (brd'.hist r).2 = some (ms, bs)) : Serial brd' := by
  -- nobody else is at work in the session
  have hothers : ∀ {k pc''}, k ≠ j → brd.At k r pc'' → pc''.isLive = false := by
    intro k pc'' hkj hk
    rw [← Bool.not_eq_true]
    exact fun hl => hkj (h.live_unique hj hk hlive hl)
  refine
    { early := fun r' k hk => ?_
      current := fun k r' pc'' hk hek => ?_
      vacant := fun k r' ms bs hk => ?_
      alone := fun k k' r' ms bs ms' bs' hk hk' => ?_
      kept := fun k r' ms bs hk => ?_
      bounded := fun r' => ?_
      opened := fun r' b hmem hnone => ?_ }
  · rw [hcur] at hk
    split at hk
    · cases hk
    · next hr =>
      obtain ⟨pc'', hk', hek⟩ := h.early r' k hk
      refine ⟨pc'', (hat ..).mpr (.inr ⟨?_, hk'⟩), hek⟩
      rintro rfl
      exact hr (hj.unique hk').1
  · rcases (hat ..).mp hk with ⟨-, -, rfl⟩ | ⟨hkj, hk⟩
    · rw [he'] at hek
      cases hek
    · rw [hcur]
      split
      · next hr =>
        subst hr
        have hdead := hothers hkj hk
        rw [Pc.isLive_of_isEarly hek] at hdead
        cases hdead
      · exact h.current k r' pc'' hk hek
  · rw [hcur]
    split
    · rfl
    · next hr =>
      rcases (hat ..).mp hk with ⟨-, rfl, -⟩ | ⟨-, hk⟩
      · exact absurd rfl hr
      · exact h.vacant k r' ms bs hk
  · rcases (hat ..).mp hk with ⟨rfl, rfl, -⟩ | ⟨hkj, hk⟩
    · rcases (hat ..).mp hk' with ⟨rfl, -, -⟩ | ⟨hkj', hk'⟩
      · rfl
      · cases hothers hkj' hk'
    · rcases (hat ..).mp hk' with ⟨rfl, rfl, -⟩ | ⟨-, hk'⟩
      · cases hothers hkj hk
      · exact h.alone k k' r' ms bs ms' bs' hk hk'
  · rcases (hat ..).mp hk with ⟨rfl, rfl, hpc⟩ | ⟨hkj, hk⟩
    · exact hkept ms bs hpc.symm
    · by_cases hr : r' = r
      · subst hr
        cases hothers hkj hk
      · rw [hhist r' hr]
        exact h.kept k r' ms bs hk
  · by_cases hr : r' = r
    · subst hr
      exact hb
    · rw [hhist r' hr]
      exact h.bounded r'
  · by_cases hr : r' = r
    · subst hr
      exact absurd hnone (hclosed b hmem)
    · rw [hhist r' hr] at hmem
      obtain ⟨k, pc'', hk, hko⟩ := h.opened r' b hmem hnone
      refine ⟨k, pc'', (hat ..).mpr (.inr ⟨?_, hk⟩), hko⟩
      rintro rfl
      exact hr (hj.unique hk).1

/-- An idle session takes up a task. -/
theorem take (h : Serial brd) (hi : Idle brd r) (prompt : Message)
    (hat : ∀ k r' pc, brd'.At k r' pc ↔ (k = j ∧ r' = r ∧ pc = .created) ∨ (k ≠ j ∧ brd.At k r' pc))
    (hnew : ∀ r' pc, ¬brd.At j r' pc)
    (hcur : ∀ r', brd'.current r' = if r' = r then some j else brd.current r')
    (hhist : ∀ r', brd'.hist r' = if r' = r
      then ((brd.hist r).1 ++ [prompt], (brd.hist r).2 ++ [((brd.hist r).1.length, none)]) else brd.hist r') :
    Serial brd' := by
  have hself : brd'.At j r .created := (hat ..).mpr (.inl ⟨rfl, rfl, rfl⟩)
  have hold : ∀ {k r' pc}, brd.At k r' pc → brd'.At k r' pc := by
    intro k r' pc hk
    refine (hat ..).mpr (.inr ⟨?_, hk⟩)
    rintro rfl
    exact hnew r' pc hk
  have hoff : ∀ {k r' ms bs}, brd'.At k r' (.offloading ms bs) → r' ≠ r ∧ brd.At k r' (.offloading ms bs) := by
    intro k r' ms bs hk
    rcases (hat ..).mp hk with ⟨-, -, hpc⟩ | ⟨-, hk⟩
    · cases hpc
    · refine ⟨?_, hk⟩
      rintro rfl
      cases hi.quiet k _ hk
  refine
    { early := fun r' k hk => ?_
      current := fun k r' pc hk hek => ?_
      vacant := fun k r' ms bs hk => ?_
      alone := fun k k' r' ms bs ms' bs' hk hk' => ?_
      kept := fun k r' ms bs hk => ?_
      bounded := fun r' => ?_
      opened := fun r' b hmem hnone => ?_ }
  · rw [hcur] at hk
    split at hk
    · next hr =>
      subst hr
      cases hk
      exact ⟨_, hself, rfl⟩
    · obtain ⟨pc, hk', hek⟩ := h.early r' k hk
      exact ⟨pc, hold hk', hek⟩
  · rw [hcur]
    rcases (hat ..).mp hk with ⟨rfl, rfl, -⟩ | ⟨-, hk⟩
    · rw [if_pos rfl]
    · have hc := h.current k r' pc hk hek
      split
      · next hr =>
        subst hr
        rw [hi.current] at hc
        cases hc
      · exact hc
  · rw [hcur, if_neg (hoff hk).1]
    exact h.vacant k r' ms bs (hoff hk).2
  · exact h.alone k k' r' ms bs ms' bs' (hoff hk).2 (hoff hk').2
  · rw [hhist, if_neg (hoff hk).1]
    exact h.kept k r' ms bs (hoff hk).2
  · rw [hhist]
    split
    · exact (h.bounded r).open (h.closed_of_idle hi) prompt
    · exact h.bounded r'
  · by_cases hr : r' = r
    · subst hr
      exact ⟨j, _, hself, rfl⟩
    · rw [hhist, if_neg hr] at hmem
      obtain ⟨k, pc, hk, hko⟩ := h.opened r' b hmem hnone
      exact ⟨k, pc, hold hk, hko⟩

/-! ### Sessions after an update -/

theorem current_setJob {e : JobEntry} : (brd.setJob j e).current = brd.current := rfl

theorem hist_setJob {e : JobEntry} : (brd.setJob j e).hist = brd.hist := rfl

theorem current_updateSession {g : SubAgentSession → SubAgentSession} (r' : ℕ) :
    (brd.updateSession r g).current r' = if r' = r then (g (brd.sessions r)).currentJobId else brd.current r' := by
  unfold Board.current
  by_cases hr : r' = r
  · subst hr
    rw [if_pos rfl, Board.sessions_updateSession_self]
  · rw [if_neg hr, Board.sessions_updateSession_ne hr]

theorem hist_updateSession {g : SubAgentSession → SubAgentSession} (r' : ℕ) :
    (brd.updateSession r g).hist r' =
      if r' = r then ((g (brd.sessions r)).messages, (g (brd.sessions r)).taskBoundaries) else brd.hist r' := by
  unfold Board.hist
  by_cases hr : r' = r
  · subst hr
    rw [if_pos rfl, Board.sessions_updateSession_self]
  · rw [if_neg hr, Board.sessions_updateSession_ne hr]

theorem current_setHistory (hist : History × List TaskBoundary) (r' : ℕ) :
    (brd.setHistory r hist).current r' = brd.current r' := by
  rw [Board.setHistory, current_updateSession]
  split
  · next hr =>
    subst hr
    rfl
  · rfl

theorem hist_setHistory (hist : History × List TaskBoundary) (r' : ℕ) :
    (brd.setHistory r hist).hist r' = if r' = r then hist else brd.hist r' := by
  rw [Board.setHistory, hist_updateSession]

theorem current_clearCurrent (hc : brd.current r = some j ∨ brd.current r = none) (r' : ℕ) :
    (brd.clearCurrent r j).current r' = if r' = r then none else brd.current r' := by
  rw [Board.clearCurrent, current_updateSession]
  split
  · unfold Board.current at hc
    rcases hc with hc | hc
    · rw [if_pos hc]
    · rw [if_neg (by rw [hc]; simp), hc]
  · rfl

theorem hist_clearCurrent (r' : ℕ) : (brd.clearCurrent r j).hist r' = brd.hist r' := by
  rw [Board.clearCurrent, hist_updateSession]
  split
  · next hr =>
    subst hr
    rfl
  · rfl

/-! ### Submitting and draining -/

/-- A submission that is dispatched at once finds its session idle. -/
theorem idle_of_not_busy (h : Serial brd) (hs : Sound brd) (hb : brd.busy r = false)
    (hleft : brd.beingLeft r = false) : Idle brd r := by
  have hnot : ∀ {k pc}, brd.At k r pc → pc.isLeaving = false := by
    rintro k pc ⟨e, t, he, hr, ht, rfl⟩
    rw [← Bool.not_eq_true]
    intro hl
    rw [Board.beingLeft, List.any_eq_false] at hleft
    refine hleft k (List.mem_range.mpr (Nat.lt_succ_of_le (hs.fresh k e he))) ?_
    simp [he, hr, ht, hl]
  have hcur : brd.current r = none := by
    cases hc : brd.current r with
    | none => rfl
    | some j =>
      obtain ⟨pc, hj, he⟩ := h.early r j hc
      have hl := hnot hj
      obtain ⟨e, t, hje, -, ht, rfl⟩ := hj
      have hallows := hs.allows hje ht
      have hactive : e.status = .submitted ∨ e.status = .running := by
        cases hpc : t.pc <;> rw [hpc] at he hl hallows <;> simp_all [Pc.isEarly, Pc.isLeaving, Pc.allows]
      have hbusy : brd.busy r = true := by
        rw [Board.busy, show (brd.sessions r).currentJobId = some j from hc, Option.any_some, Board.status, hje]
        rcases hactive with hst | hst <;> rw [Option.map_some, hst] <;> rfl
      rw [hb] at hbusy
      cases hbusy
  refine ⟨hcur, fun k pc hk => ?_⟩
  rw [← Bool.not_eq_true]
  intro hl
  rcases Pc.isLive_cases hl with he | ⟨ms, bs, rfl⟩
  · have hc := h.current k r pc hk he
    rw [hcur] at hc
    cases hc
  · cases hnot hk

theorem dispatch (h : Serial brd) (hi : Idle brd r) {p : PendingSessionTask}
    (hp : ∀ e, brd.jobs p.jobId = some e → e.session = some r ∧ e.task = none) : Serial (brd.dispatch r p) := by
  have hentry : (brd.dispatchEntry r p).session = some r ∧
      (brd.dispatchEntry r p).task = some { pc := .created } := by
    unfold Board.dispatchEntry
    split
    · next e he => exact ⟨(hp e he).1, rfl⟩
    · exact ⟨rfl, rfl⟩
  have hjobs : (brd.dispatch r p).jobs p.jobId = some (brd.dispatchEntry r p) :=
    Board.jobs_setJob.mpr (.inl ⟨rfl, rfl⟩)
  refine h.take (j := p.jobId) hi (userMsg p.taskPrompt) (at_moved (fun k hk => ?_) ?_) (fun r' pc hk => ?_)
    (fun r' => ?_) fun r' => ?_
  · exact Function.update_of_ne hk _ _
  · exact ⟨_, _, hjobs, hentry.1, hentry.2, rfl⟩
  · obtain ⟨e, t, he, -, ht, -⟩ := hk
    rw [(hp e he).2] at ht
    cases ht
  · rw [Board.dispatch, current_setJob, current_updateSession]
  · rw [Board.dispatch, hist_setJob, hist_updateSession]
    rfl

theorem setPending (h : Serial brd) (ps : List PendingSessionTask) : Serial (brd.setPending r ps) :=
  h.updateSession fun _ => ⟨rfl, rfl, rfl⟩

theorem idle_setPending (h : Idle brd r) (ps : List PendingSessionTask) : Idle (brd.setPending r ps) r := by
  refine ⟨?_, fun k pc hk => h.quiet k pc hk⟩
  rw [Board.setPending, current_updateSession, if_pos rfl]
  exact h.current

theorem drains {ok : Quirk → Prop} (h : Serial brd) (hs : Sound brd) (hi : Idle brd r) {after : Board}
    {next : Option ℕ} (hd : Drains ok brd r after next) : Serial after := by
  cases hd with
  | nothing _ => exact h.setPending []
  | lost _ _ => exact h.setPending _
  | dispatched hw =>
    next p rest =>
    obtain ⟨-, e, he, hr, ht, -⟩ := hs.waiting_cons hw
    refine (h.setPending rest).dispatch (idle_setPending hi rest) fun e' he' => ?_
    cases he.symm.trans he'
    exact ⟨hr, ht⟩

/-! ### The job of a session on its way -/

/-- A task moves on before its `finally`, its boundary staying open if it was. -/
theorem progress (h : Serial brd) {pc pc' : Pc} {f : JobEntry → JobEntry} (hpc : brd.pc j = some pc)
    (he : pc.isEarly = true) (he' : pc'.isEarly = true) (ho : pc.isOpen = true → pc'.isOpen = true)
    (hs : ∀ e, (f e).session = e.session) (ht : ∀ e t, e.task = some t → (f e).task.map (·.pc) = some pc') :
    Serial (brd.updateJob j f) := by
  obtain ⟨e, t, hje, hjt, rfl⟩ := Board.pc_eq_some.mp hpc
  obtain ⟨t', ht', htp⟩ := Option.map_eq_some_iff.mp (ht e t hjt)
  cases hsess : e.session with
  | none =>
    refine h.updateJob fun e' he' r pc _ => ?_
    cases hje.symm.trans he'
    rw [hs, hsess]
    simp
  | some r =>
    have hat : brd.At j r t.pc := ⟨e, t, hje, hsess, hjt, rfl⟩
    refine h.advance hat he he'
      (at_moved (fun k hk => Board.jobs_updateJob_ne hk)
        ⟨f e, t', Board.jobs_updateJob_of hje, (hs e).trans hsess, ht', htp⟩)
      (fun _ => rfl) (fun _ _ => rfl) (h.bounded r) fun b hb hnone => ?_
    exact ho (h.isOpen_of_opened hat he hb hnone)

/-- The loop's turns come behind the session's messages. -/
theorem extend (h : Serial brd) (hj : brd.At j r .loop) (new : History) : Serial (brd.extend r new) := by
  have hself := hj
  obtain ⟨e, t, he, hr, ht, htp⟩ := hj
  refine h.advance hself rfl (show Pc.loop.isEarly = true from rfl)
    (at_moved (fun _ _ => rfl) ⟨e, t, he, hr, ht, htp⟩) (fun r' => ?_) (fun r' hr' => ?_) ?_ fun _ _ _ => rfl
  · rw [Board.extend, current_updateSession]
    split
    · next hr =>
      subst hr
      rfl
    · rfl
  · rw [Board.extend, hist_updateSession, if_neg hr']
  · rw [Board.extend, hist_updateSession, if_pos rfl]
    exact (h.bounded r).append new

theorem absorb (h : Serial brd) (hj : brd.At j r .loop) {hist : History × List TaskBoundary}
    {finalText stoppedBy : String}
    (hc : closeBoundary (brd.sessions r).messages (brd.sessions r).taskBoundaries finalText stoppedBy = some hist) :
    Serial ((brd.setHistory r hist).setPc j .adapter) := by
  have hself := hj
  obtain ⟨e, t, he, hr, ht, htp⟩ := hj
  have hhist : ∀ r', ((brd.setHistory r hist).setPc j .adapter).hist r' = if r' = r then hist else brd.hist r' :=
    hist_setHistory hist
  refine h.advance hself rfl rfl
    (at_moved (fun k hk => Board.jobs_updateJob_ne hk) ⟨_, _, Board.jobs_updateJob_of he, hr, rfl, rfl⟩)
    (current_setHistory hist) (fun r' hr' => ?_) ?_ fun b hb hnone => ?_
  · rw [hhist, if_neg hr']
  · rw [hhist, if_pos rfl]
    exact (h.bounded r).closeBoundary hc
  · rw [hhist, if_pos rfl] at hb
    exact absurd hnone ((h.bounded r).closed_of_closeBoundary hc b hb)

/-- A session gets messages whose boundaries are all closed, and keeps its own where
they are being offloaded. -/
theorem replaceHistory (h : Serial brd) {hist : History × List TaskBoundary} (hb : Bounded hist.1 hist.2)
    (hclosed : ∀ b ∈ hist.2, b.2 ≠ none)
    (hkept : ∀ k ms bs, brd.At k r (.offloading ms bs) → hist = brd.hist r) : Serial (brd.setHistory r hist) := by
  have hhist : ∀ r', (brd.setHistory r hist).hist r' = if r' = r then hist else brd.hist r' := hist_setHistory hist
  have hcur : ∀ r', (brd.setHistory r hist).current r' = brd.current r' := current_setHistory hist
  refine
    { early := fun r' k hk => h.early r' k (hcur r' ▸ hk)
      current := fun k r' pc hk hek => (hcur r').trans (h.current k r' pc hk hek)
      vacant := fun k r' ms bs hk => (hcur r').trans (h.vacant k r' ms bs hk)
      alone := h.alone
      kept := fun k r' ms bs hk => ?_
      bounded := fun r' => ?_
      opened := fun r' b hmem hnone => ?_ }
  · rw [hhist]
    split
    · next hr =>
      subst hr
      rw [hkept k ms bs hk]
      exact h.kept k r' ms bs hk
    · exact h.kept k r' ms bs hk
  · rw [hhist]
    split
    · exact hb
    · exact h.bounded r'
  · rw [hhist] at hmem
    split at hmem
    · exact absurd hnone (hclosed b hmem)
    · exact h.opened r' b hmem hnone

/-- The session's last boundary is closed if it is open. -/
theorem closeAborted (h : Serial brd) (r : ℕ) : Serial (brd.closeAborted r) := by
  refine h.replaceHistory (h.bounded r).closeSessionBoundaryAborted
    (h.bounded r).closed_of_closeSessionBoundaryAborted fun k ms bs hk => ?_
  -- a session whose messages are being offloaded has no open boundary
  have hclosed : ∀ b ∈ (brd.hist r).2, b.2 ≠ none := by
    intro b hb hnone
    obtain ⟨k', pc, hk', ho⟩ := h.opened r b hb hnone
    have hc := h.current k' r pc hk' (Pc.isEarly_of_isOpen ho)
    rw [h.vacant k r ms bs hk] at hc
    cases hc
  exact closeSessionBoundaryAborted_of_closed hclosed

theorem publish (h : Serial brd) {pc : Pc} (hj : brd.At j r pc) (he : pc.isEarly = true)
    (hclosed : ∀ b ∈ (brd.hist r).2, b.2 ≠ none) (res : SubAgentResult) : Serial (brd.publish j r res) := by
  have hself := hj
  obtain ⟨e, t, hje, hr, ht, htp⟩ := hj
  have hjob : Serial (brd.updateJob j fun e =>
      { e with status := res.status, result := some res, task := some { pc := .publishing false } }) := by
    refine h.advance hself he rfl
      (at_moved (fun k hk => Board.jobs_updateJob_ne hk) ⟨_, _, Board.jobs_updateJob_of hje, hr, rfl, rfl⟩)
      (fun _ => rfl) (fun _ _ => rfl) (h.bounded r) fun b hb hnone => ?_
    exact absurd hnone (hclosed b hb)
  exact hjob.updateSession fun _ => ⟨rfl, rfl, rfl⟩

theorem closed_of_not_isOpen (h : Serial brd) {pc : Pc} (hj : brd.At j r pc) (he : pc.isEarly = true)
    (ho : pc.isOpen = false) : ∀ b ∈ (brd.hist r).2, b.2 ≠ none := by
  intro b hb hnone
  have hopen := h.isOpen_of_opened hj he hb hnone
  rw [ho] at hopen
  cases hopen

/-! ### Leaving the session -/

theorem leave (h : Serial brd) {sent : Bool} (hj : brd.At j r (.publishing sent)) {pc' : Pc}
    (he' : pc'.isEarly = false)
    (hkept : ∀ ms bs, pc' = .offloading ms bs →
      trimAndRemapBoundaries (brd.hist r).1 (brd.hist r).2 = some (ms, bs)) : Serial (brd.leave j r pc') := by
  have hclosed := h.closed_of_not_isOpen hj rfl rfl
  have hcur := h.current j r _ hj rfl
  have hself := hj
  obtain ⟨e, t, hje, hr, ht, htp⟩ := hj
  have hhist : ∀ r', (brd.leave j r pc').hist r' = brd.hist r' := hist_clearCurrent
  refine h.depart hself rfl he'
    (at_moved (fun k hk => Board.jobs_updateJob_ne hk) ⟨_, _, Board.jobs_updateJob_of hje, hr, rfl, rfl⟩)
    (current_clearCurrent (.inl hcur)) (fun r' _ => hhist r') ?_ ?_ ?_
  · rw [hhist]
    exact h.bounded r
  · rw [hhist]
    exact hclosed
  · rw [hhist]
    exact hkept

/-- The job that offloads is over. -/
theorem offloadEnds (h : Serial brd) {ms : History} {bs : List TaskBoundary} (hj : brd.At j r (.offloading ms bs)) :
    Serial (brd.setPc j .finished) := by
  have hvacant := h.vacant j r ms bs hj
  have hself := hj
  obtain ⟨e, t, hje, hr, ht, htp⟩ := hj
  refine h.depart hself rfl rfl
    (at_moved (fun k hk => Board.jobs_updateJob_ne hk) ⟨_, _, Board.jobs_updateJob_of hje, hr, rfl, rfl⟩)
    (fun r' => ?_) (fun _ _ => rfl) (h.bounded r) (fun b hb hnone => ?_) fun _ _ hpc => by cases hpc
  · split
    · next hr =>
      subst hr
      exact hvacant
    · rfl
  · obtain ⟨k, pc, hk, ho⟩ := h.opened r b hb hnone
    have hc := h.current k r pc hk (Pc.isEarly_of_isOpen ho)
    rw [hvacant] at hc
    cases hc

/-- The one at work has left the session idle. -/
theorem idle_of_departed (h : Serial brd) {pc pc' : Pc} (hj : brd.At j r pc) (hlive : pc.isLive = true)
    (hdead : pc'.isLive = false) (hcur : brd'.current r = none)
    (hat : ∀ k r' pc'', brd'.At k r' pc'' ↔ (k = j ∧ r' = r ∧ pc'' = pc') ∨ (k ≠ j ∧ brd.At k r' pc'')) :
    Idle brd' r := by
  refine ⟨hcur, fun k pc'' hk => ?_⟩
  rcases (hat ..).mp hk with ⟨-, -, rfl⟩ | ⟨hkj, hk⟩
  · exact hdead
  · rw [← Bool.not_eq_true]
    exact fun hl => hkj (h.live_unique hj hk hlive hl)

/-- The messages of an idle session are replaced by trimmed ones. -/
theorem setHistory (h : Serial brd) (hi : Idle brd r) {hist : History × List TaskBoundary}
    (hb : Bounded hist.1 hist.2) (hclosed : ∀ b ∈ hist.2, b.2 ≠ none) : Serial (brd.setHistory r hist) := by
  refine h.replaceHistory hb hclosed fun k ms bs hk => ?_
  cases hi.quiet k _ hk

theorem idle_setHistory (h : Idle brd r) (hist : History × List TaskBoundary) : Idle (brd.setHistory r hist) r :=
  ⟨(current_setHistory hist r).trans h.current, h.quiet⟩

/-! ### New sessions and jobs -/

theorem createSession (h : Serial brd) (hs : Sound brd) (sid taskId : String) :
    Serial (brd.createSession sid taskId) := by
  have hcur : ∀ r, (brd.createSession sid taskId).current r = if r = brd.sessionCount then none else brd.current r := by
    intro r
    unfold Board.current Board.createSession
    dsimp only
    split
    · next hr =>
      subst hr
      rw [Function.update_self]
    · next hr => rw [Function.update_of_ne hr]
  have hhist : ∀ r, (brd.createSession sid taskId).hist r = if r = brd.sessionCount then ([], []) else brd.hist r := by
    intro r
    unfold Board.hist Board.createSession
    dsimp only
    split
    · next hr =>
      subst hr
      rw [Function.update_self]
    · next hr => rw [Function.update_of_ne hr]
  have hold : ∀ {k r pc}, brd.At k r pc → r ≠ brd.sessionCount := by
    rintro k r pc ⟨e, t, he, hr, -⟩
    exact Nat.ne_of_lt (hs.home k e r he hr)
  refine
    { early := fun r k hk => ?_
      current := fun k r pc hk hek => ?_
      vacant := fun k r ms bs hk => ?_
      alone := h.alone
      kept := fun k r ms bs hk => ?_
      bounded := fun r => ?_
      opened := fun r b hmem hnone => ?_ }
  · rw [hcur] at hk
    split at hk
    · cases hk
    · exact h.early r k hk
  · rw [hcur, if_neg (hold hk)]
    exact h.current k r pc hk hek
  · rw [hcur, if_neg (hold hk)]
    exact h.vacant k r ms bs hk
  · rw [hhist, if_neg (hold hk)]
    exact h.kept k r ms bs hk
  · rw [hhist]
    split
    · exact Bounded.nil []
    · exact h.bounded r
  · rw [hhist] at hmem
    split at hmem
    · cases hmem
    · exact h.opened r b hmem hnone

/-- A new job that is not of a session, or has no task yet. -/
theorem setJob_fresh (h : Serial brd) {e : JobEntry} (hj : brd.jobs j = none)
    (he : e.session = none ∨ e.task = none) : Serial (brd.setJob j e) := by
  refine h.of_same (fun k r pc _ => ?_) (fun _ => rfl) fun _ => rfl
  rw [at_iff, at_iff]
  constructor
  · rintro ⟨e', hk, hr, ht⟩
    rcases Board.jobs_setJob.mp hk with ⟨-, rfl⟩ | ⟨-, hk⟩
    · rcases he with he | he
      · rw [he] at hr
        cases hr
      · rw [he] at ht
        cases ht
    · exact ⟨e', hk, hr, ht⟩
  · rintro ⟨e', hk, hrest⟩
    refine ⟨e', Board.jobs_setJob.mpr (.inr ⟨?_, hk⟩), hrest⟩
    rintro rfl
    rw [hj] at hk
    cases hk

theorem tick (h : Serial brd) : Serial brd.tick := h.of_same (fun _ _ _ _ => Iff.rfl) (fun _ => rfl) fun _ => rfl

theorem undo (h : Serial brd) (hj : brd.pc j = some .finished) (r : ℕ) : Serial (brd.undo r j) := by
  have hclosed : Serial (if brd.terminal j then brd else (brd.closeAborted r).markAborted j) := by
    split
    · exact h
    · exact (h.closeAborted r).markAborted j
  have hpc : (if brd.terminal j then brd else (brd.closeAborted r).markAborted j).pc j = some .finished := by
    split
    · exact hj
    · exact (Bus.pc_markAborted (brd.closeAborted r) j j).trans hj
  unfold Board.undo
  generalize (if brd.terminal j then brd else (brd.closeAborted r).markAborted j) = closed at hclosed hpc
  have hne : closed.current r ≠ some j := fun hc => hclosed.not_finished hc hpc
  refine hclosed.of_same (fun _ _ _ _ => Iff.rfl) (fun r' => ?_) hist_clearCurrent
  rw [Board.clearCurrent, current_updateSession]
  split
  · next hr =>
    subst hr
    exact if_neg hne
  · rfl

/-- A task that no longer has to do with its session moves on. -/
theorem setPc_dead (h : Serial brd) {pc pc' : Pc} (hpc : brd.pc j = some pc) (hdead : pc.isLive = false)
    (hdead' : pc'.isLive = false) : Serial (brd.setPc j pc') := by
  obtain ⟨e, t, he, ht, rfl⟩ := Board.pc_eq_some.mp hpc
  refine h.updateJob fun e' he' r pc hl => ?_
  cases he.symm.trans he'
  have h1 : pc' ≠ pc := by
    rintro rfl
    rw [hdead'] at hl
    cases hl
  have h2 : t.pc ≠ pc := by
    rintro rfl
    rw [hdead] at hl
    cases hl
  simp [ht, h1, h2]

end Serial

/-- A job that is over leaves its session idle. -/
theorem Finishes.serial {brd left : Board} {j r : ℕ} (hf : Finishes brd j r left) (h : Serial brd) :
    Serial left ∧ Idle left r := by
  have hleave : ∀ {sent}, brd.At j r (.publishing sent) →
      Serial (brd.leave j r .finished) ∧ Idle (brd.leave j r .finished) r := by
    intro sent hj
    have hself := hj
    obtain ⟨e, t, hje, hr, -⟩ := hj
    refine ⟨h.leave hself rfl (fun _ _ hpc => by cases hpc), h.idle_of_departed hself rfl rfl ?_
      (Serial.at_moved (fun k hk => Board.jobs_updateJob_ne hk) ⟨_, _, Board.jobs_updateJob_of hje, hr, rfl, rfl⟩)⟩
    exact (Serial.current_clearCurrent (.inl (h.current j r _ hself rfl)) r).trans (if_pos rfl)
  have hoffload : ∀ {ms bs}, brd.At j r (.offloading ms bs) →
      Serial (brd.setPc j .finished) ∧ Idle (brd.setPc j .finished) r := by
    intro ms bs hj
    have hself := hj
    obtain ⟨e, t, hje, hr, -⟩ := hj
    exact ⟨h.offloadEnds hself, h.idle_of_departed hself rfl rfl (h.vacant j r ms bs hself)
      (Serial.at_moved (fun k hk => Board.jobs_updateJob_ne hk) ⟨_, _, Board.jobs_updateJob_of hje, hr, rfl, rfl⟩)⟩
  cases hf with
  | untrimmed hj _ => exact hleave hj
  | trimmed hj ht =>
    obtain ⟨hleft, hidle⟩ := hleave hj
    obtain ⟨hb, hclosed⟩ := (h.bounded r).trim ht
    exact ⟨hleft.setHistory hidle hb (hclosed (h.closed_of_not_isOpen hj rfl rfl)), Serial.idle_setHistory hidle _⟩
  | offloaded hj =>
    next ms bs =>
    obtain ⟨hleft, hidle⟩ := hoffload hj
    obtain ⟨hb, hclosed⟩ := (h.bounded r).trim (h.kept j r ms bs hj)
    exact ⟨hleft.setHistory hidle hb (hclosed (hleft.closed_of_idle hidle)), Serial.idle_setHistory hidle _⟩
  | kept hj => exact hoffload hj

/-- **Seriality is kept by every move** other than those of a submission to a
session that is being left, of a task cancelled before it runs, and of a
caller that drains a queue. -/
theorem Move.serial {ok : Quirk → Prop} {brd brd' : Board} (hm : Move ok brd brd') (hlate : ¬ok .lateSubmission)
    (hearly : ¬ok .earlyCancel) (hdrain : ¬ok .lateDrain) (hs : Sound brd) (h : Serial brd) : Serial brd' := by
  cases hm with
  | requestCancel j =>
    refine h.updateJob fun e _ r pc _ => ?_
    cases e.task <;> exact Iff.rfl
  | createSession sid taskId => exact h.createSession hs sid taskId
  | tick => exact h.tick
  | addJob taskId => exact h.tick.setJob_fresh hs.jobs_succ (.inl rfl)
  | enqueue hr hp _ =>
    have hfresh : brd.jobs _ = none := hp ▸ hs.jobs_succ
    rw [Board.enqueue, Board.updateSession_setJob]
    exact (h.tick.setJob_fresh hfresh (.inr rfl)).updateSession fun _ => ⟨rfl, rfl, rfl⟩
  | accept hr hp hb hok =>
    next r p =>
    have hleft : brd.beingLeft r = false := by
      rw [← Bool.not_eq_true]
      exact fun hl => hlate (hok hl)
    have hidle := h.idle_of_not_busy hs hb hleft
    refine h.tick.dispatch ⟨hidle.current, hidle.quiet⟩ fun e he => ?_
    rw [hp] at he
    cases hs.jobs_succ.symm.trans he
  | slot hpc => exact h.progress hpc rfl rfl (fun _ => rfl) (fun _ => rfl) fun _ _ _ => rfl
  | beginRun hpc =>
    rcases hpc with hpc | hpc
    · exact h.progress hpc rfl rfl (fun _ => rfl) (fun _ => rfl) fun _ _ _ => rfl
    · exact h.progress hpc rfl rfl (fun _ => rfl) (fun _ => rfl) fun _ _ _ => rfl
  | abandon _ hok => exact absurd hok hearly
  | conclude _ he hsess _ =>
    refine h.updateJob fun e' he' r pc _ => ?_
    cases he.symm.trans he'
    simp [hsess]
  | extend new hj => exact h.extend hj new
  | absorb hj hc => exact h.absorb hj hc
  | publish hj _ _ => exact h.publish hj rfl (h.closed_of_not_isOpen hj rfl rfl) _
  | publishAborted hj hpc hres hown =>
    next j r pc res =>
    have he : pc.isEarly = true := by rcases hpc with rfl | rfl <;> rfl
    refine (h.closeAborted r).publish hj he ?_ res
    rw [Board.closeAborted, Serial.hist_setHistory, if_pos rfl]
    exact (h.bounded r).closed_of_closeSessionBoundaryAborted
  | markSent hpc =>
    refine h.progress hpc rfl (show (Pc.publishing true).isEarly = true from rfl) (fun ho => ho) (fun _ => rfl)
      fun e t ht => ?_
    rw [ht]
    rfl
  | offload hj ht =>
    refine h.leave hj rfl fun ms bs hpc => ?_
    cases hpc
    exact ht
  | finish hf hd =>
    next j r left after next =>
    obtain ⟨hsleft, -, e, he, ht, hst⟩ := hf.sound hs
    obtain ⟨hleft, hidle⟩ := hf.serial h
    have hafter := hleft.drains hsleft hidle hd
    obtain ⟨he', -, -⟩ := hd.frame hsleft he ht
    cases next with
    | none => exact hafter
    | some n => exact hafter.setPc_dead (Board.pc_eq_some.mpr ⟨e, _, he', ht, rfl⟩) rfl rfl
  | lostOffload hpc _ =>
    obtain ⟨e, t, he, ht, hpc⟩ := Board.pc_eq_some.mp hpc
    cases hsess : e.session with
    | none =>
      refine h.updateJob fun e' he' r pc _ => ?_
      cases he.symm.trans he'
      simp [hsess]
    | some r => exact h.offloadEnds ⟨e, t, he, hsess, ht, hpc⟩
  | settle hpc hpc' =>
    have hdead : ∀ {pc : Pc} {next}, pc = .undoing next ∨ pc = .finished → pc.isLive = false := by
      rintro pc next (rfl | rfl) <;> rfl
    rcases hpc with hpc | hpc
    · exact h.setPc_dead hpc rfl (hdead hpc')
    · exact h.setPc_dead hpc rfl (hdead hpc')
  | markAborted _ => exact h.markAborted _
  | cancelParked _ => exact (h.purge _).markAborted _
  | undo hpc => exact h.undo hpc _
  | confirm _ _ _ => exact h.updateJob fun _ _ _ _ _ => Iff.rfl
  | reconcile hc _ hpc => exact absurd hpc (h.not_finished hc)
  | lateDrain _ hok => exact absurd hok hdrain
  | dropResults _ => exact h.updateSession fun _ => ⟨rfl, rfl, rfl⟩
  | abortPending r => exact (Serial.markAborted_fold _ h).setPending []
  | unlist r => exact h.updateSession fun _ => ⟨rfl, rfl, rfl⟩

end AgentBus
end AgentCore
