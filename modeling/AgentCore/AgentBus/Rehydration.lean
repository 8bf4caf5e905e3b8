/-
# Orphaned jobs after a restart

`rehydrate_orphaned_jobs` of `runtime.py` folds over the log of agent actions:
the jobs that were submitted, and those that a completion, an abort or a
collection names. For each job of the first kind and not of the second, and
not in the registry, it appends an `agent_orphaned` event.

The fold knows nothing of `agent_orphaned`: what a run appends changes neither
of the two sets (`submitted_append_reports`, `completedIds_append_reports`), so
the next run, in the next life of the process, reports the same jobs again.

Key definitions: `ActionEvent`, `submitted`, `completedIds`, `orphaned`,
`rehydrateOrphanedJobs`.
Key theorem: `rehydrate_again_iff`.
-/
import AgentCore.Lib.Keyed

namespace AgentCore
namespace AgentBus
namespace Rehydration

/-- An event of type `AGENT_ACTION`, with what is read of its payload; a field
that the payload lacks is empty. -/
structure ActionEvent where
  taskId : String
  traceType : String
  jobId : String := ""
  jobIds : List String := []
  parentTaskId : String := ""
  reason : String := ""
  deriving DecidableEq, Repr

namespace ActionEvent

/-- A job is submitted. -/
def submits (e : ActionEvent) : Bool := e.traceType == "agent_submitted" && e.jobId != ""

/-- Jobs are completed, aborted or collected. -/
def completes (e : ActionEvent) : Bool :=
  e.traceType ∈ ["agent_completed", "agent_aborted", "agent_collected"]

/-- The jobs the event names. -/
def ids (e : ActionEvent) : List String := (if e.jobId = "" then [] else [e.jobId]) ++ e.jobIds

end ActionEvent

/-- `submitted[job_id] = payload`, of which the parent is read again. -/
def noteSubmitted (submitted : List (String × String)) (e : ActionEvent) : List (String × String) :=
  if e.submits then
    if e.jobId ∈ submitted.map (·.1) then
      Keyed.update (·.1) (fun _ => (e.jobId, e.parentTaskId)) e.jobId submitted
    else submitted ++ [(e.jobId, e.parentTaskId)]
  else submitted

def submitted (log : List ActionEvent) : List (String × String) := log.foldl noteSubmitted []

def completedIds (log : List ActionEvent) : List String :=
  (log.filter ActionEvent.completes).flatMap ActionEvent.ids

/-- The jobs a run reports, with their parents; `jobs` are those of the
registry. -/
def orphaned (jobs : List String) (log : List ActionEvent) : List (String × String) :=
  (submitted log).filter fun p => p.1 ∉ completedIds log && p.1 ∉ jobs

def report (p : String × String) : ActionEvent :=
  { taskId := p.2, traceType := "agent_orphaned", jobId := p.1, reason := "process_restart" }

/-- The log with what a run appends, and the number of orphans. -/
def rehydrateOrphanedJobs (jobs : List String) (log : List ActionEvent) : List ActionEvent × ℕ :=
  (log ++ (orphaned jobs log).map report, (orphaned jobs log).length)

variable {jobs jobs' : List String} {log : List ActionEvent} {j : String}

/-! ### The two sets -/

theorem keys_noteSubmitted (acc : List (String × String)) (e : ActionEvent) :
    j ∈ (noteSubmitted acc e).map (·.1) ↔ j ∈ acc.map (·.1) ∨ e.submits = true ∧ e.jobId = j := by
  unfold noteSubmitted
  by_cases hs : e.submits = true
  · rw [if_pos hs]
    by_cases hmem : e.jobId ∈ acc.map (·.1)
    · have hkeys : (Keyed.update (·.1) (fun _ => (e.jobId, e.parentTaskId)) e.jobId acc).map (·.1) = acc.map (·.1) := by
        unfold Keyed.update
        rw [List.map_map]
        refine List.map_congr_left fun p _ => ?_
        by_cases hp : p.1 = e.jobId
        · simp [hp]
        · simp [hp]
      rw [if_pos hmem, hkeys]
      constructor
      · exact .inl
      · rintro (h | ⟨-, rfl⟩)
        · exact h
        · exact hmem
    · rw [if_neg hmem, List.map_append, List.mem_append, List.map_cons, List.map_nil, List.mem_singleton]
      simp only [hs, true_and, eq_comm]
  · rw [if_neg hs]
    simp [hs]

theorem keys_foldl_noteSubmitted : ∀ (log : List ActionEvent) (acc : List (String × String)),
    j ∈ (log.foldl noteSubmitted acc).map (·.1) ↔
      j ∈ acc.map (·.1) ∨ ∃ e ∈ log, e.submits = true ∧ e.jobId = j
  | [], acc => by simp
  | e :: log, acc => by
    rw [List.foldl_cons, keys_foldl_noteSubmitted log, keys_noteSubmitted, or_assoc]
    simp only [List.exists_mem_cons_iff]

/-- The jobs that were submitted. -/
theorem mem_submitted : j ∈ (submitted log).map (·.1) ↔ ∃ e ∈ log, e.submits = true ∧ e.jobId = j := by
  rw [submitted, keys_foldl_noteSubmitted]
  simp

theorem foldl_noteSubmitted_reports : ∀ (ps acc : List (String × String)),
    (ps.map report).foldl noteSubmitted acc = acc
  | [], _ => rfl
  | p :: ps, acc => by
    have hp : noteSubmitted acc (report p) = acc := rfl
    rw [List.map_cons, List.foldl_cons, hp, foldl_noteSubmitted_reports ps acc]

theorem submitted_append_reports (log : List ActionEvent) (ps : List (String × String)) :
    submitted (log ++ ps.map report) = submitted log := by
  rw [submitted, List.foldl_append, foldl_noteSubmitted_reports, submitted]

theorem completedIds_append_reports (log : List ActionEvent) (ps : List (String × String)) :
    completedIds (log ++ ps.map report) = completedIds log := by
  have hnone : (ps.map report).filter ActionEvent.completes = [] := by
    rw [List.filter_eq_nil_iff]
    intro e he
    obtain ⟨p, -, rfl⟩ := List.mem_map.mp he
    have htype : (report p).completes = false := rfl
    rw [htype]
    exact Bool.false_ne_true
  rw [completedIds, List.filter_append, hnone, List.append_nil, completedIds]

/-! ### Runs -/

theorem mem_orphaned : j ∈ (orphaned jobs log).map (·.1) ↔
    (∃ e ∈ log, e.submits = true ∧ e.jobId = j) ∧ j ∉ completedIds log ∧ j ∉ jobs := by
  rw [← mem_submitted]
  simp only [orphaned, List.mem_map, List.mem_filter, Bool.and_eq_true, decide_eq_true_eq]
  constructor
  · rintro ⟨p, ⟨hp, hfree⟩, rfl⟩
    exact ⟨⟨p, hp, rfl⟩, hfree⟩
  · rintro ⟨⟨p, hp, rfl⟩, hfree⟩
    exact ⟨p, ⟨hp, hfree⟩, rfl⟩

/-- A job with a completion event is not reported. -/
theorem not_orphaned_of_completed (h : j ∈ completedIds log) : j ∉ (orphaned jobs log).map (·.1) :=
  fun hj => (mem_orphaned.mp hj).2.1 h

/-- A run on what an earlier one has left reports what it would have reported
without it. -/
theorem orphaned_again (jobs jobs' : List String) (log : List ActionEvent) :
    orphaned jobs' (rehydrateOrphanedJobs jobs log).1 = orphaned jobs' log := by
  rw [rehydrateOrphanedJobs, orphaned, submitted_append_reports, completedIds_append_reports, orphaned]

/-- **When rehydration is idempotent**: a run on the log an earlier one has
extended reports nothing just when every job that was submitted has a
completion event or is in the registry of the later run, so that there was
nothing to report. A job with a completion event is reported by neither. -/
theorem rehydrate_again_iff (jobs jobs' : List String) (log : List ActionEvent) :
    ((rehydrateOrphanedJobs jobs' (rehydrateOrphanedJobs jobs log).1).2 = 0 ∧
      ∀ j ∈ completedIds log, j ∉ (orphaned jobs log).map (·.1) ∧
        j ∉ (orphaned jobs' (rehydrateOrphanedJobs jobs log).1).map (·.1)) ↔
      ∀ e ∈ log, e.submits = true → e.jobId ∈ completedIds log ∨ e.jobId ∈ jobs' := by
  have hcompleted : ∀ j ∈ completedIds log, j ∉ (orphaned jobs log).map (·.1) ∧
      j ∉ (orphaned jobs' (rehydrateOrphanedJobs jobs log).1).map (·.1) := by
    intro j hj
    rw [orphaned_again]
    exact ⟨not_orphaned_of_completed hj, not_orphaned_of_completed hj⟩
  have hcount : (rehydrateOrphanedJobs jobs' (rehydrateOrphanedJobs jobs log).1).2 = (orphaned jobs' log).length := by
    rw [← orphaned_again jobs jobs' log]
    rfl
  rw [hcount, List.length_eq_zero_iff]
  constructor
  · rintro ⟨hnil, -⟩ e he hs
    by_contra hfree
    have hmem := mem_orphaned.mpr ⟨⟨e, he, hs, rfl⟩, not_or.mp hfree⟩
    rw [hnil] at hmem
    cases hmem
  · intro h
    refine ⟨List.eq_nil_iff_forall_not_mem.mpr fun p hp => ?_, hcompleted⟩
    obtain ⟨⟨e, he, hs, hj⟩, hfree⟩ := mem_orphaned.mp (List.mem_map_of_mem hp)
    rw [← hj] at hfree
    exact not_or.mpr hfree (h e he hs)

/-- A job is submitted, and the process is restarted twice. -/
theorem orphan_reported_twice :
    (rehydrateOrphanedJobs [] [{ taskId := "t", traceType := "agent_submitted", jobId := "t.job.1" }]).2 = 1 ∧
      (rehydrateOrphanedJobs []
        (rehydrateOrphanedJobs [] [{ taskId := "t", traceType := "agent_submitted", jobId := "t.job.1" }]).1).2 = 1 := by
  decide

end Rehydration
end AgentBus
end AgentCore
