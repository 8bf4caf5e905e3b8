/-
# Wall-time aborts

`_astream_with_wall_time` of `scheduling/scheduler.py` around the graph's stream, and
what the error path of `execute` makes of what it raises. The scheduler of
`AgentCore.Scheduling.Scheduler` is told what happens; added are a clock, the deadline,
and the exceptions with their types.

`except TimeoutError` cannot tell the limiter's own error from one of the graph, so a
graph that raises a `TimeoutError` is taken to have exceeded its wall time, also where
there is no limit; and so is one that lets a `TaskWallTimeExceeded` of its own out
(`classified_iff`).

The limiter fires when its deadline has passed and not before. Exceptions that do not
derive from `Exception` are left out (`_get_state_for_config` lets none through that
do), and a `StopAsyncIteration` of `aclose` is the `RuntimeError` that Python makes of it.

Key definitions: `Watch`, `step`, `Classified`, `Misread`.
Key theorem: `classified_iff`.
-/
import AgentCore.Scheduling.Scheduler
import Mathlib.Algebra.Order.Ring.Rat
import Mathlib.Data.List.Induction

namespace AgentCore
namespace Scheduling
namespace WallTime

/-- An exception. -/
inductive Exc
  | timeoutError (text : String)
  | wallTimeExceeded (text : String)
  | other (typeName text : String)
  deriving DecidableEq

/-- `str(exc)`. -/
def Exc.str : Exc → String
  | .timeoutError text => text
  | .wallTimeExceeded text => text
  | .other _ text => text

/-- What the handler of `execute` takes it for. -/
def Exc.failure : Exc → Failure
  | .wallTimeExceeded text => .wallTimeExceeded text
  | .timeoutError text => .other text
  | .other _ text => .other text

def Exc.isWallTime : Exc → Bool
  | .wallTimeExceeded _ => true
  | _ => false

def Exc.isTimeout : Exc → Bool
  | .timeoutError _ => true
  | _ => false

variable {C : Type}

/-- An execution under a clock. -/
structure Watch (C : Type) where
  exec : Execution C
  clock : ℚ
  deadline : Option ℚ
  /-- The stream has been asked for its next chunk. -/
  asked : Bool := false
  /-- The error of the graph or of the limiter that has left `execute`. -/
  raised : Option Exc := none

def Watch.passed (s : Watch C) : Bool := s.deadline.any fun d => d ≤ s.clock

inductive Event (C : Type)
  | tick (seconds : ℚ)
  | setStatus (status : TaskStatus)
  | supersede (token : Option String)
  | close
  | resume
  /-- The loop of `_astream_with_wall_time` comes round. -/
  | ask
  | yields (c : C)
  | ends
  | raises (e : Exc)
  /-- `wait_for` times out. -/
  | limiter
  | stateRead (state : GraphState) (completion : Completion)

section Steps

-- `closing` is what `aclose` raises.
variable (args : Arguments) (wallTime : Option ℤ) (closing : Option Exc)

def limitMessage : String :=
  let limit := match wallTime with
    | none => "None"
    | some n => toString n
  "task " ++ args.taskId ++ " wall-time exceeded after " ++ limit ++ "s"

/-- `except TimeoutError as e`. -/
def converted (e : Exc) : Exc := if e.isTimeout then .wallTimeExceeded (limitMessage args wallTime) else e

/-- The `finally` block: what `aclose` raises takes the place of the error. -/
def leaving (e : Exc) : Exc := closing.getD e

def start (task : Task) (clock : ℚ) : Watch C :=
  { exec := Scheduling.start task, clock := clock, deadline := wallTime.map fun n => clock + n }

/-- The error reaches the handler of `execute`. -/
def Watch.fail (s : Watch C) (e : Exc) : Watch C :=
  let exec := handleFailure args s.exec e.failure
  { s with exec := exec, asked := false, raised := if exec.point = .raised then some e else none }

def Watch.delegate (s : Watch C) (e : Scheduling.Event C) : Option (Watch C) :=
  (Scheduling.step args s.exec e).map fun exec => { s with exec := exec, asked := false }

def step (s : Watch C) : Event C → Option (Watch C)
  | .tick seconds => if 0 ≤ seconds then some { s with clock := s.clock + seconds } else none
  | .setStatus status => (Scheduling.step args s.exec (.setStatus status)).map fun exec => { s with exec := exec }
  | .supersede token => (Scheduling.step args s.exec (.supersede token)).map fun exec => { s with exec := exec }
  | .close => s.delegate args .close
  | .resume => s.delegate args .resume
  | .ask =>
    if s.exec.point = .awaitingChunk ∧ s.asked = false then
      if s.passed then some (s.fail args (leaving closing (.wallTimeExceeded (limitMessage args wallTime))))
      else some { s with asked := true }
    else none
  | .yields c => if s.asked then s.delegate args (.chunk c) else none
  | .ends =>
    if s.exec.point = .awaitingChunk ∧ s.asked = true then
      match closing with
      | none => s.delegate args .exhausted
      | some e => some (s.fail args e)
    else none
  | .raises e =>
    if s.exec.point = .awaitingChunk ∧ s.asked = true then
      some (s.fail args (leaving closing (converted args wallTime e)))
    else none
  | .limiter =>
    if s.exec.point = .awaitingChunk ∧ s.asked = true ∧ s.passed = true then
      some (s.fail args (leaving closing (.wallTimeExceeded (limitMessage args wallTime))))
    else none
  | .stateRead state completion => s.delegate args (.stateRead state completion)

/-! ### What is claimed -/

def isAbort : Action C → Bool
  | .abortTask _ => true
  | _ => false

/-- The task has been aborted for its wall time, or `TaskWallTimeExceeded` raised. -/
def Watch.aborted (s : Watch C) : Prop :=
  s.exec.log.any (fun r => isAbort r.action) = true ∨ ∃ e, s.raised = some e ∧ e.isWallTime = true

/-- The error of the graph that reaches `execute` with an event. -/
def graphError (s : Watch C) : Event C → Option Exc
  | .raises e => some (leaving closing e)
  | .ends => closing
  | .limiter => closing
  | .ask => if s.passed then closing else none
  | _ => none

/-- The task still runs, and the execution owns it. -/
def Current (s : Watch C) : Prop := s.exec.task.status = .running ∧ isStaleExecution s.exec.task args.executionToken = false

/-- The error is recorded and raised again. -/
def Recorded (s s' : Watch C) (e : Exc) : Prop :=
  s'.raised = some e ∧ s'.exec.log.map (·.action) = s.exec.log.map (·.action) ++ [.setError e.str]

abbrev runFrom (task : Task) (clock : ℚ) (es : List (Event C)) : Option (Watch C) :=
  Runs.run (step args wallTime closing) (start wallTime task clock) es

/-- **Errors are classified**: in a run, a task is aborted for its wall time only when a
deadline has passed, and another error of the graph that reaches a running task is
recorded and raised as itself. -/
structure Classified (task : Task) (clock : ℚ) (es : List (Event C)) : Prop where
  aborts : ∀ past later s, es = past ++ later → runFrom args wallTime closing task clock past = some s →
    s.aborted → s.passed = true
  records : ∀ past e later s s' g, es = past ++ e :: later →
    runFrom args wallTime closing task clock past = some s → step args wallTime closing s e = some s' →
    graphError closing s e = some g → Current args s → (s.passed = true ∧ s'.aborted) ∨ Recorded s s' g

/-- The handler does something about an error. -/
def Handled (s : Watch C) : Prop :=
  isStaleExecution s.exec.task args.executionToken = false ∧ s.exec.task.status.decided = false

/-- The graph brings a `TimeoutError` or a `TaskWallTimeExceeded` of its own, and no
deadline has passed. -/
def Misread (s : Watch C) (e : Event C) : Prop :=
  s.passed = false ∧ Handled args s ∧ ∃ g, graphError closing s e = some g ∧
    (g.isWallTime = true ∨ (closing = none ∧ ∃ g', e = .raises g' ∧ g'.isTimeout = true))

end Steps

/-! ### The handler -/

section Handler

variable {args : Arguments} {s : Watch C}

theorem decided_eq_false_iff {status : TaskStatus} :
    status.decided = false ↔ status ≠ .completed ∧ status ≠ .suspended ∧ status ≠ .aborted := by
  cases status <;> decide

theorem handleFailure_handled {x : Execution C} (hstale : isStaleExecution x.task args.executionToken = false)
    (hdecided : x.task.status.decided = false) (message : String) :
    handleFailure args x (.wallTimeExceeded message) =
        ((x.act (.abortTask message)).setStatus .aborted).goto .raised ∧
      handleFailure args x (.other message) = ((x.act (.setError message)).setStatus .failed).goto .raised := by
  obtain ⟨hcompleted, hsuspended, haborted⟩ := decided_eq_false_iff.mp hdecided
  have hstale : ¬ isStaleExecution x.task args.executionToken = true := by rw [hstale]; decide
  unfold handleFailure
  rw [if_neg hstale, if_neg hcompleted, if_neg hsuspended, if_neg haborted]
  rw [if_neg hstale, if_neg hcompleted, if_neg hsuspended, if_neg haborted]
  exact ⟨rfl, rfl⟩

theorem handleFailure_suppressed {x : Execution C}
    (h : ¬ (isStaleExecution x.task args.executionToken = false ∧ x.task.status.decided = false)) (f : Failure) :
    handleFailure args x f = x.goto .returned := by
  unfold handleFailure
  by_cases hstale : isStaleExecution x.task args.executionToken = true
  · rw [if_pos hstale]
  · rw [if_neg hstale]
    by_cases hcompleted : x.task.status = .completed
    · rw [if_pos hcompleted]
    · rw [if_neg hcompleted]
      by_cases hsuspended : x.task.status = .suspended
      · rw [if_pos hsuspended]
      · rw [if_neg hsuspended]
        by_cases haborted : x.task.status = .aborted
        · rw [if_pos haborted]
        · exact absurd ⟨by simpa using hstale, decided_eq_false_iff.mpr ⟨hcompleted, hsuspended, haborted⟩⟩ h

/-- A wall-time error that is handled aborts the task. -/
theorem fail_aborts (h : Handled args s) {e : Exc} (he : e.isWallTime = true) : (s.fail args e).aborted := by
  cases e with
  | wallTimeExceeded text =>
    refine .inr ⟨.wallTimeExceeded text, ?_, rfl⟩
    unfold Watch.fail
    rw [Exc.failure, (handleFailure_handled h.1 h.2 text).1]
    rfl
  | timeoutError text => cases he
  | other typeName text => cases he

/-- Another error that is handled is recorded. -/
theorem fail_records (h : Handled args s) {e : Exc} (he : e.isWallTime = false) : Recorded s (s.fail args e) e := by
  have hfailure : e.failure = .other e.str := by
    cases e with
    | wallTimeExceeded text => cases he
    | timeoutError text => rfl
    | other typeName text => rfl
  unfold Watch.fail Recorded
  rw [hfailure, (handleFailure_handled h.1 h.2 e.str).2]
  exact ⟨rfl, List.map_append⟩

/-- A task that was not aborted is aborted by a wall-time error only. -/
theorem fail_aborted {e : Exc} (ha : (s.fail args e).aborted) :
    s.aborted ∨ (Handled args s ∧ e.isWallTime = true) := by
  by_cases h : Handled args s
  · by_cases he : e.isWallTime = true
    · exact .inr ⟨h, he⟩
    · have he : e.isWallTime = false := by simpa using he
      obtain ⟨hraised, hlog⟩ := fail_records h he
      rcases ha with ha | ⟨e', he', hwall⟩
      · have hany : ((s.fail args e).exec.log.map (·.action)).any isAbort = true := by
          rw [List.any_map]
          exact ha
        rw [hlog, List.any_append, List.any_map] at hany
        refine .inl (.inl ?_)
        simpa [isAbort] using hany
      · rw [hraised] at he'
        rw [← Option.some.inj he', he] at hwall
        cases hwall
  · have hexec : (s.fail args e).exec = s.exec.goto .returned := handleFailure_suppressed h _
    rcases ha with ha | ⟨e', he', -⟩
    · rw [hexec] at ha
      exact .inl (.inl ha)
    · have hnone : (s.fail args e).raised = none := by
        show (if (s.fail args e).exec.point = .raised then some e else none) = none
        rw [hexec]
        rfl
      rw [hnone] at he'
      cases he'

/-- What the graph brings is recorded, unless it reads as a wall-time error. -/
theorem fail_classifies (h : Handled args s) {e : Exc} (he : e.isWallTime = true → s.passed = true) :
    (s.passed = true ∧ (s.fail args e).aborted) ∨ Recorded s (s.fail args e) e := by
  by_cases hwall : e.isWallTime = true
  · exact .inl ⟨he hwall, fail_aborts h hwall⟩
  · exact .inr (fail_records h (by simpa using hwall))

/-! ### The other steps -/

/-- The scheduler's log has an abort for the wall time. -/
def Aborts (x : Execution C) : Prop := x.log.any (fun r => isAbort r.action) = true

theorem aborts_act {x : Execution C} {a : Action C} (ha : isAbort a = false) : Aborts (x.act a) ↔ Aborts x := by
  unfold Aborts Execution.act
  rw [List.any_append]
  simp [ha]

theorem aborts_handleFailure {x : Execution C} (message : String)
    (h : Aborts (handleFailure args x (.other message))) : Aborts x := by
  by_cases hhandled : isStaleExecution x.task args.executionToken = false ∧ x.task.status.decided = false
  · rw [(handleFailure_handled hhandled.1 hhandled.2 message).2] at h
    exact (aborts_act rfl).mp h
  · rw [handleFailure_suppressed hhandled] at h
    exact h

theorem aborts_writeCompleted {x : Execution C} {completion : Completion}
    (h : Aborts (writeCompleted args x completion)) : Aborts x := by
  have hcompleted : Aborts (x.act .completed) ↔ Aborts x := aborts_act rfl
  have hreported : Aborts (((x.act .completed).setStatus .completed).act .reported) ↔ Aborts x :=
    (aborts_act rfl).trans hcompleted
  cases completion with
  | written => exact hreported.mp h
  | eventFails message => exact hreported.mp (aborts_handleFailure message h)
  | updateFails message => exact hcompleted.mp (aborts_handleFailure message h)

theorem aborts_complete {x : Execution C} {state : GraphState} {completion : Completion}
    (h : Aborts (complete args x state completion)) : Aborts x := by
  unfold complete at h
  split_ifs at h
  · exact aborts_handleFailure _ h
  · exact h
  · exact h
  · exact aborts_writeCompleted h

/-- Only a time-out aborts. -/
theorem aborts_step {x x' : Execution C} {e : Scheduling.Event C} (hstep : Scheduling.step args x e = some x')
    (he : ∀ n, e ≠ .timesOut n) (h : Aborts x') : Aborts x := by
  cases e with
  | setStatus status =>
    obtain rfl := eq_of_guard hstep
    exact h
  | supersede token =>
    obtain rfl := eq_of_guard hstep
    exact h
  | chunk c =>
    obtain rfl := eq_of_guard hstep
    unfold deliver at h
    split_ifs at h
    · exact h
    · exact (aborts_act rfl).mp h
  | resume =>
    obtain rfl := eq_of_guard hstep
    unfold afterYield at h
    split_ifs at h <;> exact h
  | exhausted =>
    obtain rfl := eq_of_guard hstep
    unfold finalize at h
    split_ifs at h <;> exact h
  | fails message =>
    obtain rfl := eq_of_guard hstep
    exact aborts_handleFailure message h
  | timesOut n => exact absurd rfl (he n)
  | stateRead state completion =>
    obtain rfl := eq_of_guard hstep
    exact aborts_complete h
  | close =>
    obtain rfl := eq_of_guard hstep
    exact h

theorem delegate_keeps {s' : Watch C} {e : Scheduling.Event C} (h : s.delegate args e = some s')
    (he : ∀ n, e ≠ .timesOut n) : s'.passed = s.passed ∧ (s'.aborted → s.aborted) := by
  obtain ⟨x, hx, rfl⟩ := Option.map_eq_some_iff.mp h
  exact ⟨rfl, Or.imp_left (aborts_step hx he)⟩

end Handler

/-! ### Runs -/

section Runs

variable {args : Arguments} {wallTime : Option ℤ} {closing : Option Exc} {s s' : Watch C} {e : Event C}

theorem leaving_isWallTime {g : Exc} (h : (leaving closing (converted args wallTime g)).isWallTime = true) :
    (leaving closing g).isWallTime = true ∨ (closing = none ∧ g.isTimeout = true) := by
  cases closing with
  | some c => exact .inl h
  | none =>
    by_cases htimeout : g.isTimeout = true
    · exact .inr ⟨rfl, htimeout⟩
    · refine .inl ?_
      have hsame : converted args wallTime g = g := if_neg htimeout
      rw [hsame] at h
      exact h

/-- **One step**: a task is not aborted before its deadline, unless an error is misread. -/
theorem step_aborted (hstep : step args wallTime closing s e = some s') (hmis : ¬ Misread args closing s e)
    (hs : s.aborted → s.passed = true) (ha : s'.aborted) : s'.passed = true := by
  -- what reaches the handler and reads as a wall-time error comes after the deadline
  have hfail : ∀ g : Exc, (g.isWallTime = true → Handled args s → s.passed = true) →
      (s.fail args g).aborted → s.passed = true := by
    intro g hg hfailed
    rcases fail_aborted hfailed with h | ⟨hhandled, hwall⟩
    · exact hs h
    · exact hg hwall hhandled
  have hpassed : ∀ g : Exc, graphError closing s e = some g → g.isWallTime = true → Handled args s →
      s.passed = true := by
    intro g hg hwall hhandled
    by_contra hno
    exact hmis ⟨by simpa using hno, hhandled, g, hg, .inl hwall⟩
  cases e with
  | tick seconds =>
    obtain ⟨hsec, heq⟩ := Option.ite_none_right_eq_some.mp hstep
    rw [← Option.some.inj heq] at ha ⊢
    have hbefore : s.deadline.any (fun d => d ≤ s.clock) = true := hs ha
    show s.deadline.any (fun d => d ≤ s.clock + seconds) = true
    cases hd : s.deadline with
    | none =>
      rw [hd] at hbefore
      cases hbefore
    | some d =>
      rw [hd] at hbefore
      have hle : d ≤ s.clock := by simpa using hbefore
      simpa using hle.trans (le_add_of_nonneg_right hsec)
  | setStatus status =>
    obtain ⟨x, hx, rfl⟩ := Option.map_eq_some_iff.mp hstep
    exact hs (ha.imp_left (aborts_step hx nofun))
  | supersede token =>
    obtain ⟨x, hx, rfl⟩ := Option.map_eq_some_iff.mp hstep
    exact hs (ha.imp_left (aborts_step hx nofun))
  | close =>
    obtain ⟨hsame, hback⟩ := delegate_keeps hstep nofun
    exact hsame.trans (hs (hback ha))
  | resume =>
    obtain ⟨hsame, hback⟩ := delegate_keeps hstep nofun
    exact hsame.trans (hs (hback ha))
  | ask =>
    obtain ⟨-, heq⟩ := Option.ite_none_right_eq_some.mp hstep
    by_cases hp : s.passed = true
    · rw [if_pos hp] at heq
      rw [← Option.some.inj heq]
      exact hp
    · rw [if_neg hp] at heq
      rw [← Option.some.inj heq] at ha
      exact absurd (hs ha) hp
  | yields c =>
    obtain ⟨-, heq⟩ := Option.ite_none_right_eq_some.mp hstep
    obtain ⟨hsame, hback⟩ := delegate_keeps heq nofun
    exact hsame.trans (hs (hback ha))
  | ends =>
    obtain ⟨-, heq⟩ := Option.ite_none_right_eq_some.mp hstep
    cases closing with
    | none =>
      obtain ⟨hsame, hback⟩ := delegate_keeps heq nofun
      exact hsame.trans (hs (hback ha))
    | some c =>
      obtain rfl := Option.some.inj heq
      exact hfail c (hpassed c rfl) ha
  | raises g =>
    obtain ⟨-, heq⟩ := Option.ite_none_right_eq_some.mp hstep
    obtain rfl := Option.some.inj heq
    refine hfail _ (fun hwall hhandled => ?_) ha
    rcases leaving_isWallTime hwall with h | ⟨hclosing, htimeout⟩
    · exact hpassed _ rfl h hhandled
    · by_contra hno
      exact hmis ⟨by simpa using hno, hhandled, _, rfl, .inr ⟨hclosing, g, rfl, htimeout⟩⟩
  | limiter =>
    obtain ⟨⟨-, -, hp⟩, heq⟩ := Option.ite_none_right_eq_some.mp hstep
    rw [← Option.some.inj heq]
    exact hp
  | stateRead state completion =>
    obtain ⟨hsame, hback⟩ := delegate_keeps hstep nofun
    exact hsame.trans (hs (hback ha))

theorem Current.handled (h : Current args s) : Handled args s := ⟨h.2, by rw [h.1]; rfl⟩

/-- **One step**: an error of the graph is recorded, or the deadline has passed. -/
theorem step_records (hstep : step args wallTime closing s e = some s') (hmis : ¬ Misread args closing s e)
    {g : Exc} (hg : graphError closing s e = some g) (hcurrent : Current args s) :
    (s.passed = true ∧ s'.aborted) ∨ Recorded s s' g := by
  have hhandled := hcurrent.handled
  have hpassed : g.isWallTime = true → s.passed = true := by
    intro hwall
    by_contra hno
    exact hmis ⟨by simpa using hno, hhandled, g, hg, .inl hwall⟩
  cases e with
  | ask =>
    obtain ⟨-, heq⟩ := Option.ite_none_right_eq_some.mp hstep
    by_cases hp : s.passed = true
    · have hclosing : closing = some g := (if_pos hp).symm.trans hg
      rw [if_pos hp, hclosing] at heq
      obtain rfl := Option.some.inj heq
      exact fail_classifies hhandled hpassed
    · have hnone : graphError closing s (.ask : Event C) = none := if_neg hp
      rw [hnone] at hg
      cases hg
  | ends =>
    obtain ⟨-, heq⟩ := Option.ite_none_right_eq_some.mp hstep
    have hclosing : closing = some g := hg
    rw [hclosing] at heq
    obtain rfl := Option.some.inj heq
    exact fail_classifies hhandled hpassed
  | raises g' =>
    obtain ⟨-, heq⟩ := Option.ite_none_right_eq_some.mp hstep
    obtain rfl := Option.some.inj heq
    have hg : leaving closing g' = g := Option.some.inj hg
    cases closing with
    | some c =>
      obtain rfl : c = g := hg
      exact fail_classifies hhandled hpassed
    | none =>
      obtain rfl : g' = g := hg
      by_cases htimeout : g'.isTimeout = true
      · have hp : s.passed = true := by
          by_contra hno
          exact hmis ⟨by simpa using hno, hhandled, g', rfl, .inr ⟨rfl, g', rfl, htimeout⟩⟩
        have hwall : (leaving none (converted args wallTime g')).isWallTime = true := by
          show (converted args wallTime g').isWallTime = true
          unfold converted
          rw [if_pos htimeout]
          rfl
        exact .inl ⟨hp, fail_aborts hhandled hwall⟩
      · have hsame : leaving none (converted args wallTime g') = g' := if_neg htimeout
        rw [hsame]
        exact fail_classifies hhandled hpassed
  | limiter =>
    obtain ⟨-, heq⟩ := Option.ite_none_right_eq_some.mp hstep
    have hclosing : closing = some g := hg
    rw [hclosing] at heq
    obtain rfl := Option.some.inj heq
    exact fail_classifies hhandled hpassed
  | tick seconds => cases hg
  | setStatus status => cases hg
  | supersede token => cases hg
  | close => cases hg
  | resume => cases hg
  | yields c => cases hg
  | stateRead state completion => cases hg

/-- **A misread error** aborts the task before its deadline. -/
theorem misread_aborts (hstep : step args wallTime closing s e = some s') (h : Misread args closing s e) :
    s'.aborted ∧ s'.passed = false := by
  obtain ⟨hpassed, hhandled, g, hg, hwall⟩ := h
  cases e with
  | ask =>
    have hnone : graphError closing s (.ask : Event C) = none := if_neg (by rw [hpassed]; decide)
    rw [hnone] at hg
    cases hg
  | ends =>
    obtain ⟨-, heq⟩ := Option.ite_none_right_eq_some.mp hstep
    have hclosing : closing = some g := hg
    rw [hclosing] at heq hwall
    obtain rfl := Option.some.inj heq
    exact ⟨fail_aborts hhandled (hwall.resolve_right fun h => absurd h.1 (Option.some_ne_none g)), hpassed⟩
  | raises g' =>
    obtain ⟨-, heq⟩ := Option.ite_none_right_eq_some.mp hstep
    obtain rfl := Option.some.inj heq
    refine ⟨fail_aborts hhandled ?_, hpassed⟩
    have hg : leaving closing g' = g := Option.some.inj hg
    cases closing with
    | some c =>
      obtain rfl : c = g := hg
      exact hwall.resolve_right fun h => absurd h.1 (Option.some_ne_none c)
    | none =>
      obtain rfl : g' = g := hg
      show (converted args wallTime g').isWallTime = true
      unfold converted
      by_cases htimeout : g'.isTimeout = true
      · rw [if_pos htimeout]
        rfl
      · rw [if_neg htimeout]
        refine hwall.resolve_right fun h => ?_
        obtain ⟨-, g'', hraises, htimeout'⟩ := h
        rw [← Event.raises.inj hraises] at htimeout'
        exact htimeout htimeout'
  | limiter =>
    obtain ⟨⟨-, -, hp⟩, -⟩ := Option.ite_none_right_eq_some.mp hstep
    rw [hpassed] at hp
    cases hp
  | tick seconds => cases hg
  | setStatus status => cases hg
  | supersede token => cases hg
  | close => cases hg
  | resume => cases hg
  | yields c => cases hg
  | stateRead state completion => cases hg

theorem start_not_aborted (task : Task) (clock : ℚ) : ¬ (start wallTime task clock : Watch C).aborted := by
  intro h
  have hlog : ¬ Aborts (Scheduling.start task : Execution C) := by
    unfold Scheduling.start
    dsimp only
    split
    · exact Bool.false_ne_true
    · exact Bool.false_ne_true
  rcases h with h | ⟨e, he, -⟩
  · exact hlog h
  · cases he

variable (args wallTime closing)

/-- **Errors are classified** in a run exactly where the graph brings no `TimeoutError`
and no `TaskWallTimeExceeded` of its own before a deadline has passed. -/
theorem classified_iff {task : Task} {clock : ℚ} {es : List (Event C)} {s' : Watch C}
    (hrun : runFrom args wallTime closing task clock es = some s') :
    Classified args wallTime closing task clock es ↔
      ∀ past e later s, es = past ++ e :: later → runFrom args wallTime closing task clock past = some s →
        ¬ Misread args closing s e := by
  constructor
  · intro h past e later s hes hpast hmis
    rw [hes] at hrun
    obtain ⟨s₁, s₂, hs₁, hstep⟩ := Runs.exists_of_run hrun
    rw [show s₁ = s from Option.some.inj (hs₁.symm.trans hpast)] at hstep
    obtain ⟨haborted, hpassed⟩ := misread_aborts hstep hmis
    have hnext : runFrom args wallTime closing task clock (past ++ [e]) = some s₂ := by
      unfold runFrom at hpast ⊢
      rw [Runs.run_concat, hpast]
      exact hstep
    have hsplit : es = (past ++ [e]) ++ later := by rw [hes, List.append_assoc, List.singleton_append]
    have hlate := h.aborts _ _ _ hsplit hnext haborted
    rw [hpassed] at hlate
    cases hlate
  · intro h
    refine ⟨fun past => ?_, fun past e later s s' g hes hpast hstep hg hcurrent => ?_⟩
    · induction past using List.reverseRecOn with
      | nil =>
        intro later s _ hs haborted
        rw [← Option.some.inj hs] at haborted
        exact absurd haborted (start_not_aborted task clock)
      | append_singleton past e ih =>
        intro later s hes hs haborted
        have hes : es = past ++ e :: later := by rw [hes, List.append_assoc, List.singleton_append]
        unfold runFrom at hs
        rw [Runs.run_concat] at hs
        obtain ⟨s₁, hpast, hstep⟩ := Option.bind_eq_some_iff.mp hs
        exact step_aborted hstep (h past e later s₁ hes hpast) (ih (e :: later) s₁ hes hpast) haborted
    · exact step_records hstep (h past e later s hes hpast) hg hcurrent

/-- A graph that raises a `ValueError` within its ten seconds. -/
theorem valueError_classified : Classified { taskId := "t" } (some 10) none { status := .running } 0
    ([.ask, .tick 3, .raises (.other "ValueError" "boom")] : List (Event String)) := by
  have hruns : (runFrom { taskId := "t" } (some 10) none { status := .running } 0
      ([.ask, .tick 3, .raises (.other "ValueError" "boom")] : List (Event String))).isSome = true := by
    decide +kernel
  refine (classified_iff _ _ _ (Option.some_get hruns).symm).mpr ?_
  rintro past e later s hes - ⟨-, -, g, hg, hkind⟩
  -- the one error of the graph is the last event's
  have hmem : e ∈ ([.ask, .tick 3, .raises (.other "ValueError" "boom")] : List (Event String)) := by
    rw [hes]
    exact List.mem_append_right past List.mem_cons_self
  simp only [List.mem_cons, List.not_mem_nil, or_false] at hmem
  rcases hmem with rfl | rfl | rfl
  · have hnone : graphError none s (.ask : Event String) = none := ite_self none
    rw [hnone] at hg
    cases hg
  · cases hg
  · obtain rfl := Option.some.inj hg
    rcases hkind with h | ⟨-, g', h, hg'⟩
    · cases h
    · rw [← Event.raises.inj h] at hg'
      cases hg'

/-- With no limit, a `TimeoutError` of the graph aborts the task. -/
theorem timeoutError_unclassified : ¬ Classified { taskId := "t" } none none { status := .running } 0
    ([.ask, .raises (.timeoutError "read timed out")] : List (Event String)) := by
  intro h
  have haborts := h.aborts [.ask, .raises (.timeoutError "read timed out")] []
    ((runFrom { taskId := "t" } none none { status := .running } 0
      ([.ask, .raises (.timeoutError "read timed out")] : List (Event String))).get (by decide +kernel)) rfl
    (Option.some_get _).symm (.inl (by decide +kernel))
  exact absurd haborts (by decide +kernel)

end Runs

end WallTime
end Scheduling
end AgentCore
