/-
# The spawn guard

`SpawnGuard` of `spawn_guard.py`: a budget of tokens reserved when a job is
checked, and a semaphore for the slots the jobs run in. A reservation is made
by `preCheck`, gets its slot when `acquire_slot` returns (at once, or when the
wait is resumed with a permit), and is taken back by `release`, which returns
the slot if the reservation owns one.

A wait and a reservation are separate things. A job released while it waits
leaves its wait in the queue, and when the semaphore hands a permit to that
wait, `acquire_slot` finds no reservation to enter it in: the permit is gone.
`HandsToActive` rules out steps that hand a permit to nobody.

Key definitions: `SpawnGuard`, `preCheck`, `acquireSlot`, `resumeSlot`,
`release`, `GuardEvent`, `step`, `Checked`, `HandsToActive`, `holding`.
-/
import AgentCore.Lib.Keyed
import AgentCore.Lib.Runs
import AgentCore.Lib.Semaphore
import Mathlib.Data.Int.Order.Basic

namespace AgentCore
namespace AgentBus

structure TaskBudget where
  maxTokens : ℤ := 500000
  maxParallel : ℤ := 3
  maxDepth : ℤ := 1

structure SpawnReservation where
  jobId : String
  depth : ℤ
  estimatedTokens : ℤ
  acquired : Bool := false
  deriving DecidableEq, Repr

/-- One call of `acquire_slot`. -/
structure Acquisition where
  call : ℕ
  jobId : String
  deriving DecidableEq, Repr

structure SpawnGuard where
  maxDepth : ℤ
  maxTokens : ℤ
  maxParallel : ℤ
  semaphore : Semaphore Acquisition
  tokensReserved : ℤ := 0
  tokensActual : ℤ := 0
  active : List SpawnReservation := []
  totalSpawns : ℕ := 0
  deriving DecidableEq, Repr

inductive SpawnError
  | spawnDepthExceeded (depth maxDepth : ℤ)
  | budgetExhausted (estimated remaining reserved maxTokens : ℤ)
  deriving DecidableEq, Repr

def SpawnError.message : SpawnError → String
  | .spawnDepthExceeded depth maxDepth => "Spawn depth " ++ toString depth ++ " >= max " ++ toString maxDepth
  | .budgetExhausted estimated remaining reserved maxTokens =>
    "Need " ++ toString estimated ++ " tokens, " ++ "only " ++ toString remaining ++ " remaining " ++
      "(reserved " ++ toString reserved ++ " " ++ "of " ++ toString maxTokens ++ ")"

namespace SpawnGuard

def slots (maxParallel : ℤ) : ℕ := (max maxParallel 1).toNat

def ofBudget (b : TaskBudget) : SpawnGuard where
  maxDepth := b.maxDepth
  maxTokens := b.maxTokens
  maxParallel := b.maxParallel
  semaphore := { value := slots b.maxParallel }

def preCheck (g : SpawnGuard) (jobId : String) (depth estimatedTokens : ℤ) : Except SpawnError SpawnGuard :=
  if g.maxDepth ≤ depth then .error (.spawnDepthExceeded depth g.maxDepth)
  else
    let remaining := g.maxTokens - g.tokensReserved
    if 0 < estimatedTokens ∧ remaining < estimatedTokens then
      .error (.budgetExhausted estimatedTokens remaining g.tokensReserved g.maxTokens)
    else .ok { g with
      tokensReserved := g.tokensReserved + estimatedTokens
      active := Keyed.pop (·.jobId) g.active jobId ++ [{ jobId, depth, estimatedTokens }]
      totalSpawns := g.totalSpawns + 1 }

/-- What `acquire_slot` does once it has a permit. -/
def enterSlot (g : SpawnGuard) (jobId : String) : SpawnGuard :=
  { g with active := Keyed.update (·.jobId) (fun r => { r with acquired := true }) jobId g.active }

/-- `acquire_slot` up to its wait, or to its end when it need not wait. -/
def acquireSlot (g : SpawnGuard) (a : Acquisition) : SpawnGuard :=
  let (semaphore, taken) := g.semaphore.acquire a
  let g := { g with semaphore }
  if taken then g.enterSlot a.jobId else g

/-- `acquire_slot` from its wait on, with a permit or cancelled. -/
def resumeSlot (g : SpawnGuard) (a : Acquisition) : Option SpawnGuard :=
  (g.semaphore.resume a).map fun (semaphore, taken) =>
    let g := { g with semaphore }
    if taken then g.enterSlot a.jobId else g

def cancelSlot (g : SpawnGuard) (a : Acquisition) : SpawnGuard :=
  { g with semaphore := g.semaphore.cancel a }

def release (g : SpawnGuard) (jobId : String) (actualTokens : ℤ) : SpawnGuard :=
  match Keyed.get? (·.jobId) g.active jobId with
  | none => g
  | some r => { g with
      active := Keyed.pop (·.jobId) g.active jobId
      tokensReserved := g.tokensReserved - r.estimatedTokens
      tokensActual := g.tokensActual + actualTokens
      semaphore := if r.acquired then g.semaphore.release else g.semaphore }

/-! ### Interleavings -/

/-- What may happen to a guard, one event at a time. -/
inductive GuardEvent
  | preCheck (jobId : String) (depth estimatedTokens : ℤ)
  | acquireSlot (a : Acquisition)
  | cancelSlot (a : Acquisition)
  | resumeSlot (a : Acquisition)
  | release (jobId : String) (actualTokens : ℤ)
  deriving DecidableEq, Repr

/-- The calls of `acquire_slot` that wait. -/
def waits (g : SpawnGuard) : List Acquisition := g.semaphore.waiters.map (·.1)

/-- One event; none when it cannot happen. A refused check changes nothing. -/
def step (g : SpawnGuard) : GuardEvent → Option SpawnGuard
  | .preCheck jobId depth estimatedTokens =>
    match g.preCheck jobId depth estimatedTokens with
    | .ok g' => some g'
    | .error _ => some g
  | .acquireSlot a => if a ∈ g.waits then none else some (g.acquireSlot a)
  | .cancelSlot a => if a ∈ g.waits then some (g.cancelSlot a) else none
  | .resumeSlot a => g.resumeSlot a
  | .release jobId actualTokens => some (g.release jobId actualTokens)

def checkedIds (es : List GuardEvent) : List String :=
  es.filterMap fun
    | .preCheck jobId _ _ => some jobId
    | _ => none

/-- Jobs are checked under distinct ids, with estimates that are not
negative. -/
def Checked (past : List GuardEvent) : GuardEvent → Prop
  | .preCheck jobId _ estimatedTokens => jobId ∉ checkedIds past ∧ 0 ≤ estimatedTokens
  | _ => True

instance (past : List GuardEvent) (e : GuardEvent) : Decidable (Checked past e) := by
  cases e
  all_goals
    unfold Checked
    infer_instance

/-- Every wait that is neither granted nor cancelled is that of an active
job. -/
def WaitersActive (g : SpawnGuard) : Prop :=
  ∀ w ∈ g.semaphore.waiters, w.2 = .waiting → w.1.jobId ∈ g.active.map (·.jobId)

instance (g : SpawnGuard) : Decidable g.WaitersActive := by
  unfold WaitersActive
  infer_instance

/-- The job owns a slot. -/
def Owns (g : SpawnGuard) (jobId : String) : Prop := ∃ r ∈ g.active, r.jobId = jobId ∧ r.acquired = true

instance (g : SpawnGuard) (jobId : String) : Decidable (g.Owns jobId) := by
  unfold Owns
  infer_instance

/-- The event takes no permit for a job that cannot hold it: a slot is asked
for by an active job that owns none and waits for none, no job is released
between grant and resumption, and nothing is handed on while a job released in
the meantime waits. -/
def HandsToActive (g : SpawnGuard) : GuardEvent → Prop
  | .acquireSlot a => a.jobId ∈ g.active.map (·.jobId) ∧ ¬g.Owns a.jobId ∧
      ∀ w ∈ g.semaphore.waiters, w.1.jobId = a.jobId → w.2 = .cancelled
  | .resumeSlot _ => g.WaitersActive
  | .release jobId _ => (∀ w ∈ g.semaphore.waiters, w.1.jobId = jobId → Semaphore.isGranted w.2 = false) ∧
      (g.Owns jobId → g.WaitersActive)
  | _ => True

instance (g : SpawnGuard) (e : GuardEvent) : Decidable (g.HandsToActive e) := by
  cases e
  all_goals
    unfold HandsToActive
    infer_instance

/-- The active jobs that hold a slot: they own it, or the semaphore has handed
it to their wait. -/
def holding (g : SpawnGuard) : List SpawnReservation :=
  g.active.filter fun r =>
    r.acquired || g.semaphore.waiters.any fun w => w.1.jobId = r.jobId && Semaphore.isGranted w.2

end SpawnGuard
end AgentBus
end AgentCore
