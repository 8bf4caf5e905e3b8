/-
# Fresh runs

`astream` takes an initial state, "or None to resume from checkpoint", and its
loader reads the store before it looks at the input: a store whose latest
checkpoint of the thread names a next node is resumed, and the input is dropped.
So a run with an input is the run from the entry point with that input, in every
store, exactly where the stores name no next node.

Key definitions: `Checkpointer.Resumable`, `Checkpointer.StoreIndependent`.
Key theorem: `store_independent_iff`.
-/
import AgentCore.Dag.Resume
import Mathlib.Data.Fintype.EquivFin

namespace AgentCore
namespace Dag

open Halting

variable {V C : Type}

namespace Checkpointer

variable (cp : Checkpointer V C) (dag : MiniDag V) (threadId : String)

/-- The latest checkpoint of the thread names a next node. -/
def Resumable (store : C) : Prop :=
  ∃ state node next, cp.loadLatest store threadId = some (state, node, some next) ∧ next ≠ ""

/-- `astream(input)` to its end, over a store. -/
def stream (store : C) (input : DagState V) : Config V C :=
  cp.complete dag threadId (cp.begin dag threadId store (some input))

/-- It calls the nodes of the run that starts at the entry point with the input,
and ends in its state. -/
def StartsFresh (store : C) (input : DagState V) : Prop :=
  (cp.stream dag threadId store input).executed =
      (cp.complete dag threadId (startAt dag.entryPoint input store)).executed ∧
    (cp.stream dag threadId store input).state =
      (cp.complete dag threadId (startAt dag.entryPoint input store)).state

/-- With every input, the runs over the two stores call the same nodes from the
entry point and end in the same state. -/
def StoreIndependent (store₁ store₂ : C) : Prop :=
  ∀ input, cp.StartsFresh dag threadId store₁ input ∧ cp.StartsFresh dag threadId store₂ input ∧
    (cp.stream dag threadId store₁ input).executed = (cp.stream dag threadId store₂ input).executed ∧
    (cp.stream dag threadId store₁ input).state = (cp.stream dag threadId store₂ input).state

variable {cp dag threadId} {cfg cfg' : Config V C}

/-! ### The store is only written -/

/-- What a run shows of itself but for its checkpoints. -/
def withStore (store : C) (cfg : Config V C) : Config V C := { cfg with store := store }

theorem advance_withStore (store : C) (cfg : Config V C) :
    (cp.advance dag threadId (withStore store cfg)).map (withStore store) =
      (cp.advance dag threadId cfg).map (withStore store) := by
  unfold advance withStore
  dsimp only
  split
  · rfl
  · split
    · rfl
    · split
      · rfl
      · split
        · rfl
        · split <;> rfl

/-- Runs that differ in their stores at most call the same nodes and end in the
same state. -/
theorem complete_withStore {a b : Config V C} (h : ∀ store, withStore store a = withStore store b) :
    (cp.complete dag threadId a).executed = (cp.complete dag threadId b).executed ∧
      (cp.complete dag threadId a).state = (cp.complete dag threadId b).state := by
  have hstep : ∀ x y : Config V C, withStore a.store x = withStore a.store y →
      (cp.advance dag threadId x).map (withStore a.store) = (cp.advance dag threadId y).map (withStore a.store) := by
    intro x y hxy
    rw [← advance_withStore, hxy, advance_withStore]
  have hrun : withStore a.store (cp.complete dag threadId a) = withStore a.store (cp.complete dag threadId b) :=
    drive_congr hstep (maxSteps + 1) (h a.store)
  have hexecuted := congrArg Config.executed hrun
  have hstate := congrArg Config.state hrun
  exact ⟨hexecuted, hstate⟩

theorem complete_startAt (node : String) (state : DagState V) (store₁ store₂ : C) :
    (cp.complete dag threadId (startAt node state store₁)).executed =
        (cp.complete dag threadId (startAt node state store₂)).executed ∧
      (cp.complete dag threadId (startAt node state store₁)).state =
        (cp.complete dag threadId (startAt node state store₂)).state :=
  complete_withStore fun _ => rfl

/-! ### Keys stay -/

theorem mem_keys_dictSet {key name : String} {value : V} {state : DagState V} (h : name ∈ state.map (·.1)) :
    name ∈ (dictSet key value state).map (·.1) := by
  induction state with
  | nil => exact absurd h List.not_mem_nil
  | cons entry rest ih =>
    obtain ⟨k, v⟩ := entry
    rw [dictSet]
    rcases List.mem_cons.mp h with rfl | h
    · split <;> exact List.mem_cons_self
    · split
      · exact List.mem_cons_of_mem _ h
      · exact List.mem_cons_of_mem _ (ih h)

theorem mem_keys_mergeField {name : String} {merged merged' : DagState V} {field : String × V}
    (hm : dag.mergeField merged field = .ok merged') (h : name ∈ merged.map (·.1)) : name ∈ merged'.map (·.1) := by
  unfold MiniDag.mergeField at hm
  split at hm
  · split at hm
    · cases hm
      exact mem_keys_dictSet h
    · cases hm
      exact mem_keys_dictSet h
    · cases hm
  · cases hm
    exact mem_keys_dictSet h

theorem mem_keys_mergeState {name : String} : ∀ (delta : DagState V) {current merged : DagState V},
    dag.mergeState current delta = .ok merged → name ∈ current.map (·.1) → name ∈ merged.map (·.1)
  | [], _, _, hm, h => by
    cases hm
    exact h
  | field :: delta, current, merged, hm, h => by
    unfold MiniDag.mergeState at hm
    rw [List.foldlM_cons] at hm
    cases hf : dag.mergeField current field with
    | error e =>
      rw [hf] at hm
      cases hm
    | ok mid =>
      rw [hf] at hm
      exact mem_keys_mergeState delta hm (mem_keys_mergeField hf h)

/-- A key of the state is never dropped. -/
theorem mem_keys_advance {name : String} (h : name ∈ cfg.state.map (·.1))
    (hs : cp.advance dag threadId cfg = some cfg') : name ∈ cfg'.state.map (·.1) := by
  obtain ⟨node, -, -, -, ⟨-, rfl⟩ | ⟨fn, -, ⟨e, -, rfl⟩ | ⟨delta, state, next, he, rfl⟩⟩⟩ := advance_cases hs
  · exact h
  · exact h
  · exact mem_keys_mergeState delta (MiniDag.execNode_ok he).1 h

theorem mem_keys_complete {name : String} (h : name ∈ cfg.state.map (·.1)) :
    name ∈ (cp.complete dag threadId cfg).state.map (·.1) :=
  drive_keeps (fun _ _ hkey hs => mem_keys_advance hkey hs) (maxSteps + 1) h

/-! ### Fresh and resumed -/

theorem begin_of_not_resumable {store : C} (h : ¬cp.Resumable threadId store) (input : DagState V) :
    cp.begin dag threadId store (some input) = startAt dag.entryPoint input store := by
  have hload : cp.loadOrInit threadId store (some input) = (input, none) := by
    unfold loadOrInit
    split
    · next state node next hlatest =>
      rw [if_neg fun hne => h ⟨state, node, next, hlatest, hne⟩]
      rfl
    · rfl
  unfold begin
  rw [hload]
  rfl

theorem startsFresh_of_not_resumable {store : C} (h : ¬cp.Resumable threadId store) (input : DagState V) :
    cp.StartsFresh dag threadId store input := by
  unfold StartsFresh stream
  rw [begin_of_not_resumable h]
  exact ⟨rfl, rfl⟩

variable (dag) in
/-- A resumed run has one end, and an input with a key that is not in it does not
lead there. -/
theorem not_startsFresh_of_resumable [Inhabited V] {store : C} (h : cp.Resumable threadId store) :
    ∃ input, ¬cp.StartsFresh dag threadId store input := by
  obtain ⟨state, node, next, hlatest, hne⟩ := h
  obtain ⟨key, hkey⟩ := Infinite.exists_notMem_finset
    ((cp.complete dag threadId (startAt next state store)).state.map (·.1)).toFinset
  refine ⟨[(key, default)], fun ⟨_, hstate⟩ => hkey ?_⟩
  unfold stream at hstate
  rw [begin_of_next hlatest hne] at hstate
  rw [List.mem_toFinset, hstate]
  exact mem_keys_complete List.mem_cons_self

end Checkpointer

open Checkpointer

/-- **A run with an input does not depend on the store** exactly where neither
store has, as the latest checkpoint of the thread, one that names a next node:
that checkpoint is resumed and the input dropped. -/
theorem store_independent_iff [Inhabited V] (cp : Checkpointer V C) (dag : MiniDag V) (threadId : String)
    (store₁ store₂ : C) :
    cp.StoreIndependent dag threadId store₁ store₂ ↔
      ¬cp.Resumable threadId store₁ ∧ ¬cp.Resumable threadId store₂ := by
  constructor
  · intro h
    refine ⟨fun hres => ?_, fun hres => ?_⟩
    · obtain ⟨input, hnot⟩ := not_startsFresh_of_resumable dag hres
      exact hnot (h input).1
    · obtain ⟨input, hnot⟩ := not_startsFresh_of_resumable dag hres
      exact hnot (h input).2.1
  · rintro ⟨h₁, h₂⟩ input
    refine ⟨startsFresh_of_not_resumable h₁ input, startsFresh_of_not_resumable h₂ input, ?_⟩
    unfold stream
    rw [begin_of_not_resumable h₁, begin_of_not_resumable h₂]
    exact complete_startAt dag.entryPoint input store₁ store₂

/-- A run of `countUp` that stopped after its first node, and then a run with a
new input on its thread: it is the old run that goes on, with the old state. -/
theorem input_dropped_for_checkpoint :
    countUp.validate = [] ∧
    ∃ cfg, steps ((latestOnly ℕ).advance countUp "t") 1 ((latestOnly ℕ).begin countUp "t" [] (some [("value", 5)])) =
        some cfg ∧
      ((latestOnly ℕ).stream countUp "t" cfg.store [("value", 100)]).executed = ["b"] ∧
      ((latestOnly ℕ).stream countUp "t" cfg.store [("value", 100)]).state = [("value", 16)] ∧
      ((latestOnly ℕ).stream countUp "t" [] [("value", 100)]).executed = ["a", "b"] ∧
      ((latestOnly ℕ).stream countUp "t" [] [("value", 100)]).state = [("value", 111)] ∧
      ¬(latestOnly ℕ).StoreIndependent countUp "t" [] cfg.store := by
  refine ⟨by decide +kernel, _, rfl, by decide +kernel, by decide +kernel, by decide +kernel, by decide +kernel, ?_⟩
  intro h
  have hsame := (h [("value", 100)]).2.2.1
  revert hsame
  decide +kernel

end Dag
end AgentCore
