/-
# MiniDAG

The graph engine of `minidag.py`: named node functions over a state, static
and conditional edges, and a runner that executes one node after the other,
merges what it returns, routes to the next and saves a checkpoint. A run that
is called again on its thread starts from the latest checkpoint.

Node functions, routers and reducers are pure here, and may raise. A
dictionary is a list of entries in insertion order. The checkpointer is the
host's; a runner without one is a runner with one that keeps nothing. The cache
behind `aget_state` and the history are left out.

Key definitions: `MiniDag`, `MiniDag.validate`, `Checkpointer.begin`,
`Checkpointer.advance`, `Checkpointer.complete`.
-/
import AgentCore.Lib.Halting
import Mathlib.Data.List.Basic
import Mathlib.Algebra.Ring.Nat

namespace AgentCore
namespace Dag

open Halting

/-- An exception, as far as the engine tells them apart. -/
inductive Raised
  | keyError
  | typeOrValueError
  | other (name : String)
  deriving DecidableEq, Repr

abbrev DagState (V : Type) := List (String × V)

/-- A node's delta, or `None` for no change. -/
abbrev NodeFn (V : Type) := DagState V → Except Raised (Option (DagState V))

abbrev ConditionFn (V : Type) := DagState V → Except Raised String

abbrev Reducer (V : Type) := V → V → Except Raised V

/-- `d[key] = value`. -/
def dictSet {V : Type} (key : String) (value : V) : List (String × V) → List (String × V)
  | [] => [(key, value)]
  | (k, v) :: rest => if k = key then (k, value) :: rest else (k, v) :: dictSet key value rest

structure MiniDag (V : Type) where
  nodes : List (String × NodeFn V)
  edges : List (String × Option String)
  conditionalEdges : List (String × ConditionFn V × List (String × Option String))
  entryPoint : String
  reducers : List (String × Reducer V)

namespace MiniDag

variable {V : Type} (dag : MiniDag V)

def hasNode (name : String) : Bool := (dag.nodes.lookup name).isSome

/-! ### Validation -/

/-- Where the edges of a node lead. -/
def targets (node : String) : List String :=
  ((dag.edges.lookup node).toList ++ ((dag.conditionalEdges.lookup node).map fun e => e.2.map (·.2)).getD []).filterMap id

/-- The queue of `_reachable_from`. A node is expanded once, so no more names
are queued than there are edges and the start. -/
def reachableAux : ℕ → List String → List String → List String
  | 0, visited, _ => visited
  | _, visited, [] => visited
  | n + 1, visited, node :: queue =>
    if node ∈ visited then reachableAux n visited queue
    else
      let visited := visited ++ [node]
      reachableAux n visited (queue ++ (dag.targets node).filter (· ∉ visited))

def reachableFrom (start : String) : List String :=
  dag.reachableAux (1 + dag.edges.length + (dag.conditionalEdges.flatMap (·.2.2)).length) [] [start]

def entryErrors : List String :=
  if dag.entryPoint = "" then ["No entry point set"]
  else if dag.hasNode dag.entryPoint = false then ["Entry point '" ++ dag.entryPoint ++ "' not found in nodes"]
  else []

def edgeErrors : List String :=
  dag.edges.flatMap fun (fromNode, toNode) =>
    (if dag.hasNode fromNode then [] else ["Edge from unknown node '" ++ fromNode ++ "'"]) ++
      match toNode with
      | some target => if dag.hasNode target then [] else ["Edge to unknown node '" ++ target ++ "'"]
      | none => []

def routeErrors : List String :=
  dag.conditionalEdges.flatMap fun (fromNode, _, routeMap) =>
    (if dag.hasNode fromNode then [] else ["Conditional edge from unknown node '" ++ fromNode ++ "'"]) ++
      routeMap.flatMap fun (_, route) =>
        match route with
        | some target => if dag.hasNode target then [] else ["Conditional route to unknown node '" ++ target ++ "'"]
        | none => []

def bothErrors : List String :=
  (dag.edges.filter fun e => (dag.conditionalEdges.lookup e.1).isSome).map fun e =>
    "Node '" ++ e.1 ++ "' has both static and conditional edges"

def reachErrors : List String :=
  if dag.entryPoint ≠ "" ∧ dag.hasNode dag.entryPoint = true then
    (dag.nodes.filter fun n => n.1 ∉ dag.reachableFrom dag.entryPoint).map fun n =>
      "Node '" ++ n.1 ++ "' is unreachable from entry point"
  else []

/-- The errors of the graph; a valid one has none. -/
def validate : List String :=
  dag.entryErrors ++ dag.edgeErrors ++ dag.routeErrors ++ dag.bothErrors ++ dag.reachErrors

/-! ### One node -/

/-- One field of a delta: reduced where it has a reducer and is there, else
(or where the reducer fails) written over. -/
def mergeField (merged : DagState V) (field : String × V) : Except Raised (DagState V) :=
  match dag.reducers.lookup field.1, merged.lookup field.1 with
  | some reduce, some old =>
    match reduce old field.2 with
    | .ok value => .ok (dictSet field.1 value merged)
    | .error .typeOrValueError => .ok (dictSet field.1 field.2 merged)
    | .error e => .error e
  | _, _ => .ok (dictSet field.1 field.2 merged)

def mergeState (current delta : DagState V) : Except Raised (DagState V) := delta.foldlM dag.mergeField current

/-- Conditional edges first, then static ones, else the end. -/
def resolveNext (current : String) (state : DagState V) : Except Raised (Option String) :=
  match dag.conditionalEdges.lookup current with
  | some (condition, routeMap) => do
    let result ← condition state
    return (routeMap.lookup result).join
  | none => .ok (dag.edges.lookup current).join

/-- What a node's execution leads to: the delta, the state and the next node. -/
def execNode (fn : NodeFn V) (node : String) (state : DagState V) :
    Except Raised (DagState V × DagState V × Option String) := do
  let delta := (← fn state).getD []
  let state ← dag.mergeState state delta
  let next ← dag.resolveNext node state
  return (delta, state, next)

end MiniDag

/-! ### The runner -/

/-- A host's checkpointer, with its state. -/
structure Checkpointer (V C : Type) where
  save : C → (threadId nodeName : String) → (state : DagState V) → (nextNode : Option String) → C
  loadLatest : C → (threadId : String) → Option (DagState V × String × Option String)

def maxSteps : ℕ := 100

/-- A run: its loop variables, the checkpoints, the nodes whose function it has
called, what it has yielded, and what it raised. -/
structure Config (V C : Type) where
  step : ℕ
  current : Option String
  state : DagState V
  store : C
  executed : List String
  yielded : List (String × DagState V)
  raised : Option Raised

namespace Checkpointer

variable {V C : Type} (cp : Checkpointer V C) (dag : MiniDag V) (threadId : String)

/-- `_load_or_init`. -/
def loadOrInit (store : C) (inputData : Option (DagState V)) : DagState V × Option String :=
  match cp.loadLatest store threadId with
  | some (state, _, some next) => if next ≠ "" then (state, some next) else (inputData.getD [], none)
  | _ => (inputData.getD [], none)

/-- `astream` up to its loop. -/
def begin (store : C) (inputData : Option (DagState V)) : Config V C :=
  let (state, resumeNode) := cp.loadOrInit threadId store inputData
  ⟨0, some (match resumeNode with
    | some node => if node = "" then dag.entryPoint else node
    | none => dag.entryPoint), state, store, [], [], none⟩

/-- One turn of the loop, while there is one. -/
def advance (cfg : Config V C) : Option (Config V C) :=
  if cfg.raised.isSome then none
  else match cfg.current with
    | none => none
    | some node =>
      if maxSteps ≤ cfg.step then none
      else match dag.nodes.lookup node with
        | none => some { cfg with step := cfg.step + 1, raised := some .keyError }
        | some fn =>
          match dag.execNode fn node cfg.state with
          | .error e =>
            some { cfg with step := cfg.step + 1, executed := cfg.executed ++ [node], raised := some e }
          | .ok (delta, state, next) =>
            some
              { step := cfg.step + 1
                current := next
                state := state
                store := cp.save cfg.store threadId node state next
                executed := cfg.executed ++ [node]
                yielded := cfg.yielded ++ [(node, delta)]
                raised := none }

/-- The run to its end; the loop turns at most `maxSteps` times. -/
def complete (cfg : Config V C) : Config V C := drive (cp.advance dag threadId) (maxSteps + 1) cfg

end Checkpointer

end Dag
end AgentCore
