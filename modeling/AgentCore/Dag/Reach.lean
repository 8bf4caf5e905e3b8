/-
# What a run can visit

`_reachable_from` is a breadth-first search over the static edges and the routes
of the conditional ones (`Lib.Search`). It finds exactly the nodes that these
edges lead to, and a run that starts at the entry point of a valid graph goes
along these edges only, whatever its nodes return and its routers answer.

Key definitions: `MiniDag.Edge`, `MiniDag.walk`.
Key theorem: `run_stays_reachable`.
-/
import AgentCore.Lib.Search
import AgentCore.Dag.Resume

namespace AgentCore
namespace Dag

open Halting Search

variable {V C : Type}

namespace MiniDag

/-- Where the runner goes from `node`, with `answer` for what its router says,
if it has one. An answer without a route is the end. -/
def routeOutcome (dag : MiniDag V) (node answer : String) : Option String :=
  match dag.conditionalEdges.lookup node with
  | some (_, routeMap) => (routeMap.lookup answer).join
  | none => (dag.edges.lookup node).join

/-- The node a run from the entry point comes to after `n` others, with any
answers of the routers. -/
def walk (dag : MiniDag V) (answers : ℕ → String) : ℕ → Option String
  | 0 => some dag.entryPoint
  | n + 1 => (dag.walk answers n).bind fun node => dag.routeOutcome node (answers n)

variable {dag : MiniDag V}

/-! ### The search -/

theorem mem_targets_iff {a b : String} : b ∈ dag.targets a ↔ dag.Edge a b := by
  unfold targets
  rw [List.mem_filterMap]
  constructor
  · rintro ⟨target, hmem, rfl⟩
    rcases List.mem_append.mp hmem with hstatic | hroute
    · exact .static (Option.mem_toList.mp hstatic)
    · cases hlookup : dag.conditionalEdges.lookup a with
      | none =>
        rw [hlookup] at hroute
        exact absurd hroute List.not_mem_nil
      | some e =>
        rw [hlookup] at hroute
        obtain ⟨⟨answer, target⟩, hentry, rfl⟩ := List.mem_map.mp hroute
        exact .conditional e.1 e.2 answer hlookup hentry
  · rintro (hstatic | ⟨condition, routeMap, answer, hlookup, hroute⟩)
    · exact ⟨some b, List.mem_append_left _ (Option.mem_toList.mpr hstatic), rfl⟩
    · refine ⟨some b, List.mem_append_right _ ?_, rfl⟩
      rw [hlookup]
      exact List.mem_map.mpr ⟨(answer, some b), hroute, rfl⟩

theorem reachableAux_eq_search : ∀ (n : ℕ) (visited queue : List String),
    dag.reachableAux n visited queue = search dag.targets n visited queue
  | 0, _, _ => rfl
  | _ + 1, _, [] => rfl
  | n + 1, visited, node :: queue => by
    rw [reachableAux, search]
    split
    · exact reachableAux_eq_search n _ _
    · exact reachableAux_eq_search n _ _

/-- What the entries of a dictionary weigh, without those of the names
expanded. -/
def weight {α : Type} (w : α → ℕ) (visited : List String) (entries : List (String × α)) : ℕ :=
  ((entries.filter (·.1 ∉ visited)).map fun e => w e.2).sum

theorem weight_cons {α : Type} (w : α → ℕ) (visited : List String) (e : String × α) (rest : List (String × α)) :
    weight w visited (e :: rest) = (if e.1 ∈ visited then 0 else w e.2) + weight w visited rest := by
  unfold weight
  rw [List.filter_cons]
  by_cases hmem : e.1 ∈ visited <;> simp [hmem]

theorem weight_anti {α : Type} (w : α → ℕ) (visited : List String) (node : String) :
    ∀ entries : List (String × α), weight w (visited ++ [node]) entries ≤ weight w visited entries
  | [] => Nat.le_refl _
  | e :: rest => by
    have ih := weight_anti w visited node rest
    rw [weight_cons, weight_cons]
    by_cases hmem : e.1 ∈ visited
    · rw [if_pos hmem, if_pos (List.mem_append_left _ hmem)]
      omega
    · rw [if_neg hmem]
      split <;> omega

/-- The entry a name is looked up at is paid for when the name is expanded. -/
theorem weight_lookup {α : Type} (w : α → ℕ) {visited : List String} {node : String} (hnode : node ∉ visited) :
    ∀ entries : List (String × α),
      ((entries.lookup node).map w).getD 0 + weight w (visited ++ [node]) entries ≤ weight w visited entries
  | [] => Nat.le_refl _
  | (key, value) :: rest => by
    have ih := weight_lookup w hnode rest
    have hanti := weight_anti w visited node rest
    rw [weight_cons, weight_cons, List.lookup_cons]
    by_cases hkey : node = key
    · subst hkey
      rw [if_pos (List.mem_append_right _ (List.mem_singleton_self _)), if_neg hnode]
      simp only [BEq.rfl, Option.map_some, Option.getD_some]
      omega
    · have hbeq : (node == key) = false := by simpa using hkey
      have hmem : key ∈ visited ++ [node] ↔ key ∈ visited := by simp [Ne.symm hkey]
      simp only [hbeq, hmem]
      omega

/-- What is left to queue: the edges and the routes of the names not expanded. -/
def budget (dag : MiniDag V) (visited : List String) : ℕ :=
  weight (fun _ => 1) visited dag.edges + weight (fun e => e.2.length) visited dag.conditionalEdges

theorem budget_pays : Pays dag.targets dag.budget := by
  intro visited node hnode
  have hstatic := weight_lookup (fun _ => 1) hnode dag.edges
  have hroutes := weight_lookup (fun e => e.2.length) hnode dag.conditionalEdges
  have hlen : (dag.targets node).length ≤ ((dag.edges.lookup node).map fun _ => 1).getD 0 +
      ((dag.conditionalEdges.lookup node).map fun e => e.2.length).getD 0 := by
    unfold targets
    refine Nat.le_trans (List.length_filterMap_le _ _) ?_
    rw [List.length_append]
    cases dag.edges.lookup node <;> cases dag.conditionalEdges.lookup node <;> simp
  unfold budget
  omega

theorem budget_nil : dag.budget [] = dag.edges.length + (dag.conditionalEdges.flatMap (·.2.2)).length := by
  simp [budget, weight, List.length_flatMap]

/-- The search finds exactly the nodes that the edges lead to. -/
theorem mem_reachableFrom_iff {start node : String} :
    node ∈ dag.reachableFrom start ↔ Relation.ReflTransGen dag.Edge start node := by
  have hleads : Leads dag.targets = dag.Edge := by
    funext a b
    exact propext mem_targets_iff
  unfold reachableFrom
  rw [reachableAux_eq_search, mem_search_iff budget_pays (by rw [budget_nil]; omega), hleads]

/-! ### Runs -/

theorem edge_of_routeOutcome {node answer next : String} (h : dag.routeOutcome node answer = some next) :
    dag.Edge node next := by
  unfold routeOutcome at h
  split at h
  · next condition routeMap hlookup =>
    have hroute : routeMap.lookup answer = some (some next) := Option.join_eq_some_iff.mp h
    exact .conditional condition routeMap answer hlookup (mem_of_lookup hroute)
  · exact .static (Option.join_eq_some_iff.mp h)

/-- A node of the graph that can be reached from its entry point. -/
def Visitable (dag : MiniDag V) (node : String) : Prop :=
  dag.hasNode node = true ∧ node ∈ dag.reachableFrom dag.entryPoint

theorem visitable_entryPoint (h : dag.validate = []) : dag.Visitable dag.entryPoint :=
  ⟨(entryPoint_valid h).2, mem_reachableFrom_iff.mpr .refl⟩

theorem Visitable.edge (h : dag.validate = []) {a b : String} (ha : dag.Visitable a) (hedge : dag.Edge a b) :
    dag.Visitable b :=
  ⟨hasNode_of_edge h hedge, mem_reachableFrom_iff.mpr ((mem_reachableFrom_iff.mp ha.2).tail hedge)⟩

theorem walk_visitable (h : dag.validate = []) (answers : ℕ → String) :
    ∀ (n : ℕ) {node : String}, dag.walk answers n = some node → dag.Visitable node
  | 0, node, hnode => by
    cases hnode
    exact visitable_entryPoint h
  | n + 1, node, hnode => by
    obtain ⟨prev, hprev, hout⟩ := Option.bind_eq_some_iff.mp hnode
    exact (walk_visitable h answers n hprev).edge h (edge_of_routeOutcome hout)

end MiniDag

/-- The nodes a run has called and the one it is at are there, and can be reached
from the entry point. -/
def Config.Stays (dag : MiniDag V) (cfg : Config V C) : Prop :=
  (∀ node ∈ cfg.executed, dag.Visitable node) ∧ ∀ node, cfg.current = some node → dag.Visitable node

namespace Checkpointer

variable {cp : Checkpointer V C} {dag : MiniDag V} {threadId : String} {cfg cfg' : Config V C}

theorem advance_stays (hvalid : dag.validate = []) (hstays : cfg.Stays dag)
    (h : cp.advance dag threadId cfg = some cfg') : cfg'.Stays dag := by
  obtain ⟨hexec, hcurrent⟩ := hstays
  obtain ⟨node, hnode, -, -, hcases⟩ := advance_cases h
  have hcalled : ∀ name ∈ cfg.executed ++ [node], dag.Visitable name := by
    intro name hname
    rcases List.mem_append.mp hname with hname | hname
    · exact hexec name hname
    · rw [List.mem_singleton.mp hname]
      exact hcurrent node hnode
  obtain ⟨-, rfl⟩ | ⟨fn, -, ⟨e, -, rfl⟩ | ⟨delta, state, next, he, rfl⟩⟩ := hcases
  · exact ⟨hexec, hcurrent⟩
  · exact ⟨hcalled, hcurrent⟩
  · refine ⟨hcalled, fun name hname => ?_⟩
    cases hname
    exact (hcurrent node hnode).edge hvalid (MiniDag.execNode_edge he)

theorem steps_stays (hvalid : dag.validate = []) : ∀ (k : ℕ) {start cfg : Config V C}, start.Stays dag →
    steps (cp.advance dag threadId) k start = some cfg → cfg.Stays dag
  | 0, _, _, hstart, h => by
    cases h
    exact hstart
  | k + 1, _, _, hstart, h => by
    obtain ⟨mid, hmid, hs⟩ := steps_succ h
    exact advance_stays hvalid (steps_stays hvalid k hstart hmid) hs

/-- A run without a checkpoint to resume starts at the entry point. -/
theorem begin_stays (hvalid : dag.validate = []) {store : C} {inputData : Option (DagState V)}
    (hfresh : (cp.loadOrInit threadId store inputData).2 = none) :
    (cp.begin dag threadId store inputData).Stays dag := by
  have hcurrent : (cp.begin dag threadId store inputData).current = some dag.entryPoint := by
    unfold begin
    dsimp only
    rw [hfresh]
  refine ⟨fun node hnode => absurd hnode List.not_mem_nil, fun node hnode => ?_⟩
  rw [hcurrent] at hnode
  cases hnode
  exact MiniDag.visitable_entryPoint hvalid

end Checkpointer

/-- **What the search finds is what a run can visit.** From any node
`_reachable_from` returns exactly what the static and conditional edges lead to;
and from the entry point of a valid graph a run, with any answers of the routers,
and so every state of a run of `astream`, is at nodes that exist and were
found. -/
theorem run_stays_reachable (dag : MiniDag V) (hvalid : dag.validate = []) :
    (∀ start node, node ∈ dag.reachableFrom start ↔ Relation.ReflTransGen dag.Edge start node) ∧
    (∀ answers n node, dag.walk answers n = some node →
      dag.hasNode node = true ∧ node ∈ dag.reachableFrom dag.entryPoint) ∧
    ∀ (C : Type) (cp : Checkpointer V C) (threadId : String) (store : C) (inputData : Option (DagState V)),
      (cp.loadOrInit threadId store inputData).2 = none →
      ∀ (k : ℕ) (cfg : Config V C),
        steps (cp.advance dag threadId) k (cp.begin dag threadId store inputData) = some cfg →
        (∀ node ∈ cfg.executed, dag.hasNode node = true ∧ node ∈ dag.reachableFrom dag.entryPoint) ∧
          ∀ node, cfg.current = some node → dag.hasNode node = true ∧ node ∈ dag.reachableFrom dag.entryPoint := by
  refine ⟨fun _ _ => MiniDag.mem_reachableFrom_iff, fun answers n _ h => MiniDag.walk_visitable hvalid answers n h, ?_⟩
  intro C cp threadId store inputData hfresh k cfg h
  exact Checkpointer.steps_stays hvalid k (Checkpointer.begin_stays hvalid hfresh) h

/-- A loop from `a` to `b` and back, until the router says "done". -/
def loopUntilDone : MiniDag ℕ where
  nodes := [("a", fun _ => .ok none), ("b", fun _ => .ok none), ("c", fun _ => .ok none)]
  edges := [("a", some "b"), ("c", none)]
  conditionalEdges := [("b", fun state => .ok (if state = [] then "done" else "again"), [("again", some "a"), ("done", some "c")])]
  entryPoint := "a"
  reducers := []

theorem loopUntilDone_stays :
    loopUntilDone.validate = [] ∧ loopUntilDone.reachableFrom "a" = ["a", "b", "c"] ∧
    loopUntilDone.walk (fun _ => "again") 2 = some "a" ∧ loopUntilDone.walk (fun _ => "done") 2 = some "c" ∧
    ∀ answers n node, loopUntilDone.walk answers n = some node →
      loopUntilDone.hasNode node = true ∧ node ∈ loopUntilDone.reachableFrom loopUntilDone.entryPoint :=
  ⟨by decide +kernel, by decide +kernel, by decide +kernel, by decide +kernel,
    (run_stays_reachable loopUntilDone (by decide +kernel)).2.1⟩

end Dag
end AgentCore
