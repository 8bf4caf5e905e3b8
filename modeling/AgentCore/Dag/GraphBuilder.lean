/-
# From a pipeline specification to a graph

`DynamicGraphBuilder.build` and `compile` of `graph_builder.py`, over the declarative
models of `pipeline_spec.py`. Nodes go into the graph wrapped, and transitions, grouped by
where they start, become static or conditional edges.

What a specification means is stated without dictionaries: from a node the first condition
among its transitions picks one by its target, and without a condition the first transition
is taken (`PipelineSpec.declaredNext`). A walk visits declared nodes so, each in the state
that the one before it left (`Walk`). The graph that is built routes as the specification
says (`build_routes`), and a run of it is such a walk (`compiled_follows`).

The registration of sub-agent profiles is left out, and the reducers of the state type are
the host's.

Key definitions: `TransitionSpec`, `PipelineSpec`, `build`, `compile`,
`PipelineSpec.declaredNext`, `Walk`, `Follows`.
Key theorems: `build_routes`, `compiled_follows`.
-/
import AgentCore.Dag.NodeWrapper
import Mathlib.Data.List.Chain

namespace AgentCore
namespace Dag

open Halting

variable {α C : Type}

/-! ### Specifications -/

structure PhaseSpec where
  phaseId : String
  roleId : String := ""
  promptTemplate : String := ""
  nodeFunction : Option String := none
  inputFields : List String := []
  outputFields : List String := []
  displayLabel : String := ""
  maxRetries : ℤ := 0

/-- `to_node_definition`. -/
def PhaseSpec.toNodeDefinition (p : PhaseSpec) : NodeDefinition where
  nodeId := p.phaseId
  roleId := p.roleId
  nodeFunction := p.nodeFunction
  promptTemplate := p.promptTemplate
  contextPolicy := { includeFields := if p.inputFields = [] then none else some p.inputFields }
  outputFields := p.outputFields
  displayLabel := p.displayLabel
  maxRetries := p.maxRetries

def endMarker : String := "__END__"

structure TransitionSpec where
  fromPhase : String
  toPhase : String
  condition : Option String := none

/-- The condition, where it is not empty either. -/
def TransitionSpec.condition? (t : TransitionSpec) : Option String := t.condition.filter (· ≠ "")

/-- The node a target names, if it is not the end. -/
def target (toPhase : String) : Option String := if toPhase = endMarker then none else some toPhase

structure PipelineSpec where
  phases : List PhaseSpec := []
  nodes : List NodeDefinition := []
  transitions : List TransitionSpec := []
  entryPoint : String
  terminalPhases : List String := []
  terminalNodes : List String := []

namespace PipelineSpec

variable (spec : PipelineSpec)

def resolvedNodes : List NodeDefinition :=
  if spec.nodes = [] then spec.phases.map PhaseSpec.toNodeDefinition else spec.nodes

def resolvedTerminalNodes : List String :=
  if spec.terminalNodes = [] then spec.terminalPhases else spec.terminalNodes

/-- The transitions that start at a node. -/
def outgoing (node : String) : List TransitionSpec := spec.transitions.filter fun t => t.fromPhase = node

end PipelineSpec

/-! ### The builder -/

section Source

variable (host : Host α) (spec : PipelineSpec)

/-- `_resolve_node_function_from_def`. -/
def resolveNodeFunctionFromDef (d : NodeDefinition) : Except Raised (NodeCode α) :=
  match d.nodeFunction.filter (· ≠ "") with
  | some path => host.nodeFunction path
  | none => .ok (host.genericExecutor d)

/-- `_resolve_condition`. -/
def resolveCondition (transitions : List TransitionSpec) : Except Raised (ConditionFn (Value α)) :=
  match transitions.findSome? TransitionSpec.condition? with
  | some path => host.condition path
  | none => .error .typeOrValueError

/-- The loop over the nodes. -/
def buildNodes (definitions : List NodeDefinition) : Except Raised (List (String × NodeFn (Value α))) :=
  definitions.foldlM (fun nodes d => do
    let code ← resolveNodeFunctionFromDef host d
    return dictSet d.nodeId (wrapNode host d code) nodes) []

/-- `from_groups`. -/
def fromGroups (transitions : List TransitionSpec) : List (String × List TransitionSpec) :=
  transitions.foldl (fun groups t => dictSet t.fromPhase ((groups.lookup t.fromPhase).getD [] ++ [t]) groups) []

def routeMap (transitions : List TransitionSpec) : List (String × Option String) :=
  transitions.foldl (fun routes t => dictSet t.toPhase (target t.toPhase) routes) []

/-- The edges of one group. -/
def addGroup (dag : MiniDag (Value α)) (group : String × List TransitionSpec) : Except Raised (MiniDag (Value α)) :=
  if group.2.any fun t => t.condition?.isSome then do
    let condition ← resolveCondition host group.2
    return { dag with conditionalEdges := dictSet group.1 (condition, routeMap group.2) dag.conditionalEdges }
  else .ok { dag with edges := dictSet group.1 (group.2.head?.bind fun t => target t.toPhase) dag.edges }

/-- The edges of the terminal nodes that no transition starts at. -/
def addTerminals (groups : List (String × List TransitionSpec)) (terminals : List String) (dag : MiniDag (Value α)) :
    MiniDag (Value α) :=
  { dag with
    edges := terminals.foldl (fun edges node =>
      if (groups.lookup node).isSome then edges else dictSet node none edges) dag.edges }

/-- `build`. -/
def build (reducers : List (String × Reducer (Value α))) : Except Raised (MiniDag (Value α)) := do
  let nodes ← buildNodes host spec.resolvedNodes
  let groups := fromGroups spec.transitions
  let dag ← groups.foldlM (addGroup host) ⟨nodes, [], [], spec.entryPoint, reducers⟩
  return addTerminals groups spec.resolvedTerminalNodes dag

/-- `compile`, which refuses an invalid graph. -/
def compile (reducers : List (String × Reducer (Value α))) : Except Raised (MiniDag (Value α)) := do
  let dag ← build host spec reducers
  if dag.validate = [] then return dag else throw .typeOrValueError

end Source

/-! ### What a specification means -/

/-- Where the specification leads from a node. -/
def PipelineSpec.declaredNext (host : Host α) (spec : PipelineSpec) (node : String) (state : DagState (Value α)) :
    Except Raised (Option String) :=
  match (spec.outgoing node).findSome? TransitionSpec.condition? with
  | some path => do
    let answer ← (← host.condition path) state
    return if answer ∈ (spec.outgoing node).map (·.toPhase) then target answer else none
  | none => .ok ((spec.outgoing node).head?.bind fun t => target t.toPhase)

/-- The visits that lead along the specification from a node and a state to where the run
goes next: each is of a declared node, whose wrapped function answers the delta in the state
the visits before it have left, and after it the declared routing decides. -/
inductive Walk (host : Host α) (spec : PipelineSpec)
    (merge : DagState (Value α) → DagState (Value α) → Except Raised (DagState (Value α))) (node₀ : Option String)
    (state₀ : DagState (Value α)) : List (String × DagState (Value α)) → Option String → DagState (Value α) → Prop
  | start : Walk host spec merge node₀ state₀ [] node₀ state₀
  | visit {visits : List (String × DagState (Value α))} {node : String} {state state' : DagState (Value α)}
      {d : NodeDefinition} {code : NodeCode α} {answer : Option (DagState (Value α))} {next : Option String}
      (before : Walk host spec merge node₀ state₀ visits (some node) state) (declared : d ∈ spec.resolvedNodes)
      (named : d.nodeId = node) (resolved : resolveNodeFunctionFromDef host d = .ok code)
      (answered : wrapNode host d code state = .ok answer) (merged : merge state (answer.getD []) = .ok state')
      (routed : spec.declaredNext host node state' = .ok next) :
      Walk host spec merge node₀ state₀ (visits ++ [(node, answer.getD [])]) next state'

/-- A run went along the specification: what it has yielded is a walk, to where it goes next,
and what it has executed are the nodes of the walk and perhaps one that raised. -/
structure Follows (host : Host α) (spec : PipelineSpec)
    (merge : DagState (Value α) → DagState (Value α) → Except Raised (DagState (Value α)))
    (first cfg : Config (Value α) C) : Prop where
  walked : Walk host spec merge first.current first.state cfg.yielded cfg.current cfg.state
  ended : cfg.executed = cfg.yielded.map Prod.fst ∨
    cfg.raised.isSome ∧ ∃ node, cfg.current = some node ∧ (∃ d ∈ spec.resolvedNodes, d.nodeId = node) ∧
      cfg.executed = cfg.yielded.map Prod.fst ++ [node]

/-- Each two nodes that ran one after the other are joined by a declared transition. -/
def Joined (spec : PipelineSpec) (nodes : List String) : Prop :=
  nodes.IsChain fun a b => ∃ t ∈ spec.transitions, t.fromPhase = a ∧ t.toPhase = b ∧ b ≠ endMarker

variable {host : Host α} {spec : PipelineSpec} {dag dag' : MiniDag (Value α)}

/-! ### The groups -/

theorem bind_eq_ok {β γ : Type} {x : Except Raised β} {f : β → Except Raised γ} {c : γ} (h : (x >>= f) = .ok c) :
    ∃ b, x = .ok b ∧ f b = .ok c := by
  cases x with
  | error e => cases h
  | ok b => exact ⟨b, rfl, h⟩

theorem mem_keys_of_dictSet {V : Type} {key name : String} {value : V} :
    ∀ {dict : List (String × V)}, name ∈ (dictSet key value dict).map (·.1) → name = key ∨ name ∈ dict.map (·.1)
  | [], h => .inl (List.mem_singleton.mp h)
  | (k, v) :: rest, h => by
    rw [dictSet] at h
    split at h
    · exact .inr h
    · rcases List.mem_cons.mp h with rfl | h
      · exact .inr List.mem_cons_self
      · exact (mem_keys_of_dictSet h).imp_right (List.mem_cons_of_mem _)

theorem nodup_keys_dictSet {V : Type} (key : String) (value : V) :
    ∀ {dict : List (String × V)}, (dict.map (·.1)).Nodup → ((dictSet key value dict).map (·.1)).Nodup
  | [], _ => List.pairwise_singleton _ _
  | (k, v) :: rest, h => by
    rw [dictSet]
    split
    · exact h
    · rename_i hne
      obtain ⟨hk, hrest⟩ := List.nodup_cons.mp h
      exact List.nodup_cons.mpr ⟨fun hmem => (mem_keys_of_dictSet hmem).elim hne hk, nodup_keys_dictSet key value hrest⟩

theorem fromGroups_concat (ts : List TransitionSpec) (t : TransitionSpec) :
    fromGroups (ts ++ [t]) = dictSet t.fromPhase (((fromGroups ts).lookup t.fromPhase).getD [] ++ [t]) (fromGroups ts) := by
  rw [fromGroups, List.foldl_append]
  rfl

theorem nodup_fromGroups (ts : List TransitionSpec) : ((fromGroups ts).map (·.1)).Nodup := by
  induction ts using List.reverseRecOn with
  | nil => exact List.nodup_nil
  | append_singleton ts t ih =>
    rw [fromGroups_concat]
    exact nodup_keys_dictSet _ _ ih

/-- A group has the transitions that start at its node, in their order. -/
theorem lookup_fromGroups (ts : List TransitionSpec) (node : String) :
    (fromGroups ts).lookup node =
      if ts.filter (fun t => t.fromPhase = node) = [] then none else some (ts.filter fun t => t.fromPhase = node) := by
  induction ts using List.reverseRecOn with
  | nil => rfl
  | append_singleton ts t ih =>
    rw [fromGroups_concat, List.filter_append, List.filter_singleton]
    by_cases hnode : t.fromPhase = node
    · subst hnode
      have hgroup : ((fromGroups ts).lookup t.fromPhase).getD [] = ts.filter fun x => x.fromPhase = t.fromPhase := by
        rw [ih]
        split
        · rename_i hnil
          exact hnil.symm
        · rfl
      rw [lookup_dictSet, hgroup, decide_eq_true rfl, cond_true, if_neg (List.append_ne_nil_of_right_ne_nil _ (List.cons_ne_nil _ _))]
    · rw [lookup_dictSet_of_ne (Ne.symm hnode), ih, decide_eq_false hnode, cond_false, List.append_nil]

theorem lookup_routeMap (ts : List TransitionSpec) (answer : String) :
    (routeMap ts).lookup answer = if answer ∈ ts.map (·.toPhase) then some (target answer) else none := by
  induction ts using List.reverseRecOn with
  | nil => rfl
  | append_singleton ts t ih =>
    have hconcat : routeMap (ts ++ [t]) = dictSet t.toPhase (target t.toPhase) (routeMap ts) := by
      rw [routeMap, List.foldl_append]
      rfl
    rw [hconcat, List.map_append, List.map_singleton]
    by_cases hanswer : answer = t.toPhase
    · rw [hanswer, lookup_dictSet, if_pos (List.mem_append_right _ (List.mem_singleton_self _))]
    · have hmem : answer ∈ ts.map (·.toPhase) ++ [t.toPhase] ↔ answer ∈ ts.map (·.toPhase) := by
        rw [List.mem_append, List.mem_singleton, or_iff_left hanswer]
      rw [lookup_dictSet_of_ne hanswer, ih]
      exact if_congr hmem.symm rfl rfl

/-! ### The edges -/

/-- The edges that a group stands for. -/
def GroupEdges (host : Host α) (dag : MiniDag (Value α)) (group : String × List TransitionSpec) : Prop :=
  if group.2.any fun t => t.condition?.isSome then
    ∃ condition, resolveCondition host group.2 = .ok condition ∧
      dag.conditionalEdges.lookup group.1 = some (condition, routeMap group.2)
  else dag.conditionalEdges.lookup group.1 = none ∧
    dag.edges.lookup group.1 = some (group.2.head?.bind fun t => target t.toPhase)

/-- One group adds its edges and leaves those of the other nodes. -/
theorem addGroup_edges {group : String × List TransitionSpec} (h : addGroup host dag group = .ok dag') :
    (dag.conditionalEdges.lookup group.1 = none → GroupEdges host dag' group) ∧
    (∀ node, node ≠ group.1 → dag'.conditionalEdges.lookup node = dag.conditionalEdges.lookup node ∧
      dag'.edges.lookup node = dag.edges.lookup node) ∧
    dag'.nodes = dag.nodes ∧ dag'.entryPoint = dag.entryPoint := by
  unfold addGroup at h
  unfold GroupEdges
  split at h
  · rename_i hany
    obtain ⟨condition, hcondition, heq⟩ := bind_eq_ok h
    obtain rfl := Except.ok.inj heq
    refine ⟨fun _ => ?_, fun node hne => ⟨lookup_dictSet_of_ne hne _ _, rfl⟩, rfl, rfl⟩
    rw [if_pos hany]
    exact ⟨condition, hcondition, lookup_dictSet _ _ _⟩
  · rename_i hany
    obtain rfl := Except.ok.inj h
    refine ⟨fun hnone => ?_, fun node hne => ⟨rfl, lookup_dictSet_of_ne hne _ _⟩, rfl, rfl⟩
    rw [if_neg hany]
    exact ⟨hnone, lookup_dictSet _ _ _⟩

theorem groupEdges_congr {group : String × List TransitionSpec}
    (hconditional : dag'.conditionalEdges.lookup group.1 = dag.conditionalEdges.lookup group.1)
    (hedges : dag'.edges.lookup group.1 = dag.edges.lookup group.1) (h : GroupEdges host dag group) :
    GroupEdges host dag' group := by
  unfold GroupEdges at h ⊢
  rw [hconditional, hedges]
  exact h

theorem addGroups_edges : ∀ {groups : List (String × List TransitionSpec)} {dag : MiniDag (Value α)},
    (groups.map (·.1)).Nodup → (∀ node ∈ groups.map (·.1), dag.conditionalEdges.lookup node = none) →
    groups.foldlM (addGroup host) dag = .ok dag' →
    (∀ group ∈ groups, GroupEdges host dag' group) ∧
    (∀ node, node ∉ groups.map (·.1) → dag'.conditionalEdges.lookup node = dag.conditionalEdges.lookup node ∧
      dag'.edges.lookup node = dag.edges.lookup node) ∧
    dag'.nodes = dag.nodes ∧ dag'.entryPoint = dag.entryPoint
  | [], dag, _, _, h => by
    obtain rfl := Except.ok.inj h
    exact ⟨nofun, fun _ _ => ⟨rfl, rfl⟩, rfl, rfl⟩
  | group :: groups, dag, hnodup, hnew, h => by
    obtain ⟨hgroup, hrest⟩ := List.nodup_cons.mp hnodup
    rw [List.foldlM_cons] at h
    obtain ⟨dag₁, hadd, hfold⟩ := bind_eq_ok h
    obtain ⟨hedges, hothers, hnodes, hentry⟩ := addGroup_edges hadd
    have hne : ∀ node ∈ groups.map (·.1), node ≠ group.1 := fun node hnode heq => by
      subst heq
      exact hgroup hnode
    have hnew₁ : ∀ node ∈ groups.map (·.1), dag₁.conditionalEdges.lookup node = none := fun node hnode =>
      (hothers node (hne node hnode)).1.trans (hnew node (List.mem_cons_of_mem _ hnode))
    obtain ⟨hall, hkept, hnodes', hentry'⟩ := addGroups_edges hrest hnew₁ hfold
    refine ⟨fun x hx => ?_, fun node hnode => ?_, hnodes'.trans hnodes, hentry'.trans hentry⟩
    · rcases List.mem_cons.mp hx with rfl | hx
      · obtain ⟨hconditional, hstatic⟩ := hkept x.1 hgroup
        exact groupEdges_congr hconditional hstatic (hedges (hnew _ List.mem_cons_self))
      · exact hall x hx
    · obtain ⟨hfirst, hlater⟩ := not_or.mp (mt List.mem_cons.mpr hnode)
      obtain ⟨hconditional, hstatic⟩ := hkept node hlater
      obtain ⟨hconditional', hstatic'⟩ := hothers node hfirst
      exact ⟨hconditional.trans hconditional', hstatic.trans hstatic'⟩

/-- A terminal node leads to the end, as a node without edges does. -/
theorem lookup_addTerminals (groups : List (String × List TransitionSpec)) (node : String) :
    ∀ (terminals : List String) (dag : MiniDag (Value α)),
      (addTerminals groups terminals dag).edges.lookup node = dag.edges.lookup node ∨
      groups.lookup node = none ∧ (addTerminals groups terminals dag).edges.lookup node = some none
  | [], _ => .inl rfl
  | terminal :: terminals, dag => by
    have hcons : (addTerminals groups (terminal :: terminals) dag).edges = (addTerminals groups terminals
        { dag with edges := if (groups.lookup terminal).isSome then dag.edges else dictSet terminal none dag.edges }).edges := rfl
    rw [hcons]
    refine (lookup_addTerminals groups node terminals _).imp_left id |>.elim (fun heq => ?_) .inr
    rw [heq]
    dsimp only
    by_cases hgroup : (groups.lookup terminal).isSome = true
    · rw [if_pos hgroup]
      exact .inl rfl
    · rw [if_neg hgroup]
      by_cases hnode : node = terminal
      · rw [hnode, lookup_dictSet]
        exact .inr ⟨Option.not_isSome_iff_eq_none.mp hgroup, rfl⟩
      · exact .inl (lookup_dictSet_of_ne hnode _ _)

/-! ### The nodes -/

theorem lookup_buildNodes {name : String} {fn : NodeFn (Value α)} (definitions : List NodeDefinition) :
    ∀ {nodes : List (String × NodeFn (Value α))}, buildNodes host definitions = .ok nodes → nodes.lookup name = some fn →
      ∃ d ∈ definitions, d.nodeId = name ∧ ∃ code, resolveNodeFunctionFromDef host d = .ok code ∧ fn = wrapNode host d code := by
  induction definitions using List.reverseRecOn with
  | nil =>
    intro nodes h hlookup
    obtain rfl := Except.ok.inj h
    cases hlookup
  | append_singleton definitions d ih =>
    intro nodes h hlookup
    rw [buildNodes, List.foldlM_append] at h
    obtain ⟨before, hbefore, hlast⟩ := bind_eq_ok h
    rw [List.foldlM_cons] at hlast
    obtain ⟨after, hafter, hend⟩ := bind_eq_ok hlast
    obtain ⟨code, hcode, heq⟩ := bind_eq_ok hafter
    obtain rfl := Except.ok.inj heq
    obtain rfl := Except.ok.inj hend
    by_cases hname : name = d.nodeId
    · rw [hname, lookup_dictSet] at hlookup
      exact ⟨d, List.mem_append_right _ (List.mem_singleton_self _), hname.symm, code, hcode, (Option.some.inj hlookup).symm⟩
    · rw [lookup_dictSet_of_ne hname] at hlookup
      obtain ⟨d', hd', hrest⟩ := ih hbefore hlookup
      exact ⟨d', List.mem_append_left _ hd', hrest⟩

/-! ### The graph -/

/-- What a graph was built from. -/
theorem build_eq_ok {reducers : List (String × Reducer (Value α))} (h : build host spec reducers = .ok dag) :
    ∃ dag₁, buildNodes host spec.resolvedNodes = .ok dag₁.nodes ∧ dag₁.entryPoint = spec.entryPoint ∧
      (∀ group ∈ fromGroups spec.transitions, GroupEdges host dag₁ group) ∧
      (∀ node, node ∉ (fromGroups spec.transitions).map (·.1) →
        dag₁.conditionalEdges.lookup node = none ∧ dag₁.edges.lookup node = none) ∧
      dag = addTerminals (fromGroups spec.transitions) spec.resolvedTerminalNodes dag₁ := by
  obtain ⟨nodes, hnodes, hrest⟩ := bind_eq_ok h
  obtain ⟨dag₁, hfold, heq⟩ := bind_eq_ok hrest
  obtain ⟨hgroups, hothers, hsame, hentry⟩ := addGroups_edges (nodup_fromGroups spec.transitions) (fun _ _ => rfl) hfold
  exact ⟨dag₁, hsame ▸ hnodes, hentry, hgroups, hothers, (Except.ok.inj heq).symm⟩

theorem resolveCondition_eq_ok {transitions : List TransitionSpec} {condition : ConditionFn (Value α)}
    (h : resolveCondition host transitions = .ok condition) :
    ∃ path, transitions.findSome? TransitionSpec.condition? = some path ∧ host.condition path = .ok condition := by
  unfold resolveCondition at h
  split at h
  · rename_i path hpath
    exact ⟨path, hpath, h⟩
  · cases h

/-- The router of a conditional edge answers a target, or ends the run. -/
theorem route_eq (transitions : List TransitionSpec) (answer : Except Raised String) :
    (do return ((routeMap transitions).lookup (← answer)).join : Except Raised (Option String)) =
      do
        let answer ← answer
        return if answer ∈ transitions.map (·.toPhase) then target answer else none := by
  cases answer with
  | error e => rfl
  | ok answer =>
    refine congrArg Except.ok ?_
    rw [lookup_routeMap]
    split <;> rfl

/-- **The graph routes as the specification says**, in every state. -/
theorem build_routes {reducers : List (String × Reducer (Value α))} (h : build host spec reducers = .ok dag) (node : String)
    (state : DagState (Value α)) : dag.resolveNext node state = spec.declaredNext host node state := by
  obtain ⟨dag₁, -, -, hgroups, hothers, rfl⟩ := build_eq_ok h
  have hgroup : (fromGroups spec.transitions).lookup node =
      if spec.outgoing node = [] then none else some (spec.outgoing node) := lookup_fromGroups spec.transitions node
  have hterminals := lookup_addTerminals (fromGroups spec.transitions) node spec.resolvedTerminalNodes dag₁
  have hsame : (addTerminals (fromGroups spec.transitions) spec.resolvedTerminalNodes dag₁).conditionalEdges =
      dag₁.conditionalEdges := rfl
  unfold MiniDag.resolveNext PipelineSpec.declaredNext
  rw [hsame]
  by_cases hnil : spec.outgoing node = []
  · -- No transition starts here: there is no edge, or one of a terminal node.
    rw [if_pos hnil] at hgroup
    have hkey : node ∉ (fromGroups spec.transitions).map (·.1) := fun hmem => by
      obtain ⟨group, hin, rfl⟩ := List.mem_map.mp hmem
      exact bne_iff_ne.mp (List.lookup_eq_none_iff.mp hgroup group hin) rfl
    obtain ⟨hconditional, hstatic⟩ := hothers node hkey
    rw [hconditional, hnil]
    refine congrArg Except.ok ?_
    rcases hterminals with heq | ⟨-, heq⟩
    · rw [heq, hstatic]
      rfl
    · rw [heq]
      rfl
  · rw [if_neg hnil] at hgroup
    have hedges := hgroups _ (MiniDag.mem_of_lookup hgroup)
    unfold GroupEdges at hedges
    split at hedges
    · obtain ⟨condition, hcondition, hlookup⟩ := hedges
      obtain ⟨path, hpath, himport⟩ := resolveCondition_eq_ok hcondition
      have hpath : (spec.outgoing node).findSome? TransitionSpec.condition? = some path := hpath
      rw [hlookup, hpath]
      dsimp only
      rw [himport]
      exact route_eq (spec.outgoing node) (condition state)
    · rename_i hany
      obtain ⟨hconditional, hstatic⟩ := hedges
      have hnone : (spec.outgoing node).findSome? TransitionSpec.condition? = none :=
        List.findSome?_eq_none_iff.mpr fun t ht => Option.not_isSome_iff_eq_none.mp fun hsome =>
          hany (List.any_eq_true.mpr ⟨t, ht, hsome⟩)
      have hedge := hterminals.resolve_right fun hterminal => by
        rw [hgroup] at hterminal
        cases hterminal.1
      rw [hconditional, hnone]
      dsimp only
      rw [hedge, hstatic]
      rfl

/-! ### A run -/

theorem mem_outgoing {node : String} {t : TransitionSpec} (h : t ∈ spec.outgoing node) :
    t ∈ spec.transitions ∧ t.fromPhase = node :=
  ⟨(List.mem_filter.mp h).1, of_decide_eq_true (List.mem_filter.mp h).2⟩

/-- The specification leads along its transitions. -/
theorem declaredNext_some {node next : String} {state : DagState (Value α)}
    (h : spec.declaredNext host node state = .ok (some next)) :
    ∃ t ∈ spec.transitions, t.fromPhase = node ∧ t.toPhase = next ∧ next ≠ endMarker := by
  have htarget : ∀ {toPhase}, target toPhase = some next → toPhase = next ∧ next ≠ endMarker := fun {toPhase} heq => by
    obtain ⟨hend, heq⟩ := Option.ite_none_left_eq_some.mp heq
    cases heq
    exact ⟨rfl, hend⟩
  unfold PipelineSpec.declaredNext at h
  split at h
  · obtain ⟨condition, -, h⟩ := bind_eq_ok h
    obtain ⟨answer, -, h⟩ := bind_eq_ok h
    obtain ⟨hmem, heq⟩ := Option.ite_none_right_eq_some.mp (Except.ok.inj h)
    obtain ⟨t, ht, hto⟩ := List.mem_map.mp hmem
    obtain ⟨hspec, hfrom⟩ := mem_outgoing ht
    obtain ⟨hanswer, hend⟩ := htarget heq
    exact ⟨t, hspec, hfrom, hto.trans hanswer, hend⟩
  · obtain ⟨t, ht, heq⟩ := Option.bind_eq_some_iff.mp (Except.ok.inj h)
    obtain ⟨hspec, hfrom⟩ := mem_outgoing (List.mem_of_mem_head? ht)
    obtain ⟨hto, hend⟩ := htarget heq
    exact ⟨t, hspec, hfrom, hto, hend⟩

/-- The delta of a node is its function's answer. -/
theorem execNode_answer {fn : NodeFn (Value α)} {node : String} {state delta state' : DagState (Value α)}
    {next : Option String} (h : dag.execNode fn node state = .ok (delta, state', next)) :
    ∃ answer, fn state = .ok answer ∧ answer.getD [] = delta := by
  obtain ⟨answer, hanswer, h⟩ := bind_eq_ok h
  obtain ⟨merged, -, h⟩ := bind_eq_ok h
  obtain ⟨next', -, h⟩ := bind_eq_ok h
  cases h
  exact ⟨answer, hanswer, rfl⟩

section Walks

variable {merge : DagState (Value α) → DagState (Value α) → Except Raised (DagState (Value α))}
  {visits : List (String × DagState (Value α))} {node₀ next : Option String} {state₀ state : DagState (Value α)}

/-- A walk goes along declared transitions, and so does the way on from it. -/
theorem Walk.joined (h : Walk host spec merge node₀ state₀ visits next state) :
    Joined spec (visits.map Prod.fst ++ next.toList) := by
  induction h with
  | start =>
    cases node₀ with
    | none => exact .nil
    | some node => exact List.isChain_singleton node
  | @visit visits node state state' d code answer next before declared named resolved answered merged routed ih =>
    rw [List.map_append]
    refine List.IsChain.append ih (by cases next <;> simp) fun last hlast later hlater => ?_
    obtain rfl : next = some later := Option.mem_toList.mp (List.mem_of_mem_head? hlater)
    obtain rfl : node = last := by simpa using hlast
    exact declaredNext_some routed

theorem Walk.declared (h : Walk host spec merge node₀ state₀ visits next state) :
    ∀ node ∈ visits.map Prod.fst, ∃ d ∈ spec.resolvedNodes, d.nodeId = node := by
  induction h with
  | start => exact fun _ hnode => absurd hnode List.not_mem_nil
  | visit before declared named resolved answered merged routed ih =>
    intro x hx
    rw [List.map_append] at hx
    rcases List.mem_append.mp hx with hx | hx
    · exact ih x hx
    · rw [List.mem_singleton.mp hx]
      exact ⟨_, declared, named⟩

theorem Follows.joined {first cfg : Config (Value α) C} (h : Follows host spec merge first cfg) :
    Joined spec cfg.executed := by
  have hjoined := h.walked.joined
  rcases h.ended with hexecuted | ⟨-, node, hcurrent, -, hexecuted⟩
  · rw [hexecuted]
    exact hjoined.left_of_append
  · rw [hcurrent] at hjoined
    rw [hexecuted]
    exact hjoined

theorem Follows.declared {first cfg : Config (Value α) C} (h : Follows host spec merge first cfg) :
    ∀ node ∈ cfg.executed, ∃ d ∈ spec.resolvedNodes, d.nodeId = node := by
  rcases h.ended with hexecuted | ⟨-, node, -, hdeclared, hexecuted⟩
  · rw [hexecuted]
    exact h.walked.declared
  · rw [hexecuted]
    intro x hx
    rcases List.mem_append.mp hx with hx | hx
    · exact h.walked.declared x hx
    · rw [List.mem_singleton.mp hx]
      exact hdeclared

end Walks

variable {cp : Checkpointer (Value α) C} {threadId : String} {first cfg cfg' : Config (Value α) C}

/-- One turn of the runner is one more visit, or the run ends with what it raised. -/
theorem follows_advance {reducers : List (String × Reducer (Value α))} (hbuild : build host spec reducers = .ok dag)
    (h : Follows host spec dag.mergeState first cfg) (hstep : cp.advance dag threadId cfg = some cfg') :
    Follows host spec dag.mergeState first cfg' := by
  obtain ⟨node, hcurrent, hraised, -, hcases⟩ := Checkpointer.advance_cases hstep
  have hexecuted : cfg.executed = cfg.yielded.map Prod.fst := h.ended.resolve_right fun hend => by
    rw [hraised] at hend
    exact Bool.false_ne_true hend.1
  have hwalked := h.walked
  rw [hcurrent] at hwalked
  have hnode : ∀ {fn}, dag.nodes.lookup node = some fn → ∃ d ∈ spec.resolvedNodes, d.nodeId = node ∧
      ∃ code, resolveNodeFunctionFromDef host d = .ok code ∧ fn = wrapNode host d code := fun hlookup => by
    obtain ⟨dag₁, hnodes, -, -, -, rfl⟩ := build_eq_ok hbuild
    exact lookup_buildNodes _ hnodes hlookup
  rcases hcases with ⟨-, rfl⟩ | ⟨fn, hlookup, ⟨e, -, rfl⟩ | ⟨delta, state, next, hexec, rfl⟩⟩
  · exact ⟨h.walked, .inl hexecuted⟩
  · obtain ⟨d, hd, hid, -⟩ := hnode hlookup
    exact ⟨h.walked, .inr ⟨rfl, node, hcurrent, ⟨d, hd, hid⟩, by rw [hexecuted]⟩⟩
  · obtain ⟨d, hd, hid, code, hcode, rfl⟩ := hnode hlookup
    obtain ⟨answer, hanswer, rfl⟩ := execNode_answer hexec
    obtain ⟨hmerge, hnext⟩ := MiniDag.execNode_ok hexec
    rw [build_routes hbuild] at hnext
    refine ⟨hwalked.visit hd hid hcode hanswer hmerge hnext, .inl ?_⟩
    rw [hexecuted, List.map_append]
    rfl

/-- **A run of a compiled pipeline**, fresh or resumed, is a walk of the specification; so it
goes along declared transitions between declared nodes. -/
theorem compiled_follows {reducers : List (String × Reducer (Value α))} (h : compile host spec reducers = .ok dag)
    (cp : Checkpointer (Value α) C) (threadId : String) (store : C) (input : Option (DagState (Value α))) :
    Follows host spec dag.mergeState (cp.begin dag threadId store input)
        (cp.complete dag threadId (cp.begin dag threadId store input)) ∧
      Joined spec (cp.complete dag threadId (cp.begin dag threadId store input)).executed ∧
      ∀ node ∈ (cp.complete dag threadId (cp.begin dag threadId store input)).executed,
        ∃ d ∈ spec.resolvedNodes, d.nodeId = node := by
  obtain ⟨dag', hbuild, heq⟩ := bind_eq_ok h
  obtain ⟨-, heq⟩ : dag'.validate = [] ∧ dag' = dag := by
    split at heq
    · rename_i hvalid
      exact ⟨hvalid, Except.ok.inj heq⟩
    · cases heq
  rw [← heq]
  have hbegin : Follows host spec dag'.mergeState (cp.begin dag' threadId store input)
      (cp.begin dag' threadId store input) := ⟨.start, .inl rfl⟩
  have hfollows : Follows host spec dag'.mergeState (cp.begin dag' threadId store input)
      (cp.complete dag' threadId (cp.begin dag' threadId store input)) :=
    drive_keeps (fun _ _ hfollows hstep => follows_advance hbuild hfollows hstep) _ hbegin
  exact ⟨hfollows, hfollows.joined, hfollows.declared⟩

/-! ### A pipeline of two nodes -/

/-- Nodes note that they ran, and the condition looks for a task id. -/
def noteHost : Host ℕ :=
  { bareHost with
    nodeFunction := fun path => .ok ⟨false, fun _ _ _ => .ok (some [(path, .other 1)])⟩
    condition := fun _ => .ok fun state => .ok (if (state.lookup "task_id").isSome then "report" else "__END__") }

def searchAndReport : PipelineSpec where
  nodes := [{ nodeId := "search", nodeFunction := some "nodes.search" }, { nodeId := "report" }]
  transitions := [⟨"search", "__END__", none⟩, ⟨"search", "report", some "edges.found"⟩]
  entryPoint := "search"
  terminalNodes := ["report"]

/-- The run of it on the latest checkpoint alone. -/
def noteRun (dag : MiniDag (Value ℕ)) : Config (Value ℕ) (List (String × DagState (Value ℕ) × String × Option String)) :=
  (latestOnly (Value ℕ)).complete dag "t" ((latestOnly (Value ℕ)).begin dag "t" [] (some [("task_id", .str "7")]))

/-- The condition leads on to the report, and that to the end. -/
theorem compiled_follows_report : ∃ dag, compile noteHost searchAndReport [] = .ok dag ∧
    (noteRun dag).executed = ["search", "report"] ∧
    Follows noteHost searchAndReport dag.mergeState
      ((latestOnly (Value ℕ)).begin dag "t" [] (some [("task_id", .str "7")])) (noteRun dag) := by
  have hrun : (compile noteHost searchAndReport []).toOption.map (fun dag => (noteRun dag).executed) =
      some ["search", "report"] := by
    decide +kernel
  obtain ⟨dag, hdag, hexecuted⟩ := Option.map_eq_some_iff.mp hrun
  have hcompile : compile noteHost searchAndReport [] = .ok dag := by
    cases hc : compile noteHost searchAndReport [] with
    | error e =>
      rw [hc] at hdag
      cases hdag
    | ok dag' =>
      rw [hc] at hdag
      rw [Option.some.inj hdag]
  exact ⟨dag, hcompile, hexecuted, (compiled_follows hcompile _ _ _ _).1⟩

end Dag
end AgentCore
