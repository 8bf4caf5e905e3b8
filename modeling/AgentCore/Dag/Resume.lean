/-
# Resuming a MiniDAG run

A run that is interrupted after a checkpoint was saved is taken up again by
`astream(None)` on its thread. It then does what the uninterrupted run would
still have done exactly when the checkpoint names a next node and the path from
there ends within the steps the uninterrupted run had left: a checkpoint
without a next node (the run was over) or with one whose name is empty is taken
for none at all, and the loop's guard starts counting anew.

Key definitions: `MiniDag.EndsWithin`, `Checkpointer.Resumes`.
Key theorem: `resume_equivalent_iff`.
-/
import AgentCore.Dag.MiniDag

namespace AgentCore
namespace Dag

open Halting

variable {V C : Type}

/-- The path through the graph from here ends, at the end of the graph or in a
node that raises, with at most `n` nodes executed. -/
def MiniDag.EndsWithin (dag : MiniDag V) : ℕ → Option String → DagState V → Prop
  | _, none, _ => True
  | 0, some _, _ => False
  | n + 1, some node, state =>
    ∀ fn, dag.nodes.lookup node = some fn → ∀ delta state' next,
      dag.execNode fn node state = .ok (delta, state', next) → dag.EndsWithin n next state'

/-! ### What validation gives -/

namespace MiniDag

variable {dag : MiniDag V}

theorem validate_nil (h : dag.validate = []) :
    dag.entryErrors = [] ∧ dag.edgeErrors = [] ∧ dag.routeErrors = [] := by
  simp only [validate, List.append_eq_nil_iff] at h
  exact ⟨h.1.1.1.1, h.1.1.1.2, h.1.1.2⟩

theorem entryPoint_valid (h : dag.validate = []) : dag.entryPoint ≠ "" ∧ dag.hasNode dag.entryPoint = true := by
  have hentry := (validate_nil h).1
  unfold entryErrors at hentry
  split at hentry
  · cases hentry
  · next hne =>
    split at hentry
    · cases hentry
    · next hnode => exact ⟨hne, by simpa using hnode⟩

theorem mem_of_lookup {α : Type} {l : List (String × α)} {key : String} {value : α}
    (h : l.lookup key = some value) : (key, value) ∈ l := by
  obtain ⟨l₁, l₂, rfl, -⟩ := List.lookup_eq_some_iff.mp h
  exact List.mem_append_right _ List.mem_cons_self

/-- A static edge leads from `a` to `b`, or one of the routes of a conditional
one. -/
inductive Edge (dag : MiniDag V) (a b : String) : Prop
  | static (h : dag.edges.lookup a = some (some b))
  | conditional (condition : ConditionFn V) (routeMap : List (String × Option String)) (answer : String)
    (h : dag.conditionalEdges.lookup a = some (condition, routeMap)) (hroute : (answer, some b) ∈ routeMap)

/-- A valid graph has the nodes its edges lead to. -/
theorem hasNode_of_edge (h : dag.validate = []) {a b : String} (hedge : dag.Edge a b) : dag.hasNode b = true := by
  obtain ⟨-, hedges, hroutes⟩ := validate_nil h
  rcases hedge with hlookup | ⟨condition, routeMap, answer, hlookup, hroute⟩
  · have hmem := List.flatMap_eq_nil_iff.mp hedges _ (mem_of_lookup hlookup)
    have hto := (List.append_eq_nil_iff.mp hmem).2
    dsimp only at hto
    split at hto
    · assumption
    · cases hto
  · have hmem := List.flatMap_eq_nil_iff.mp hroutes _ (mem_of_lookup hlookup)
    have hto := List.flatMap_eq_nil_iff.mp (List.append_eq_nil_iff.mp hmem).2 _ hroute
    dsimp only at hto
    split at hto
    · assumption
    · cases hto

/-- The runner goes along the edges, whatever the router answered. -/
theorem resolveNext_edge {node next : String} {state : DagState V}
    (hnext : dag.resolveNext node state = .ok (some next)) : dag.Edge node next := by
  unfold resolveNext at hnext
  split at hnext
  · next condition routeMap hlookup =>
    cases hc : condition state with
    | error e =>
      rw [hc] at hnext
      cases hnext
    | ok result =>
      rw [hc] at hnext
      have hroute : routeMap.lookup result = some (some next) := Option.join_eq_some_iff.mp (Except.ok.inj hnext)
      exact .conditional condition routeMap result hlookup (mem_of_lookup hroute)
  · exact .static (Option.join_eq_some_iff.mp (Except.ok.inj hnext))

/-- A node leaves the state its delta is merged into, and leads to where the
runner routes from there. -/
theorem execNode_ok {fn : NodeFn V} {node : String} {state delta state' : DagState V} {next : Option String}
    (he : dag.execNode fn node state = .ok (delta, state', next)) :
    dag.mergeState state delta = .ok state' ∧ dag.resolveNext node state' = .ok next := by
  unfold execNode at he
  cases hf : fn state with
  | error e =>
    rw [hf] at he
    cases he
  | ok d =>
    rw [hf] at he
    cases hm : dag.mergeState state (d.getD []) with
    | error e =>
      simp only [bind, Except.bind, hm] at he
      cases he
    | ok merged =>
      simp only [bind, Except.bind, hm] at he
      cases hn : dag.resolveNext node merged with
      | error e =>
        rw [hn] at he
        cases he
      | ok next' =>
        rw [hn] at he
        cases he
        exact ⟨hm, hn⟩

theorem execNode_edge {fn : NodeFn V} {node next : String} {state delta state' : DagState V}
    (he : dag.execNode fn node state = .ok (delta, state', some next)) : dag.Edge node next :=
  resolveNext_edge (execNode_ok he).2

end MiniDag

namespace Checkpointer

variable (cp : Checkpointer V C) (dag : MiniDag V) (threadId : String)

/-- Taken up again from the checkpoints of `cfg`, a run calls the nodes that
the run from `start` would still have called, and ends in the same state. -/
def Resumes (start cfg : Config V C) : Prop :=
  let full := cp.complete dag threadId start
  let resumed := cp.complete dag threadId (cp.begin dag threadId cfg.store none)
  full.executed = cfg.executed ++ resumed.executed ∧ resumed.state = full.state

variable {cp dag threadId} {cfg cfg' : Config V C}

/-! ### One turn of the loop -/

/-- What a turn can do: call a node that is not there, one that raises, or one
that leads to the next. -/
theorem advance_cases (h : cp.advance dag threadId cfg = some cfg') :
    ∃ node, cfg.current = some node ∧ cfg.raised = none ∧ cfg.step < maxSteps ∧
      ((dag.nodes.lookup node = none ∧ cfg' = { cfg with step := cfg.step + 1, raised := some .keyError }) ∨
      ∃ fn, dag.nodes.lookup node = some fn ∧
        ((∃ e, dag.execNode fn node cfg.state = .error e ∧
          cfg' = { cfg with step := cfg.step + 1, executed := cfg.executed ++ [node], raised := some e }) ∨
        ∃ delta state next, dag.execNode fn node cfg.state = .ok (delta, state, next) ∧
          cfg' = ⟨cfg.step + 1, next, state, cp.save cfg.store threadId node state next, cfg.executed ++ [node],
            cfg.yielded ++ [(node, delta)], none⟩)) := by
  unfold advance at h
  split at h
  · cases h
  · next hr =>
    split at h
    · cases h
    · next node hcur =>
      split at h
      · cases h
      · next hstep =>
        refine ⟨node, hcur, by simpa using hr, Nat.lt_of_not_le hstep, ?_⟩
        split at h
        · next hnode => exact .inl ⟨hnode, (Option.some.inj h).symm⟩
        · next fn hnode =>
          refine .inr ⟨fn, hnode, ?_⟩
          split at h
          · next e he => exact .inl ⟨e, he, (Option.some.inj h).symm⟩
          · next delta state next he => exact .inr ⟨delta, state, next, he, (Option.some.inj h).symm⟩

theorem advance_step (h : cp.advance dag threadId cfg = some cfg') : cfg'.step = cfg.step + 1 := by
  obtain ⟨node, -, -, -, ⟨-, rfl⟩ | ⟨fn, -, ⟨e, -, rfl⟩ | ⟨delta, state, next, -, rfl⟩⟩⟩ := advance_cases h <;> rfl

theorem advance_executed (h : cp.advance dag threadId cfg = some cfg') : cfg.executed <+: cfg'.executed := by
  obtain ⟨node, -, -, -, ⟨-, rfl⟩ | ⟨fn, -, ⟨e, -, rfl⟩ | ⟨delta, state, next, -, rfl⟩⟩⟩ := advance_cases h
  · exact List.prefix_rfl
  · exact List.prefix_append _ _
  · exact List.prefix_append _ _

variable (cp dag threadId) in
theorem drive_executed (n : ℕ) (cfg : Config V C) :
    cfg.executed <+: (drive (cp.advance dag threadId) n cfg).executed := by
  have hstep : ∀ s s' : Config V C, cfg.executed <+: s.executed → cp.advance dag threadId s = some s' →
      cfg.executed <+: s'.executed := fun s s' h hs => h.trans (advance_executed hs)
  exact drive_keeps hstep n List.prefix_rfl

variable (cp dag threadId) in
/-- The guard of the loop ends every run. -/
theorem complete_halted (cfg : Config V C) : cp.advance dag threadId (cp.complete dag threadId cfg) = none := by
  refine halted_drive (μ := fun c => maxSteps - c.step) (fun s s' hs => ?_) (by omega)
  obtain ⟨_, _, _, hlt, _⟩ := advance_cases hs
  have := advance_step hs
  omega

/-- A run is completed from any state on the way. -/
theorem complete_of_steps {k : ℕ} {start : Config V C} (h : steps (cp.advance dag threadId) k start = some cfg) :
    cp.complete dag threadId start = cp.complete dag threadId cfg := by
  have hstart := drive_stable (complete_halted cp dag threadId start) (Nat.le_add_left (maxSteps + 1) k)
  rw [drive_of_steps h] at hstart
  exact hstart.symm

theorem complete_of_halted (h : cp.advance dag threadId cfg = none) : cp.complete dag threadId cfg = cfg :=
  drive_of_halted h _

theorem complete_of_advance (h : cp.advance dag threadId cfg = some cfg') :
    cp.complete dag threadId cfg = cp.complete dag threadId cfg' :=
  complete_of_steps (k := 1) (by rw [steps, h]; rfl)

theorem advance_of_raised (h : cfg.raised.isSome = true) : cp.advance dag threadId cfg = none := by
  rw [advance, if_pos h]

theorem advance_of_end (h : cfg.current = none) : cp.advance dag threadId cfg = none := by
  unfold advance
  rw [h]
  split <;> rfl

theorem advance_of_guard (h : maxSteps ≤ cfg.step) : cp.advance dag threadId cfg = none := by
  unfold advance
  split
  · rfl
  · split <;> rfl

section Node

variable {node : String} (hr : cfg.raised = none) (hcur : cfg.current = some node) (hstep : cfg.step < maxSteps)

include hr hcur hstep

theorem advance_missing (hnode : dag.nodes.lookup node = none) :
    cp.advance dag threadId cfg = some { cfg with step := cfg.step + 1, raised := some .keyError } := by
  unfold advance
  rw [hr, if_neg (by simp), hcur]
  dsimp only
  rw [if_neg (by omega), hnode]

theorem advance_error {fn : NodeFn V} (hnode : dag.nodes.lookup node = some fn) {e : Raised}
    (he : dag.execNode fn node cfg.state = .error e) : cp.advance dag threadId cfg =
      some { cfg with step := cfg.step + 1, executed := cfg.executed ++ [node], raised := some e } := by
  unfold advance
  rw [hr, if_neg (by simp), hcur]
  dsimp only
  rw [if_neg (by omega), hnode]
  dsimp only
  rw [he]

theorem advance_ok {fn : NodeFn V} (hnode : dag.nodes.lookup node = some fn) {delta state : DagState V}
    {next : Option String} (he : dag.execNode fn node cfg.state = .ok (delta, state, next)) :
    cp.advance dag threadId cfg = some ⟨cfg.step + 1, next, state, cp.save cfg.store threadId node state next,
      cfg.executed ++ [node], cfg.yielded ++ [(node, delta)], none⟩ := by
  unfold advance
  rw [hr, if_neg (by simp), hcur]
  dsimp only
  rw [if_neg (by omega), hnode]
  dsimp only
  rw [he]

end Node

/-! ### Two runs side by side -/

/-- Two runs at one node in one state, whose path ends before either guard,
call the same nodes and end in one state. -/
theorem complete_simulates {pre : List String} : ∀ (n : ℕ) {a b : Config V C}, a.current = b.current →
    a.state = b.state → a.raised = none → b.raised = none → a.executed = pre ++ b.executed →
    dag.EndsWithin n a.current a.state → a.step + n ≤ maxSteps → b.step + n ≤ maxSteps →
    (cp.complete dag threadId a).executed = pre ++ (cp.complete dag threadId b).executed ∧
      (cp.complete dag threadId b).state = (cp.complete dag threadId a).state := by
  intro n
  induction n with
  | zero =>
    intro a b hcur hstate _ _ hexec hends _ _
    cases ha : a.current with
    | some node =>
      rw [ha] at hends
      exact hends.elim
    | none =>
      rw [complete_of_halted (advance_of_end ha), complete_of_halted (advance_of_end (hcur ▸ ha))]
      exact ⟨hexec, hstate.symm⟩
  | succ n ih =>
    intro a b hcur hstate hra hrb hexec hends hla hlb
    cases ha : a.current with
    | none =>
      rw [complete_of_halted (advance_of_end ha), complete_of_halted (advance_of_end (hcur ▸ ha))]
      exact ⟨hexec, hstate.symm⟩
    | some node =>
      rw [ha] at hends
      have hb : b.current = some node := hcur ▸ ha
      cases hnode : dag.nodes.lookup node with
      | none =>
        rw [complete_of_advance (advance_missing hra ha (by omega) hnode),
          complete_of_advance (advance_missing hrb hb (by omega) hnode), complete_of_halted (advance_of_raised rfl),
          complete_of_halted (advance_of_raised rfl)]
        exact ⟨hexec, hstate.symm⟩
      | some fn =>
        cases he : dag.execNode fn node a.state with
        | error e =>
          rw [complete_of_advance (advance_error hra ha (by omega) hnode he),
            complete_of_advance (advance_error hrb hb (by omega) hnode (hstate ▸ he)),
            complete_of_halted (advance_of_raised rfl), complete_of_halted (advance_of_raised rfl)]
          exact ⟨by simp [hexec], hstate.symm⟩
        | ok r =>
          obtain ⟨delta, state, next⟩ := r
          rw [complete_of_advance (advance_ok hra ha (by omega) hnode he),
            complete_of_advance (advance_ok hrb hb (by omega) hnode (hstate ▸ he))]
          refine ih rfl rfl rfl rfl (by simp [hexec]) (hends fn hnode delta state next he) ?_ ?_
          · dsimp only
            omega
          · dsimp only
            omega

variable (cp threadId) in
/-- A path that goes on is followed for as many nodes as the guard lets it. -/
theorem steps_of_not_endsWithin : ∀ (n : ℕ) {a : Config V C}, a.raised = none →
    ¬dag.EndsWithin n a.current a.state → a.step + n ≤ maxSteps →
    ∃ a', steps (cp.advance dag threadId) n a = some a' ∧ a'.raised = none ∧ a'.current.isSome = true ∧
      a'.executed.length = a.executed.length + n ∧ a'.step = a.step + n := by
  intro n
  induction n with
  | zero =>
    intro a hr hends _
    refine ⟨a, rfl, hr, ?_, rfl, rfl⟩
    cases ha : a.current with
    | some node => rfl
    | none =>
      rw [ha] at hends
      exact (hends trivial).elim
  | succ n ih =>
    intro a hr hends hle
    cases ha : a.current with
    | none =>
      rw [ha] at hends
      exact (hends trivial).elim
    | some node =>
      rw [ha, MiniDag.EndsWithin] at hends
      push Not at hends
      obtain ⟨fn, hnode, delta, state, next, he, hmore⟩ := hends
      have hs : cp.advance dag threadId a = _ := advance_ok hr ha (by omega) hnode he
      obtain ⟨a', hsteps, hr', hcur', hlen, hstep⟩ := ih (a := ⟨a.step + 1, next, state, _, _, _, none⟩) rfl hmore
        (by dsimp only; omega)
      refine ⟨a', by rw [steps, hs]; exact hsteps, hr', hcur', ?_, ?_⟩
      · rw [hlen, List.length_append, List.length_singleton]
        omega
      · rw [hstep]
        dsimp only
        omega

/-! ### Taking a run up again -/

theorem step_of_steps {k : ℕ} {start : Config V C} (h : steps (cp.advance dag threadId) k start = some cfg) :
    cfg.step = start.step + k := by
  induction k generalizing cfg with
  | zero => cases h; rfl
  | succ k ih =>
    obtain ⟨mid, hmid, hs⟩ := steps_succ h
    rw [advance_step hs, ih hmid, Nat.add_assoc]

/-- A run with a checkpoint has just saved it. -/
theorem saved_of_steps {k : ℕ} {start : Config V C} (h : steps (cp.advance dag threadId) (k + 1) start = some cfg)
    (hr : cfg.raised = none) :
    cfg.step ≤ maxSteps ∧ ∃ store node, cfg.store = cp.save store threadId node cfg.state cfg.current := by
  obtain ⟨mid, -, hs⟩ := steps_succ h
  obtain ⟨node, -, -, hlt, ⟨-, rfl⟩ | ⟨fn, -, ⟨e, -, rfl⟩ | ⟨delta, state, next, he, rfl⟩⟩⟩ := advance_cases hs
  · cases hr
  · cases hr
  · exact ⟨hlt, mid.store, node, rfl⟩

/-- A run that has made a turn of the loop, and did not fail, is at a node of
the graph or at its end. -/
theorem hasNode_of_advance (hvalid : dag.validate = []) (h : cp.advance dag threadId cfg = some cfg')
    (hr : cfg'.raised = none) : ∀ next, cfg'.current = some next → dag.hasNode next = true := by
  obtain ⟨node, -, -, -, ⟨-, rfl⟩ | ⟨fn, -, ⟨e, -, rfl⟩ | ⟨delta, state, next, he, rfl⟩⟩⟩ := advance_cases h
  · cases hr
  · cases hr
  · intro next' hnext
    cases hnext
    exact MiniDag.hasNode_of_edge hvalid (MiniDag.execNode_edge he)

theorem hasNode_of_steps (hvalid : dag.validate = []) {k : ℕ} {start : Config V C}
    (hstart : ∀ next, start.current = some next → dag.hasNode next = true)
    (h : steps (cp.advance dag threadId) k start = some cfg) (hr : cfg.raised = none) :
    ∀ next, cfg.current = some next → dag.hasNode next = true := by
  cases k with
  | zero =>
    cases h
    exact hstart
  | succ k =>
    obtain ⟨mid, -, hs⟩ := steps_succ h
    exact hasNode_of_advance hvalid hs hr

/-- A run about to call its first node. -/
def startAt (node : String) (state : DagState V) (store : C) : Config V C := ⟨0, some node, state, store, [], [], none⟩

@[simp] theorem startAt_step (node : String) (state : DagState V) (store : C) : (startAt node state store).step = 0 := rfl

@[simp] theorem startAt_executed (node : String) (state : DagState V) (store : C) :
    (startAt node state store).executed = [] := rfl

/-- A checkpoint with a next node is taken up, whatever the input. -/
theorem begin_of_next {store : C} {state : DagState V} {node next : String} {inputData : Option (DagState V)}
    (h : cp.loadLatest store threadId = some (state, node, some next)) (hne : next ≠ "") :
    cp.begin dag threadId store inputData = startAt next state store := by
  unfold begin loadOrInit startAt
  rw [h]
  simp [hne]

theorem begin_of_no_next {store : C} {state : DagState V} {node : String} {next : Option String}
    (h : cp.loadLatest store threadId = some (state, node, next)) (hne : next = none ∨ next = some "") :
    cp.begin dag threadId store none = startAt dag.entryPoint [] store := by
  unfold begin loadOrInit startAt
  rw [h]
  rcases hne with rfl | rfl <;> simp

/-- A run at a node of the graph calls it. -/
theorem executed_complete {node : String} (hnode : dag.hasNode node = true) (hr : cfg.raised = none)
    (hcur : cfg.current = some node) (hstep : cfg.step < maxSteps) :
    cfg.executed ++ [node] <+: (cp.complete dag threadId cfg).executed := by
  obtain ⟨fn, hfn⟩ := Option.isSome_iff_exists.mp hnode
  cases he : dag.execNode fn node cfg.state with
  | error e =>
    rw [complete_of_advance (advance_error hr hcur hstep hfn he)]
    exact drive_executed cp dag threadId (maxSteps + 1) { cfg with
      step := cfg.step + 1, executed := cfg.executed ++ [node], raised := some e }
  | ok r =>
    obtain ⟨delta, state, next⟩ := r
    rw [complete_of_advance (advance_ok hr hcur hstep hfn he)]
    exact drive_executed cp dag threadId (maxSteps + 1) ⟨cfg.step + 1, next, state, _, cfg.executed ++ [node], _, none⟩

/-- Where the path goes on, the guard cuts it after the nodes left. -/
theorem length_complete_of_not_endsWithin {n : ℕ} (hr : cfg.raised = none) (hn : cfg.step + n = maxSteps)
    (hends : ¬dag.EndsWithin n cfg.current cfg.state) :
    (cp.complete dag threadId cfg).executed.length = cfg.executed.length + n := by
  obtain ⟨last, hsteps, -, -, hlen, hstep⟩ := steps_of_not_endsWithin cp threadId n hr hends (by omega)
  rw [complete_of_steps hsteps, complete_of_halted (advance_of_guard (by omega)), hlen]

/-- A run with a step to spare follows it further. -/
theorem lt_length_complete_of_not_endsWithin (hvalid : dag.validate = []) {n : ℕ} (hr : cfg.raised = none)
    (hstart : ∀ next, cfg.current = some next → dag.hasNode next = true) (hn : cfg.step + n < maxSteps)
    (hends : ¬dag.EndsWithin n cfg.current cfg.state) :
    cfg.executed.length + n < (cp.complete dag threadId cfg).executed.length := by
  obtain ⟨last, hsteps, hr', hcur, hlen, hstep⟩ := steps_of_not_endsWithin cp threadId n hr hends (by omega)
  obtain ⟨node, hnode⟩ := Option.isSome_iff_exists.mp hcur
  have hmore : last.executed ++ [node] <+: (cp.complete dag threadId last).executed :=
    executed_complete (hasNode_of_steps hvalid hstart hsteps hr' node hnode) hr' hnode (by omega)
  have hle := hmore.length_le
  rw [List.length_append, List.length_singleton, hlen] at hle
  rw [complete_of_steps hsteps]
  omega

end Checkpointer

open Checkpointer

section Halves

variable {cp : Checkpointer V C} {dag : MiniDag V} {threadId : String} {cfg : Config V C}

/-- With a next node in the checkpoint: both runs go on from there. -/
theorem completes_iff_of_next (hvalid : dag.validate = []) (hr : cfg.raised = none) (hpos : 0 < cfg.step)
    (hle : cfg.step ≤ maxSteps) {next : String} (hcur : cfg.current = some next) (hnode : dag.hasNode next = true) :
    ((cp.complete dag threadId cfg).executed =
        cfg.executed ++ (cp.complete dag threadId (startAt next cfg.state cfg.store)).executed ∧
      (cp.complete dag threadId (startAt next cfg.state cfg.store)).state = (cp.complete dag threadId cfg).state) ↔
    dag.EndsWithin (maxSteps - cfg.step) cfg.current cfg.state := by
  constructor
  · rintro ⟨hexec, -⟩
    by_contra hends
    have hcut : (cp.complete dag threadId cfg).executed.length = cfg.executed.length + (maxSteps - cfg.step) :=
      length_complete_of_not_endsWithin hr (by omega) hends
    have hends' : ¬dag.EndsWithin (maxSteps - cfg.step) (some next) cfg.state := hcur ▸ hends
    have hmore : (startAt next cfg.state cfg.store).executed.length + (maxSteps - cfg.step) <
        (cp.complete dag threadId (startAt next cfg.state cfg.store)).executed.length :=
      lt_length_complete_of_not_endsWithin hvalid rfl (fun n hn => Option.some.inj hn ▸ hnode)
        (by rw [startAt_step]; omega) hends'
    rw [hexec, List.length_append] at hcut
    rw [startAt_executed, List.length_nil] at hmore
    omega
  · intro hends
    exact complete_simulates _ hcur rfl hr rfl (List.append_nil _).symm hends (by omega) (by rw [startAt_step]; omega)

/-- Without one the run starts over, and calls the entry point first. -/
theorem not_completes_of_no_next (hvalid : dag.validate = []) (hr : cfg.raised = none)
    (hnodes : ∀ next, cfg.current = some next → dag.hasNode next = true)
    (hcur : cfg.current = none ∨ cfg.current = some "") :
    (cp.complete dag threadId cfg).executed ≠
      cfg.executed ++ (cp.complete dag threadId (startAt dag.entryPoint [] cfg.store)).executed := by
  obtain ⟨hentry, hentryNode⟩ := MiniDag.entryPoint_valid hvalid
  have hcalled : (startAt dag.entryPoint [] cfg.store).executed ++ [dag.entryPoint] <+:
      (cp.complete dag threadId (startAt dag.entryPoint [] cfg.store)).executed :=
    executed_complete hentryNode rfl rfl (Nat.zero_lt_succ _)
  obtain ⟨rest, hrest⟩ := hcalled
  rw [← hrest, startAt_executed, List.nil_append, List.singleton_append]
  intro hexec
  by_cases hguard : cfg.current = none ∨ maxSteps ≤ cfg.step
  · have hhalt : cp.advance dag threadId cfg = none := hguard.elim advance_of_end advance_of_guard
    rw [complete_of_halted hhalt] at hexec
    simpa using congrArg List.length hexec
  · rw [not_or, Nat.not_le] at hguard
    have hempty := hcur.resolve_left hguard.1
    have hpre : cfg.executed ++ [""] <+: (cp.complete dag threadId cfg).executed :=
      executed_complete (hnodes "" hempty) hr hempty hguard.2
    rw [hexec, List.prefix_append_right_inj, List.cons_prefix_cons] at hpre
    exact hentry hpre.1.symm

end Halves

/-- **A run is taken up where it was left** exactly when its checkpoint names a
next node, and the path from there ends within the steps that the uninterrupted
run had left. The checkpointer returns what was saved last (`hlatest`); the run
may itself have begun with any input and any earlier checkpoint. -/
theorem resume_equivalent_iff {cp : Checkpointer V C} {dag : MiniDag V} {threadId : String}
    (hlatest : ∀ store node state next,
      cp.loadLatest (cp.save store threadId node state next) threadId = some (state, node, next))
    (hvalid : dag.validate = []) {store : C} {inputData : Option (DagState V)} {k : ℕ} {cfg : Config V C}
    (hk : steps (cp.advance dag threadId) (k + 1) (cp.begin dag threadId store inputData) = some cfg)
    (hsaved : cfg.raised = none) :
    cp.Resumes dag threadId (cp.begin dag threadId store inputData) cfg ↔
      (∃ next, cfg.current = some next ∧ next ≠ "") ∧
        dag.EndsWithin (maxSteps - (k + 1)) cfg.current cfg.state := by
  obtain ⟨hle, old, node, hstore⟩ := saved_of_steps hk hsaved
  have hload : cp.loadLatest cfg.store threadId = some (cfg.state, node, cfg.current) := by
    rw [hstore, hlatest]
  have hstep : cfg.step = k + 1 := by
    rw [step_of_steps hk]
    exact Nat.zero_add _
  have hnodes : ∀ next, cfg.current = some next → dag.hasNode next = true := by
    obtain ⟨mid, -, hs⟩ := steps_succ hk
    exact hasNode_of_advance hvalid hs hsaved
  unfold Resumes
  dsimp only
  rw [complete_of_steps hk]
  by_cases hnext : ∃ next, cfg.current = some next ∧ next ≠ ""
  · obtain ⟨next, hcur, hne⟩ := hnext
    rw [begin_of_next (hcur ▸ hload) hne, ← hstep,
      completes_iff_of_next hvalid hsaved (by omega) hle hcur (hnodes next hcur)]
    exact ⟨fun hends => ⟨⟨next, hcur, hne⟩, hends⟩, fun h => h.2⟩
  · have hcur : cfg.current = none ∨ cfg.current = some "" := by
      cases hc : cfg.current with
      | none => exact .inl rfl
      | some next =>
        by_cases hne : next = ""
        · exact .inr (hne ▸ rfl)
        · exact absurd ⟨next, hc, hne⟩ hnext
    rw [begin_of_no_next hload hcur]
    exact ⟨fun h => absurd h.1 (not_completes_of_no_next hvalid hsaved hnodes hcur), fun h => absurd h.1 hnext⟩

/-- The latest checkpoint of every thread. -/
def latestOnly (V : Type) : Checkpointer V (List (String × DagState V × String × Option String)) where
  save store threadId nodeName state nextNode := dictSet threadId (state, nodeName, nextNode) store
  loadLatest store threadId := store.lookup threadId

/-- Two nodes in a row that count up. -/
def countUp : MiniDag ℕ :=
  let node (n : ℕ) : NodeFn ℕ := fun state => .ok (some [("value", (state.lookup "value").getD 0 + n)])
  { nodes := [("a", node 1), ("b", node 10)]
    edges := [("a", some "b"), ("b", none)]
    conditionalEdges := []
    entryPoint := "a"
    reducers := [] }

theorem lookup_dictSet {V : Type} (key : String) (value : V) : ∀ d, (dictSet key value d).lookup key = some value
  | [] => by simp [dictSet]
  | (k, v) :: rest => by
    rw [dictSet]
    split
    · next h => simp [h]
    · next h =>
      rw [List.lookup_cons, beq_eq_false_iff_ne.mpr (Ne.symm h)]
      exact lookup_dictSet key value rest

/-- Interrupted after its first node, the count goes on to the second. -/
theorem resume_equivalent_countUp :
    ∃ cfg, steps ((latestOnly ℕ).advance countUp "t") 1 ((latestOnly ℕ).begin countUp "t" [] (some [("value", 5)])) =
        some cfg ∧ cfg.executed = ["a"] ∧
      (latestOnly ℕ).Resumes countUp "t" ((latestOnly ℕ).begin countUp "t" [] (some [("value", 5)])) cfg := by
  refine ⟨_, rfl, rfl, ?_⟩
  have hlatest : ∀ store node state next, (latestOnly ℕ).loadLatest
      ((latestOnly ℕ).save store "t" node state next) "t" = some (state, node, next) :=
    fun store node state next => lookup_dictSet _ _ _
  refine (resume_equivalent_iff hlatest (by decide +kernel) (k := 0) rfl rfl).mpr ⟨⟨"b", rfl, by decide⟩, ?_⟩
  intro fn hnode delta state next he
  cases hnode
  cases he
  trivial

/-- After its last node it starts over, from the entry point and an empty
state. -/
theorem resume_after_end_restarts :
    countUp.validate = [] ∧
    ∃ cfg, steps ((latestOnly ℕ).advance countUp "t") 2 ((latestOnly ℕ).begin countUp "t" [] (some [("value", 5)])) =
        some cfg ∧ cfg.raised = none ∧ cfg.state = [("value", 16)] ∧
      ((latestOnly ℕ).complete countUp "t" ((latestOnly ℕ).begin countUp "t" cfg.store none)).executed = ["a", "b"] ∧
      ((latestOnly ℕ).complete countUp "t" ((latestOnly ℕ).begin countUp "t" cfg.store none)).state = [("value", 11)] ∧
      ¬(latestOnly ℕ).Resumes countUp "t" ((latestOnly ℕ).begin countUp "t" [] (some [("value", 5)])) cfg := by
  refine ⟨by decide +kernel, _, rfl, rfl, by decide +kernel, by decide +kernel, by decide +kernel, ?_⟩
  rintro ⟨-, hstate⟩
  revert hstate
  decide +kernel

end Dag
end AgentCore
