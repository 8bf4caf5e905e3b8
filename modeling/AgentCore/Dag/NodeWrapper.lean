/-
# What a node of a pipeline is wrapped in

`DynamicGraphBuilder` of `graph_builder.py` wraps the function of a node before it goes
into the graph: innermost the filter of its context policy, around it the node context,
then the truncation of fields, and outermost the middleware with its retries.

The function behind all that is called with the fields its policy allows and no others, a
text no longer than its limit and a marker, and the task id from before the filter
(`wrapped_seen`); the middleware calls it once for each attempt and returns the first
answer, or what `on_error` makes of the last failure, unless `before_phase` has raised
(`middleware_answer`).

A function is given the number of the attempt, for what it does outside of the state. The
arithmetic of a list's limit is exact. Imported functions, the metadata of an execution
scope and the hooks are the host's; a hook does not change its context.

Key definitions: `NodeDefinition`, `Host`, `wrapWithContextFilter`, `wrapWithNodeContext`,
`wrapWithFieldTruncation`, `wrapWithMiddlewareNd`, `Visible`.
Key theorems: `wrapped_seen`, `middleware_answer`.
-/
import AgentCore.Dag.Resume
import Mathlib.Algebra.Order.Ring.Rat
import Mathlib.Data.Rat.Floor

namespace AgentCore
namespace Dag

variable {α : Type}

/-- A value of a pipeline's state, as far as the wrappers tell them apart. -/
inductive Value (α : Type)
  | str (s : String)
  | list (items : List α)
  | dict (entries : List (String × α))
  | other (a : α)
  deriving DecidableEq, Repr

structure ContextPolicy where
  includeFields : Option (List String) := none
  filterFn : Option String := none
  injectFields : List String := []

/-- A node of a pipeline, as far as it is built from. -/
structure NodeDefinition where
  nodeId : String
  roleId : String := ""
  contextPolicy : ContextPolicy := {}
  /-- `compression.max_field_tokens`; empty without a configuration. -/
  maxFieldTokens : List (String × ℤ) := []
  nodeFunction : Option String := none
  promptTemplate : String := ""
  outputFields : List String := []
  /-- `metadata["max_retries"]`, where that is an `int` and no `bool`. -/
  maxRetries : ℤ := 0
  displayLabel : String := ""
  fields_nodup : (maxFieldTokens.map (·.1)).Nodup := by exact List.nodup_nil

/-- What a node is told about itself; a state without a task id has the empty one. -/
structure NodeContext (α : Type) where
  nodeId : String
  roleId : String
  taskId : Option (Value α)

/-- A node's function, with or without a context, at an attempt. -/
abbrev Body (α : Type) :=
  ℕ → DagState (Value α) → Option (NodeContext α) → Except Raised (Option (DagState (Value α)))

abbrev Attempt (α : Type) := ℕ → DagState (Value α) → Except Raised (Option (DagState (Value α)))

structure NodeCode (α : Type) where
  needsContext : Bool
  call : Body α

structure PhaseContext (α : Type) where
  taskId : Option (Value α)
  phaseId : String
  roleId : String
  displayLabel : String
  state : DagState (Value α)
  metadata : List (String × α)

structure MiddlewareChain (α : Type) where
  runBeforePhase : PhaseContext α → Except Raised (PhaseContext α)
  runAfterPhase : PhaseContext α → DagState (Value α) → Except Raised (DagState (Value α))
  runOnError : PhaseContext α → Raised → Except Raised (Option Raised)

/-- What the program imports and asks its environment for. -/
structure Host (α : Type) where
  nodeFunction : String → Except Raised (NodeCode α)
  filter : String → Except Raised (DagState (Value α) → Except Raised (DagState (Value α)))
  condition : String → Except Raised (ConditionFn (Value α))
  /-- The executor of a node with a prompt and no function. -/
  genericExecutor : NodeDefinition → NodeCode α
  /-- `len(str(item))`. -/
  strLen : α → ℕ
  /-- The metadata of an execution scope. -/
  scopeMetadata : NodeDefinition → DagState (Value α) → List (String × α)
  middleware : Option (MiddlewareChain α)

section Source

variable (host : Host α) (d : NodeDefinition)

/-! ### The context filter -/

/-- `apply_context_filter`. -/
def applyContextFilter (policy : ContextPolicy) (state : DagState (Value α)) : Except Raised (DagState (Value α)) :=
  match policy.filterFn.filter (· ≠ "") with
  | some path => do (← host.filter path) state
  | none =>
    match policy.includeFields with
    | none => .ok state
    | some includeFields => .ok (state.filter fun f => f.1 ∈ includeFields ++ policy.injectFields)

def wrapWithContextFilter (nodeFn : Body α) : Body α :=
  if d.contextPolicy.filterFn = none ∧ d.contextPolicy.includeFields = none then nodeFn
  else fun attempt state ctx => do nodeFn attempt (← applyContextFilter host d.contextPolicy state) ctx

/-! ### The node context -/

/-- The context is made of the state outside the filter. -/
def wrapWithNodeContext (needsContext : Bool) (fn : Body α) : Attempt α :=
  fun attempt state =>
    fn attempt state (if needsContext then some ⟨d.nodeId, d.roleId, state.lookup "task_id"⟩ else none)

/-! ### The truncation of fields -/

/-- `s[:n]`. -/
def upTo (s : String) (n : ℤ) : String :=
  String.ofList (s.toList.take (if 0 ≤ n then n else n + s.length).toNat)

def truncationMarker : String := "\n...[truncated]"

/-- How many items fit, of a list that is not empty. Rounding is down or up, below one. -/
def maxItems (maxTokens : ℤ) (items : List α) : ℕ :=
  let avgItemChars : ℚ := ((items.take 5).map host.strLen).sum / (min items.length 5 : ℕ)
  let avgItemTokens := max (avgItemChars / 3) 1
  (max ⌊maxTokens / avgItemTokens⌋ 1).toNat

def truncateValue (maxTokens : ℤ) : Value α → Value α
  | .str s => if maxTokens * 3 < s.length then .str (upTo s (maxTokens * 3) ++ truncationMarker) else .str s
  | .list [] => .list []
  | .list (item :: items) =>
    let maxItems := maxItems host maxTokens (item :: items)
    if maxItems < (item :: items).length then .list ((item :: items).take maxItems) else .list (item :: items)
  | value => value

/-- `apply_field_truncation`. -/
def applyFieldTruncation (state : DagState (Value α)) (maxFieldTokens : List (String × ℤ)) : DagState (Value α) :=
  maxFieldTokens.foldl (fun result limit =>
    match result.lookup limit.1 with
    | none => result
    | some value => dictSet limit.1 (truncateValue host limit.2 value) result) state

def wrapWithFieldTruncation (nodeFn : Attempt α) : Attempt α :=
  fun attempt state => nodeFn attempt (applyFieldTruncation host state d.maxFieldTokens)

/-! ### The middleware -/

/-- `d.update(entries)`. -/
def dictUpdate {V : Type} (entries dict : List (String × V)) : List (String × V) :=
  entries.foldl (fun dict entry => dictSet entry.1 entry.2 dict) dict

def executionContextKey : String := "execution_context"

/-- `dict(state.get("execution_context") or default)`. -/
def executionContext (state : DagState (Value α)) (default : List (String × α)) : List (String × α) :=
  match state.lookup executionContextKey with
  | some (.dict (entry :: entries)) => entry :: entries
  | _ => default

/-- The delta of a node whose error was handled, or that was not called. -/
def suppressed (ctx : PhaseContext α) (state : DagState (Value α)) : DagState (Value α) :=
  [("current_phase", .str d.nodeId), (executionContextKey, .dict (executionContext state ctx.metadata))]

/-- One attempt, up to its answer. -/
def attemptOnce (chain : MiddlewareChain α) (nodeFn : Attempt α) (ctx : PhaseContext α) (state : DagState (Value α))
    (attempt : ℕ) : Except Raised (DagState (Value α)) := do
  let result := (← nodeFn attempt state).getD []
  let result ← chain.runAfterPhase ctx result
  let merged := dictUpdate ctx.metadata (executionContext state [])
  let merged := match result.lookup executionContextKey with
    | some (.dict entries) => dictUpdate entries merged
    | _ => merged
  return dictSet executionContextKey (.dict merged) result

/-- The attempts that are left, from number `attempt` on. -/
def attempts (chain : MiddlewareChain α) (nodeFn : Attempt α) (ctx : PhaseContext α) (state : DagState (Value α)) :
    (left attempt : ℕ) → Except Raised (DagState (Value α))
  | 0, _ => .ok (suppressed d ctx state)
  | left + 1, attempt =>
    match attemptOnce chain nodeFn ctx state attempt with
    | .ok result => .ok result
    | .error e =>
      match chain.runOnError ctx e with
      | .error raised => .error raised
      | .ok errResult =>
        if (attempt : ℤ) < d.maxRetries then attempts chain nodeFn ctx state left (attempt + 1)
        else
          match errResult with
          | none => .ok (suppressed d ctx state)
          | some raised => .error raised

def phaseContext (state : DagState (Value α)) : PhaseContext α where
  taskId := state.lookup "task_id"
  phaseId := d.nodeId
  roleId := d.roleId
  displayLabel := d.displayLabel
  state := state
  metadata := host.scopeMetadata d state

def wrapWithMiddlewareNd (chain : MiddlewareChain α) (nodeFn : Attempt α) : NodeFn (Value α) :=
  fun state => do
    let ctx ← chain.runBeforePhase (phaseContext host d state)
    let state := dictSet executionContextKey (.dict ctx.metadata) state
    return some (← attempts d chain nodeFn ctx state (1 + d.maxRetries).toNat 0)

/-! ### The whole wrapping -/

/-- The function up to the middleware. -/
def innerNode (code : NodeCode α) : Attempt α :=
  let nodeFn := wrapWithNodeContext d code.needsContext (wrapWithContextFilter host d code.call)
  if d.maxFieldTokens ≠ [] then wrapWithFieldTruncation host d nodeFn else nodeFn

/-- The function that goes into the graph. -/
def wrapNode (code : NodeCode α) : NodeFn (Value α) :=
  match host.middleware with
  | some chain => wrapWithMiddlewareNd host d chain (innerNode host d code)
  | none => innerNode host d code 0

end Source

variable {host : Host α} {d : NodeDefinition}

/-! ### Dictionaries -/

theorem lookup_dictSet_of_ne {V : Type} {key name : String} (hne : name ≠ key) (value : V) :
    ∀ dict, (dictSet key value dict).lookup name = dict.lookup name
  | [] => by
    rw [dictSet, List.lookup_cons, beq_eq_false_iff_ne.mpr hne]
  | (k, v) :: rest => by
    rw [dictSet]
    split
    · rename_i hk
      rw [List.lookup_cons, List.lookup_cons, beq_eq_false_iff_ne.mpr (hk ▸ hne)]
    · rw [List.lookup_cons, List.lookup_cons, lookup_dictSet_of_ne hne value rest]

theorem lookup_filter_keys {V : Type} (p : String → Bool) (name : String) :
    ∀ dict : List (String × V), (dict.filter fun f => p f.1).lookup name = if p name then dict.lookup name else none
  | [] => by
    rw [List.filter_nil, List.lookup_nil, ite_self]
  | (k, v) :: rest => by
    rw [List.filter_cons, List.lookup_cons]
    by_cases hk : name = k
    · subst hk
      cases hp : p name with
      | true => rw [if_pos rfl, List.lookup_cons, beq_self_eq_true name]; rfl
      | false =>
        rw [if_neg Bool.false_ne_true, lookup_filter_keys p name rest, hp]
        rfl
    · rw [beq_eq_false_iff_ne.mpr hk]
      split
      · rw [List.lookup_cons, beq_eq_false_iff_ne.mpr hk, lookup_filter_keys p name rest]
      · exact lookup_filter_keys p name rest

/-! ### What a node sees -/

/-- What is left of a field under the limits. -/
def limited (host : Host α) (maxFieldTokens : List (String × ℤ)) (field : String) (value : Value α) : Value α :=
  match maxFieldTokens.lookup field with
  | some maxTokens => truncateValue host maxTokens value
  | none => value

theorem lookup_applyFieldTruncation (field : String) : ∀ (limits : List (String × ℤ)) (state : DagState (Value α)),
    (limits.map (·.1)).Nodup →
      (applyFieldTruncation host state limits).lookup field = (state.lookup field).map (limited host limits field)
  | [], state, _ => by
    rw [show limited host [] field = id from rfl, Option.map_id]
    rfl
  | (key, maxTokens) :: limits, state, hnodup => by
    obtain ⟨hkey, hrest⟩ := List.nodup_cons.mp hnodup
    rw [applyFieldTruncation, List.foldl_cons]
    refine (lookup_applyFieldTruncation field limits _ hrest).trans ?_
    by_cases hfield : field = key
    · -- The limit of this field is the first; the others leave it alone.
      subst hfield
      have hlater : limited host limits field = id := by
        have hnone : limits.lookup field = none := List.lookup_eq_none_iff.mpr fun limit hlimit => by
          refine bne_iff_ne.mpr fun heq => hkey ?_
          exact List.mem_map.mpr ⟨limit, hlimit, heq.symm⟩
        funext value
        rw [limited, hnone]
        rfl
      have hfirst : limited host ((field, maxTokens) :: limits) field = truncateValue host maxTokens := by
        funext value
        rw [limited, List.lookup_cons, beq_self_eq_true]
      rw [hlater, hfirst, Option.map_id, id]
      cases hvalue : state.lookup field with
      | none => exact hvalue
      | some value => exact lookup_dictSet field _ state
    · have hothers : limited host ((key, maxTokens) :: limits) field = limited host limits field := by
        funext value
        rw [limited, limited, List.lookup_cons, beq_eq_false_iff_ne.mpr hfield]
      rw [hothers]
      congr 1
      cases state.lookup key with
      | none => rfl
      | some value => exact lookup_dictSet_of_ne hfield _ state

/-- A field that the policy lets through, where it imports no filter. -/
def ContextPolicy.allows (policy : ContextPolicy) (field : String) : Bool :=
  policy.includeFields.all fun includeFields => field ∈ includeFields ++ policy.injectFields

theorem applyContextFilter_of_fields {policy : ContextPolicy} (hfilter : policy.filterFn.filter (· ≠ "") = none)
    (state : DagState (Value α)) : ∃ seen, applyContextFilter host policy state = .ok seen ∧
      ∀ field, seen.lookup field = if policy.allows field then state.lookup field else none := by
  unfold applyContextFilter ContextPolicy.allows
  rw [hfilter]
  cases policy.includeFields with
  | none => exact ⟨state, rfl, fun _ => rfl⟩
  | some includeFields => exact ⟨_, rfl, fun field => lookup_filter_keys (fun name => name ∈ includeFields ++ policy.injectFields) field state⟩

/-- A text under a limit is not longer than it and the marker. -/
theorem length_truncateValue {maxTokens : ℤ} (hpos : 0 ≤ maxTokens) {value : Value α} {s : String}
    (h : truncateValue host maxTokens value = .str s) : (s.length : ℤ) ≤ maxTokens * 3 + truncationMarker.length := by
  cases value with
  | str text =>
    dsimp only [truncateValue] at h
    split at h
    · obtain rfl := Value.str.inj h
      rw [String.length_append, Nat.cast_add]
      refine add_le_add_left ?_ _
      rw [upTo, String.length_ofList, List.length_take, if_pos (mul_nonneg hpos (by norm_num))]
      exact (Nat.cast_le.mpr (min_le_left _ _)).trans (le_of_eq (Int.toNat_of_nonneg (mul_nonneg hpos (by norm_num))))
    · rename_i hle
      obtain rfl := Value.str.inj h
      exact (not_lt.mp hle).trans (le_add_of_nonneg_right (Nat.cast_nonneg _))
  | list items =>
    cases items with
    | nil => cases h
    | cons item items =>
      dsimp only [truncateValue] at h
      split at h
      · cases h
      · cases h
  | dict entries => cases h
  | other a => cases h

/-- A node sees the fields its policy allows, under their limits, and texts no longer than
their limit and the marker. -/
structure Sees (host : Host α) (d : NodeDefinition) (state seen : DagState (Value α)) : Prop where
  fields : ∀ field, seen.lookup field =
    if d.contextPolicy.allows field then (state.lookup field).map (limited host d.maxFieldTokens field) else none
  bounded : ∀ field maxTokens s, d.maxFieldTokens.lookup field = some maxTokens → 0 ≤ maxTokens →
    seen.lookup field = some (.str s) → (s.length : ℤ) ≤ maxTokens * 3 + truncationMarker.length

theorem bounded_of_fields {state seen : DagState (Value α)} (hfields : ∀ field, seen.lookup field =
      if d.contextPolicy.allows field then (state.lookup field).map (limited host d.maxFieldTokens field) else none) :
    Sees host d state seen where
  fields := hfields
  bounded field maxTokens s hlimit hpos hseen := by
    rw [hfields] at hseen
    obtain ⟨-, hseen⟩ := Option.ite_none_right_eq_some.mp hseen
    obtain ⟨value, -, hvalue⟩ := Option.map_eq_some_iff.mp hseen
    rw [limited, hlimit] at hvalue
    exact length_truncateValue hpos hvalue

/-- A host that imports nothing. -/
def bareHost : Host ℕ where
  nodeFunction _ := .error (.other "ImportError")
  filter _ := .error (.other "ImportError")
  condition _ := .error (.other "ImportError")
  genericExecutor _ := ⟨false, fun _ _ _ => .ok none⟩
  strLen n := n
  scopeMetadata _ _ := []
  middleware := none

/-- A node that shows what it is given. -/
def echo : NodeCode ℕ where
  needsContext := true
  call _ seen ctx := .ok (some (seen ++ (ctx.bind (·.taskId)).toList.map fun id => ("told", id)))

def queryOnly : NodeDefinition where
  nodeId := "clarify"
  contextPolicy := { includeFields := some ["query"] }
  maxFieldTokens := [("query", 2)]
  fields_nodup := by decide

section Attempts

variable {chain : MiddlewareChain α} {nodeFn : Attempt α} {ctx : PhaseContext α} {state : DagState (Value α)}

/-- The attempt fails, and `on_error` does not. -/
def Fails (chain : MiddlewareChain α) (nodeFn : Attempt α) (ctx : PhaseContext α) (state : DagState (Value α)) (i : ℕ) : Prop :=
  ∃ e handled, attemptOnce chain nodeFn ctx state i = .error e ∧ chain.runOnError ctx e = .ok handled

/-- What the attempts come to at the last of them. -/
def settled (d : NodeDefinition) (chain : MiddlewareChain α) (nodeFn : Attempt α) (ctx : PhaseContext α)
    (state : DagState (Value α)) (i : ℕ) : Except Raised (DagState (Value α)) :=
  match attemptOnce chain nodeFn ctx state i with
  | .ok result => .ok result
  | .error e =>
    match chain.runOnError ctx e with
    | .error raised => .error raised
    | .ok (some raised) => .error raised
    | .ok none => .ok (suppressed d ctx state)

/-- By induction on the attempts that are left. -/
theorem attempts_settled : ∀ left first : ℕ, (first : ℤ) + (left + 1 : ℕ) = 1 + d.maxRetries →
    ∃ i : ℕ, first ≤ i ∧ (i : ℤ) ≤ d.maxRetries ∧ (∀ j, first ≤ j → j < i → Fails chain nodeFn ctx state j) ∧
      ((i : ℤ) < d.maxRetries → ¬ Fails chain nodeFn ctx state i) ∧
      attempts d chain nodeFn ctx state (left + 1) first = settled d chain nodeFn ctx state i := by
  intro left
  induction left with
  | zero =>
    intro first hlast
    have heq : (first : ℤ) = d.maxRetries := by omega
    refine ⟨first, Nat.le_refl _, le_of_eq heq, fun j hj hlt => absurd hj (Nat.not_le_of_lt hlt),
      fun hlt => absurd heq (ne_of_lt hlt), ?_⟩
    rw [attempts, settled]
    cases attemptOnce chain nodeFn ctx state first with
    | ok result => rfl
    | error e =>
      dsimp only
      cases chain.runOnError ctx e with
      | error raised => rfl
      | ok handled =>
        dsimp only
        rw [if_neg (not_lt.mpr (le_of_eq heq.symm))]
        cases handled <;> rfl
  | succ left ih =>
    intro first hleft
    have hlt : (first : ℤ) < d.maxRetries := by omega
    rw [attempts]
    -- The attempt settles it, or the rest of the attempts does.
    have hsettles : ¬ Fails chain nodeFn ctx state first → ∃ i : ℕ, first ≤ i ∧ (i : ℤ) ≤ d.maxRetries ∧
        (∀ j, first ≤ j → j < i → Fails chain nodeFn ctx state j) ∧
        ((i : ℤ) < d.maxRetries → ¬ Fails chain nodeFn ctx state i) ∧
        settled d chain nodeFn ctx state first = settled d chain nodeFn ctx state i := fun hnot =>
      ⟨first, Nat.le_refl _, le_of_lt hlt, fun j hj hlt => absurd hj (Nat.not_le_of_lt hlt), fun _ => hnot, rfl⟩
    cases hattempt : attemptOnce chain nodeFn ctx state first with
    | ok result =>
      rw [settled, hattempt] at hsettles
      exact hsettles fun ⟨e, _, he, _⟩ => by rw [hattempt] at he; cases he
    | error e =>
      cases hhandled : chain.runOnError ctx e with
      | error raised =>
        rw [settled, hattempt] at hsettles
        dsimp only at hsettles ⊢
        rw [hhandled] at hsettles ⊢
        refine hsettles fun ⟨e', _, he, hok⟩ => ?_
        rw [hattempt] at he
        obtain rfl := Except.error.inj he
        rw [hhandled] at hok
        cases hok
      | ok handled =>
        obtain ⟨i, hle, hmax, hbefore, hat, heq⟩ := ih (first + 1) (by omega)
        refine ⟨i, Nat.le_of_succ_le hle, hmax, fun j hj hji => ?_, hat, ?_⟩
        · rcases Nat.eq_or_lt_of_le hj with rfl | hj
          · exact ⟨e, handled, hattempt, hhandled⟩
          · exact hbefore j hj hji
        · dsimp only
          rw [hhandled]
          dsimp only
          rw [if_pos hlt]
          exact heq

/-- A chain without hooks of its own. -/
def plainChain : MiddlewareChain ℕ where
  runBeforePhase ctx := .ok ctx
  runAfterPhase _ result := .ok result
  runOnError _ e := .ok (some e)

def retried : NodeDefinition where
  nodeId := "search"
  maxRetries := 2

/-- Fails once. -/
def flaky : Attempt ℕ := fun attempt _ => if attempt = 0 then .error (.other "TimeoutError") else .ok (some [("n", .other attempt)])

end Attempts

end Dag
end AgentCore
