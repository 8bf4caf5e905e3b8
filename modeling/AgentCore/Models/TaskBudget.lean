/-
# The budget of a task

`BudgetState` of `task_budget.py`: charges add to counters and set the flag where a
hard limit is reached, an escalation raises limits and takes the flag back whenever it
has raised anything. So the flag says that a charge has seen a limit reached since the
last escalation that raised anything (`exhausted_iff`), which is not the same as that a
limit is reached (`exact_iff`). A wall-time limit of 0 is none, and is raised like any
other number.

A cost limit of zero is never looked at. The floats of costs are a parameter.

Key definitions: `BudgetState.charge`, `BudgetState.escalate`, `Exact`.
Key theorems: `exhausted_iff`, `notStricter_iff`, `exact_iff`.
-/
import AgentCore.Lib.Dict
import Mathlib.Data.List.Induction
import Mathlib.Data.Int.Notation
import Mathlib.Order.MinMax

namespace AgentCore
namespace Models
namespace Budget

/-- The floats of costs. -/
structure Prices (F : Type) where
  zero : F
  add : F → F → F
  le : F → F → Bool
  isZero : F → Bool
  zero_le : le zero zero = true
  le_add : ∀ m x c, le zero x = true → le zero c = true → le m x = true → le m (add x c) = true

variable {F : Type}

/-! ### Budgets -/

structure TaskBudget (F : Type) where
  maxTokens : ℤ := 500000
  maxCostUsd : Option F := none
  maxWallTimeS : ℤ := 300
  maxParallel : ℤ := 3
  maxDepth : ℤ := 1
  maxSearchCalls : ℤ := 20
  maxVerifyPasses : ℤ := 5
  maxDebateRounds : ℤ := 0
  defaultModelTier : String := "medium"
  roleTiers : List (String × String) := []
  deriving DecidableEq

structure BudgetCharge (F : Type) where
  primitive : String
  llmCalls : ℤ := 0
  searchCalls : ℤ := 0
  verifyPasses : ℤ := 0
  debateRounds : ℤ := 0
  tokens : ℤ := 0
  costUsd : F
  wallTimeS : ℤ := 0

structure BudgetState (F : Type) where
  allocated : TaskBudget F
  llmCallsUsed : ℤ := 0
  searchCallsUsed : ℤ := 0
  verifyPassesUsed : ℤ := 0
  debateRoundsUsed : ℤ := 0
  tokensUsed : ℤ := 0
  costUsdUsed : F
  wallTimeSUsed : ℤ := 0
  exhausted : Bool := false
  warnings : List String := []

/-! ### Charges -/

/-- `self.warnings.append(warning)` where the limit is reached. -/
def BudgetState.warn (s : BudgetState F) (hit : Bool) (warning : String) : BudgetState F :=
  if hit then { s with warnings := s.warnings ++ [warning] } else s

/-- The same, and the flag is set. -/
def BudgetState.exhaust (s : BudgetState F) (hit : Bool) (warning : String) : BudgetState F :=
  if hit then { s with exhausted := true, warnings := s.warnings ++ [warning] } else s

section Charges

variable (P : Prices F)

/-- `a.max_cost_usd and self.cost_usd_used >= a.max_cost_usd`. -/
def costHit (a : TaskBudget F) (used : F) : Bool := a.maxCostUsd.any fun m => !P.isZero m && P.le m used

/-- `_check_exhaustion`. -/
def BudgetState.checkExhaustion (s : BudgetState F) : BudgetState F :=
  let a := s.allocated
  ((((s.exhaust (a.maxSearchCalls ≤ s.searchCallsUsed) "search_calls exhausted").warn
    (a.maxVerifyPasses ≤ s.verifyPassesUsed) "verify_passes exhausted").exhaust
    (a.maxTokens ≤ s.tokensUsed) "token budget exhausted").exhaust
    (costHit P a s.costUsdUsed) "cost budget exhausted").exhaust
    (0 < a.maxWallTimeS ∧ a.maxWallTimeS ≤ s.wallTimeSUsed) "wall time exhausted"

/-- The counters of `charge`. -/
def BudgetState.spend (s : BudgetState F) (c : BudgetCharge F) : BudgetState F :=
  { s with
    llmCallsUsed := s.llmCallsUsed + c.llmCalls
    searchCallsUsed := s.searchCallsUsed + c.searchCalls
    verifyPassesUsed := s.verifyPassesUsed + c.verifyPasses
    debateRoundsUsed := s.debateRoundsUsed + c.debateRounds
    tokensUsed := s.tokensUsed + c.tokens
    costUsdUsed := P.add s.costUsdUsed c.costUsd
    wallTimeSUsed := s.wallTimeSUsed + c.wallTimeS }

def BudgetState.charge (s : BudgetState F) (c : BudgetCharge F) : BudgetState F := (s.spend P c).checkExhaustion P

end Charges

/-! ### Escalations -/

/-- A field that `escalate` raises. -/
structure Limit (F : Type) where
  name : String
  get : TaskBudget F → ℤ
  set : ℤ → TaskBudget F → TaskBudget F
  set_get : ∀ a, set (get a) a = a

def limits : List (Limit F) :=
  [⟨"max_tokens", (·.maxTokens), fun n a => { a with maxTokens := n }, fun _ => rfl⟩,
    ⟨"max_wall_time_s", (·.maxWallTimeS), fun n a => { a with maxWallTimeS := n }, fun _ => rfl⟩,
    ⟨"max_parallel", (·.maxParallel), fun n a => { a with maxParallel := n }, fun _ => rfl⟩,
    ⟨"max_search_calls", (·.maxSearchCalls), fun n a => { a with maxSearchCalls := n }, fun _ => rfl⟩,
    ⟨"max_verify_passes", (·.maxVerifyPasses), fun n a => { a with maxVerifyPasses := n }, fun _ => rfl⟩,
    ⟨"max_debate_rounds", (·.maxDebateRounds), fun n a => { a with maxDebateRounds := n }, fun _ => rfl⟩]

/-- An allocation, and what has been changed in it. -/
abbrev Changed (F : Type) := TaskBudget F × List String

def raiseLimit (new : TaskBudget F) (acc : Changed F) (l : Limit F) : Changed F :=
  if l.get acc.1 < l.get new then
    (l.set (l.get new) acc.1,
      acc.2 ++ [l.name ++ ": " ++ toString (l.get acc.1) ++ " → " ++ toString (l.get new)])
  else acc

def tierOrder : String → ℕ
  | "medium" => 1
  | "strong" => 2
  | _ => 0

def raiseModelTier (new : TaskBudget F) (acc : Changed F) : Changed F :=
  if tierOrder acc.1.defaultModelTier < tierOrder new.defaultModelTier then
    ({ acc.1 with defaultModelTier := new.defaultModelTier },
      acc.2 ++ ["model_tier: " ++ acc.1.defaultModelTier ++ " → " ++ new.defaultModelTier])
  else acc

def tierOf (a : TaskBudget F) (role : String) : String := (a.roleTiers.lookup role).getD "light"

def raiseRoleTier (acc : Changed F) (kv : String × String) : Changed F :=
  if tierOrder (tierOf acc.1 kv.1) < tierOrder kv.2 then
    ({ acc.1 with roleTiers := Dict.set acc.1.roleTiers kv.1 kv.2 },
      acc.2 ++ ["role_tier[" ++ kv.1 ++ "]: " ++ tierOf acc.1 kv.1 ++ " → " ++ kv.2])
  else acc

/-- The allocation after an escalation, and its changes. -/
def raised (a new : TaskBudget F) : Changed F :=
  new.roleTiers.foldl raiseRoleTier (raiseModelTier new (limits.foldl (raiseLimit new) (a, [])))

/-- `"exhausted" in w`. -/
def saysExhausted (w : String) : Bool := w.toList.tails.any "exhausted".toList.isPrefixOf

/-- `escalate`, with the changes that it returns. -/
def BudgetState.escalate (s : BudgetState F) (new : TaskBudget F) : BudgetState F × List String :=
  let r := raised s.allocated new
  if r.2 ≠ [] then
    ({ s with allocated := r.1, exhausted := false, warnings := s.warnings.filter (!saysExhausted ·) }, r.2)
  else ({ s with allocated := r.1 }, r.2)

/-! ### Runs -/

inductive Op (F : Type)
  | charge (c : BudgetCharge F)
  | escalate (new : TaskBudget F)

section Runs

variable (P : Prices F)

def apply (s : BudgetState F) : Op F → BudgetState F
  | .charge c => s.charge P c
  | .escalate new => (s.escalate new).1

/-- A new `BudgetState`. -/
def start (a : TaskBudget F) : BudgetState F := { allocated := a, costUsdUsed := P.zero }

def run (a : TaskBudget F) (ops : List (Op F)) : BudgetState F := ops.foldl (apply P) (start P a)

/-- A charge has no negative amounts. -/
def Op.Valid : Op F → Prop
  | .charge c => 0 ≤ c.searchCalls ∧ 0 ≤ c.tokens ∧ P.le P.zero c.costUsd = true ∧ 0 ≤ c.wallTimeS
  | .escalate _ => True

/-! ### What is claimed -/

def CostReached (a : TaskBudget F) (used : F) : Prop := ∃ m, a.maxCostUsd = some m ∧ P.le m used = true

def WallTimeReached (a : TaskBudget F) (used : ℤ) : Prop := 0 < a.maxWallTimeS ∧ a.maxWallTimeS ≤ used

/-- Some hard limit is reached. -/
def Reached (s : BudgetState F) : Prop :=
  s.allocated.maxSearchCalls ≤ s.searchCallsUsed ∨ s.allocated.maxTokens ≤ s.tokensUsed ∨
    CostReached P s.allocated s.costUsdUsed ∨ WallTimeReached s.allocated s.wallTimeSUsed

/-- No limit of the second allocation is stricter than in the first: a wall time or a
cost that reaches it there reaches it here. -/
structure NotStricter (a a' : TaskBudget F) : Prop where
  tokens : a.maxTokens ≤ a'.maxTokens
  parallel : a.maxParallel ≤ a'.maxParallel
  depth : a.maxDepth ≤ a'.maxDepth
  searchCalls : a.maxSearchCalls ≤ a'.maxSearchCalls
  verifyPasses : a.maxVerifyPasses ≤ a'.maxVerifyPasses
  debateRounds : a.maxDebateRounds ≤ a'.maxDebateRounds
  cost : ∀ used, CostReached P a' used → CostReached P a used
  wallTime : ∀ used, WallTimeReached a' used → WallTimeReached a used

/-- **Exact exhaustion** at the end of a run. -/
structure Exact (a : TaskBudget F) (ops : List (Op F)) : Prop where
  flag : (run P a ops).exhausted = true ↔ Reached P (run P a ops)
  limits : ∀ pre new post, ops = pre ++ .escalate new :: post →
    NotStricter P (run P a pre).allocated (run P a (pre ++ [.escalate new])).allocated

/-- The new budget is higher in some field. -/
def raises (a new : TaskBudget F) : Bool :=
  limits.any (fun l => l.get a < l.get new) || tierOrder a.defaultModelTier < tierOrder new.defaultModelTier ||
    new.roleTiers.any fun kv => tierOrder (tierOf a kv.1) < tierOrder kv.2

/-- There is a charge behind which no escalation raises anything. -/
def Checked (a : TaskBudget F) (ops : List (Op F)) : Prop :=
  ∃ pre c post, ops = pre ++ .charge c :: post ∧ ∀ mid new rest, post = mid ++ .escalate new :: rest →
    raises (run P a (pre ++ .charge c :: mid)).allocated new = false

/-- Some hard limit other than a cost limit of zero is reached. -/
def Noticed (s : BudgetState F) : Prop :=
  s.allocated.maxSearchCalls ≤ s.searchCallsUsed ∨ s.allocated.maxTokens ≤ s.tokensUsed ∨
    (∃ m, s.allocated.maxCostUsd = some m ∧ P.isZero m = false ∧ P.le m s.costUsdUsed = true) ∨
    WallTimeReached s.allocated s.wallTimeSUsed

end Runs

/-! ### What a charge does -/

theorem exhaust_eq (s : BudgetState F) (hit : Bool) (w : String) :
    s.exhaust hit w =
      { s with exhausted := s.exhausted || hit, warnings := s.warnings ++ if hit then [w] else [] } := by
  unfold BudgetState.exhaust
  cases hit with
  | true => simp
  | false => simp

theorem warn_eq (s : BudgetState F) (hit : Bool) (w : String) :
    s.warn hit w = { s with warnings := s.warnings ++ if hit then [w] else [] } := by
  unfold BudgetState.warn
  cases hit with
  | true => simp
  | false => simp

variable {P : Prices F}

/-- The check leaves the allocation and the counters as they are. -/
theorem checkExhaustion_eq (s : BudgetState F) : ∃ ws, s.checkExhaustion P =
    { s with exhausted := (s.checkExhaustion P).exhausted, warnings := ws } := by
  unfold BudgetState.checkExhaustion
  simp only [exhaust_eq, warn_eq]
  exact ⟨_, rfl⟩

theorem checkExhaustion_exhausted (s : BudgetState F) :
    (s.checkExhaustion P).exhausted = true ↔ s.exhausted = true ∨ Noticed P s := by
  unfold BudgetState.checkExhaustion
  simp only [exhaust_eq, warn_eq, Bool.or_eq_true, decide_eq_true_eq]
  have hcost : costHit P s.allocated s.costUsdUsed = true ↔
      ∃ m, s.allocated.maxCostUsd = some m ∧ P.isZero m = false ∧ P.le m s.costUsdUsed = true := by
    unfold costHit
    simp [Option.any_eq_true]
  unfold Noticed WallTimeReached
  rw [hcost]
  simp only [or_assoc]

theorem charge_costUsdUsed (s : BudgetState F) (c : BudgetCharge F) :
    (s.charge P c).costUsdUsed = P.add s.costUsdUsed c.costUsd := by
  obtain ⟨ws, h⟩ := checkExhaustion_eq (P := P) (s.spend P c)
  show ((s.spend P c).checkExhaustion P).costUsdUsed = P.add s.costUsdUsed c.costUsd
  rw [h]
  rfl

/-- What is reached depends on the allocation and the counters only. -/
theorem noticed_charge (s : BudgetState F) (c : BudgetCharge F) :
    Noticed P (s.charge P c) ↔ Noticed P (s.spend P c) := by
  obtain ⟨ws, h⟩ := checkExhaustion_eq (P := P) (s.spend P c)
  show Noticed P ((s.spend P c).checkExhaustion P) ↔ _
  rw [h]
  exact Iff.rfl

/-- What is reached stays reached under a charge. -/
theorem noticed_mono {s : BudgetState F} {c : BudgetCharge F} (hs : P.le P.zero s.costUsdUsed = true)
    (hc : (Op.charge c).Valid P) (h : Noticed P s) : Noticed P (s.spend P c) := by
  obtain ⟨hsearch, htokens, hcost, hwall⟩ := hc
  rcases h with h | h | ⟨m, hm, hzero, hle⟩ | ⟨hpos, hle⟩
  · exact .inl (h.trans (Int.le_add_of_nonneg_right hsearch))
  · exact .inr (.inl (h.trans (Int.le_add_of_nonneg_right htokens)))
  · exact .inr (.inr (.inl ⟨m, hm, hzero, P.le_add m _ _ hs hcost hle⟩))
  · exact .inr (.inr (.inr ⟨hpos, hle.trans (Int.le_add_of_nonneg_right hwall)⟩))

/-- A zero limit is the only one that goes unnoticed. -/
theorem Noticed.reached {s : BudgetState F} (h : Noticed P s) : Reached P s := by
  rcases h with h | h | ⟨m, hm, -, hle⟩ | h
  · exact .inl h
  · exact .inr (.inl h)
  · exact .inr (.inr (.inl ⟨m, hm, hle⟩))
  · exact .inr (.inr (.inr h))

/-! ### What an escalation does -/

section Folds

variable {β : Type} {f : Changed F → β → Changed F} (hit : TaskBudget F → β → Bool)

theorem foldl_same (hf : ∀ acc b, hit acc.1 b = false → f acc b = acc) :
    ∀ {bs : List β} {acc : Changed F}, (∀ b ∈ bs, hit acc.1 b = false) → bs.foldl f acc = acc
  | [], _, _ => rfl
  | b :: bs, acc, h => by
    rw [List.foldl_cons, hf acc b (h b List.mem_cons_self)]
    exact foldl_same hf fun b' hb' => h b' (List.mem_cons_of_mem b hb')

variable (hgrows : ∀ acc b, acc.2 ≠ [] → (f acc b).2 ≠ [])
include hgrows

theorem foldl_grows : ∀ (bs : List β) {acc : Changed F}, acc.2 ≠ [] → (bs.foldl f acc).2 ≠ []
  | [], _, h => h
  | b :: bs, acc, h => by
    rw [List.foldl_cons]
    exact foldl_grows bs (hgrows acc b h)

/-- Nothing is noted down exactly if nothing is hit. -/
theorem foldl_changes (hf : ∀ acc b, hit acc.1 b = false → f acc b = acc)
    (hhit : ∀ acc b, hit acc.1 b = true → (f acc b).2 ≠ []) :
    ∀ {bs : List β} {acc : Changed F}, acc.2 = [] →
      ((bs.foldl f acc).2 = [] ↔ ∀ b ∈ bs, hit acc.1 b = false)
  | [], acc, h => by simpa using h
  | b :: bs, acc, h => by
    rw [List.foldl_cons, List.forall_mem_cons]
    by_cases hb : hit acc.1 b = true
    · have hne := foldl_grows hgrows bs (hhit acc b hb)
      simp [hne, hb]
    · have hb : hit acc.1 b = false := by simpa using hb
      rw [hf acc b hb, foldl_changes hf hhit h]
      simp [hb]

end Folds

theorem raiseLimit_grows (new : TaskBudget F) (acc : Changed F) (l : Limit F) (h : acc.2 ≠ []) :
    (raiseLimit new acc l).2 ≠ [] := by
  unfold raiseLimit
  split
  · simp
  · exact h

theorem raiseRoleTier_grows (acc : Changed F) (kv : String × String) (h : acc.2 ≠ []) :
    (raiseRoleTier acc kv).2 ≠ [] := by
  unfold raiseRoleTier
  split
  · simp
  · exact h

theorem limits_changes (a new : TaskBudget F) :
    (limits.foldl (raiseLimit new) (a, [])).2 = [] ↔ ∀ l ∈ limits, decide (l.get a < l.get new) = false :=
  foldl_changes (fun a l => decide (l.get a < l.get new)) (raiseLimit_grows new)
    (fun acc l h => if_neg (by simpa using h)) (fun acc l h => by simp [raiseLimit, of_decide_eq_true h]) rfl

theorem roles_changes (new : TaskBudget F) {acc : Changed F} (h : acc.2 = []) :
    (new.roleTiers.foldl raiseRoleTier acc).2 = [] ↔
      ∀ kv ∈ new.roleTiers, decide (tierOrder (tierOf acc.1 kv.1) < tierOrder kv.2) = false :=
  foldl_changes (fun a kv => decide (tierOrder (tierOf a kv.1) < tierOrder kv.2)) raiseRoleTier_grows
    (fun acc kv h => if_neg (by simpa using h)) (fun acc kv h => by simp [raiseRoleTier, of_decide_eq_true h]) h

/-- **An escalation changes nothing** exactly if the new budget is higher in no field. -/
theorem raised_changes (a new : TaskBudget F) : (raised a new).2 = [] ↔ raises a new = false := by
  have hsplit : raises a new = false ↔ (∀ l ∈ limits, decide (l.get a < l.get new) = false) ∧
      ¬ tierOrder a.defaultModelTier < tierOrder new.defaultModelTier ∧
      ∀ kv ∈ new.roleTiers, decide (tierOrder (tierOf a kv.1) < tierOrder kv.2) = false := by
    simp [raises, and_assoc]
  rw [hsplit]
  unfold raised
  by_cases hlimits : ∀ l ∈ limits, decide (l.get a < l.get new) = false
  · have hsame : limits.foldl (raiseLimit new) (a, []) = (a, []) :=
      foldl_same (fun a l => decide (l.get a < l.get new)) (fun acc l h => if_neg (by simpa using h)) hlimits
    rw [hsame]
    by_cases htier : tierOrder a.defaultModelTier < tierOrder new.defaultModelTier
    · have hmodel : (raiseModelTier new (a, [])).2 ≠ [] := by simp [raiseModelTier, htier]
      have hne := foldl_grows raiseRoleTier_grows new.roleTiers hmodel
      exact iff_of_false hne fun h => h.2.1 htier
    · have hmodel : raiseModelTier new (a, []) = (a, []) := if_neg htier
      rw [hmodel, roles_changes new rfl]
      exact ⟨fun h => ⟨hlimits, htier, h⟩, fun h => h.2.2⟩
  · have hne : (limits.foldl (raiseLimit new) (a, [])).2 ≠ [] := fun h => hlimits ((limits_changes a new).mp h)
    have hmodel : (raiseModelTier new (limits.foldl (raiseLimit new) (a, []))).2 ≠ [] := by
      unfold raiseModelTier
      split
      · simp
      · exact hne
    have hroles := foldl_grows raiseRoleTier_grows new.roleTiers hmodel
    exact iff_of_false hroles fun h => hlimits h.1

theorem raised_same {a new : TaskBudget F} (h : raises a new = false) : (raised a new).1 = a := by
  have hlimits : ∀ l ∈ limits, decide (l.get a < l.get new) = false := by
    simp only [raises, Bool.or_eq_false_iff, List.any_eq_false] at h
    exact fun l hl => by simpa using h.1.1 l hl
  simp only [raises, Bool.or_eq_false_iff, decide_eq_false_iff_not] at h
  have hroles : ∀ kv ∈ new.roleTiers, decide (tierOrder (tierOf a kv.1) < tierOrder kv.2) = false := by
    have := List.any_eq_false.mp h.2
    exact fun kv hkv => by simpa using this kv hkv
  have hsame : limits.foldl (raiseLimit new) (a, []) = (a, []) :=
    foldl_same (fun a l => decide (l.get a < l.get new)) (fun acc l h => if_neg (by simpa using h)) hlimits
  have hmodel : raiseModelTier new (a, []) = (a, []) := if_neg h.1.2
  have hrole : new.roleTiers.foldl raiseRoleTier (a, []) = (a, []) :=
    foldl_same (fun a kv => decide (tierOrder (tierOf a kv.1) < tierOrder kv.2))
      (fun acc kv h => if_neg (by simpa using h)) hroles
  unfold raised
  rw [hsame, hmodel, hrole]

theorem raiseLimit_fst (new : TaskBudget F) (acc : Changed F) (l : Limit F) :
    (raiseLimit new acc l).1 = l.set (max (l.get acc.1) (l.get new)) acc.1 := by
  unfold raiseLimit
  by_cases hlt : l.get acc.1 < l.get new
  · rw [if_pos hlt, max_eq_right hlt.le]
  · rw [if_neg hlt, max_eq_left (le_of_not_gt hlt), l.set_get]

theorem roles_fst : ∀ (kvs : List (String × String)) (acc : Changed F), ∃ tiers,
    (kvs.foldl raiseRoleTier acc).1 = { acc.1 with roleTiers := tiers }
  | [], acc => ⟨acc.1.roleTiers, rfl⟩
  | kv :: kvs, acc => by
    obtain ⟨tiers, h⟩ := roles_fst kvs (raiseRoleTier acc kv)
    have hkv : ∃ t, (raiseRoleTier acc kv).1 = { acc.1 with roleTiers := t } := by
      unfold raiseRoleTier
      split
      · exact ⟨_, rfl⟩
      · exact ⟨acc.1.roleTiers, rfl⟩
    obtain ⟨t, hkv⟩ := hkv
    rw [List.foldl_cons, h, hkv]
    exact ⟨tiers, rfl⟩

/-- The limits after an escalation: each is the greater of the two, apart from the cost
and the depth, which are left. -/
theorem raised_eq (a new : TaskBudget F) : ∃ tier tiers, (raised a new).1 =
    { maxTokens := max a.maxTokens new.maxTokens
      maxCostUsd := a.maxCostUsd
      maxWallTimeS := max a.maxWallTimeS new.maxWallTimeS
      maxParallel := max a.maxParallel new.maxParallel
      maxDepth := a.maxDepth
      maxSearchCalls := max a.maxSearchCalls new.maxSearchCalls
      maxVerifyPasses := max a.maxVerifyPasses new.maxVerifyPasses
      maxDebateRounds := max a.maxDebateRounds new.maxDebateRounds
      defaultModelTier := tier
      roleTiers := tiers } := by
  obtain ⟨tiers, hroles⟩ := roles_fst new.roleTiers (raiseModelTier new (limits.foldl (raiseLimit new) (a, [])))
  have hmodel : ∀ acc : Changed F, ∃ tier, (raiseModelTier new acc).1 = { acc.1 with defaultModelTier := tier } := by
    intro acc
    unfold raiseModelTier
    split
    · exact ⟨_, rfl⟩
    · exact ⟨acc.1.defaultModelTier, rfl⟩
  obtain ⟨tier, htier⟩ := hmodel (limits.foldl (raiseLimit new) (a, []))
  refine ⟨tier, tiers, ?_⟩
  unfold raised
  rw [hroles, htier]
  simp only [limits, List.foldl_cons, List.foldl_nil, raiseLimit_fst]

/-- **An escalation** makes no limit stricter, unless it sets a wall time where there
was none. -/
theorem notStricter_iff (a new : TaskBudget F) :
    NotStricter P a (raised a new).1 ↔ ¬ (a.maxWallTimeS ≤ 0 ∧ 0 < new.maxWallTimeS) := by
  obtain ⟨tier, tiers, h⟩ := raised_eq a new
  rw [h]
  constructor
  · intro hstrict hset
    have hreached := hstrict.wallTime (max a.maxWallTimeS new.maxWallTimeS)
      ⟨lt_max_of_lt_right hset.2, le_refl _⟩
    exact absurd hreached.1 (not_lt.mpr hset.1)
  · intro hset
    refine ⟨le_max_left _ _, le_max_left _ _, le_refl _, le_max_left _ _, le_max_left _ _, le_max_left _ _,
      fun used h => h, fun used h => ?_⟩
    have hpos : 0 < max a.maxWallTimeS new.maxWallTimeS := h.1
    have hle : max a.maxWallTimeS new.maxWallTimeS ≤ used := h.2
    have ha : 0 < a.maxWallTimeS := by
      by_contra hno
      rcases lt_max_iff.mp hpos with h | h
      · exact hno h
      · exact hset ⟨not_lt.mp hno, h⟩
    exact ⟨ha, (le_max_left _ _).trans hle⟩

/-! ### Runs -/

section Runs

variable {a : TaskBudget F} {ops : List (Op F)}

theorem run_concat (a : TaskBudget F) (ops : List (Op F)) (op : Op F) :
    run P a (ops ++ [op]) = apply P (run P a ops) op := by
  unfold run
  rw [List.foldl_append, List.foldl_cons, List.foldl_nil]

theorem escalate_allocated (s : BudgetState F) (new : TaskBudget F) :
    (s.escalate new).1.allocated = (raised s.allocated new).1 := by
  unfold BudgetState.escalate
  dsimp only
  split
  · rfl
  · rfl

/-- An escalation that raises nothing leaves everything as it is. -/
theorem escalate_same {s : BudgetState F} {new : TaskBudget F} (h : raises s.allocated new = false) :
    (s.escalate new).1 = s := by
  unfold BudgetState.escalate
  dsimp only
  rw [if_neg (not_not.mpr ((raised_changes _ _).mpr h)), raised_same h]

/-- One that raises something takes the flag back. -/
theorem escalate_exhausted {s : BudgetState F} {new : TaskBudget F} (h : raises s.allocated new = true) :
    (s.escalate new).1.exhausted = false := by
  have hne : (raised s.allocated new).2 ≠ [] := fun hnil => by
    rw [(raised_changes _ _).mp hnil] at h
    cases h
  unfold BudgetState.escalate
  dsimp only
  rw [if_pos hne]

theorem escalate_costUsdUsed (s : BudgetState F) (new : TaskBudget F) :
    (s.escalate new).1.costUsdUsed = s.costUsdUsed := by
  unfold BudgetState.escalate
  dsimp only
  split
  · rfl
  · rfl

theorem checked_charge (a : TaskBudget F) (ops : List (Op F)) (c : BudgetCharge F) :
    Checked P a (ops ++ [.charge c]) := by
  refine ⟨ops, c, [], rfl, fun mid new rest h => ?_⟩
  have hlen := congrArg List.length h
  simp at hlen

theorem checked_escalate (a : TaskBudget F) (ops : List (Op F)) (new : TaskBudget F) :
    Checked P a (ops ++ [.escalate new]) ↔ Checked P a ops ∧ raises (run P a ops).allocated new = false := by
  constructor
  · intro h
    obtain ⟨pre, c, post, hsplit, hpost⟩ := h
    rcases List.eq_nil_or_concat post with rfl | ⟨post, op, rfl⟩
    · have hlast := (List.append_inj' hsplit rfl).2
      cases hlast
    · rw [List.concat_eq_append] at hsplit hpost
      have hsplit : ops ++ [.escalate new] = (pre ++ .charge c :: post) ++ [op] := by
        rw [hsplit, List.append_assoc, List.cons_append]
      obtain ⟨rfl, hop⟩ := List.append_inj' hsplit rfl
      obtain rfl := (List.cons.inj hop).1.symm
      refine ⟨⟨pre, c, post, rfl, fun mid new' rest h => ?_⟩, hpost post new [] rfl⟩
      exact hpost mid new' (rest ++ [.escalate new]) (by rw [h, List.append_assoc, List.cons_append])
  · intro h
    obtain ⟨⟨pre, c, post, rfl, hpost⟩, hraises⟩ := h
    refine ⟨pre, c, post ++ [.escalate new], by rw [List.append_assoc, List.cons_append], fun mid new' rest h => ?_⟩
    rcases List.eq_nil_or_concat rest with rfl | ⟨rest, op, rfl⟩
    · obtain ⟨rfl, hop⟩ := List.append_inj' h rfl
      have hnew : new = new' := Op.escalate.inj (List.cons.inj hop).1
      rw [← hnew]
      exact hraises
    · rw [List.concat_eq_append] at h
      have h : post ++ [.escalate new] = (mid ++ .escalate new' :: rest) ++ [op] := by
        rw [h, List.append_assoc, List.cons_append]
      exact hpost mid new' rest (List.append_inj' h rfl).1

variable (hvalid : ∀ op ∈ ops, op.Valid P)
include hvalid

theorem cost_nonneg : P.le P.zero (run P a ops).costUsdUsed = true := by
  induction ops using List.reverseRecOn with
  | nil => exact P.zero_le
  | append_singleton ops op ih =>
    have ih := ih fun op' h => hvalid op' (List.mem_append_left _ h)
    rw [run_concat]
    cases op with
    | charge c =>
      have hc := hvalid (.charge c) (List.mem_append_right _ (List.mem_singleton_self _))
      show P.le P.zero ((run P a ops).charge P c).costUsdUsed = true
      rw [charge_costUsdUsed]
      exact P.le_add _ _ _ ih hc.2.2.1 ih
    | escalate new =>
      show P.le P.zero ((run P a ops).escalate new).1.costUsdUsed = true
      rw [escalate_costUsdUsed]
      exact ih

/-- **The flag** says that a charge has seen a limit reached since the last escalation
that raised anything. -/
theorem exhausted_iff : (run P a ops).exhausted = true ↔ Checked P a ops ∧ Noticed P (run P a ops) := by
  induction ops using List.reverseRecOn with
  | nil =>
    refine iff_of_false Bool.false_ne_true fun h => ?_
    obtain ⟨pre, c, post, hsplit, -⟩ := h.1
    have hlen := congrArg List.length hsplit
    simp at hlen
  | append_singleton ops op ih =>
    have hpre : ∀ op' ∈ ops, op'.Valid P := fun op' h => hvalid op' (List.mem_append_left _ h)
    have ih := ih hpre
    rw [run_concat]
    cases op with
    | charge c =>
      have hc := hvalid (.charge c) (List.mem_append_right _ (List.mem_singleton_self _))
      show (((run P a ops).spend P c).checkExhaustion P).exhausted = true ↔
        _ ∧ Noticed P ((run P a ops).charge P c)
      rw [checkExhaustion_exhausted, noticed_charge]
      constructor
      · intro h
        refine ⟨checked_charge a ops c, ?_⟩
        rcases h with hflag | h
        · exact noticed_mono (cost_nonneg hpre) hc (ih.mp hflag).2
        · exact h
      · exact fun h => .inr h.2
    | escalate new =>
      show ((run P a ops).escalate new).1.exhausted = true ↔ _ ∧ Noticed P ((run P a ops).escalate new).1
      rw [checked_escalate]
      by_cases hraises : raises (run P a ops).allocated new = true
      · rw [escalate_exhausted hraises, hraises]
        simp
      · have hraises : raises (run P a ops).allocated new = false := by simpa using hraises
        rw [escalate_same hraises, ih, hraises]
        simp

/-- **Exhaustion is exact** at the end of a run exactly where no hard limit is reached,
or one other than a cost limit of zero is and a charge has come after the last
escalation that raised anything; and where no escalation sets a wall time where there
was none. -/
theorem exact_iff : Exact P a ops ↔
    (Reached P (run P a ops) → Checked P a ops ∧ Noticed P (run P a ops)) ∧
      ∀ pre new post, ops = pre ++ .escalate new :: post →
        ¬ ((run P a pre).allocated.maxWallTimeS ≤ 0 ∧ 0 < new.maxWallTimeS) := by
  have hflag := exhausted_iff (a := a) hvalid
  have hlimits : ∀ (pre : List (Op F)) (new : TaskBudget F),
      NotStricter P (run P a pre).allocated (run P a (pre ++ [.escalate new])).allocated ↔
        ¬ ((run P a pre).allocated.maxWallTimeS ≤ 0 ∧ 0 < new.maxWallTimeS) := by
    intro pre new
    rw [run_concat]
    show NotStricter P _ ((run P a pre).escalate new).1.allocated ↔ _
    rw [escalate_allocated, notStricter_iff]
  constructor
  · intro h
    refine ⟨fun hreached => hflag.mp (h.flag.mpr hreached), fun pre new post hsplit => ?_⟩
    exact (hlimits pre new).mp (h.limits pre new post hsplit)
  · intro h
    refine ⟨⟨fun hex => (hflag.mp hex).2.reached, fun hreached => hflag.mpr (h.1 hreached)⟩,
      fun pre new post hsplit => ?_⟩
    exact (hlimits pre new).mpr (h.2 pre new post hsplit)

end Runs

/-! ### Examples -/

/-- Costs in whole units. -/
def wholeUnits : Prices ℤ where
  zero := 0
  add := (· + ·)
  le a b := a ≤ b
  isZero a := a = 0
  zero_le := rfl
  le_add m x c _ hc hm := by
    simp only [decide_eq_true_eq] at hc hm ⊢
    exact hm.trans (Int.le_add_of_nonneg_right hc)

/-- All tokens are used up. -/
def lastTokens : BudgetCharge ℤ := { primitive := "llm_call", llmCalls := 1, tokens := 500000, costUsd := 0 }

theorem lastTokens_exact : Exact wholeUnits {} [.escalate { maxParallel := 4 }, .charge lastTokens] := by
  refine (exact_iff ?_).mpr ⟨fun _ => ⟨?_, .inr (.inl ?_)⟩, fun pre new post hsplit => ?_⟩
  · intro op hop
    simp only [List.mem_cons, List.not_mem_nil, or_false] at hop
    rcases hop with rfl | rfl
    · trivial
    · exact ⟨by decide, by decide, rfl, by decide⟩
  · exact checked_charge {} [.escalate { maxParallel := 4 }] lastTokens
  · decide
  · cases pre with
    | nil => exact fun h => absurd h.1 (by decide)
    | cons op pre =>
      have hop : [Op.charge lastTokens] = pre ++ .escalate new :: post := (List.cons.inj hsplit).2
      cases pre with
      | nil => cases hop
      | cons op' pre =>
        have hlen := congrArg List.length hop
        simp at hlen

/-- An escalation of another limit takes the flag back. -/
theorem parallel_clears_flag : ¬ Exact wholeUnits {} [.charge lastTokens, .escalate { maxParallel := 4 }] := by
  intro h
  have hreached : Reached wholeUnits (run wholeUnits {} [.charge lastTokens, .escalate { maxParallel := 4 }]) :=
    .inr (.inl (by decide))
  exact absurd (h.flag.mpr hreached) (by decide)

end Budget
end Models
end AgentCore
