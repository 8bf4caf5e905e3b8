/-
# The loop's budget

Whatever provider and observers do, a run makes at most `max_turns` plus
`EXTRA_ATTEMPTS_BUFFER` provider calls, its turn counter stays between zero and
`max_turns`, and it ends with a reason unless an exception leaves it. Attempts
are counted once each, and a turn given back is one that was taken (`BudgetInv`).

Without an observer that restarts turns, replies that carry no call come in
short stretches: each of them uses up one of the three retry counters or ends
the run, and only a reply with a call sets these back (`StretchInv`).

Key definitions: `StretchesLe`, `BudgetInv`, `Raises`, `StretchInv`.
Key theorems: `attempt_budgetInv`, `attempt_stretchInv`, `loop_budget`.
-/
import AgentCore.Loop.Run

namespace AgentCore
namespace Loop

/-! ### Stretches -/

/-- The `false` entries at the end of a list. -/
def trailing (l : List Bool) : ℕ := (l.reverse.takeWhile fun b => !b).length

/-- No more than `n` consecutive entries are `false`. -/
def StretchesLe (n : ℤ) (l : List Bool) : Prop :=
  ∀ before mid after, l = before ++ mid ++ after → (∀ b ∈ mid, b = false) → (mid.length : ℤ) ≤ n

theorem trailing_snoc_true (l : List Bool) : trailing (l ++ [true]) = 0 := by
  simp [trailing]

theorem trailing_snoc_false (l : List Bool) : trailing (l ++ [false]) = trailing l + 1 := by
  simp [trailing]

theorem length_le_trailing {before mid : List Bool} (hmid : ∀ b ∈ mid, b = false) :
    mid.length ≤ trailing (before ++ mid) := by
  have hrev : ∀ b ∈ mid.reverse, (!b) = true := by
    intro b hb
    simp [hmid b (List.mem_reverse.mp hb)]
  unfold trailing
  rw [List.reverse_append, List.takeWhile_append_of_pos hrev, List.length_append, List.length_reverse]
  omega

theorem stretchesLe_nil {n : ℤ} (hn : 0 ≤ n) : StretchesLe n [] := by
  intro before mid after h _
  obtain ⟨h1, -⟩ := List.append_eq_nil_iff.mp h.symm
  obtain ⟨-, rfl⟩ := List.append_eq_nil_iff.mp h1
  simpa using hn

/-- A new entry makes no stretch longer than the one it ends. -/
theorem StretchesLe.snoc {n : ℤ} {l : List Bool} (h : StretchesLe n l) (b : Bool)
    (hb : (trailing (l ++ [b]) : ℤ) ≤ n) : StretchesLe n (l ++ [b]) := by
  intro before mid after heq hmid
  rcases List.eq_nil_or_concat after with rfl | ⟨after', b', rfl⟩
  · rw [List.append_nil] at heq
    have hlen : mid.length ≤ trailing (before ++ mid) := length_le_trailing hmid
    rw [← heq] at hlen
    omega
  · have heq' : l ++ [b] = (before ++ mid ++ after') ++ [b'] := by
      simp [heq]
    exact h before mid after' (List.append_inj_left' heq' rfl) hmid

/-! ### Calls, turns and attempts -/

/-- Attempts made and left add up, the turn is one of the run's, and every
logged call took an attempt. -/
structure BudgetInv (cfg : LoopConfig) (left : ℕ) (s : LoopState) : Prop where
  attempts_left : s.attempts + left = maxAttempts cfg
  turn_nonneg : 0 ≤ s.turn
  turn_le : s.turn ≤ cfg.maxTurns
  log_le : (s.log.length : ℤ) ≤ s.attempts
  log_turns : ∀ r ∈ s.log, 1 ≤ r.turn ∧ r.turn ≤ cfg.maxTurns

/-- What a run that ended owes to its budget. -/
structure WithinBudget (cfg : LoopConfig) (s : LoopState) : Prop where
  calls_le : (s.log.length : ℤ) ≤ maxAttempts cfg
  turn_nonneg : 0 ≤ s.turn
  turn_le : s.turn ≤ cfg.maxTurns
  log_turns : ∀ r ∈ s.log, 1 ≤ r.turn ∧ r.turn ≤ cfg.maxTurns

theorem BudgetInv.withinBudget {cfg : LoopConfig} {left : ℕ} {s : LoopState} (h : BudgetInv cfg left s) :
    WithinBudget cfg s := by
  refine ⟨?_, h.turn_nonneg, h.turn_le, h.log_turns⟩
  have h1 := h.attempts_left
  have h2 := h.log_le
  omega

/-- One attempt keeps the budget, and stops with a reason if it stops. -/
theorem attempt_budgetInv {cfg : LoopConfig} {left : ℕ} {s : LoopState} (env : TurnEnv)
    (h : BudgetInv cfg (left + 1) s) (hturn : s.turn < cfg.maxTurns) :
    BudgetInv cfg left (attempt cfg env s).state := by
  obtain ⟨hkeeps, hatt, hlog⟩ := attempt_frame cfg env s
  have hleft := h.attempts_left
  have hnonneg := h.turn_nonneg
  have hloglen := h.log_le
  have hturns : (attempt cfg env s).state.turn = s.turn + 1 ∨ (attempt cfg env s).state.turn = s.turn := by
    cases ha : attempt cfg env s with
    | next s' =>
      rw [ha] at hkeeps
      rcases hkeeps with hk | hk
      · exact .inl hk
      · exact .inr (by simpa [Outcome.state] using hk)
    | stop s' reason =>
      rw [ha] at hkeeps
      exact .inl hkeeps.1
    | raised s' =>
      rw [ha] at hkeeps
      exact .inl hkeeps
  refine ⟨?_, by omega, by omega, ?_, ?_⟩
  · rw [hatt]
    push_cast at hleft
    omega
  · rcases hlog with hl | ⟨parsed, hl⟩
    · rw [hl, hatt]
      omega
    · rw [hl, hatt, List.length_append]
      push_cast
      simp only [List.length_singleton]
      omega
  · rcases hlog with hl | ⟨parsed, hl⟩
    · rw [hl]
      exact h.log_turns
    · rw [hl]
      intro r hr
      rcases List.mem_append.mp hr with hr | hr
      · exact h.log_turns r hr
      · rw [List.mem_singleton.mp hr]
        constructor
        · simp only
          omega
        · simp only
          omega

theorem attempt_stop_reason {cfg : LoopConfig} {env : TurnEnv} {s s' : LoopState} {reason : String}
    (ha : attempt cfg env s = .stop s' reason) : reason ≠ "" := by
  have hkeeps := (attempt_frame cfg env s).1
  rw [ha] at hkeeps
  exact hkeeps.2

theorem withoutCalls_not_raised (cfg : LoopConfig) (s : LoopState) (r : Response) (s' : LoopState) :
    withoutCalls cfg s r ≠ .raised s' := by
  unfold withoutCalls
  dsimp only
  split_ifs <;> exact Outcome.noConfusion

theorem withCalls_not_raised (cfg : LoopConfig) (env : TurnEnv) (s : LoopState) (p : Processed)
    (s' : LoopState) : withCalls cfg env s p ≠ .raised s' := by
  unfold withCalls
  dsimp only
  split_ifs <;> exact Outcome.noConfusion

theorem respond_not_raised (cfg : LoopConfig) (env : TurnEnv) (s : LoopState) (r : Response)
    (s' : LoopState) : respond cfg env s r ≠ .raised s' := by
  unfold respond
  dsimp only
  split
  · exact Outcome.noConfusion
  · split
    · exact Outcome.noConfusion
    · split
      · exact Outcome.noConfusion
      · split
        · exact withoutCalls_not_raised _ _ _ _
        · exact withCalls_not_raised _ _ _ _ _

/-- What an exception that leaves the loop at the turn comes from: the failure of a
first call, which the fallback chain around the run gets, `call_llm`, or the
turn of a response. -/
def Raises (env : TurnEnv) (turn : ℤ) : Prop :=
  (turn = 1 ∧ env.call = .failure (.exhausted true)) ∨ env.call = .failure .escaped ∨
    ∃ r, env.call = .response r ∧ escapes env r = true

theorem attempt_raised {cfg : LoopConfig} {env : TurnEnv} {s s' : LoopState}
    (ha : attempt cfg env s = .raised s') : Raises env s'.turn := by
  unfold attempt at ha
  dsimp only at ha
  split at ha
  · cases ha
  · split at ha
    · cases ha
    · cases ha
    · next chain hcall =>
      split at ha
      · next hc =>
        cases ha
        refine .inl ⟨hc.1, ?_⟩
        rw [hcall, show chain = true from hc.2]
      · cases ha
    · next hcall => exact .inr (.inl hcall)
    · next r hcall =>
      split at ha
      · next hescapes => exact .inr (.inr ⟨r, hcall, hescapes⟩)
      · have hr := respond_not_raised cfg env
          (logged env (beforeCall env s) (some (decide (parsedCalls cfg env (beforeCall env s).toolNames
            (beforeCall env s).turn r ≠ [])))) r s'
        exact absurd ha hr

/-! ### Stretches of replies without a call -/

/-- Which responses of the run carried a parsed call, in order. -/
def responses (s : LoopState) : List Bool := s.log.filterMap (·.parsed)

/-- No observer restarts the turn. -/
def NoContinue (env : TurnEnv) : Prop :=
  env.onLlmResponse.continueToNextTurn = false ∧ env.onTurnEnd.continueToNextTurn = false

/-- The most replies without a call in a row: each but the last uses up a
retry, of which a negative limit allows none. -/
def stretchBound (cfg : LoopConfig) : ℤ :=
  max cfg.truncationMaxContinuations 0 + max cfg.runawayMaxLoopRecoveries 0 + max cfg.noToolMaxRetries 1

/-- The retries used. -/
def retries (s : LoopState) : ℕ := s.truncationContinuations + s.runawayRecoveries + s.noToolRetries

structure RetriesBounded (cfg : LoopConfig) (s : LoopState) : Prop where
  truncation : (s.truncationContinuations : ℤ) ≤ max cfg.truncationMaxContinuations 0
  runaway : (s.runawayRecoveries : ℤ) ≤ max cfg.runawayMaxLoopRecoveries 0
  noTool : (s.noToolRetries : ℤ) ≤ max cfg.noToolMaxRetries 1 - 1

theorem RetriesBounded.retries_lt {cfg : LoopConfig} {s : LoopState} (h : RetriesBounded cfg s) :
    (retries s : ℤ) < stretchBound cfg := by
  have h1 := h.truncation
  have h2 := h.runaway
  have h3 := h.noTool
  unfold retries stretchBound
  push_cast
  omega

/-- A reply without a call that does not end the run uses up one retry. -/
theorem withoutCalls_retries {cfg : LoopConfig} {s s' : LoopState} {r : Response}
    (h : RetriesBounded cfg s) (hw : withoutCalls cfg s r = .next s') :
    RetriesBounded cfg s' ∧ retries s' = retries s + 1 := by
  obtain ⟨h1, h2, h3⟩ := h
  unfold withoutCalls at hw
  dsimp only at hw
  split at hw
  · split at hw
    · next hle =>
      cases hw
      refine ⟨⟨?_, h2, h3⟩, ?_⟩
      · simp only at hle ⊢
        omega
      · simp only [retries]
        omega
    · cases hw
  · split at hw
    · split at hw
      · next hle =>
        cases hw
        refine ⟨⟨h1, ?_, h3⟩, ?_⟩
        · simp only at hle ⊢
          omega
        · simp only [retries]
          omega
      · cases hw
    · split at hw
      · cases hw
      · next hlt =>
        cases hw
        refine ⟨⟨h1, h2, ?_⟩, ?_⟩
        · simp only [not_or] at hlt ⊢
          omega
        · simp only [retries]
          omega

theorem withCalls_retries {cfg : LoopConfig} {env : TurnEnv} {s s' : LoopState} {p : Processed}
    (hw : withCalls cfg env s p = .next s') :
    s'.truncationContinuations = 0 ∧ s'.runawayRecoveries = 0 ∧ s'.noToolRetries = 0 := by
  unfold withCalls at hw
  dsimp only at hw
  split_ifs at hw
  all_goals
    cases hw
    exact ⟨rfl, rfl, rfl⟩

/-- A response either sets the retries back or uses one up, if the run goes
on. -/
theorem respond_retries {cfg : LoopConfig} {env : TurnEnv} (hc : NoContinue env) {s s' : LoopState}
    {r : Response} (h : RetriesBounded cfg s) (hr : respond cfg env s r = .next s') :
    RetriesBounded cfg s' ∧
      retries s' = if parsedCalls cfg env s.toolNames s.turn r = [] then retries s + 1 else 0 := by
  unfold respond at hr
  dsimp only at hr
  rw [processLlmResponse_parsed, processLlmResponse_continue, hc.1] at hr
  have hafter : RetriesBounded cfg (afterResponse cfg env s r) := ⟨h.truncation, h.runaway, h.noTool⟩
  split at hr
  · cases hr
  · simp only [Bool.false_eq_true, if_false] at hr
    split at hr
    · cases hr
    · split at hr
      · next hp =>
        rw [if_pos hp]
        have hw := withoutCalls_retries hafter hr
        exact hw
      · next hp =>
        rw [if_neg hp]
        obtain ⟨h1, h2, h3⟩ := withCalls_retries hr
        refine ⟨⟨?_, ?_, ?_⟩, ?_⟩
        · omega
        · omega
        · omega
        · unfold retries
          omega

structure StretchInv (cfg : LoopConfig) (s : LoopState) : Prop where
  retries : RetriesBounded cfg s
  trailing_le : trailing (responses s) ≤ Loop.retries s
  stretches : StretchesLe (stretchBound cfg) (responses s)

theorem responses_logged (env : TurnEnv) (s : LoopState) (parsed : Option Bool) :
    responses (logged env s parsed) = responses s ++ parsed.toList := by
  cases parsed <;> simp [responses, logged]

theorem responses_respond (cfg : LoopConfig) (env : TurnEnv) (s : LoopState) (r : Response) :
    responses (respond cfg env s r).state = responses s := by
  unfold responses
  rw [(respond_frame cfg env s r).2.2]

/-- Logging one more response keeps the stretches within the bound. -/
theorem StretchInv.stretches_snoc {cfg : LoopConfig} {s : LoopState} (h : StretchInv cfg s) (b : Bool) :
    StretchesLe (stretchBound cfg) (responses s ++ [b]) := by
  have hlt := h.retries.retries_lt
  have htr := h.trailing_le
  refine h.stretches.snoc b ?_
  cases b with
  | true =>
    rw [trailing_snoc_true]
    omega
  | false =>
    rw [trailing_snoc_false]
    omega

/-- An attempt in which no observer restarts the turn. -/
theorem attempt_stretchInv {cfg : LoopConfig} {env : TurnEnv} (hc : NoContinue env) {s : LoopState}
    (h : StretchInv cfg s) :
    StretchesLe (stretchBound cfg) (responses (attempt cfg env s).state) ∧
      ∀ s', attempt cfg env s = .next s' → StretchInv cfg s' := by
  have hbefore : responses (beforeCall env s) = responses s := rfl
  have hnone : responses (logged env (beforeCall env s) none) = responses s := by
    rw [responses_logged, hbefore, Option.toList_none, List.append_nil]
  unfold attempt
  dsimp only
  split
  · exact ⟨h.stretches, fun s' hs => by cases hs⟩
  · split
    · exact ⟨hnone ▸ h.stretches, fun s' hs => by cases hs⟩
    · exact ⟨hnone ▸ h.stretches, fun s' hs => by cases hs⟩
    · split
      · exact ⟨hnone ▸ h.stretches, fun s' hs => by cases hs⟩
      · exact ⟨hnone ▸ h.stretches, fun s' hs => by cases hs⟩
    · exact ⟨hnone ▸ h.stretches, fun s' hs => by cases hs⟩
    · next r _ =>
      split
      · refine ⟨?_, fun s' hs => by cases hs⟩
        show StretchesLe (stretchBound cfg) (responses (logged env (beforeCall env s) (some false)))
        rw [responses_logged, hbefore, Option.toList_some]
        exact h.stretches_snoc false
      set b := decide (parsedCalls cfg env (beforeCall env s).toolNames (beforeCall env s).turn r ≠ [])
        with hb
      have hlog : responses (logged env (beforeCall env s) (some b)) = responses s ++ [b] := by
        rw [responses_logged, hbefore, Option.toList_some]
      have hst := h.stretches_snoc b
      refine ⟨?_, fun s' hs => ?_⟩
      · rw [responses_respond, hlog]
        exact hst
      · have hret : RetriesBounded cfg (logged env (beforeCall env s) (some b)) :=
          ⟨h.retries.truncation, h.retries.runaway, h.retries.noTool⟩
        obtain ⟨hbound, hcount⟩ := respond_retries hc hret hs
        have hresp : responses s' = responses s ++ [b] := by
          have hkept := responses_respond cfg env (logged env (beforeCall env s) (some b)) r
          rw [hs] at hkept
          exact hkept.trans hlog
        refine ⟨hbound, ?_, by rwa [hresp]⟩
        have htr := h.trailing_le
        have hsame : Loop.retries (logged env (beforeCall env s) (some b)) = Loop.retries s := rfl
        rw [hsame] at hcount
        rw [hresp]
        by_cases hp : parsedCalls cfg env (beforeCall env s).toolNames (beforeCall env s).turn r = []
        · have hbf : b = false := by simp [hb, hp]
          have hcount' : Loop.retries s' = Loop.retries s + 1 := hcount.trans (if_pos hp)
          rw [hbf, trailing_snoc_false]
          omega
        · have hbt : b = true := by simp [hb, hp]
          rw [hbt, trailing_snoc_true]
          omega

/-! ### Runs -/

theorem budgetInv_init {cfg : LoopConfig} (h0 : 0 ≤ cfg.maxTurns) (messages : History)
    (toolNames : List String) :
    BudgetInv cfg (maxAttempts cfg).toNat { messages := messages, toolNames := toolNames } := by
  refine ⟨?_, le_refl _, h0, le_refl _, by simp⟩
  show (0 : ℤ) + (maxAttempts cfg).toNat = maxAttempts cfg
  unfold maxAttempts extraAttemptsBuffer
  omega

theorem run_withinBudget {cfg : LoopConfig} (h0 : 0 ≤ cfg.maxTurns) (env : ℕ → TurnEnv)
    (messages : History) (toolNames : List String) :
    WithinBudget cfg (runAgentLoop cfg env messages toolNames).state := by
  refine runLoop_rule (P := fun _ _ => True) (I := BudgetInv cfg)
    (Q := fun res => WithinBudget cfg res.state) ?_ ?_ ?_ ?_ _ _ (budgetInv_init h0 messages toolNames)
    (StepsMeet.of_forall (fun _ _ => trivial) _ _)
  · intro left s e s' hI hturn _ ha
    have := attempt_budgetInv e hI hturn
    rwa [ha] at this
  · intro left s e s' reason hI hturn _ ha
    have := attempt_budgetInv e hI hturn
    rw [ha] at this
    exact this.withinBudget
  · intro left s e s' hI hturn _ ha
    have := attempt_budgetInv e hI hturn
    rw [ha] at this
    exact this.withinBudget
  · intro left s hI _
    exact hI.withinBudget

/-- A run stops with a reason, unless an exception leaves its last attempt. -/
theorem run_stoppedBy (cfg : LoopConfig) (env : ℕ → TurnEnv) (messages : History) (toolNames : List String) :
    let run := runAgentLoop cfg env messages toolNames
    (∃ reason, run.stoppedBy = some reason ∧ reason ≠ "") ∨
      (run.stoppedBy = none ∧ Raises (env (run.state.attempts - 1).toNat) run.state.turn) := by
  refine runLoop_rule (P := fun s e => e = env s.attempts.toNat) (I := fun _ _ => True)
    (Q := fun res => (∃ reason, res.stoppedBy = some reason ∧ reason ≠ "") ∨
      (res.stoppedBy = none ∧ Raises (env (res.state.attempts - 1).toNat) res.state.turn))
    ?_ ?_ ?_ ?_ _ _ trivial (StepsMeet.own _ _)
  · intro left s e s' _ _ _ _
    trivial
  · intro left s e s' reason _ _ _ ha
    exact .inl ⟨reason, rfl, attempt_stop_reason ha⟩
  · intro left s e s' _ _ he ha
    have hattempts : s'.attempts - 1 = s.attempts := by
      have := (attempt_frame cfg e s).2.1
      rw [ha] at this
      simp only [Outcome.state] at this
      omega
    refine .inr ⟨rfl, ?_⟩
    simp only [hattempts, ← he]
    exact attempt_raised ha
  · intro left s _ _
    refine .inl ⟨_, rfl, ?_⟩
    split <;> decide

theorem stretchInv_init (cfg : LoopConfig) (messages : History) (toolNames : List String) :
    StretchInv cfg { messages := messages, toolNames := toolNames } := by
  refine ⟨⟨?_, ?_, ?_⟩, by simp [responses, trailing], ?_⟩
  · simp
  · simp
  · simp
  · refine stretchesLe_nil ?_
    unfold stretchBound
    omega

theorem run_stretches (cfg : LoopConfig) {env : ℕ → TurnEnv} (hc : ∀ i, NoContinue (env i))
    (messages : History) (toolNames : List String) :
    StretchesLe (stretchBound cfg) (responses (runAgentLoop cfg env messages toolNames).state) := by
  refine runLoop_rule (P := fun _ e => NoContinue e) (I := fun _ => StretchInv cfg)
    (Q := fun res => StretchesLe (stretchBound cfg) (responses res.state)) ?_ ?_ ?_ ?_ _ _
    (stretchInv_init cfg messages toolNames) (StepsMeet.of_forall (fun _ i => hc i) _ _)
  · intro left s e s' hI _ he ha
    exact (attempt_stretchInv he hI).2 s' ha
  · intro left s e s' reason hI _ he ha
    have := (attempt_stretchInv he hI).1
    rwa [ha] at this
  · intro left s e s' hI _ he ha
    have := (attempt_stretchInv he hI).1
    rwa [ha] at this
  · intro left s hI _
    exact hI.stretches

/-- **The loop's budget.** The calls of a run, its turn counter, its end, and
the stretches of responses without a parsed call. -/
theorem loop_budget {cfg : LoopConfig} (h0 : 0 ≤ cfg.maxTurns) (env : ℕ → TurnEnv) (messages : History)
    (toolNames : List String) :
    let run := runAgentLoop cfg env messages toolNames
    (run.state.log.length : ℤ) ≤ cfg.maxTurns + extraAttemptsBuffer ∧
    (0 ≤ run.state.turn ∧ run.state.turn ≤ cfg.maxTurns ∧
      ∀ r ∈ run.state.log, 0 ≤ r.turn - 1 ∧ r.turn ≤ cfg.maxTurns) ∧
    ((∃ reason, run.stoppedBy = some reason ∧ reason ≠ "") ∨
      (run.stoppedBy = none ∧ Raises (env (run.state.attempts - 1).toNat) run.state.turn)) ∧
    ((∀ i, NoContinue (env i)) → ∀ before mid after, responses run.state = before ++ mid ++ after →
      (∀ b ∈ mid, b = false) →
      (mid.length : ℤ) ≤ max cfg.truncationMaxContinuations 0 + max cfg.runawayMaxLoopRecoveries 0 +
        max cfg.noToolMaxRetries 1 + 2) := by
  have hb := run_withinBudget h0 env messages toolNames
  refine ⟨hb.calls_le, ⟨hb.turn_nonneg, hb.turn_le, fun r hr => ?_⟩,
    run_stoppedBy cfg env messages toolNames, fun hc before mid after heq hmid => ?_⟩
  · obtain ⟨h1, h2⟩ := hb.log_turns r hr
    exact ⟨by omega, h2⟩
  · have := run_stretches cfg hc messages toolNames before mid after heq hmid
    unfold stretchBound at this
    omega

/-- A reply cut off by the output cap. -/
def truncatedReply : TurnEnv :=
  { call := .response { aiText := "cut", visibleText := "cut", finishReason := "length" } }

theorem loop_budget_truncated :
    (0 : ℤ) ≤ (2 : ℤ) ∧
      ((runAgentLoop { maxTurns := 2 } (fun _ => truncatedReply) [] []).state.log.length : ℤ) ≤ 2 + 200 :=
  ⟨by decide, (loop_budget (by decide : (0 : ℤ) ≤ ({ maxTurns := 2 } : LoopConfig).maxTurns) (fun _ => truncatedReply) [] []).1⟩

/-- With a negative limit on continuations one reply without a call is already
more than the sum of the limits allows; inside a fallback chain a run whose
first call is out of retries ends with no reason. -/
theorem negative_limit_stretch :
    let cfg : LoopConfig := { maxTurns := 1, truncationMaxContinuations := -3,
                              runawayMaxLoopRecoveries := 0, noToolMaxRetries := 1 }
    let run := runAgentLoop cfg (fun _ => truncatedReply) [] []
    NoContinue truncatedReply ∧ 0 ≤ cfg.maxTurns ∧ responses run.state = [false] ∧
      cfg.truncationMaxContinuations + cfg.runawayMaxLoopRecoveries + max cfg.noToolMaxRetries 1 + 2 <
        ([false].length : ℤ) ∧
      (runAgentLoop cfg (fun _ => { call := .failure (.exhausted true) }) [] []).stoppedBy = none := by
  refine ⟨⟨rfl, rfl⟩, by decide, by decide, by decide, by decide⟩

end Loop
end AgentCore
