/-
# The limits of the runaway ladder

What a rung asks for next to what the attempt that ran away was given. The cap
observed is the cap of that attempt, or what it reports to have used where it
has none. A retry's cap is to be at most that, and no lower than it or the floor
of 1024 tokens, unless the rung is the expanded one, which is to fit the model
and the context. The phase goes up at every rung, so the expanded one is entered
once, and the rungs are as many as the configured retries at most.

A reduced cap comes from the attempt's own cap when the stream was stopped
early, but from the reported usage when the response was complete, whatever the
cap was: usage that does not agree with it takes the retry out of its limits
(`UsageFits`).

Key definitions: `observedCap`, `UsageFits`, `RungWithin`, `WithinLimits`.
Key theorem: `ladder_within_limits_iff`.
-/
import AgentCore.Loop.Rounds

namespace AgentCore
namespace Loop

/-! ### Caps -/

/-- What a reduced cap from reported usage needs to stay within its limits. -/
def UsageFits (observed : ℤ) (completionTokens : ℕ) : Prop :=
  completionTokens = 0 ∨ (observed < runawayMinOutputTokens ∧ (completionTokens : ℤ) = observed) ∨
    (runawayMinOutputTokens ≤ observed ∧ runawayMinOutputTokens ≤ completionTokens ∧
      (runawayRetryMaxTokensCeiling ≤ observed ∨ (completionTokens : ℤ) / 2 ≤ observed))

theorem retryMaxTokens_of_nonpos {observed : ℤ} (h : observed ≤ 0) : retryMaxTokens observed = none := if_pos h

theorem retryMaxTokens_pos {observed : ℤ} (h : 0 < observed) : ∃ cap, retryMaxTokens observed = some cap ∧ 0 < cap := by
  unfold retryMaxTokens runawayMinOutputTokens runawayRetryMaxTokensCeiling
  rw [if_neg (by omega)]
  split
  · exact ⟨observed, rfl, h⟩
  · exact ⟨_, rfl, by omega⟩

/-- A cap reduced from the cap it is compared with is within its limits. -/
theorem retryMaxTokens_within {observed cap : ℤ} (h : retryMaxTokens observed = some cap) :
    min observed runawayMinOutputTokens ≤ cap ∧ cap ≤ observed := by
  unfold retryMaxTokens runawayMinOutputTokens runawayRetryMaxTokensCeiling at h
  unfold runawayMinOutputTokens
  split at h
  · cases h
  · split at h
    · cases h
      omega
    · cases h
      omega

theorem usage_within_iff {observed cap : ℤ} {completionTokens : ℕ}
    (h : runawayRetryMaxTokens completionTokens = some cap) :
    min observed runawayMinOutputTokens ≤ cap ∧ cap ≤ observed ↔ UsageFits observed completionTokens := by
  unfold runawayRetryMaxTokens retryMaxTokens runawayMinOutputTokens runawayRetryMaxTokensCeiling at h
  unfold UsageFits runawayMinOutputTokens runawayRetryMaxTokensCeiling
  split at h
  · cases h
  · split at h
    · cases h
      omega
    · cases h
      omega

theorem expandedRetryMaxTokens_within {limits : OutputLimits} {activeCap : Option ℤ} {cap : ℤ}
    (h : expandedRetryMaxTokens limits activeCap = some cap) :
    (∃ c, activeCap = some c ∧ 0 < c ∧ c < cap) ∧ (∀ limit ∈ limits.maxOutputTokensLimit, cap ≤ limit) ∧
      ∀ hint ∈ limits.contextTokenLimitHint, hint ≠ 0 →
        limits.messageTokens + cap + runawayContextReserveTokens ≤ hint := by
  obtain ⟨c, hc, h⟩ := Option.bind_eq_some_iff.mp h
  by_cases hpos : c ≤ 0
  · rw [if_pos hpos] at h
    cases h
  · rw [if_neg hpos] at h
    dsimp only at h
    have hbounds : c < cap ∧ (∀ limit ∈ limits.maxOutputTokensLimit, cap ≤ limit) ∧
        ∀ hint ∈ orElse limits.contextTokenLimitHint none,
          cap ≤ max (hint - limits.messageTokens - runawayContextReserveTokens) 0 := by
      cases hlimit : limits.maxOutputTokensLimit
      all_goals
        cases hhint : orElse limits.contextTokenLimitHint none
        all_goals
          rw [hlimit, hhint] at h
          dsimp only at h
          split at h
          · next hlt =>
            obtain rfl := Option.some.inj h
            refine ⟨hlt, fun limit hmem => ?_, fun hint hmem => ?_⟩
            all_goals
              cases hmem
              all_goals first
                | exact Int.min_le_right _ _
                | exact Int.le_trans (Int.min_le_left _ _) (Int.min_le_right _ _)
          · cases h
    obtain ⟨hlt, hlimit, hcontext⟩ := hbounds
    refine ⟨⟨c, hc, Int.not_le.mp hpos, hlt⟩, hlimit, fun hint hmem hne => ?_⟩
    have hor : orElse limits.contextTokenLimitHint none = some hint := by
      rw [Option.mem_def.mp hmem, orElse, if_neg (by simp [hne])]
    have := hcontext hint hor
    omega

/-! ### Rungs -/

/-- The cap a call runs under at a rung. -/
def capOf (cfg : CallConfig) (l : Ladder) : Option ℤ := orElse l.maxTokens cfg.maxCompletionTokensHint

/-- What a rung owes to the cap observed, to the model and to the context. -/
structure RungWithin (cfg : CallConfig) (observed : Option ℤ) (l : Ladder) : Prop where
  floor : ∀ o ∈ observed, ∀ cap ∈ capOf cfg l, min o runawayMinOutputTokens ≤ cap
  reduced : l.runawayRetries ≠ 1 → ∀ o ∈ observed, ∀ cap ∈ capOf cfg l, cap ≤ o
  output : l.runawayRetries = 1 → ∀ cap ∈ capOf cfg l, ∀ limit ∈ cfg.limits.maxOutputTokensLimit, cap ≤ limit
  context : l.runawayRetries = 1 → ∀ cap ∈ capOf cfg l, ∀ hint ∈ cfg.limits.contextTokenLimitHint, hint ≠ 0 →
    cfg.limits.messageTokens + cap + runawayContextReserveTokens ≤ hint

/-- The next rung is the expanded one. -/
def Expands (cfg : CallConfig) (observed : Option ℤ) (l : Ladder) : Prop :=
  l.runawayRetries = 0 ∧ cfg.runawayExpandEnabled = true ∧ (expandedRetryMaxTokens cfg.limits observed).isSome = true

variable {cfg : CallConfig} {l : Ladder} {observed : Option ℤ}

theorem enter_runawayRetries (l : Ladder) (phase : ℕ) (cap : Option ℤ) : (l.enter phase cap).1.runawayRetries = phase :=
  rfl

theorem enter_maxTokens (l : Ladder) (phase : ℕ) (cap : Option ℤ) : (l.enter phase cap).1.maxTokens = cap := rfl

theorem capOf_some {cap : ℤ} (h : cap ≠ 0) (phase : ℕ) : capOf cfg (l.enter phase (some cap)).1 = some cap := by
  rw [capOf, enter_maxTokens, orElse, if_neg (by simp [h])]

/-- The next rung expands, or it is a later one with the reduced cap, if there is
one. -/
theorem next_cases (cfg : CallConfig) (observed reduced : Option ℤ) (l : Ladder) :
    (Expands cfg observed l ∧ ∃ cap, expandedRetryMaxTokens cfg.limits observed = some cap ∧
      (l.next cfg.runawayExpandEnabled cfg.limits observed reduced).1 = (l.enter 1 (some cap)).1) ∨
    (¬Expands cfg observed l ∧ ∃ phase, 2 ≤ phase ∧ l.runawayRetries < phase ∧
      (l.next cfg.runawayExpandEnabled cfg.limits observed reduced).1 =
        (l.enter phase (reduced <|> l.maxTokens)).1) := by
  unfold Ladder.next Expands
  dsimp only
  split
  · next hfirst =>
    have hzero : l.runawayRetries = 0 := by omega
    cases hcap : expandedRetryMaxTokens cfg.limits observed with
    | some cap => exact .inl ⟨⟨hzero, hfirst.2, rfl⟩, cap, rfl, rfl⟩
    | none => exact .inr ⟨fun h => Bool.false_ne_true h.2.2, 2, Nat.le_refl 2, by omega, rfl⟩
  · next hfirst =>
    refine .inr ⟨fun h => hfirst ⟨by omega, h.2.1⟩, max (l.runawayRetries + 1) 2, by omega, by omega, rfl⟩

theorem expanded_within {cap : ℤ} (h : expandedRetryMaxTokens cfg.limits observed = some cap) :
    RungWithin cfg observed (l.enter 1 (some cap)).1 := by
  obtain ⟨⟨c, hc, hpos, hlt⟩, hlimit, hcontext⟩ := expandedRetryMaxTokens_within h
  have hcap : ∀ cap' ∈ capOf cfg (l.enter 1 (some cap)).1, cap' = cap := by
    intro cap' hmem
    rw [capOf_some (by omega), Option.mem_def, Option.some.injEq] at hmem
    exact hmem.symm
  refine ⟨fun o ho cap' hmem => ?_, fun hne => absurd rfl hne, fun _ cap' hmem => ?_, fun _ cap' hmem => ?_⟩
  · rw [hc, Option.mem_def, Option.some.injEq] at ho
    rw [hcap cap' hmem]
    omega
  · rw [hcap cap' hmem]
    exact hlimit
  · rw [hcap cap' hmem]
    exact hcontext

/-- A rung that keeps the cap observed. -/
theorem kept_within {phase : ℕ} (hphase : 2 ≤ phase) (h : ∀ cap ∈ capOf cfg l, ∀ o ∈ observed, cap = o) :
    RungWithin cfg observed (l.enter phase l.maxTokens).1 := by
  have hne : (l.enter phase l.maxTokens).1.runawayRetries ≠ 1 := by
    rw [enter_runawayRetries]
    omega
  refine ⟨fun o ho cap hmem => ?_, fun _ o ho cap hmem => ?_, fun he => absurd he hne, fun he => absurd he hne⟩
  · rw [h cap hmem o ho]
    exact Int.min_le_left _ _
  · rw [h cap hmem o ho]

/-- A rung with a reduced cap. -/
theorem reduced_within_iff {phase : ℕ} (hphase : 2 ≤ phase) {cap : ℤ} (hpos : 0 < cap) :
    RungWithin cfg observed (l.enter phase (some cap)).1 ↔
      ∀ o ∈ observed, min o runawayMinOutputTokens ≤ cap ∧ cap ≤ o := by
  have hcap : capOf cfg (l.enter phase (some cap)).1 = some cap := capOf_some (by omega) phase
  have hne : (l.enter phase (some cap)).1.runawayRetries ≠ 1 := by
    rw [enter_runawayRetries]
    omega
  constructor
  · intro h o ho
    exact ⟨h.floor o ho cap hcap, h.reduced hne o ho cap hcap⟩
  · intro h
    refine ⟨fun o ho cap' hmem => ?_, fun _ o ho cap' hmem => ?_, fun he => absurd he hne, fun he => absurd he hne⟩
    · rw [hcap, Option.mem_def, Option.some.injEq] at hmem
      rw [← hmem]
      exact (h o ho).1
    · rw [hcap, Option.mem_def, Option.some.injEq] at hmem
      rw [← hmem]
      exact (h o ho).2

/-- A rung with a cap reduced from the attempt's own. -/
theorem fromCap_within {phase : ℕ} (hphase : 2 ≤ phase) :
    RungWithin cfg (capOf cfg l) (l.enter phase (runawayRetryMaxTokensFromCap (capOf cfg l) <|> l.maxTokens)).1 := by
  have hkept : RungWithin cfg (capOf cfg l) (l.enter phase l.maxTokens).1 := by
    refine kept_within hphase fun cap hcap o ho => ?_
    rw [Option.mem_def] at hcap ho
    rw [hcap, Option.some.injEq] at ho
    exact ho
  cases hc : capOf cfg l with
  | none =>
    rw [hc] at hkept
    exact hkept
  | some c =>
    by_cases hpos : 0 < c
    · obtain ⟨cap, hcap, hcap0⟩ := retryMaxTokens_pos hpos
      rw [show runawayRetryMaxTokensFromCap (some c) = some cap from hcap]
      refine (reduced_within_iff hphase hcap0).mpr fun o ho => ?_
      rw [Option.mem_def, Option.some.injEq] at ho
      rw [← ho]
      exact retryMaxTokens_within hcap
    · rw [show runawayRetryMaxTokensFromCap (some c) = none from retryMaxTokens_of_nonpos (Int.not_lt.mp hpos)]
      rw [hc] at hkept
      exact hkept

/-- A rung with a cap reduced from reported usage. -/
theorem fromUsage_within_iff {phase : ℕ} (hphase : 2 ≤ phase) (completionTokens : ℕ) :
    RungWithin cfg (orElse (capOf cfg l) (some completionTokens))
        (l.enter phase (runawayRetryMaxTokens completionTokens <|> l.maxTokens)).1 ↔
      ∀ o ∈ orElse (capOf cfg l) (some completionTokens), UsageFits o completionTokens := by
  rcases Nat.eq_zero_or_pos completionTokens with rfl | hpos
  · have hnone : runawayRetryMaxTokens 0 = none := retryMaxTokens_of_nonpos (Int.le_refl 0)
    rw [hnone]
    refine ⟨fun _ o _ => .inl rfl, fun _ => kept_within hphase fun cap hcap o ho => ?_⟩
    rw [Option.mem_def] at hcap ho
    rw [hcap, orElse] at ho
    split at ho
    · next hzero =>
      rcases hzero with hzero | hzero
      · cases hzero
      · rw [Option.some.inj hzero]
        exact Option.some.inj ho
    · exact Option.some.inj ho
  · have hpos : (0 : ℤ) < completionTokens := by omega
    obtain ⟨cap, hcap, hcap0⟩ := retryMaxTokens_pos hpos
    rw [show runawayRetryMaxTokens completionTokens = some cap from hcap]
    refine (reduced_within_iff hphase hcap0).trans (forall₂_congr fun o _ => ?_)
    exact usage_within_iff hcap

/-! ### One round -/

/-- The cap of an attempt, or the usage it reports where it has none. -/
def observedCap (cfg : CallConfig) (env : AttemptEnv) (s : CallState) : Option ℤ :=
  match roundResult cfg env s with
  | some (.ok r) => orElse (activeCap cfg s) (some r.completionTokens)
  | _ => activeCap cfg s

/-- A complete response that ran away is sampled again with a reduced cap. -/
structure Reduces (cfg : CallConfig) (env : AttemptEnv) (s : CallState) (r : Response) : Prop where
  result : roundResult cfg env s = some (.ok r)
  runaway : r.runaway = true
  left : runawayRetryLeft cfg s = true
  time : deadlineAllowsRetryAfter cfg env.handling runawayBackoffS = true
  reduced : ¬Expands cfg (observedCap cfg env s) s.ladder

variable {env : AttemptEnv} {s : CallState}

theorem rung_within {result : Except Raised Response} {l' : Ladder} (hresult : roundResult cfg env s = some result)
    (hrung : Rung cfg env (activeCap cfg s) s.ladder result l') (hleft : runawayRetryLeft cfg s = true)
    (hfits : ∀ r, Reduces cfg env s r → ∀ o ∈ observedCap cfg env s, UsageFits o r.completionTokens) :
    RungWithin cfg (observedCap cfg env s) l' := by
  cases hrung with
  | complete r hrunaway htime =>
    have hobserved : observedCap cfg env s = orElse (capOf cfg s.ladder) (some r.completionTokens) := by
      rw [observedCap, hresult]
      rfl
    rcases next_cases cfg (orElse (activeCap cfg s) (some r.completionTokens))
      (runawayRetryMaxTokens r.completionTokens) s.ladder with ⟨-, cap, hcap, hnext⟩ | ⟨hreduced, phase, hphase, -, hnext⟩
    · rw [hnext, hobserved]
      exact expanded_within hcap
    · have hreduces : Reduces cfg env s r := ⟨hresult, hrunaway, hleft, htime, by rwa [hobserved]⟩
      rw [hnext]
      have hall := hfits r hreduces
      rw [hobserved] at hall ⊢
      exact (fromUsage_within_iff hphase r.completionTokens).mpr hall
  | early r htime =>
    have hobserved : observedCap cfg env s = capOf cfg s.ladder := by
      rw [observedCap, hresult]
      rfl
    rw [hobserved]
    rcases next_cases cfg (activeCap cfg s) (runawayRetryMaxTokensFromCap (activeCap cfg s)) s.ladder with
      ⟨-, cap, hcap, hnext⟩ | ⟨-, phase, hphase, -, hnext⟩
    · rw [hnext]
      exact expanded_within hcap
    · rw [hnext]
      exact fromCap_within hphase
  | overflow e he =>
    have hobserved : observedCap cfg env s = capOf cfg s.ladder := by
      rw [observedCap, hresult]
      rfl
    rw [hobserved]
    exact fromCap_within (Nat.le_refl 2)

/-- A round that reduces takes the rung it says. -/
theorem iterate_reduces {r : Response} (h : Reduces cfg env s r) :
    (iterate cfg env s).1.ladder = (s.ladder.next cfg.runawayExpandEnabled cfg.limits
      (orElse (activeCap cfg s) (some r.completionTokens)) (runawayRetryMaxTokens r.completionTokens)).1 := by
  obtain ⟨a₁, s₁, hit, hattempt, -, hladder, hmax, -⟩ := iterate_of_result h.result
  have hleft : runawayRetryLeft cfg s₁ = true := by
    rw [runawayRetryLeft, hladder, hattempt]
    exact h.left
  rw [hit, conclude, onResponse, if_pos h.runaway, if_pos (by rw [hleft, h.time]; rfl), hmax, hladder]
  rfl

/-! ### Phases -/

/-- Expanded thinking belongs to the first phase. -/
def Phased (l : Ladder) : Prop := (l.retryThinking.any fun t => t.mode == .expanded) = true → l.runawayRetries = 1

theorem phased_enter (l : Ladder) (phase : ℕ) (cap : Option ℤ) : Phased (l.enter phase cap).1 := by
  intro h
  rw [enter_runawayRetries]
  unfold Ladder.enter runawayRetryPolicy at h
  dsimp only at h
  split at h
  · assumption
  · split at h <;> cases h

theorem next_phase (observed reduced : Option ℤ) (l : Ladder) :
    l.runawayRetries < (l.next cfg.runawayExpandEnabled cfg.limits observed reduced).1.runawayRetries ∧
      Phased (l.next cfg.runawayExpandEnabled cfg.limits observed reduced).1 := by
  rcases next_cases cfg observed reduced l with ⟨hexpands, cap, -, hnext⟩ | ⟨-, phase, -, hlt, hnext⟩
  · rw [hnext, enter_runawayRetries, hexpands.1]
    exact ⟨Nat.one_pos, phased_enter _ _ _⟩
  · rw [hnext, enter_runawayRetries]
    exact ⟨hlt, phased_enter _ _ _⟩

/-- The phase goes up at a rung. -/
theorem Rung.phase {cap : Option ℤ} {result : Except Raised Response} {l' : Ladder} (h : Rung cfg env cap l result l')
    (hl : Phased l) : l.runawayRetries < l'.runawayRetries ∧ Phased l' := by
  cases h with
  | complete r hrunaway htime => exact next_phase ..
  | early r htime => exact next_phase ..
  | overflow e he =>
    have hone := hl he
    refine ⟨?_, phased_enter _ _ _⟩
    rw [hone]
    exact Nat.one_lt_two

/-- A round leaves the ladder as it was or climbs a rung. -/
theorem iterate_ladder (cfg : CallConfig) (env : AttemptEnv) (s : CallState) :
    (iterate cfg env s).1.ladder = s.ladder ∨
    ∃ result, roundResult cfg env s = some result ∧ runawayRetryLeft cfg s = true ∧
      Rung cfg env (activeCap cfg s) s.ladder result (iterate cfg env s).1.ladder := by
  rcases iterate_turnout cfg env s with ⟨-, -, reason, hit⟩ | ⟨result, hresult, hturn, -, -⟩
  · rw [hit]
    exact .inl rfl
  · generalize iterate cfg env s = p at hturn ⊢
    cases hturn with
    | ended ladder => exact .inl ladder
    | climbed left rung attempt empty => exact .inr ⟨result, hresult, left, rung⟩
    | resent isEmpty room ladder attempt empty => exact .inl ladder
    | advanced asked advance ladder attempt empty => exact .inl ladder
    | retried failed ladder attempt empty => exact .inl ladder

/-! ### The whole call -/

/-- The ladder after at most `n` rounds of a call. -/
def ladderAt (cfg : CallConfig) (envs : ℕ → AttemptEnv) (maxTokens : Option ℤ) (n : ℕ) : Ladder :=
  (callLlm cfg envs maxTokens n).state.ladder

/-- What a call's ladder owes: each rung is within its limits, the phase never
goes back and goes up at a rung, the expanded phase is entered once, and the
rungs are no more than the configured retries. -/
structure WithinLimits (cfg : CallConfig) (envs : ℕ → AttemptEnv) (maxTokens : Option ℤ) : Prop where
  rungs : ∀ n, (ladderAt cfg envs maxTokens n).runawayAttempts < (ladderAt cfg envs maxTokens (n + 1)).runawayAttempts →
    RungWithin cfg
      (observedCap cfg (envs (callLlm cfg envs maxTokens n).round) (callLlm cfg envs maxTokens n).state)
      (ladderAt cfg envs maxTokens (n + 1))
  phases : ∀ n, (ladderAt cfg envs maxTokens n).runawayRetries ≤ (ladderAt cfg envs maxTokens (n + 1)).runawayRetries ∧
    ((ladderAt cfg envs maxTokens n).runawayAttempts < (ladderAt cfg envs maxTokens (n + 1)).runawayAttempts →
      (ladderAt cfg envs maxTokens n).runawayRetries < (ladderAt cfg envs maxTokens (n + 1)).runawayRetries)
  expandedOnce : ∀ m n, (ladderAt cfg envs maxTokens m).runawayRetries ≠ 1 →
    (ladderAt cfg envs maxTokens (m + 1)).runawayRetries = 1 → (ladderAt cfg envs maxTokens n).runawayRetries ≠ 1 →
    (ladderAt cfg envs maxTokens (n + 1)).runawayRetries = 1 → m = n
  retries : ∀ n, (ladderAt cfg envs maxTokens n).runawayAttempts ≤ cfg.runawayMaxRetries.toNat

variable {envs : ℕ → AttemptEnv} {maxTokens : Option ℤ}

/-- The next round of a call leaves the ladder, or is one that climbs it. -/
theorem ladder_step (n : ℕ) : ladderAt cfg envs maxTokens (n + 1) = ladderAt cfg envs maxTokens n ∨
    let c := callLlm cfg envs maxTokens n
    c.ended = none ∧ ladderAt cfg envs maxTokens (n + 1) = (iterate cfg (envs c.round) c.state).1.ladder ∧
      ∃ result, roundResult cfg (envs c.round) c.state = some result ∧ runawayRetryLeft cfg c.state = true ∧
        Rung cfg (envs c.round) (activeCap cfg c.state) c.state.ladder result
          (iterate cfg (envs c.round) c.state).1.ladder := by
  unfold ladderAt
  rw [callLlm_succ]
  cases hs : callStep cfg envs (callLlm cfg envs maxTokens n) with
  | none => exact .inl rfl
  | some c' =>
    obtain ⟨hend, ⟨-, rfl⟩ | ⟨-, rfl⟩⟩ := callStep_cases hs
    · exact .inl rfl
    · rcases iterate_ladder cfg (envs (callLlm cfg envs maxTokens n).round) (callLlm cfg envs maxTokens n).state with
        hsame | hrung
      · exact .inl hsame
      · exact .inr ⟨hend, rfl, hrung⟩

theorem phased_at (n : ℕ) : Phased (ladderAt cfg envs maxTokens n) := by
  induction n with
  | zero => exact fun h => absurd h Bool.false_ne_true
  | succ n ih =>
    rcases ladder_step n with
      hsame | ⟨-, hladder, result, -, -, hrung⟩
    · rw [hsame]
      exact ih
    · rw [hladder]
      exact (hrung.phase ih).2

theorem phases_advance (n : ℕ) :
    (ladderAt cfg envs maxTokens n).runawayRetries ≤ (ladderAt cfg envs maxTokens (n + 1)).runawayRetries ∧
    ((ladderAt cfg envs maxTokens n).runawayAttempts < (ladderAt cfg envs maxTokens (n + 1)).runawayAttempts →
      (ladderAt cfg envs maxTokens n).runawayRetries < (ladderAt cfg envs maxTokens (n + 1)).runawayRetries) := by
  rcases ladder_step n with
    hsame | ⟨-, hladder, result, -, -, hrung⟩
  · rw [hsame]
    exact ⟨Nat.le_refl _, fun h => absurd h (Nat.lt_irrefl _)⟩
  · rw [hladder]
    have hlt := (hrung.phase (phased_at n)).1
    exact ⟨Nat.le_of_lt hlt, fun _ => hlt⟩

theorem phases_monotone : Monotone fun n => (ladderAt cfg envs maxTokens n).runawayRetries :=
  monotone_nat_of_le_succ fun n => (phases_advance n).1

theorem expanded_once {m n : ℕ} (hm : (ladderAt cfg envs maxTokens (m + 1)).runawayRetries = 1)
    (hn : (ladderAt cfg envs maxTokens n).runawayRetries ≠ 1)
    (hn' : (ladderAt cfg envs maxTokens (n + 1)).runawayRetries = 1) : ¬m < n := by
  intro hlt
  have hle : (ladderAt cfg envs maxTokens (m + 1)).runawayRetries ≤ (ladderAt cfg envs maxTokens n).runawayRetries :=
    phases_monotone (Nat.succ_le_of_lt hlt)
  have hnext : (ladderAt cfg envs maxTokens n).runawayRetries ≤ (ladderAt cfg envs maxTokens (n + 1)).runawayRetries :=
    (phases_advance n).1
  omega

theorem retries_bounded (n : ℕ) : (ladderAt cfg envs maxTokens n).runawayAttempts ≤ cfg.runawayMaxRetries.toNat := by
  induction n with
  | zero => exact Nat.zero_le _
  | succ n ih =>
    rcases ladder_step n with
      hsame | ⟨-, hladder, result, -, hleft, hrung⟩
    · rw [hsame]
      exact ih
    · have hattempts := hrung.runawayAttempts
      have hroom := (of_decide_eq_true hleft).1
      rw [hladder]
      omega

/-- A reduction is a rung of the call. -/
theorem ladder_of_reduces {n : ℕ} (hend : (callLlm cfg envs maxTokens n).ended = none) {r : Response}
    (h : Reduces cfg (envs (callLlm cfg envs maxTokens n).round) (callLlm cfg envs maxTokens n).state r) :
    ladderAt cfg envs maxTokens (n + 1) = ((ladderAt cfg envs maxTokens n).next cfg.runawayExpandEnabled cfg.limits
      (orElse (activeCap cfg (callLlm cfg envs maxTokens n).state) (some r.completionTokens))
      (runawayRetryMaxTokens r.completionTokens)).1 := by
  have hlt : ((callLlm cfg envs maxTokens n).state.attempt : ℤ) < cfg.maxRetries := by
    have := (of_decide_eq_true h.left).2
    omega
  rw [ladderAt, callLlm_succ, callStep, hend]
  dsimp only
  rw [if_pos hlt]
  exact iterate_reduces h

/-- **The ladder stays within its limits exactly as far as reported usage lets
it.** In every call the phase only advances, the expanded one is entered once at
most and fits, and the rungs are bounded; every rung is within the limits of the
cap observed if and only if each complete response that ran away and is sampled
again with a reduced cap reports usage that fits the cap of its attempt. -/
theorem ladder_within_limits_iff (cfg : CallConfig) (envs : ℕ → AttemptEnv) (maxTokens : Option ℤ) :
    WithinLimits cfg envs maxTokens ↔
      ∀ n, let c := callLlm cfg envs maxTokens n
        c.ended = none → ∀ r, Reduces cfg (envs c.round) c.state r →
          ∀ o ∈ observedCap cfg (envs c.round) c.state, UsageFits o r.completionTokens := by
  constructor
  · intro h n c hend r hreduces
    have hobserved : observedCap cfg (envs c.round) c.state = orElse (capOf cfg c.state.ladder) (some r.completionTokens) := by
      rw [observedCap, hreduces.result]
      rfl
    have hladder := ladder_of_reduces hend hreduces
    have hwithin := h.rungs n (by rw [hladder, next_runawayAttempts]; exact Nat.lt_succ_self _)
    rcases next_cases cfg (orElse (activeCap cfg c.state) (some r.completionTokens))
      (runawayRetryMaxTokens r.completionTokens) c.state.ladder with ⟨hexpands, -⟩ | ⟨-, phase, hphase, -, hnext⟩
    · rw [← show observedCap cfg (envs c.round) c.state = orElse (activeCap cfg c.state) (some r.completionTokens) from
        hobserved] at hexpands
      exact absurd hexpands hreduces.reduced
    · rw [hladder, show ladderAt cfg envs maxTokens n = c.state.ladder from rfl, hnext] at hwithin
      rw [hobserved] at hwithin ⊢
      exact (fromUsage_within_iff hphase r.completionTokens).mp hwithin
  · intro h
    refine ⟨fun n hclimbs => ?_, phases_advance, fun m n hm hm' hn hn' => ?_, retries_bounded⟩
    · rcases ladder_step n with
        hsame | ⟨hend, hladder, result, hresult, hleft, hrung⟩
      · rw [hsame] at hclimbs
        exact absurd hclimbs (Nat.lt_irrefl _)
      · rw [hladder]
        exact rung_within hresult hrung hleft (h n hend)
    · rcases Nat.lt_trichotomy m n with hlt | heq | hgt
      · exact absurd hlt (expanded_once hm' hn hn')
      · exact heq
      · exact absurd hgt (expanded_once hn' hm hm')

/-- A call with a low cap, which the model does not let it raise. -/
def lowCapCall : CallConfig :=
  { streamingCall with
    maxRetries := 3, stream := false, maxCompletionTokensHint := some 1024, limits := { maxOutputTokensLimit := some 1024 } }

/-- A response that ran away and reports more than its cap: the retry's cap is
3000. -/
theorem usage_above_cap_raises :
    ¬WithinLimits lowCapCall (fun _ => { outcome := .ok { runaway := true, completionTokens := 6000 } }) none := by
  intro h
  have hwithin := h.rungs 0 (by decide +kernel)
  have hle : (3000 : ℤ) ≤ 1024 := hwithin.reduced (by decide +kernel) 1024 (by decide +kernel) 3000 (by decide +kernel)
  exact absurd hle (by decide)

end Loop
end AgentCore
