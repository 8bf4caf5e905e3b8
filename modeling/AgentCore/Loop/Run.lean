/-
# Runs of the agent loop

`runLoop` is the loop of `_run_loop_inner`: attempts follow each other while
the turn counter is below `max_turns` and attempts are left, each meeting its
own `TurnEnv`. The number of attempts left is the recursion's argument, so a
run always ends; `attempts` counts the same thing from below.

A property of runs is proved once and for all attempts by `runLoop_rule`: what
one attempt keeps, under what holds of its surroundings (`StepsMeet`), the run
keeps.

Key definitions: `runLoop`, `runAgentLoop`, `StepsMeet`.
Key theorems: `runLoop_rule`, `attempt_frame`.
-/
import AgentCore.Loop.Turn

namespace AgentCore
namespace Loop

def maxAttempts (cfg : LoopConfig) : ℤ := cfg.maxTurns + extraAttemptsBuffer

/-- A finished run: its last state and why it stopped; no reason when an
exception left it, the first call's failure for the fallback chain or one that
nothing in the loop handles. -/
structure RunResult where
  state : LoopState
  stoppedBy : Option String

/-- The loop's own end. -/
def finish (cfg : LoopConfig) (s : LoopState) : RunResult :=
  ⟨s, some (if maxAttempts cfg ≤ s.attempts ∧ s.turn < cfg.maxTurns then "max_attempts" else "max_turns")⟩

def runLoop (cfg : LoopConfig) (env : ℕ → TurnEnv) : ℕ → LoopState → RunResult
  | 0, s => finish cfg s
  | left + 1, s =>
    if s.turn < cfg.maxTurns then
      match attempt cfg (env s.attempts.toNat) s with
      | .next s' => runLoop cfg env left s'
      | .stop s' reason => ⟨s', some reason⟩
      | .raised s' => ⟨s', none⟩
    else finish cfg s

/-- A run from a history and a set of tools. -/
def runAgentLoop (cfg : LoopConfig) (env : ℕ → TurnEnv) (messages : History) (toolNames : List String) :
    RunResult :=
  runLoop cfg env (maxAttempts cfg).toNat { messages := messages, toolNames := toolNames }

/-- Every attempt of the run meets `P`. -/
def StepsMeet (P : LoopState → TurnEnv → Prop) (cfg : LoopConfig) (env : ℕ → TurnEnv) :
    ℕ → LoopState → Prop
  | 0, _ => True
  | left + 1, s => s.turn < cfg.maxTurns → P s (env s.attempts.toNat) ∧
      match attempt cfg (env s.attempts.toNat) s with
      | .next s' => StepsMeet P cfg env left s'
      | _ => True

/-- Every attempt of a run from a history meets `P`. -/
def RunMeets (P : LoopState → TurnEnv → Prop) (cfg : LoopConfig) (env : ℕ → TurnEnv) (messages : History)
    (toolNames : List String) : Prop :=
  StepsMeet P cfg env (maxAttempts cfg).toNat { messages := messages, toolNames := toolNames }

theorem StepsMeet.of_forall {P : LoopState → TurnEnv → Prop} {cfg : LoopConfig} {env : ℕ → TurnEnv}
    (h : ∀ s i, P s (env i)) : ∀ (left : ℕ) (s : LoopState), StepsMeet P cfg env left s
  | 0, _ => trivial
  | left + 1, s => fun _ => by
    refine ⟨h s _, ?_⟩
    split
    · exact StepsMeet.of_forall h left _
    · trivial

/-- What holds of every surrounding holds along the run. -/
theorem StepsMeet.and {P Q : LoopState → TurnEnv → Prop} {cfg : LoopConfig} {env : ℕ → TurnEnv}
    (hQ : ∀ s i, Q s (env i)) : ∀ {left : ℕ} {s : LoopState}, StepsMeet P cfg env left s →
    StepsMeet (fun s e => P s e ∧ Q s e) cfg env left s
  | 0, _, _ => trivial
  | left + 1, s, h => fun hturn => by
    obtain ⟨hP, hrest⟩ := h hturn
    refine ⟨⟨hP, hQ s _⟩, ?_⟩
    cases ha : attempt cfg (env s.attempts.toNat) s with
    | next s' =>
      rw [ha] at hrest
      exact StepsMeet.and hQ hrest
    | stop s' reason => trivial
    | raised s' => trivial

/-- Every attempt meets the surroundings its number names. -/
theorem StepsMeet.own {cfg : LoopConfig} {env : ℕ → TurnEnv} :
    ∀ (left : ℕ) (s : LoopState), StepsMeet (fun s e => e = env s.attempts.toNat) cfg env left s
  | 0, _ => trivial
  | left + 1, s => fun _ => by
    refine ⟨rfl, ?_⟩
    split
    · exact StepsMeet.own left _
    · trivial

/-- **The rule for runs.** `I` is what holds at the loop's head, with the
attempts left; `Q` is what holds at the end. -/
theorem runLoop_rule {cfg : LoopConfig} {env : ℕ → TurnEnv} {P : LoopState → TurnEnv → Prop}
    {I : ℕ → LoopState → Prop} {Q : RunResult → Prop}
    (hnext : ∀ left s e s', I (left + 1) s → s.turn < cfg.maxTurns → P s e → attempt cfg e s = .next s' →
      I left s')
    (hstop : ∀ left s e s' reason, I (left + 1) s → s.turn < cfg.maxTurns → P s e →
      attempt cfg e s = .stop s' reason → Q ⟨s', some reason⟩)
    (hraised : ∀ left s e s', I (left + 1) s → s.turn < cfg.maxTurns → P s e →
      attempt cfg e s = .raised s' → Q ⟨s', none⟩)
    (hfinish : ∀ left s, I left s → (left = 0 ∨ cfg.maxTurns ≤ s.turn) → Q (finish cfg s)) :
    ∀ (left : ℕ) (s : LoopState), I left s → StepsMeet P cfg env left s → Q (runLoop cfg env left s)
  | 0, s, hI, _ => hfinish 0 s hI (.inl rfl)
  | left + 1, s, hI, hP => by
    unfold runLoop
    by_cases hturn : s.turn < cfg.maxTurns
    · rw [if_pos hturn]
      obtain ⟨hPs, hrest⟩ := hP hturn
      cases ha : attempt cfg (env s.attempts.toNat) s with
      | next s' =>
        rw [ha] at hrest
        exact runLoop_rule hnext hstop hraised hfinish left s'
          (hnext left s _ s' hI hturn hPs ha) hrest
      | stop s' reason => exact hstop left s _ s' reason hI hturn hPs ha
      | raised s' => exact hraised left s _ s' hI hturn hPs ha
    · rw [if_neg hturn]
      exact hfinish (left + 1) s hI (.inr (by omega))

/-! ### What `_process_llm_response` hands back -/

theorem processLlmResponse_parsed (cfg : LoopConfig) (env : TurnEnv) (toolNames : List String) (turn : ℤ)
    (messages : History) (r : Response) :
    (processLlmResponse cfg env toolNames turn messages r).parsed = parsedCalls cfg env toolNames turn r := by
  unfold processLlmResponse
  dsimp only
  split_ifs <;> rfl

theorem processLlmResponse_continue (cfg : LoopConfig) (env : TurnEnv) (toolNames : List String)
    (turn : ℤ) (messages : History) (r : Response) :
    (processLlmResponse cfg env toolNames turn messages r).continueToNextTurn =
      env.onLlmResponse.continueToNextTurn := by
  unfold processLlmResponse
  dsimp only
  split_ifs with h
  all_goals simp_all

/-! ### What an attempt does to the counters -/

def Outcome.state : Outcome → LoopState
  | .next s => s
  | .stop s _ => s
  | .raised s => s

/-- The turn an outcome leaves: the attempt's own, or the one before when the
loop goes on. -/
def Outcome.keepsTurn (turn : ℤ) : Outcome → Prop
  | .next s => s.turn = turn ∨ s.turn = turn - 1
  | .stop s reason => s.turn = turn ∧ reason ≠ ""
  | .raised s => s.turn = turn

theorem withoutCalls_frame (cfg : LoopConfig) (s : LoopState) (r : Response) :
    (withoutCalls cfg s r).keepsTurn s.turn ∧ (withoutCalls cfg s r).state.attempts = s.attempts ∧
      (withoutCalls cfg s r).state.log = s.log := by
  unfold withoutCalls
  dsimp only
  split_ifs
  all_goals simp [Outcome.keepsTurn, Outcome.state]

theorem withCalls_frame (cfg : LoopConfig) (env : TurnEnv) (s : LoopState) (p : Processed) :
    (withCalls cfg env s p).keepsTurn s.turn ∧ (withCalls cfg env s p).state.attempts = s.attempts ∧
      (withCalls cfg env s p).state.log = s.log := by
  unfold withCalls
  dsimp only
  split_ifs
  all_goals simp_all [Outcome.keepsTurn, Outcome.state]

theorem respond_frame (cfg : LoopConfig) (env : TurnEnv) (s : LoopState) (r : Response) :
    (respond cfg env s r).keepsTurn s.turn ∧ (respond cfg env s r).state.attempts = s.attempts ∧
      (respond cfg env s r).state.log = s.log := by
  unfold respond
  dsimp only
  split
  · next h => exact ⟨⟨rfl, h⟩, rfl, rfl⟩
  · split
    · exact ⟨.inr rfl, rfl, rfl⟩
    · split
      · next h => exact ⟨⟨rfl, h⟩, rfl, rfl⟩
      · split
        · exact withoutCalls_frame cfg (afterResponse cfg env s r) r
        · exact withCalls_frame cfg env (afterResponse cfg env s r) _

/-- An attempt counts itself, keeps its turn or gives it back, and logs at
most one provider call. -/
theorem attempt_frame (cfg : LoopConfig) (env : TurnEnv) (s : LoopState) :
    (attempt cfg env s).keepsTurn (s.turn + 1) ∧ (attempt cfg env s).state.attempts = s.attempts + 1 ∧
      ((attempt cfg env s).state.log = s.log ∨ ∃ parsed, (attempt cfg env s).state.log =
        s.log ++ [⟨s.turn + 1, messagesForCall env (beforeCall env s).messages, parsed⟩]) := by
  unfold attempt
  dsimp only
  split
  · next h => exact ⟨⟨rfl, h⟩, rfl, .inl rfl⟩
  · split
    · exact ⟨⟨rfl, by decide⟩, rfl, .inr ⟨_, rfl⟩⟩
    · exact ⟨⟨rfl, by decide⟩, rfl, .inr ⟨_, rfl⟩⟩
    · split
      · exact ⟨rfl, rfl, .inr ⟨_, rfl⟩⟩
      · exact ⟨⟨rfl, by decide⟩, rfl, .inr ⟨_, rfl⟩⟩
    · exact ⟨rfl, rfl, .inr ⟨_, rfl⟩⟩
    · split
      · exact ⟨rfl, rfl, .inr ⟨_, rfl⟩⟩
      · obtain ⟨hturn, hatt, hlog⟩ := respond_frame cfg env (logged env (beforeCall env s) _) _
        exact ⟨hturn, hatt, .inr ⟨_, hlog⟩⟩

end Loop
end AgentCore
