/-
# The ladder of runaway retries

A reply whose whole budget went to reasoning is sampled again (`_runaway.py`):
first with a larger output cap, where one fits the context and the model, then
with a reduced one, then with thinking off. A rung of the ladder is an output
cap and what is asked of thinking.

Caps are whole numbers and the factors of the source exact fractions; the
guidance that a retry adds to the request and the scaling of the stream's
reasoning guard are left out.

Key definitions: `retryMaxTokens`, `expandedRetryMaxTokens`,
`runawayRetryPolicy`, `Ladder.next`.
-/
import Mathlib.Data.Int.Order.Basic

namespace AgentCore
namespace Loop

inductive ThinkingMode
  | expanded
  | reduced
  | disabled
  deriving DecidableEq, Repr

inductive ReasoningEffort
  | low
  | high
  deriving DecidableEq, Repr

structure ThinkingRetryOverride where
  mode : ThinkingMode := .reduced
  thinkingBudget : Option ℤ := none
  reasoningEffort : Option ReasoningEffort := none
  deriving DecidableEq, Repr

def runawayMinOutputTokens : ℤ := 1024

def runawayRetryMaxTokensCeiling : ℤ := 8192

def runawayContextReserveTokens : ℤ := 1024

def runawayDisableThinkingAfter : ℕ := 3

def runawayThinkingBudgetMax : ℤ := 4096

def runawayThinkingBudgetMin : ℤ := 512

/-- A cap below an observed one, and not below the floor unless that is. -/
def retryMaxTokens (observed : ℤ) : Option ℤ :=
  if observed ≤ 0 then none
  else if observed ≤ runawayMinOutputTokens then some observed
  else some (max runawayMinOutputTokens (min runawayRetryMaxTokensCeiling (observed / 2)))

/-- `_runaway_retry_max_tokens`, from the completion tokens of a response. -/
def runawayRetryMaxTokens (completionTokens : ℕ) : Option ℤ := retryMaxTokens completionTokens

/-- `_runaway_retry_max_tokens_from_cap`. -/
def runawayRetryMaxTokensFromCap (activeCap : Option ℤ) : Option ℤ := activeCap.bind retryMaxTokens

/-- What bounds the output of a request besides its cap. -/
structure OutputLimits where
  /-- The sum of `estimate_message_tokens` over the messages of the call. -/
  messageTokens : ℤ := 0
  contextTokenLimitHint : Option ℤ := none
  maxOutputTokensLimit : Option ℤ := none

/-- `a or b` for numbers that may be missing. -/
def orElse (a b : Option ℤ) : Option ℤ := if a = none ∨ a = some 0 then b else a

def expandedRetryMaxTokens (limits : OutputLimits) (activeCap : Option ℤ) : Option ℤ :=
  activeCap.bind fun cap =>
    if cap ≤ 0 then none
    else
      let expanded := cap * 3 / 2
      let expanded := match limits.maxOutputTokensLimit with
        | some limit => min expanded limit
        | none => expanded
      let expanded := match orElse limits.contextTokenLimitHint none with
        | some hint => min expanded (max (hint - limits.messageTokens - runawayContextReserveTokens) 0)
        | none => expanded
      if cap < expanded then some expanded else none

/-- `_runaway_retry_policy`: what the retry asks of thinking, and the name of
the recovery. -/
def runawayRetryPolicy (retryNumber : ℕ) (nextCap : Option ℤ) : ThinkingRetryOverride × String :=
  if retryNumber = 1 then
    ({ mode := .expanded
       thinkingBudget := nextCap.map fun cap => max (max cap 1 * 3 / 4) 1
       reasoningEffort := some .high }, "retry_expanded_cap_and_thinking")
  else if runawayDisableThinkingAfter ≤ retryNumber then
    ({ mode := .disabled, reasoningEffort := some .low }, "retry_thinking_disabled")
  else
    let cap := nextCap.getD (runawayThinkingBudgetMax * 2)
    ({ mode := .reduced
       thinkingBudget := some (max runawayThinkingBudgetMin (min runawayThinkingBudgetMax (max cap 1 / 2)))
       reasoningEffort := some .low }, "retry_reduced_cap_and_thinking")

/-- Where a call stands on the ladder: the retries it has spent, the phase, the
cap its client is bound to, and what the next attempt asks of thinking. -/
structure Ladder where
  runawayAttempts : ℕ := 0
  runawayRetries : ℕ := 0
  maxTokens : Option ℤ := none
  retryThinking : Option ThinkingRetryOverride := none
  deriving DecidableEq, Repr

namespace Ladder

/-- A phase and a cap, with the policy that goes with them. -/
def enter (l : Ladder) (runawayRetries : ℕ) (maxTokens : Option ℤ) : Ladder × String :=
  let (thinking, action) := runawayRetryPolicy runawayRetries maxTokens
  ({ runawayAttempts := l.runawayAttempts + 1, runawayRetries := runawayRetries, maxTokens := maxTokens
     retryThinking := some thinking }, action)

/-- The next rung after a runaway: the expanded one, the first time and where it
is enabled and fits, else a reduced one. `expansionCap` is the cap to expand and
`reduced` the reduced cap, if one can be told. -/
def next (expandEnabled : Bool) (limits : OutputLimits) (expansionCap reduced : Option ℤ) (l : Ladder) :
    Ladder × String :=
  let next_retry := l.runawayRetries + 1
  if next_retry = 1 ∧ expandEnabled = true then
    match expandedRetryMaxTokens limits expansionCap with
    | some cap => l.enter 1 (some cap)
    | none => l.enter 2 (reduced <|> l.maxTokens)
  else l.enter (max next_retry 2) (reduced <|> l.maxTokens)

/-- The rung after an expanded request that exceeded the context. -/
def afterOverflow (activeCap : Option ℤ) (l : Ladder) : Ladder :=
  (l.enter 2 (runawayRetryMaxTokensFromCap activeCap <|> l.maxTokens)).1

end Ladder

end Loop
end AgentCore
