/-
# The cooldown fallback

`CooldownFallbackLLM.stream` of `fallback.py`: a primary client tried up to
`max_retries` times, then a fallback client, which also serves every call of
the cooldown window. A primary that fails before its output reached the
consumer is retried. One that fails afterwards is not (unless
`replay_partial_stream` asks for it): where its stream was truncated the error
goes to the caller, otherwise the call goes on with the fallback.

What the clients do is an argument of a call: the streams of the primary, one
for each attempt, and that of the fallback. Whether the call falls into the
cooldown window is one too; the event hook, the log and the sleep between
attempts are left out.

Key definitions: `Cooldown.stream`, `Cooldown.primaryLoop`.
Key theorem: `truncated_stream_propagates`.
-/
import AgentCore.Providers.Chain

namespace AgentCore
namespace Providers

open Chain (EntryStream)

inductive Leg
  | primary
  | fallback
  deriving DecidableEq, Repr

structure Cooldown where
  maxRetries : ℤ
  retryable : LlmError → Bool
  replayPartialStream : Bool

namespace Cooldown

variable (w : Cooldown)

/-- What became of the primary: it served the call, its error goes to the
caller, or the call degrades to the fallback. -/
inductive PrimaryEnd
  | served
  | raised (e : LlmError)
  | degrade (lastError : Option LlmError)
  deriving DecidableEq, Repr

/-- The stream of an attempt, as the wrapper passes it on. -/
def attemptStream (primary : ℕ → EntryStream) (attempt : ℕ) : Stream :=
  nonemptyStream (primary attempt).elapsed (primary attempt).stream

/-- Output of the model reached the consumer. -/
def yielded (s : Stream) : Bool := s.deltas.any fun d => !d.transportActivity

/-- The policy lets the error through to the checks behind it. -/
def mayRetry (e : LlmError) : Bool := w.retryable e || e.emptyCompletion

/-- The attempts of the primary from one on: what they yield, how many there
are, and what became of it. -/
def primaryLoop (primary : ℕ → EntryStream) : ℕ → ℕ → Option LlmError → List StreamDelta × ℕ × PrimaryEnd
  | 0, _, lastError => ([], 0, .degrade lastError)
  | n + 1, attempt, _ =>
    let s := attemptStream primary attempt
    match s.ending with
    | .finished => (s.deltas, 1, .served)
    | .raised e =>
      if w.mayRetry e = false then (s.deltas, 1, .degrade (some e))
      else if yielded s = true ∧ isTruncatedStream e = true then (s.deltas, 1, .raised e)
      else if yielded s = true ∧ w.replayPartialStream = false then (s.deltas, 1, .degrade (some e))
      else
        let (deltas, attempts, ending) := primaryLoop primary n (attempt + 1) (some e)
        (s.deltas ++ deltas, attempts + 1, ending)

/-- A call: what the consumer sees, from which leg, how many attempts the
primary had, and how it ends. -/
structure Served where
  output : List (Leg × StreamDelta)
  attempts : ℕ
  ending : Ending
  degraded : Bool

def stream (inCooldown : Bool) (primary : ℕ → EntryStream) (fallback : EntryStream) : Served :=
  let f := nonemptyStream fallback.elapsed fallback.stream
  if inCooldown then ⟨f.deltas.map (.fallback, ·), 0, f.ending, false⟩
  else
    let (deltas, attempts, ending) := w.primaryLoop primary w.maxRetries.toNat 0 none
    match ending with
    | .served => ⟨deltas.map (.primary, ·), attempts, .finished, false⟩
    | .raised e => ⟨deltas.map (.primary, ·), attempts, .raised e, false⟩
    | .degrade lastError =>
      { output := deltas.map (.primary, ·) ++ f.deltas.map (.fallback, ·)
        attempts := attempts
        ending := match f.ending with
          | .finished => .finished
          | .raised e => .raised (lastError.getD e)
        degraded := true }

/-! ### The attempts of the primary -/

variable {w} {primary : ℕ → EntryStream} {attempt : ℕ} {e : LlmError}

/-- An error after output ends the attempts: a truncated stream that the policy
retries with itself, any other, where partial streams are not replayed, with a
degradation. -/
theorem primaryLoop_afterOutput (hend : (attemptStream primary attempt).ending = .raised e)
    (hy : yielded (attemptStream primary attempt) = true) (n : ℕ) (lastError : Option LlmError) :
    (isTruncatedStream e = true → w.mayRetry e = true →
      w.primaryLoop primary (n + 1) attempt lastError = ((attemptStream primary attempt).deltas, 1, .raised e)) ∧
    (isTruncatedStream e = false → w.replayPartialStream = false →
      w.primaryLoop primary (n + 1) attempt lastError =
        ((attemptStream primary attempt).deltas, 1, .degrade (some e))) := by
  constructor
  · intro ht hm
    rw [primaryLoop]
    dsimp only
    rw [hend]
    dsimp only
    rw [if_neg (by simp [hm]), if_pos ⟨hy, ht⟩]
  · intro ht hr
    rw [primaryLoop]
    dsimp only
    rw [hend]
    dsimp only
    split
    · rfl
    · rw [if_neg (by simp [ht]), if_pos ⟨hy, hr⟩]

/-- The last attempt made is where the loop stopped; the ones before failed and
were retried. -/
theorem primaryLoop_last : ∀ (n : ℕ) {attempt k : ℕ} {lastError : Option LlmError},
    k < (w.primaryLoop primary n attempt lastError).2.1 →
    ∃ front m lastError', (w.primaryLoop primary n attempt lastError).1 =
        front ++ (w.primaryLoop primary (m + 1) (attempt + k) lastError').1 ∧
      (w.primaryLoop primary n attempt lastError).2.2 = (w.primaryLoop primary (m + 1) (attempt + k) lastError').2.2 ∧
      (w.primaryLoop primary n attempt lastError).2.1 =
        k + (w.primaryLoop primary (m + 1) (attempt + k) lastError').2.1
  | 0, _, _, _, h => absurd h (Nat.not_lt_zero _)
  | n + 1, attempt, 0, lastError, _ => ⟨[], n, lastError, rfl, rfl, (Nat.zero_add _).symm⟩
  | n + 1, attempt, k + 1, lastError, h => by
    rw [primaryLoop] at h ⊢
    dsimp only at h ⊢
    split at h
    · exact absurd h (by simp)
    · next e hend =>
      split at h
      · exact absurd h (by simp)
      · next hm =>
        split at h
        · exact absurd h (by simp)
        · next ht =>
          split at h
          · exact absurd h (by simp)
          · next hp =>
            obtain ⟨front, m, lastError', hout, hending, hcount⟩ := primaryLoop_last n (Nat.lt_of_succ_lt_succ h)
            rw [if_neg hm, if_neg ht, if_neg hp, show attempt + (k + 1) = attempt + 1 + k by omega]
            refine ⟨(attemptStream primary attempt).deltas ++ front, m, lastError', ?_, hending, ?_⟩
            · dsimp only
              rw [hout, List.append_assoc]
            · change (w.primaryLoop primary n (attempt + 1) (some e)).2.1 + 1 = _
              omega

/-- A stream that finishes ends the attempts. -/
theorem primaryLoop_finished (hend : (attemptStream primary attempt).ending = .finished) (n : ℕ)
    (lastError : Option LlmError) :
    w.primaryLoop primary (n + 1) attempt lastError = ((attemptStream primary attempt).deltas, 1, .served) := by
  rw [primaryLoop]
  dsimp only
  rw [hend]

/-- Outside the cooldown window a call follows the primary's loop. -/
theorem stream_attempts (fallback : EntryStream) :
    (w.stream false primary fallback).attempts = (w.primaryLoop primary w.maxRetries.toNat 0 none).2.1 := by
  unfold stream
  rw [if_neg Bool.false_ne_true]
  dsimp only
  split <;> rfl


theorem fallback_not_mem_primary {ds : List StreamDelta} {d : StreamDelta} :
    (Leg.fallback, d) ∉ ds.map (Leg.primary, ·) := by
  simp

end Cooldown

open Cooldown in
/-- **A truncated stream reaches the caller.** Once output of the primary has
reached the consumer in a call of `stream`, what follows depends on how that
attempt ends. Where it finishes, so does the call. Where it was truncated, with
an error that the retry policy lets through, the call raises that error. In
both cases the consumer sees nothing of the fallback. Where it fails otherwise
and partial streams are not replayed, the call goes on with the output of the
fallback, and raises the primary's error if the fallback fails as well. -/
theorem truncated_stream_propagates (w : Cooldown) (inCooldown : Bool) (primary : ℕ → EntryStream)
    (fallback : EntryStream) (attempt : ℕ) :
    let r := w.stream inCooldown primary fallback
    let f := nonemptyStream fallback.elapsed fallback.stream
    attempt < r.attempts → yielded (attemptStream primary attempt) = true →
    ((attemptStream primary attempt).ending = .finished →
      r.attempts = attempt + 1 ∧ r.ending = .finished ∧ ∀ d, (.fallback, d) ∉ r.output) ∧
    ∀ e, (attemptStream primary attempt).ending = .raised e →
      (isTruncatedStream e = true → w.mayRetry e = true →
        r.attempts = attempt + 1 ∧ r.ending = .raised e ∧ ∀ d, (.fallback, d) ∉ r.output) ∧
      (isTruncatedStream e = false → w.replayPartialStream = false →
        r.attempts = attempt + 1 ∧ (∃ front : List StreamDelta, r.output = front.map (.primary, ·) ++
          (attemptStream primary attempt).deltas.map (.primary, ·) ++ f.deltas.map (.fallback, ·)) ∧
        (f.ending = .finished → r.ending = .finished) ∧
        ∀ e', f.ending = .raised e' → r.ending = .raised e) := by
  intro r f hlt hy
  cases inCooldown with
  | true => exact absurd hlt (Nat.not_lt_zero _)
  | false =>
    have hcount : r.attempts = _ := stream_attempts fallback
    rw [hcount] at hlt
    obtain ⟨front, m, lastError, hout, hending, hattempts⟩ := primaryLoop_last w.maxRetries.toNat hlt
    rw [Nat.zero_add] at hout hending hattempts
    have hr : r = w.stream false primary fallback := rfl
    unfold Cooldown.stream at hr
    rw [if_neg Bool.false_ne_true] at hr
    dsimp only at hr
    refine ⟨fun hend => ?_, fun e hend => ⟨fun ht hm => ?_, fun ht hp => ?_⟩⟩
    · have hloop := primaryLoop_finished (w := w) hend m lastError
      rw [hloop] at hout hending hattempts
      rw [hending] at hr
      refine ⟨hcount.trans hattempts, by rw [hr], fun d => ?_⟩
      rw [hr]
      exact fallback_not_mem_primary
    · have hloop := (primaryLoop_afterOutput (w := w) hend hy m lastError).1 ht hm
      rw [hloop] at hout hending hattempts
      rw [hending] at hr
      refine ⟨hcount.trans hattempts, by rw [hr], fun d => ?_⟩
      rw [hr]
      exact fallback_not_mem_primary
    · have hloop := (primaryLoop_afterOutput (w := w) hend hy m lastError).2 ht hp
      rw [hloop] at hout hending hattempts
      rw [hending] at hr
      refine ⟨hcount.trans hattempts, ⟨front, ?_⟩, fun hf => ?_, fun e' hf => ?_⟩
      · rw [hr]
        dsimp only
        rw [hout, List.map_append]
      · rw [hr]
        dsimp only
        rw [hf]
      · rw [hr]
        dsimp only
        rw [hf]
        rfl

/-- The defaults: two attempts, the retry policy of `legacy_retryable`, no replay. -/
def twoAttempts : Cooldown := ⟨2, legacyRetryable, false⟩

def cutOff : LlmError := { typeName := "LLMTruncatedStream", text := "truncated stream: no finish reason" }

def connectionReset : LlmError := { typeName := "ConnectionError", text := "Connection reset by peer" }

/-- A fallback that answers. -/
def answering : Chain.EntryStream := ⟨⟨[{ content := "fallback" }], .finished⟩, "0.1"⟩

theorem truncated_stream_propagates_cutOff :
    let r := twoAttempts.stream false (fun _ => ⟨⟨[{ content := "partial" }], .raised cutOff⟩, "0.1"⟩) answering
    r.attempts = 1 ∧ r.ending = .raised cutOff ∧ ∀ d, (.fallback, d) ∉ r.output :=
  ((truncated_stream_propagates twoAttempts false
    (fun _ => ⟨⟨[{ content := "partial" }], .raised cutOff⟩, "0.1"⟩) answering 0 (by decide +kernel)
    (by decide +kernel)).2 cutOff (by decide +kernel)).1 (by decide +kernel) (by decide +kernel)

/-- A connection that is reset in the middle of the primary's output: the
output of the fallback follows it, and the call finishes. -/
theorem reset_stream_mixes_outputs :
    let r := twoAttempts.stream false (fun _ => ⟨⟨[{ content := "partial" }], .raised connectionReset⟩, "0.1"⟩)
      answering
    r.output = [(.primary, { content := "partial" }), (.fallback, { content := "fallback" })] ∧
      r.ending = .finished := by
  decide +kernel

end Providers
end AgentCore
