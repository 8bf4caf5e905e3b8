/-
# How many requests a call makes

A call with the client of a fallback chain, whose models do what they like. A
round takes an attempt from `max_retries`, or an empty completion from the
budget of the leg, or a leg from the chain; so the rounds add up to at most
`max_retries` and one budget of empty completions for each leg. A round makes a
second request for a replay, after which it may still go on: the check of the
replayed calls may raise. A request reaches a second model only where a leg is
passed.

Key definitions: `serveRound`, `clientStep`, `callClient`, `Paid`.
Key theorems: `callClient_call`, `requests_bounded`.
-/
import AgentCore.Loop.Rounds
import AgentCore.Providers.Legs

namespace AgentCore
namespace Loop

open Providers (Client Replies LlmError)

/-! ### A call with its client -/

/-- What the surroundings of a round bring, with what the models do in each of
its requests, and the error that an advance is asked for. -/
structure RoundEnv where
  attempt : AttemptEnv
  replies : ℕ → Replies
  emptyError : LlmError

/-- A call under way, its client, and how many requests have reached a model. -/
structure ClientCall where
  call : Call
  client : Client
  sent : ℕ := 0

/-- Requests one after the other: the client after them, and the models
reached. -/
def sendAll : Client → List Replies → Client × ℕ
  | client, [] => (client, 0)
  | client, replies :: rest =>
    let walk := client.request replies
    let (client', sent) := sendAll walk.client rest
    (client', walk.sent + sent)

variable (cfg : CallConfig)

/-- A round's requests of the client: whether it moved on to another leg, the
client after the round, and the models reached. -/
def serveRound (env : RoundEnv) (s : CallState) (client : Client) : Bool × Client × ℕ :=
  let (client, sent) := sendAll client ((List.range (roundRequests cfg env.attempt s).length).map env.replies)
  if (roundResult cfg env.attempt s).any fun result => asksToAdvance cfg s result then
    let (advanced, client) := client.advanceEmptyCompletion env.emptyError
    (advanced, client, sent)
  else (false, client, sent)

/-- The surroundings of a round, with the client's answer. -/
def answered (env : RoundEnv) (c : ClientCall) : AttemptEnv :=
  { env.attempt with advanceEmptyCompletion := (serveRound cfg env c.call.state c.client).1 }

/-- `callStep` with the client. -/
def clientStep (envs : ℕ → RoundEnv) (c : ClientCall) : Option ClientCall :=
  match c.call.ended with
  | some _ => none
  | none =>
    if (c.call.state.attempt : ℤ) < cfg.maxRetries then
      let env := envs c.call.round
      let (_, client, sent) := serveRound cfg env c.call.state c.client
      let (s, ended) := iterate cfg (answered cfg env c) c.call.state
      some ⟨⟨c.call.round + 1, s, ended⟩, client, c.sent + sent⟩
    else some { c with call := { c.call with ended := some (.raised "exhausted") } }

/-- The call after at most `n` rounds, with a client of its own. -/
def callClient (envs : ℕ → RoundEnv) (client : Client) (maxTokens : Option ℤ) (n : ℕ) : ClientCall :=
  Halting.drive (clientStep cfg envs) n
    ⟨{ state := { ladder := { maxTokens := maxTokens } } }, client.forLogicalCall, 0⟩

variable {cfg} {envs : ℕ → RoundEnv} {c c' : ClientCall}

/-! ### The call in it -/

/-- A round, or the end of a call whose retries are spent. -/
theorem clientStep_cases (h : clientStep cfg envs c = some c') :
    c.call.ended = none ∧
    ((cfg.maxRetries ≤ c.call.state.attempt ∧
        c' = { c with call := { c.call with ended := some (.raised "exhausted") } }) ∨
      ((c.call.state.attempt : ℤ) < cfg.maxRetries ∧
        c' = ⟨⟨c.call.round + 1, (iterate cfg (answered cfg (envs c.call.round) c) c.call.state).1,
            (iterate cfg (answered cfg (envs c.call.round) c) c.call.state).2⟩,
          (serveRound cfg (envs c.call.round) c.call.state c.client).2.1,
          c.sent + (serveRound cfg (envs c.call.round) c.call.state c.client).2.2⟩)) := by
  unfold clientStep at h
  split at h
  · cases h
  · next hend =>
    refine ⟨hend, ?_⟩
    split at h
    · next hlt =>
      cases h
      exact .inr ⟨hlt, rfl⟩
    · next hge =>
      cases h
      exact .inl ⟨Int.not_lt.mp hge, rfl⟩

theorem clientStep_ended (h : c.call.ended ≠ none) : clientStep cfg envs c = none := by
  unfold clientStep
  split
  · rfl
  · next hnone => exact absurd hnone h

theorem clientStep_call {attemptEnvs : ℕ → AttemptEnv}
    (henv : attemptEnvs c.call.round = answered cfg (envs c.call.round) c) :
    (clientStep cfg envs c).map (·.call) = callStep cfg attemptEnvs c.call := by
  cases hend : c.call.ended with
  | some e =>
    rw [clientStep_ended (by rw [hend]; exact Option.some_ne_none e), callStep, hend]
    rfl
  | none =>
    rw [clientStep, callStep, hend, henv]
    dsimp only
    by_cases hlt : (c.call.state.attempt : ℤ) < cfg.maxRetries
    · rw [if_pos hlt, if_pos hlt]
      rfl
    · rw [if_neg hlt, if_neg hlt]
      rfl

theorem callClient_succ (client : Client) (maxTokens : Option ℤ) (n : ℕ) :
    callClient cfg envs client maxTokens (n + 1) =
      (clientStep cfg envs (callClient cfg envs client maxTokens n)).getD (callClient cfg envs client maxTokens n) :=
  Halting.drive_succ n _

/-- A call that has not ended has gone through all its rounds. -/
theorem round_of_running (client : Client) (maxTokens : Option ℤ) : ∀ n,
    (callClient cfg envs client maxTokens n).call.ended = none →
      (callClient cfg envs client maxTokens n).call.round = n
  | 0, _ => rfl
  | n + 1, h => by
    rw [callClient_succ] at h ⊢
    cases hs : clientStep cfg envs (callClient cfg envs client maxTokens n) with
    | none =>
      rw [hs, Option.getD_none] at h
      unfold clientStep at hs
      rw [h] at hs
      dsimp only at hs
      split at hs <;> cases hs
    | some c' =>
      rw [hs, Option.getD_some] at h
      rw [Option.getD_some]
      obtain ⟨hend, ⟨-, rfl⟩ | ⟨-, rfl⟩⟩ := clientStep_cases hs
      · cases h
      · exact congrArg (· + 1) (round_of_running client maxTokens n hend)

/-- The call of a client is a call of `callLlm`, with the client's answers. -/
theorem callClient_call (cfg : CallConfig) (envs : ℕ → RoundEnv) (client : Client) (maxTokens : Option ℤ) :
    ∃ attemptEnvs : ℕ → AttemptEnv,
      (∀ n, ∃ advanced, attemptEnvs n = { (envs n).attempt with advanceEmptyCompletion := advanced }) ∧
      ∀ n, (callClient cfg envs client maxTokens n).call = callLlm cfg attemptEnvs maxTokens n := by
  refine ⟨fun n => answered cfg (envs n) (callClient cfg envs client maxTokens n), fun n => ⟨_, rfl⟩, fun n => ?_⟩
  induction n with
  | zero => rfl
  | succ n ih =>
    have hlast : callLlm cfg (fun n => answered cfg (envs n) (callClient cfg envs client maxTokens n)) maxTokens (n + 1) =
        (callStep cfg (fun n => answered cfg (envs n) (callClient cfg envs client maxTokens n))
          (callClient cfg envs client maxTokens n).call).getD (callClient cfg envs client maxTokens n).call := by
      rw [ih, callLlm_succ]
    rw [callClient_succ, hlast]
    by_cases hend : (callClient cfg envs client maxTokens n).call.ended = none
    · have hround := round_of_running client maxTokens n hend
      have henv : answered cfg (envs (callClient cfg envs client maxTokens n).call.round)
          (callClient cfg envs client maxTokens (callClient cfg envs client maxTokens n).call.round) =
          answered cfg (envs (callClient cfg envs client maxTokens n).call.round)
            (callClient cfg envs client maxTokens n) := by
        rw [hround]
      rw [← clientStep_call henv]
      cases clientStep cfg envs (callClient cfg envs client maxTokens n) <;> rfl
    · rw [clientStep_ended hend, Option.getD_none]
      unfold callStep
      split
      · rfl
      · next hnone => exact absurd hnone hend

/-! ### What a round costs -/

/-- Requests cost what they reach beyond one model each; a client that was asked
stands where it was answered. -/
theorem sendAll_legs : ∀ {client : Client} (requests : List Replies), client.Usable →
    (sendAll client requests).1.Usable ∧ (requests ≠ [] → (sendAll client requests).1.Served) ∧
      requests.length ≤ (sendAll client requests).2 ∧
      (sendAll client requests).2 + (sendAll client requests).1.legs ≤ client.legs + requests.length
  | client, [], h => by
    refine ⟨h, fun hne => absurd rfl hne, Nat.le_refl 0, ?_⟩
    rw [sendAll, List.length_nil, Nat.zero_add, Nat.add_zero]
  | client, replies :: rest, h => by
    obtain ⟨husable, hserved, hreached, hpaid⟩ := client.request_walked h replies
    obtain ⟨hrest, hrestServed, hrestReached, hrestPaid⟩ := sendAll_legs rest husable
    refine ⟨hrest, fun _ => ?_, ?_, ?_⟩
    · by_cases hnil : rest = []
      · rw [hnil]
        exact hserved
      · exact hrestServed hnil
    · rw [sendAll, List.length_cons]
      dsimp only
      omega
    · rw [sendAll, List.length_cons]
      dsimp only
      omega

theorem asksToAdvance_isEmpty {s : CallState} {result : Except Raised Response}
    (h : asksToAdvance cfg s result = true) : isEmpty cfg result = true := by
  rw [asksToAdvance, Bool.and_eq_true] at h
  exact h.1

/-- A round leaves the client usable, and pays a leg for each model reached
beyond one a request, and for an advance. -/
theorem serveRound_legs (env : RoundEnv) {s : CallState} {client : Client} (h : client.Usable) :
    (serveRound cfg env s client).2.1.Usable ∧
    (serveRound cfg env s client).2.2 + (serveRound cfg env s client).2.1.legs ≤
      client.legs + (roundRequests cfg env.attempt s).length ∧
    (serveRound cfg env s client).2.1.legs ≤ client.legs ∧
    (∀ result, roundResult cfg env.attempt s = some result → asksToAdvance cfg s result = true →
      (serveRound cfg env s client).1 = true → (serveRound cfg env s client).2.1.legs < client.legs) := by
  obtain ⟨requests, hrequests⟩ : ∃ requests,
      (List.range (roundRequests cfg env.attempt s).length).map env.replies = requests := ⟨_, rfl⟩
  have hlen : requests.length = (roundRequests cfg env.attempt s).length := by
    rw [← hrequests, List.length_map, List.length_range]
  obtain ⟨husable, hserved, hreached, hpaid⟩ := sendAll_legs requests h
  have hle : (sendAll client requests).1.legs ≤ client.legs := by omega
  rw [hlen] at hpaid
  cases hasks : (roundResult cfg env.attempt s).any fun result => asksToAdvance cfg s result with
  | false =>
    have heq : serveRound cfg env s client =
        (false, (sendAll client requests).1, (sendAll client requests).2) := by
      rw [serveRound, hrequests, hasks]
      rfl
    rw [heq]
    exact ⟨husable, hpaid, hle, fun _ _ _ hadvanced => absurd hadvanced Bool.false_ne_true⟩
  | true =>
    have heq : serveRound cfg env s client =
        (((sendAll client requests).1.advanceEmptyCompletion env.emptyError).1,
          ((sendAll client requests).1.advanceEmptyCompletion env.emptyError).2, (sendAll client requests).2) := by
      rw [serveRound, hrequests, hasks]
      rfl
    obtain ⟨result, hresult, hasked⟩ := (Option.any_eq_true _ _).mp hasks
    have hne : requests ≠ [] := by
      intro hnil
      rw [hnil, List.length_nil] at hlen
      exact roundRequests_ne_nil hresult (asksToAdvance_isEmpty hasked) (List.length_eq_zero_iff.mp hlen.symm)
    obtain ⟨hnomore, hless⟩ := Client.advance_legs env.emptyError husable (hserved hne)
    rw [heq]
    dsimp only
    refine ⟨Client.advance_usable env.emptyError husable, by omega, by omega, fun _ _ _ hadvanced => ?_⟩
    have := hless hadvanced
    omega

/-! ### The accounts of a call -/

/-- What a call owes to its budgets, with a client of `k` models: rounds are paid
by attempts, legs and empty completions, two requests by a round, the models
reached by requests and legs. -/
structure Paid (cfg : CallConfig) (k : ℕ) (c : ClientCall) : Prop where
  usable : c.client.Usable
  empty_le : c.call.ended = none → c.call.state.emptyCompletions ≤ cfg.emptyCompletionMaxRetries.toNat
  running : c.call.ended = none → c.call.round + (cfg.maxRetries - c.call.state.attempt).toNat +
    c.client.legs * (cfg.emptyCompletionMaxRetries.toNat + 1) ≤
      cfg.maxRetries.toNat + k * (cfg.emptyCompletionMaxRetries.toNat + 1) + c.call.state.emptyCompletions
  rounds : c.call.round + 1 ≤ cfg.maxRetries.toNat + k * (cfg.emptyCompletionMaxRetries.toNat + 1)
  requests : c.call.state.physicalAttemptIndex ≤ 2 * c.call.round
  sent : c.sent + c.client.legs ≤ c.call.state.physicalAttemptIndex + k

theorem paid_initial (cfg : CallConfig) (client : Client) (maxTokens : Option ℤ) :
    Paid cfg client.models ⟨{ state := { ladder := { maxTokens := maxTokens } } }, client.forLogicalCall, 0⟩ := by
  have hlegs := client.forLogicalCall_legs
  have hpos := Client.legs_pos client.forLogicalCall_usable
  rw [hlegs] at hpos
  have hmul := Nat.mul_le_mul_right (cfg.emptyCompletionMaxRetries.toNat + 1) hpos
  refine ⟨client.forLogicalCall_usable, fun _ => Nat.zero_le _, fun _ => ?_, ?_, Nat.zero_le _, ?_⟩
  · dsimp only
    rw [hlegs]
    simp
  · dsimp only
    omega
  · dsimp only
    omega

/-- A round that the call goes on from takes an attempt, an empty completion or a
leg. -/
theorem Paid.goesOn {k : ℕ} (h : Paid cfg k c) (hend : c.call.ended = none) {s : CallState} {client : Client}
    {sent : ℕ} (husable : client.Usable) (hempty : s.emptyCompletions ≤ cfg.emptyCompletionMaxRetries.toNat)
    (hpaid : 1 + (cfg.maxRetries - s.attempt).toNat + client.legs * (cfg.emptyCompletionMaxRetries.toNat + 1) +
        c.call.state.emptyCompletions ≤
      (cfg.maxRetries - c.call.state.attempt).toNat + c.client.legs * (cfg.emptyCompletionMaxRetries.toNat + 1) +
        s.emptyCompletions)
    (hindex : s.physicalAttemptIndex ≤ c.call.state.physicalAttemptIndex + 2)
    (hreached : sent + client.legs + c.call.state.physicalAttemptIndex ≤ c.client.legs + s.physicalAttemptIndex) :
    Paid cfg k ⟨⟨c.call.round + 1, s, none⟩, client, c.sent + sent⟩ := by
  have hrun := h.running hend
  have hrequests := h.requests
  have hsent := h.sent
  -- a leg is left, and with it room for its empty completions
  have hleg := Nat.mul_le_mul_right (cfg.emptyCompletionMaxRetries.toNat + 1) (Client.legs_pos husable)
  refine ⟨husable, fun _ => hempty, fun _ => ?_, ?_, ?_, ?_⟩
  all_goals dsimp only
  · omega
  · omega
  · omega
  · omega

/-- A round that ends the call is paid for by what is left. -/
theorem Paid.ends {k : ℕ} (h : Paid cfg k c) (hend : c.call.ended = none)
    (hlt : (c.call.state.attempt : ℤ) < cfg.maxRetries) {s : CallState} {e : CallEnd} {client : Client} {sent : ℕ}
    (husable : client.Usable) (hindex : s.physicalAttemptIndex ≤ c.call.state.physicalAttemptIndex + 2)
    (hreached : sent + client.legs + c.call.state.physicalAttemptIndex ≤ c.client.legs + s.physicalAttemptIndex) :
    Paid cfg k ⟨⟨c.call.round + 1, s, some e⟩, client, c.sent + sent⟩ := by
  have hrun := h.running hend
  have hroom := h.empty_le hend
  have hrequests := h.requests
  have hsent := h.sent
  have hleg := Nat.mul_le_mul_right (cfg.emptyCompletionMaxRetries.toNat + 1) (Client.legs_pos h.usable)
  refine ⟨husable, nofun, nofun, ?_, ?_, ?_⟩
  all_goals dsimp only
  · omega
  · omega
  · omega

/-- A round is paid for. -/
theorem Paid.round {k : ℕ} (h : Paid cfg k c) (hend : c.call.ended = none)
    (hlt : (c.call.state.attempt : ℤ) < cfg.maxRetries) (env : RoundEnv) :
    Paid cfg k ⟨⟨c.call.round + 1, (iterate cfg (answered cfg env c) c.call.state).1,
        (iterate cfg (answered cfg env c) c.call.state).2⟩,
      (serveRound cfg env c.call.state c.client).2.1, c.sent + (serveRound cfg env c.call.state c.client).2.2⟩ := by
  have hroom := h.empty_le hend
  obtain ⟨husable, hreached, hlegs, hadvance⟩ := @serveRound_legs cfg env c.call.state c.client h.usable
  have hkept := Nat.mul_le_mul_right (cfg.emptyCompletionMaxRetries.toNat + 1) hlegs
  rcases iterate_turnout cfg (answered cfg env c) c.call.state with ⟨-, hnone, reason, hit⟩ | ⟨result, hresult, hcomes⟩
  · rw [hit]
    have hzero : (roundRequests cfg env.attempt c.call.state).length = 0 := congrArg List.length hnone
    refine h.ends hend hlt husable (Nat.le_add_right _ 2) ?_
    dsimp only
    omega
  · obtain ⟨hturn, hindex, hmade⟩ := hcomes
    have hpaid : (roundRequests cfg env.attempt c.call.state).length + c.call.state.physicalAttemptIndex ≤
        (iterate cfg (answered cfg env c) c.call.state).1.physicalAttemptIndex := hmade
    obtain ⟨s', ended, hit⟩ : ∃ s' ended, iterate cfg (answered cfg env c) c.call.state = (s', ended) := ⟨_, _, rfl⟩
    rw [hit] at hturn hindex hpaid ⊢
    dsimp only at hindex hpaid ⊢
    have hphys : s'.physicalAttemptIndex ≤ c.call.state.physicalAttemptIndex + 2 := by
      rcases hindex with hi | hi <;> omega
    cases hturn with
    | ended ladder => exact h.ends hend hlt husable hphys (by omega)
    | climbed left rung attempt empty =>
      refine h.goesOn hend husable (empty ▸ hroom) ?_ hphys (by omega)
      rw [attempt, empty]
      omega
    | resent hisEmpty room ladder attempt empty =>
      refine h.goesOn hend husable (empty ▸ room) ?_ hphys (by omega)
      rw [attempt, empty]
      omega
    | advanced asked advance ladder attempt empty =>
      have hless := hadvance result hresult asked advance
      have hmul := Nat.mul_le_mul_right (cfg.emptyCompletionMaxRetries.toNat + 1) (Nat.succ_le_of_lt hless)
      rw [Nat.succ_mul] at hmul
      refine h.goesOn hend husable (empty ▸ Nat.zero_le _) ?_ hphys (by omega)
      rw [attempt, empty]
      omega
    | retried failed ladder attempt empty =>
      refine h.goesOn hend husable (empty ▸ hroom) ?_ hphys (by omega)
      rw [attempt, empty]
      omega

theorem Paid.step {k : ℕ} (h : Paid cfg k c) (hs : clientStep cfg envs c = some c') : Paid cfg k c' := by
  obtain ⟨hend, ⟨-, rfl⟩ | ⟨hlt, rfl⟩⟩ := clientStep_cases hs
  · exact ⟨h.usable, nofun, nofun, h.rounds, h.requests, h.sent⟩
  · exact h.round hend hlt (envs c.call.round)

theorem callClient_paid (cfg : CallConfig) (envs : ℕ → RoundEnv) (client : Client) (maxTokens : Option ℤ) (n : ℕ) :
    Paid cfg client.models (callClient cfg envs client maxTokens n) :=
  Halting.drive_keeps (fun _ _ h hs => h.step hs) n (paid_initial cfg client maxTokens)

/-! ### The bound -/

/-- **A call makes boundedly many requests.** Whatever the providers, the clocks,
the checks of tool calls and the client's models do, a call ends after as many
rounds as `max_retries` and, for each model behind its client, the budget of
empty completions and one; its requests are at most two a round, and they reach
at most one model each and one more for every further model. -/
theorem requests_bounded (cfg : CallConfig) (envs : ℕ → RoundEnv) (client : Client) (maxTokens : Option ℤ) :
    let rounds := cfg.maxRetries.toNat + client.models * (cfg.emptyCompletionMaxRetries.toNat + 1)
    (∀ n, rounds ≤ n → (callClient cfg envs client maxTokens n).call.ended ≠ none) ∧
    ∀ n, let c := callClient cfg envs client maxTokens n
      c.call.state.physicalAttemptIndex ≤ 2 * rounds ∧ c.sent ≤ 2 * rounds + (client.models - 1) := by
  intro rounds
  refine ⟨fun n hn hend => ?_, fun n => ?_⟩
  · have hrounds := (callClient_paid cfg envs client maxTokens n).rounds
    rw [round_of_running client maxTokens n hend] at hrounds
    omega
  · obtain ⟨husable, -, -, hrounds, hrequests, hsent⟩ := callClient_paid cfg envs client maxTokens n
    have hpos := Client.legs_pos husable
    constructor
    · omega
    · omega

end Loop
end AgentCore
