/-
# Sessions of audits

The auditors of `components/cycle/builders.py` that run on an `AgentBus`. A call
of `SessionBackedAuditor.verify` or `ScoreThresholdAuditor.verify` creates (or
finds) the session that its name template gives for the round, queues its
prompt there, and waits for the result or a timeout; a session runs its tasks
one after the other, and each of them sees what earlier ones have left.
`MajorityVoteAuditor.verify` makes the same call `n_votes` times at once. The
cycle asks its auditor at most once in a round, one round after the other.

The bus may refuse a task, other parties may create sessions, and the calls of a
round and the sessions go on in any order.

Key definitions: `SessionAuditor`, `AuditRun`, `auditStep`, `KeepsIndependent`.
Key theorem: `audits_independent_iff`.
-/
import AgentCore.AgentBus.Identity
import AgentCore.Cycle.WriteAudit
import AgentCore.Lib.Runs

namespace AgentCore
namespace Cycle

open AgentBus.Identity (Bus makeSessionId)

/-- What the two auditors hand to `create_session`; `name` is what the name
template gives for a round. -/
structure SessionAuditor where
  taskId : String
  roleId : String
  systemPrompt : String
  name : ℕ → String

/-- The default template of `ScoreThresholdAuditor`. -/
def graderName (round : ℕ) : String := "grader_R" ++ toString round

inductive Auditor
  | session (a : SessionAuditor)
  | majorityVote (base : SessionAuditor) (nVotes : ℕ) (pos : 1 ≤ nVotes)

def Auditor.base : Auditor → SessionAuditor
  | .session a => a
  | .majorityVote a _ _ => a

/-- Calls of the base auditor in a round. -/
def Auditor.votes : Auditor → ℕ
  | .session _ => 1
  | .majorityVote _ n _ => n

/-- A call by its round and its number among the votes. -/
abbrev AuditCall := ℕ × ℕ

/-- Where a call of `verify` is. -/
inductive VerifyPoint
  | started
  | opened (sessionId : String)
  | collecting
  | returned
  deriving DecidableEq

/-- A task of a session that has started, with the calls whose messages the
session held. -/
structure Execution where
  call : AuditCall
  sessionId : String
  seen : List AuditCall
  deriving DecidableEq

structure AuditRun where
  bus : Bus
  nextRound : ℕ := 0
  /-- The round of the calls below. -/
  round : ℕ := 0
  calls : List VerifyPoint := []
  pending : String → List AuditCall := fun _ => []
  current : String → Option AuditCall := fun _ => none
  messages : String → List AuditCall := fun _ => []
  log : List Execution := []

inductive AuditEvent
  /-- The cycle asks the auditor in a round. -/
  | verify (round : ℕ)
  | createSession (vote : ℕ)
  | submit (vote : ℕ)
  /-- The spawn guard refuses the task. -/
  | refuse (vote : ℕ)
  /-- The result, or the timeout of `collect`. -/
  | collect (vote : ℕ)
  /-- The session starts the next task, and finishes it. -/
  | start (sessionId : String)
  | finish (sessionId : String)
  /-- Another party creates a session. -/
  | other (taskId name roleId : String) (systemPrompt : Option String)

variable (auditor : Auditor) (maxRounds : ℕ)

def AuditRun.setCall (s : AuditRun) (vote : ℕ) (p : VerifyPoint) : AuditRun :=
  { s with calls := s.calls.set vote p }

/-- The first await of `verify`. -/
def openSession (s : AuditRun) (vote : ℕ) : AuditRun :=
  let a := auditor.base
  match s.bus.createSession a.taskId (a.name s.round) a.roleId (some a.systemPrompt) with
  | .error _ => s.setCall vote .returned
  | .ok (sessionId, bus) => { s.setCall vote (.opened sessionId) with bus := bus }

def queueTask (s : AuditRun) (vote : ℕ) (sessionId : String) : AuditRun :=
  { s.setCall vote .collecting with
    pending := Function.update s.pending sessionId (s.pending sessionId ++ [(s.round, vote)]) }

def startTask (s : AuditRun) (sessionId : String) (call : AuditCall) (rest : List AuditCall) : AuditRun :=
  { s with
    pending := Function.update s.pending sessionId rest
    current := Function.update s.current sessionId (some call)
    log := s.log ++ [⟨call, sessionId, s.messages sessionId⟩] }

def finishTask (s : AuditRun) (sessionId : String) (call : AuditCall) : AuditRun :=
  { s with
    current := Function.update s.current sessionId none
    messages := Function.update s.messages sessionId (s.messages sessionId ++ [call]) }

def auditStep (s : AuditRun) : AuditEvent → Option AuditRun
  | .verify round =>
    if s.nextRound ≤ round ∧ round < maxRounds ∧ s.calls.all (· = .returned) then
      some { s with nextRound := round + 1, round := round, calls := List.replicate auditor.votes .started }
    else none
  | .createSession vote =>
    match s.calls[vote]? with
    | some .started => some (openSession auditor s vote)
    | _ => none
  | .submit vote =>
    match s.calls[vote]? with
    | some (.opened sessionId) => some (queueTask s vote sessionId)
    | _ => none
  | .refuse vote =>
    match s.calls[vote]? with
    | some (.opened _) => some (s.setCall vote .returned)
    | _ => none
  | .collect vote =>
    match s.calls[vote]? with
    | some .collecting => some (s.setCall vote .returned)
    | _ => none
  | .start sessionId =>
    match s.current sessionId, s.pending sessionId with
    | none, call :: rest => some (startTask s sessionId call rest)
    | _, _ => none
  | .finish sessionId => (s.current sessionId).map (finishTask s sessionId)
  | .other taskId name roleId systemPrompt =>
    match s.bus.createSession taskId name roleId systemPrompt with
    | .error _ => some s
    | .ok (_, bus) => some { s with bus := bus }

/-! ### Independence -/

/-- No two calls execute in one session, and none sees the messages of another. -/
def Independent (log : List Execution) : Prop :=
  (∀ e ∈ log, ∀ e' ∈ log, e.sessionId = e'.sessionId → e.call = e'.call) ∧
    ∀ e ∈ log, ∀ call ∈ e.seen, call = e.call

instance (log : List Execution) : Decidable (Independent log) := inferInstanceAs (Decidable (_ ∧ _))

/-- The session of a call. -/
def sessionOf (call : AuditCall) : String := makeSessionId auditor.base.taskId (auditor.base.name call.1)

/-- A call the cycle can make. -/
def IsCall (call : AuditCall) : Prop := call.1 < maxRounds ∧ call.2 < auditor.votes

/-- A call of the cycle, in its session. -/
def InSession (sid : String) (call : AuditCall) : Prop := IsCall auditor maxRounds call ∧ sid = sessionOf auditor call

/-- Tasks and messages stand in the sessions of their calls. -/
structure InPlace (s : AuditRun) : Prop where
  votes : s.calls.length ≤ auditor.votes
  round : s.calls ≠ [] → s.round < maxRounds
  opened : ∀ vote sessionId, s.calls[vote]? = some (.opened sessionId) → sessionId = sessionOf auditor (s.round, vote)
  pending : ∀ sid, ∀ c ∈ s.pending sid, InSession auditor maxRounds sid c
  current : ∀ sid, ∀ c ∈ s.current sid, InSession auditor maxRounds sid c
  messages : ∀ sid, ∀ c ∈ s.messages sid, InSession auditor maxRounds sid c
  log : ∀ e ∈ s.log, InSession auditor maxRounds e.sessionId e.call ∧
    ∀ c ∈ e.seen, InSession auditor maxRounds e.sessionId c

section Steps

variable {auditor maxRounds} {s : AuditRun}

theorem start_inPlace (bus : Bus) : InPlace auditor maxRounds { bus := bus } where
  votes := Nat.zero_le _
  round := fun h => absurd rfl h
  opened := fun vote sid h => by simp at h
  pending := fun sid c hc => absurd hc List.not_mem_nil
  current := fun sid c hc => by cases hc
  messages := fun sid c hc => absurd hc List.not_mem_nil
  log := fun e he => absurd he List.not_mem_nil

/-- A call of the round that is under way. -/
theorem InPlace.isCall (h : InPlace auditor maxRounds s) {vote : ℕ} {p : VerifyPoint}
    (hp : s.calls[vote]? = some p) : IsCall auditor maxRounds (s.round, vote) := by
  obtain ⟨hlt, -⟩ := List.getElem?_eq_some_iff.mp hp
  exact ⟨h.round (List.ne_nil_of_length_pos (Nat.zero_lt_of_lt hlt)), Nat.lt_of_lt_of_le hlt h.votes⟩

theorem InPlace.setCall (h : InPlace auditor maxRounds s) {vote : ℕ} {p : VerifyPoint}
    (hp : ∀ sid, p = .opened sid → sid = sessionOf auditor (s.round, vote)) :
    InPlace auditor maxRounds (s.setCall vote p) := by
  refine { h with votes := ?_, round := fun hne => h.round ?_, opened := fun v sid hv => ?_ }
  · exact Nat.le_trans (Nat.le_of_eq List.length_set) h.votes
  · rintro hnil
    exact hne (by simp [AuditRun.setCall, hnil])
  · change (s.calls.set vote p)[v]? = some (.opened sid) at hv
    by_cases hvv : vote = v
    · subst hvv
      rw [List.getElem?_set_self'] at hv
      obtain ⟨_, -, hpv⟩ := Option.map_eq_some_iff.mp hv
      exact hp sid hpv
    · rw [List.getElem?_set_ne hvv] at hv
      exact h.opened v sid hv

theorem InPlace.setBus (h : InPlace auditor maxRounds s) (bus : Bus) : InPlace auditor maxRounds { s with bus := bus } :=
  { h with }

theorem openSession_inPlace (h : InPlace auditor maxRounds s) (vote : ℕ) :
    InPlace auditor maxRounds (openSession auditor s vote) := by
  unfold openSession
  dsimp only
  split
  · exact h.setCall fun sid hsid => by cases hsid
  · next sid bus hok =>
    refine (h.setCall fun sid' hsid => ?_).setBus bus
    obtain rfl := VerifyPoint.opened.inj hsid
    exact (AgentBus.Identity.createSession_ok hok).1

theorem inSession_update {f : String → List AuditCall} {sid : String} {l : List AuditCall}
    (hf : ∀ sid, ∀ c ∈ f sid, InSession auditor maxRounds sid c) (hl : ∀ c ∈ l, InSession auditor maxRounds sid c) :
    ∀ sid', ∀ c ∈ Function.update f sid l sid', InSession auditor maxRounds sid' c :=
  (Function.forall_update_iff f fun sid l => ∀ c ∈ l, InSession auditor maxRounds sid c).mpr
    ⟨hl, fun sid' _ => hf sid'⟩

theorem inSession_updateCurrent {f : String → Option AuditCall} {sid : String} {o : Option AuditCall}
    (hf : ∀ sid, ∀ c ∈ f sid, InSession auditor maxRounds sid c) (ho : ∀ c ∈ o, InSession auditor maxRounds sid c) :
    ∀ sid', ∀ c ∈ Function.update f sid o sid', InSession auditor maxRounds sid' c :=
  (Function.forall_update_iff f fun sid o => ∀ c ∈ o, InSession auditor maxRounds sid c).mpr
    ⟨ho, fun sid' _ => hf sid'⟩

theorem queueTask_inPlace (h : InPlace auditor maxRounds s) {vote : ℕ} {sid : String}
    (hv : s.calls[vote]? = some (.opened sid)) : InPlace auditor maxRounds (queueTask s vote sid) := by
  have hset : InPlace auditor maxRounds (s.setCall vote .collecting) := h.setCall fun _ hsid => by cases hsid
  refine { hset with pending := inSession_update h.pending fun c hc => ?_ }
  rcases List.mem_append.mp hc with hc | hc
  · exact h.pending sid c hc
  · rw [List.mem_singleton.mp hc]
    exact ⟨h.isCall hv, h.opened vote sid hv⟩

theorem startTask_inPlace (h : InPlace auditor maxRounds s) {sid : String} {call : AuditCall} {rest : List AuditCall}
    (hp : s.pending sid = call :: rest) : InPlace auditor maxRounds (startTask s sid call rest) := by
  have hcall := h.pending sid call (by rw [hp]; exact List.mem_cons_self)
  refine { h with
    pending := inSession_update h.pending fun c hc => ?_
    current := inSession_updateCurrent h.current fun c hc => ?_
    log := fun e he => ?_ }
  · exact h.pending sid c (by rw [hp]; exact List.mem_cons_of_mem _ hc)
  · obtain rfl := Option.some.inj hc
    exact hcall
  · rcases List.mem_append.mp he with he | he
    · exact h.log e he
    · rw [List.mem_singleton.mp he]
      exact ⟨hcall, fun c hc => h.messages sid c hc⟩

theorem finishTask_inPlace (h : InPlace auditor maxRounds s) {sid : String} {call : AuditCall}
    (hcur : s.current sid = some call) : InPlace auditor maxRounds (finishTask s sid call) := by
  refine { h with
    current := inSession_updateCurrent h.current fun c hc => ?_
    messages := inSession_update h.messages fun c hc => ?_ }
  · cases hc
  · rcases List.mem_append.mp hc with hc | hc
    · exact h.messages sid c hc
    · rw [List.mem_singleton.mp hc]
      exact h.current sid call hcur

theorem auditStep_inPlace {s' : AuditRun} {e : AuditEvent} (h : InPlace auditor maxRounds s)
    (hstep : auditStep auditor maxRounds s e = some s') : InPlace auditor maxRounds s' := by
  cases e with
  | verify round =>
    obtain ⟨⟨-, hround, -⟩, hs⟩ := Option.ite_none_right_eq_some.mp hstep
    obtain rfl := Option.some.inj hs
    refine { h with votes := ?_, round := fun _ => hround, opened := fun vote sid hv => ?_ }
    · exact Nat.le_of_eq List.length_replicate
    · rw [List.getElem?_replicate] at hv
      obtain ⟨-, hv⟩ := Option.ite_none_right_eq_some.mp hv
      cases Option.some.inj hv
  | createSession vote =>
    simp only [auditStep] at hstep
    split at hstep
    · obtain rfl := Option.some.inj hstep
      exact openSession_inPlace h vote
    · cases hstep
  | submit vote =>
    simp only [auditStep] at hstep
    split at hstep
    · next sid hv =>
      obtain rfl := Option.some.inj hstep
      exact queueTask_inPlace h hv
    · cases hstep
  | refuse vote =>
    simp only [auditStep] at hstep
    split at hstep
    · obtain rfl := Option.some.inj hstep
      exact h.setCall fun _ hsid => by cases hsid
    · cases hstep
  | collect vote =>
    simp only [auditStep] at hstep
    split at hstep
    · obtain rfl := Option.some.inj hstep
      exact h.setCall fun _ hsid => by cases hsid
    · cases hstep
  | start sid =>
    simp only [auditStep] at hstep
    split at hstep
    · next call rest _ hp =>
      obtain rfl := Option.some.inj hstep
      exact startTask_inPlace h hp
    · cases hstep
  | finish sid =>
    obtain ⟨call, hcur, rfl⟩ := Option.map_eq_some_iff.mp hstep
    exact finishTask_inPlace h hcur
  | other taskId name roleId systemPrompt =>
    simp only [auditStep] at hstep
    split at hstep
    · obtain rfl := Option.some.inj hstep
      exact h
    · obtain rfl := Option.some.inj hstep
      exact h.setBus _

/-- Where different calls have different sessions, audits are independent. -/
theorem InPlace.independent (h : InPlace auditor maxRounds s)
    (hinj : ∀ c c', IsCall auditor maxRounds c → IsCall auditor maxRounds c' →
      sessionOf auditor c = sessionOf auditor c' → c = c') : Independent s.log := by
  refine ⟨fun e he e' he' hsid => ?_, fun e he c hc => ?_⟩
  · obtain ⟨⟨hcall, hown⟩, -⟩ := h.log e he
    obtain ⟨⟨hcall', hown'⟩, -⟩ := h.log e' he'
    exact hinj _ _ hcall hcall' (hown.symm.trans (hsid.trans hown'))
  · obtain ⟨⟨hcall, hown⟩, hseen⟩ := h.log e he
    obtain ⟨hc', hsid⟩ := hseen c hc
    exact hinj _ _ hc' hcall (hsid.symm.trans hown)

end Steps

/-! ### Shared sessions -/

open AgentBus.Identity (emptyBus)

/-- Two votes of the first round, one after the other in their session. -/
def twoVotes (sid : String) : List AuditEvent :=
  [.verify 0, .createSession 0, .createSession 1, .submit 0, .submit 1, .start sid, .finish sid, .start sid]

theorem run_twoVotes {auditor : Auditor} {maxRounds n : ℕ} (hmax : 0 < maxRounds) (hvotes : auditor.votes = n + 2) :
    (Runs.run (auditStep auditor maxRounds) { bus := emptyBus } (twoVotes (sessionOf auditor (0, 0)))).map (·.log) =
      some [⟨(0, 0), sessionOf auditor (0, 0), []⟩, ⟨(0, 1), sessionOf auditor (0, 0), [(0, 0)]⟩] := by
  simp only [emptyBus, twoVotes, sessionOf, Runs.run, auditStep, Std.le_refl, hmax, List.all_nil, and_self,
    ↓reduceIte, Nat.zero_add, hvotes, List.replicate_succ, openSession, Bus.createSession, ne_eq, Bus.resolvePrompt,
    AuditRun.setCall, queueTask, startTask, Option.bind_fun_some, Option.bind_some, List.length_cons,
    List.length_replicate, Nat.lt_add_left_iff_pos, Nat.zero_lt_succ, getElem?_pos, List.getElem_cons_zero,
    List.set_cons_zero, List.getElem_cons_succ, Function.update_self, not_true_eq_false, or_self, List.set_cons_succ,
    List.nil_append, List.cons_append, Function.update_idem, Option.map_some, finishTask, Function.update_eq_self]

/-- A vote in each of two rounds of the same name. -/
def twoRoundsOneName (sid : String) (r r' : ℕ) : List AuditEvent :=
  [.verify r, .createSession 0, .submit 0, .start sid, .finish sid, .collect 0, .verify r', .createSession 0,
    .submit 0, .start sid]

theorem run_twoRoundsOneName {auditor : Auditor} {maxRounds r r' : ℕ} (hr : r < r') (hr' : r' < maxRounds)
    (hvotes : auditor.votes = 1) (hname : auditor.base.name r = auditor.base.name r') :
    (Runs.run (auditStep auditor maxRounds) { bus := emptyBus }
      (twoRoundsOneName (sessionOf auditor (r, 0)) r r')).map (·.log) =
      some [⟨(r, 0), sessionOf auditor (r, 0), []⟩, ⟨(r', 0), sessionOf auditor (r, 0), [(r, 0)]⟩] := by
  have hlt : r < maxRounds := Nat.lt_trans hr hr'
  have hle : r + 1 ≤ r' := hr
  simp only [emptyBus, twoRoundsOneName, sessionOf, hname, Runs.run, auditStep, Nat.zero_le, hlt, List.all_nil,
    and_self, ↓reduceIte, hvotes, List.replicate_one, openSession, Bus.createSession, ne_eq, Bus.resolvePrompt,
    AuditRun.setCall, queueTask, startTask, hr', List.all_eq_true, decide_eq_true_eq, true_and, Option.bind_fun_some,
    Option.bind_some, List.length_cons, List.length_nil, Nat.zero_add, Nat.lt_add_one, getElem?_pos,
    List.getElem_cons_zero, List.set_cons_zero, List.nil_append, Function.update_self, Function.update_idem,
    Function.update_eq_self, Option.map_some, finishTask, hle, List.mem_cons, List.not_mem_nil, or_false, imp_self,
    implies_true, not_true_eq_false, or_self, List.cons_append]

theorem not_independent_of_shared {call call' : AuditCall} {sid : String} {seen seen' : List AuditCall}
    (hne : call ≠ call') : ¬Independent [⟨call, sid, seen⟩, ⟨call', sid, seen'⟩] := by
  intro h
  exact hne (h.1 ⟨call, sid, seen⟩ List.mem_cons_self ⟨call', sid, seen'⟩
    (List.mem_cons_of_mem _ List.mem_cons_self) rfl)

/-! ### The runs of a cycle -/

/-- Every run of a cycle with the auditor keeps its audits independent. -/
def KeepsIndependent : Prop :=
  ∀ bus es s, Runs.Trace (auditStep auditor maxRounds) (fun _ _ _ => True) { bus := bus } es s → Independent s.log

section Runs

variable {auditor maxRounds}

theorem trace_inPlace {bus : Bus} {es : List AuditEvent} {s : AuditRun}
    (h : Runs.Trace (auditStep auditor maxRounds) (fun _ _ _ => True) { bus := bus } es s) :
    InPlace auditor maxRounds s :=
  h.invariant (I := fun _ s => InPlace auditor maxRounds s) (start_inPlace bus)
    fun _ _ _ _ hi _ hstep => auditStep_inPlace hi hstep

theorem sessionOf_inj {c c' : AuditCall} (h : sessionOf auditor c = sessionOf auditor c') :
    auditor.base.name c.1 = auditor.base.name c'.1 := by
  have hlist := congrArg String.toList h
  rw [sessionOf, sessionOf, AgentBus.Identity.toList_makeSessionId, AgentBus.Identity.toList_makeSessionId] at hlist
  have hname := List.append_cancel_left hlist
  simp only [List.cons.injEq, true_and] at hname
  exact String.toList_inj.mp hname

/-- One call in a round and a name of its own for every round keep audits apart. -/
theorem keepsIndependent (hvotes : auditor.votes = 1)
    (hname : ∀ r r', r < maxRounds → r' < maxRounds → auditor.base.name r = auditor.base.name r' → r = r') :
    KeepsIndependent auditor maxRounds := by
  intro bus es s htrace
  refine (trace_inPlace htrace).independent ?_
  rintro ⟨r, v⟩ ⟨r', v'⟩ ⟨hr, hv⟩ ⟨hr', hv'⟩ hsame
  have hround := hname r r' hr hr' (sessionOf_inj hsame)
  have hvote : v = v' := by
    dsimp only at hv hv'
    omega
  rw [hround, hvote]

theorem not_keepsIndependent_of_run {es : List AuditEvent} {call call' : AuditCall} {sid : String}
    {seen seen' : List AuditCall} (hne : call ≠ call')
    (hrun : (Runs.run (auditStep auditor maxRounds) { bus := emptyBus } es).map (·.log) =
      some [⟨call, sid, seen⟩, ⟨call', sid, seen'⟩]) : ¬KeepsIndependent auditor maxRounds := by
  intro hkeeps
  obtain ⟨s, hs, hlog⟩ := Option.map_eq_some_iff.mp hrun
  have hind := hkeeps emptyBus es s (Runs.Trace.of_run_any hs)
  rw [hlog] at hind
  exact not_independent_of_shared hne hind

theorem votes_pos : ∀ auditor : Auditor, 1 ≤ auditor.votes
  | .session _ => Nat.le_refl 1
  | .majorityVote _ _ pos => pos

theorem votes_of_keepsIndependent (hmax : 1 ≤ maxRounds) (h : KeepsIndependent auditor maxRounds) :
    auditor.votes = 1 := by
  by_contra hmany
  have hpos := votes_pos auditor
  obtain ⟨n, hn⟩ : ∃ n, auditor.votes = n + 2 := ⟨auditor.votes - 2, by omega⟩
  exact not_keepsIndependent_of_run (by decide) (run_twoVotes hmax hn) h

theorem not_keepsIndependent_of_name {r r' : ℕ} (hvotes : auditor.votes = 1) (hr : r < r') (hr' : r' < maxRounds)
    (hname : auditor.base.name r = auditor.base.name r') : ¬KeepsIndependent auditor maxRounds := by
  have hne : ((r, 0) : AuditCall) ≠ (r', 0) := fun heq => Nat.ne_of_lt hr (Prod.mk.inj heq).1
  exact not_keepsIndependent_of_run hne (run_twoRoundsOneName hr hr' hvotes hname)

end Runs

/-- **Audits are independent** in every run of a cycle exactly when a round makes
one call of the base auditor and no two rounds share a session name. -/
theorem audits_independent_iff (cfg : Config) (auditor : Auditor) :
    KeepsIndependent auditor cfg.maxRounds ↔
      auditor.votes = 1 ∧ ∀ r r', r < cfg.maxRounds → r' < cfg.maxRounds →
        auditor.base.name r = auditor.base.name r' → r = r' := by
  constructor
  · intro h
    have hvotes := votes_of_keepsIndependent cfg.rounds_pos h
    refine ⟨hvotes, fun r r' hr hr' hname => ?_⟩
    rcases Nat.lt_trichotomy r r' with hlt | heq | hgt
    · exact absurd h (not_keepsIndependent_of_name hvotes hlt hr' hname)
    · exact heq
    · exact absurd h (not_keepsIndependent_of_name hvotes hgt hr hname.symm)
  · rintro ⟨hvotes, hname⟩
    exact keepsIndependent hvotes hname

def graders : Auditor :=
  .majorityVote { taskId := "t", roleId := "grader", systemPrompt := "Grade.", name := graderName } 3 (by decide)

/-- Three votes of the default grader share the session of their round, and the
second starts with the messages of the first. -/
theorem votes_share_session :
    ∃ es s, Runs.Trace (auditStep graders 10) (fun _ _ _ => True) { bus := emptyBus } es s ∧
      s.log = [⟨(0, 0), "t::grader_R0", []⟩, ⟨(0, 1), "t::grader_R0", [(0, 0)]⟩] ∧ ¬Independent s.log := by
  have hvotes : graders.votes = 1 + 2 := rfl
  have hmax : 0 < 10 := by decide
  obtain ⟨s, hs, hlog⟩ := Option.map_eq_some_iff.mp (run_twoVotes hmax hvotes)
  have hsid : sessionOf graders (0, 0) = "t::grader_R0" := by decide +kernel
  rw [hsid] at hlog
  refine ⟨_, s, Runs.Trace.of_run_any hs, hlog, ?_⟩
  rw [hlog]
  exact not_independent_of_shared (by decide)

end Cycle
end AgentCore
