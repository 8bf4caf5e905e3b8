/-
# The write-audit cycle

`WriteAuditCycle.run` of `components/cycle/write_audit_cycle.py`: a writer and
an auditor take turns until a verdict ends the cycle or the rounds are used up.
What the cycle does not decide itself is one record for each round, `Round`: how
the writer, the output check and the auditor come out, what each observer
replies, and whether the wall clock leaves no time for the round. They may return
values of any type, of which the model keeps what the cycle reads. Hooks without
a reply are left out, since what they raise is logged and dropped.

The last fields of the state are ghosts: the calls of the writer and the
auditor, and the audits handed to `_persist`.

A round breaks the cycle's contract when the feedback cannot be rendered, the
writer's exception has no text, an observer aborts between writer and audit, or
the output check or the auditor raises or brings a value the cycle cannot read.
In any other round the counters, the history and the audits on the disk keep in
step.

Key definitions: `Audit`, `Checked`, `Round`, `round`, `runRounds`, `Contract`,
`GoesOn`, `Breaks`.
Key theorem: `contract_iff`.
-/
import AgentCore.Text
import Mathlib.Logic.Relation
import Mathlib.Data.List.Basic

namespace AgentCore
namespace Cycle

/-! ### Types -/

structure AuditFinding where
  category : String
  severity : String
  shortMessage : String
  detailedMessage : String := ""
  file : Option String := none
  suggestedAction : String := ""
  deriving DecidableEq

/-- Left out are the confidence, the raw text and the metadata, which the cycle
does not read. -/
structure AuditReport where
  verdict : String
  findings : List AuditFinding := []
  summary : String := ""
  deriving DecidableEq

structure WriterOutput where
  content : String
  files : List String := []
  messageCount : ℕ := 0
  deriving DecidableEq

/-- What the writer returns; the cycle hands it on unread. -/
inductive Written
  | output (out : WriterOutput)
  /-- Any other value, by its `repr`. -/
  | other (value : String)
  deriving DecidableEq

/-- The `verdict` of a value that is no `AuditReport`, or of a report whose
verdict is no text: what looking it up in a set of texts comes to. -/
inductive Verdict
  | text (v : String)
  /-- It can be hashed and equals no text. -/
  | unlisted
  /-- A list or a dict, or there is no such attribute. -/
  | unreadable
  deriving DecidableEq

/-- What the auditor returns. -/
inductive Audit
  | report (a : AuditReport)
  /-- Any other value, by its `repr`; `truth` is what `bool` says of it, none is
  an exception. -/
  | other (value : String) (verdict : Verdict) (truth : Option Bool)
  deriving DecidableEq

def Audit.verdict : Audit → Verdict
  | .report a => .text a.verdict
  | .other _ verdict _ => verdict

def Audit.truth : Audit → Option Bool
  | .report _ => some true
  | .other _ _ truth => truth

/-- `audit.verdict in verdicts`; none is an exception. -/
def Audit.verdictIn (a : Audit) (verdicts : List String) : Option Bool :=
  match a.verdict with
  | .text v => some (decide (v ∈ verdicts))
  | .unlisted => some false
  | .unreadable => none

/-- What a text made from the verdict shows. -/
def Audit.verdictText (a : Audit) : String :=
  match a.verdict with
  | .text v => v
  | _ => ""

/-- A missing artifact: a path, or any other value, as `str` and `repr` show it. -/
structure Artifact where
  str : String
  repr : String

/-- What `output_check` comes to. -/
inductive Checked
  /-- A false value: nothing is missing. -/
  | nothing
  /-- A true value, iterated. -/
  | missing (artifacts : List Artifact)
  /-- A true value that cannot be iterated, counted or shown, or a value without a
  truth. -/
  | unreadable
  | raises

structure CycleOutput where
  success : Bool
  roundsUsed : ℕ
  finalWriterOutput : Option Written
  finalAudit : Option Audit
  history : List (Written × Audit)
  reason : String
  deriving DecidableEq

/-- The constructor's arguments, as it accepts them. -/
structure Config where
  maxRounds : ℕ := 10
  terminalVerdicts : List String := ["success", "abandon"]
  successVerdicts : List String := ["success"]
  /-- `max_wall_seconds` is set. -/
  hasBudget : Bool := false
  auditPath : ℕ → String := fun round => "audit_round_" ++ toString round ++ ".json"
  /-- `feedback_renderer.render`; none is what it raises. -/
  render : Audit → Option String
  rounds_pos : 1 ≤ maxRounds := by decide
  success_terminal : ∀ v ∈ successVerdicts, v ∈ terminalVerdicts := by decide

/-- An exception of the writer. -/
structure Raised where
  typeName : String
  /-- `str` of it, none if that raises in turn. -/
  message : Option String
  traceback : String := ""

inductive RoundIntervention
  | continue | abort
  deriving DecidableEq

/-- What an observer's hook comes to. -/
inductive Reply
  | intervention (i : RoundIntervention)
  | none
  | raises
  deriving DecidableEq

/-- How all that a round calls comes out. -/
structure Round where
  /-- The next round's estimate exceeds the time that is left. -/
  outOfTime : Bool := false
  writer : Except Raised Written
  onWriterDone : List Reply := []
  outputCheck : Checked := .nothing
  /-- None is an exception. -/
  auditor : Option Audit := none
  onAuditDone : List Reply := []

/-! ### Synthetic audits -/

def synthOutputMissingAudit (missing : List Artifact) : AuditReport :=
  { verdict := "iterate"
    findings := missing.map fun path =>
      { category := "output_missing", severity := "error"
        shortMessage := "Required artifact missing: " ++ path.str
        detailedMessage := "The cycle's output_check reported " ++ path.repr ++ " as missing " ++
          "after the writer round. Auditor was not invoked. " ++
          "Re-attempt the round and ensure this artifact is " ++ "produced."
        file := some path.str
        suggestedAction := "Produce the artifact at " ++ path.repr ++ "." }
    summary := "Required output artifacts are missing (" ++ toString missing.length ++
      "). The auditor was not invoked because " ++ "auditing missing artifacts produces unreliable verdicts." }

/-- None where the exception cannot be shown. -/
def synthWriterExceptionAudit (exc : Raised) : Option AuditReport :=
  exc.message.map fun message =>
    { verdict := "iterate"
      findings := [
        { category := "writer_exception", severity := "error"
          shortMessage := exc.typeName ++ ": " ++ String.ofList (message.toList.take 200)
          detailedMessage := exc.traceback
          suggestedAction := "Inspect the writer-side error and re-attempt " ++
            "the round. The cycle will continue regardless." }]
      summary := "The writer raised " ++ exc.typeName ++ " on this round. " ++
        "The cycle continues to the next round." }

/-! ### The loop -/

structure CycleState where
  roundNum : ℕ := 0
  prevAudit : Option Audit := none
  lastWriterOutput : Option Written := none
  history : List (Written × Audit) := []
  /-- The round and the feedback of each call of the writer. -/
  writerCalls : List (ℕ × String) := []
  /-- The round of each call of the auditor, and what its output check found. -/
  auditorCalls : List (ℕ × Checked) := []
  persisted : List (String × Audit) := []

/-- How a round ends. -/
inductive Step
  | next (s : CycleState)
  | finished (out : CycleOutput) (s : CycleState)
  | raised (s : CycleState)

/-- `_fire_intervention`: any abort wins, and an exception counts for nothing. -/
def fireIntervention (replies : List Reply) : RoundIntervention :=
  if .intervention .abort ∈ replies then .abort else .continue

/-- `_finalize`. -/
def finalize (s : CycleState) (success : Bool) (roundsUsed : ℕ) (finalWriterOutput : Option Written)
    (finalAudit : Option Audit) (reason : String) : Step :=
  .finished ⟨success, roundsUsed, finalWriterOutput, finalAudit, s.history, reason⟩ s

variable (cfg : Config)

/-- Whether the audit's verdict ends the cycle, which only one of the auditor
(`judged`) can; none is an exception. -/
def endsCycle (audit : Audit) (judged : Bool) : Option Bool :=
  if judged then audit.verdictIn cfg.terminalVerdicts else some false

/-- The round has its audit: it is persisted, and the observers see it. -/
def conclude (r : Round) (s : CycleState) (out : Written) (audit : Audit) (judged : Bool) : Step :=
  let s := { s with persisted := s.persisted ++ [(cfg.auditPath s.roundNum, audit)],
                    history := s.history ++ [(out, audit)] }
  if fireIntervention r.onAuditDone = .abort then
    finalize s false (s.roundNum + 1) (some out) (some audit) "observer_aborted"
  else match endsCycle cfg audit judged with
    | none => .raised s
    | some true =>
      finalize s (audit.verdictIn cfg.successVerdicts = some true) (s.roundNum + 1) (some out) (some audit)
        ("verdict=" ++ audit.verdictText)
    | some false =>
      .next { s with prevAudit := some audit, lastWriterOutput := some out, roundNum := s.roundNum + 1 }

/-- The wall-clock check between rounds; durations are recorded with the
history. -/
def wallClockExhausted (r : Round) (s : CycleState) : Bool :=
  cfg.hasBudget && !s.history.isEmpty && r.outOfTime

/-- The feedback of the previous audit, unless that is a false value. -/
def feedbackMd (prevAudit : Option Audit) : Option String :=
  match prevAudit with
  | some audit => audit.truth.bind fun truth => if truth then cfg.render audit else some ""
  | none => some ""

/-- One round of the loop. -/
def round (r : Round) (s : CycleState) : Step :=
  if wallClockExhausted cfg r s then
    finalize s false s.roundNum s.lastWriterOutput s.prevAudit "wall_clock_exhausted"
  else match feedbackMd cfg s.prevAudit with
    | none => .raised s
    | some feedback =>
      let s := { s with writerCalls := s.writerCalls ++ [(s.roundNum, feedback)] }
      match r.writer with
      | .error exc =>
        match synthWriterExceptionAudit exc with
        | none => .raised s
        | some synth => conclude cfg r s (.output { content := "" }) (.report synth) false
      | .ok out =>
        if fireIntervention r.onWriterDone = .abort then
          finalize s false (s.roundNum + 1) (some out) s.prevAudit "observer_aborted"
        else match r.outputCheck with
          | .raises => .raised s
          | .unreadable => .raised s
          | .missing artifacts => conclude cfg r s out (.report (synthOutputMissingAudit artifacts)) false
          | .nothing =>
            let s := { s with auditorCalls := s.auditorCalls ++ [(s.roundNum, r.outputCheck)] }
            match r.auditor with
            | none => .raised s
            | some audit => conclude cfg r s out audit true

inductive Result
  | returned (out : CycleOutput) (s : CycleState)
  | raised (s : CycleState)

def runRounds (env : ℕ → Round) : ℕ → CycleState → Result
  | 0, s => .returned ⟨false, cfg.maxRounds, s.lastWriterOutput, s.prevAudit, s.history, "max_rounds_exhausted"⟩ s
  | k + 1, s =>
    match round cfg (env s.roundNum) s with
    | .next s' => runRounds env k s'
    | .finished out s' => .returned out s'
    | .raised s' => .raised s'

/-- `WriteAuditCycle.run`. -/
def run (env : ℕ → Round) : Result := runRounds cfg env cfg.maxRounds {}

/-! ### The contract -/

/-- A result is returned, and its counters, its history and the persisted
audits agree. -/
def Contract : Result → Prop
  | .raised _ => False
  | .returned out s => out.roundsUsed = out.history.length ∧ out.roundsUsed = s.persisted.length ∧
      (∀ call ∈ s.auditorCalls, call.2 = .nothing) ∧ s.writerCalls.length ≤ cfg.maxRounds ∧
      (out.success = true →
        ∃ last, out.history.getLast? = some last ∧ ∃ v ∈ cfg.successVerdicts, last.2.verdict = .text v)

/-- The audit a round comes to, and whether it is the auditor's. -/
def Round.audit (r : Round) : Option (Audit × Bool) :=
  match r.writer with
  | .error exc => (synthWriterExceptionAudit exc).map fun synth => (.report synth, false)
  | .ok _ => match r.outputCheck with
    | .raises => none
    | .unreadable => none
    | .missing artifacts => some (.report (synthOutputMissingAudit artifacts), false)
    | .nothing => r.auditor.map fun audit => (audit, true)

/-- With nothing missing, the auditor raises, or what it returns has no verdict
that can be looked up, and no observer aborts before it is. -/
def BadAudit (r : Round) : Prop :=
  r.auditor = none ∨ ∃ audit, r.auditor = some audit ∧ audit.verdict = .unreadable ∧
    .intervention .abort ∉ r.onAuditDone

/-- The round does not keep the contract: the feedback cannot be rendered; or
the writer raises what cannot be shown; or it returns and an observer aborts, the
output check raises or brings what cannot be read, or the audit is bad. -/
def Breaks (r : Round) (prevAudit : Option Audit) : Prop :=
  feedbackMd cfg prevAudit = none ∨ (∃ exc, r.writer = .error exc ∧ exc.message = none) ∨
    (∃ out, r.writer = .ok out) ∧ (.intervention .abort ∈ r.onWriterDone ∨ r.outputCheck = .raises ∨
      r.outputCheck = .unreadable ∨ (r.outputCheck = .nothing ∧ BadAudit r))

/-- The cycle does not stop before the round for lack of time. -/
def HasTime (r : Round) (n : ℕ) : Prop := ¬(cfg.hasBudget = true ∧ n ≠ 0 ∧ r.outOfTime = true)

/-- From one round to the next: there is time for it, it breaks nothing, no
observer aborts, and its verdict does not end the cycle. -/
def GoesOn (env : ℕ → Round) (x y : ℕ × Option Audit) : Prop :=
  HasTime cfg (env x.1) x.1 ∧ ¬Breaks cfg (env x.1) x.2 ∧ .intervention .abort ∉ (env x.1).onAuditDone ∧
    ∃ audit judged, (env x.1).audit = some (audit, judged) ∧
      (judged = true → ∀ v ∈ cfg.terminalVerdicts, audit.verdict ≠ .text v) ∧ y = (x.1 + 1, some audit)

/-! ### One round -/

/-- The state before round `n`, all counters in step. -/
structure InStep (s : CycleState) : Prop where
  history : s.history.length = s.roundNum
  persisted : s.persisted.length = s.roundNum
  writerCalls : s.writerCalls.length = s.roundNum
  auditorCalls : ∀ call ∈ s.auditorCalls, call.2 = .nothing

/-- Within a round, after the call of the writer. -/
structure InRound (s : CycleState) : Prop where
  history : s.history.length = s.roundNum
  persisted : s.persisted.length = s.roundNum
  writerCalls : s.writerCalls.length = s.roundNum + 1
  auditorCalls : ∀ call ∈ s.auditorCalls, call.2 = .nothing
  bounded : s.roundNum < cfg.maxRounds

variable {cfg} {r : Round} {s : CycleState}

theorem fireIntervention_abort (replies : List Reply) :
    fireIntervention replies = .abort ↔ .intervention .abort ∈ replies := by
  unfold fireIntervention
  split <;> simp [*]

theorem verdictIn_true {audit : Audit} {verdicts : List String} :
    audit.verdictIn verdicts = some true ↔ ∃ v ∈ verdicts, audit.verdict = .text v := by
  unfold Audit.verdictIn
  cases audit.verdict <;> simp

theorem verdictIn_none {audit : Audit} {verdicts : List String} :
    audit.verdictIn verdicts = none ↔ audit.verdict = .unreadable := by
  unfold Audit.verdictIn
  cases audit.verdict <;> simp

theorem endsCycle_true {audit : Audit} {judged : Bool} :
    endsCycle cfg audit judged = some true ↔
      judged = true ∧ ∃ v ∈ cfg.terminalVerdicts, audit.verdict = .text v := by
  cases judged with
  | false => simp [endsCycle]
  | true => simp [endsCycle, verdictIn_true]

theorem endsCycle_false {audit : Audit} {judged : Bool} (h : endsCycle cfg audit judged = some false)
    (hj : judged = true) (v : String) (hv : v ∈ cfg.terminalVerdicts) : audit.verdict ≠ .text v := fun hverdict => by
  rw [endsCycle_true.mpr ⟨hj, v, hv, hverdict⟩] at h
  cases h

theorem endsCycle_none {audit : Audit} {judged : Bool} :
    endsCycle cfg audit judged = none ↔ judged = true ∧ audit.verdict = .unreadable := by
  cases judged with
  | false => simp [endsCycle]
  | true => simp [endsCycle, verdictIn_none]

/-- An audit either ends the cycle, with all in step, or hands over to the next
round, or its verdict cannot be read. -/
theorem conclude_spec (h : InRound cfg s) (out : Written) (audit : Audit) (judged : Bool) :
    (∃ o s', conclude cfg r s out audit judged = .finished o s' ∧ Contract cfg (.returned o s') ∧
      (.intervention .abort ∈ r.onAuditDone ∨ endsCycle cfg audit judged = some true)) ∨
    (∃ s', conclude cfg r s out audit judged = .next s' ∧ InStep s' ∧ s'.roundNum = s.roundNum + 1 ∧
      s'.prevAudit = some audit ∧ .intervention .abort ∉ r.onAuditDone ∧ endsCycle cfg audit judged = some false) ∨
    (∃ s', conclude cfg r s out audit judged = .raised s' ∧ .intervention .abort ∉ r.onAuditDone ∧
      endsCycle cfg audit judged = none) := by
  have hhist : s.roundNum + 1 = (s.history ++ [(out, audit)]).length := by simp [h.history]
  have hpers : s.roundNum + 1 = (s.persisted ++ [(cfg.auditPath s.roundNum, audit)]).length := by
    simp [h.persisted]
  have hcalls : s.writerCalls.length ≤ cfg.maxRounds := by
    rw [h.writerCalls]
    exact h.bounded
  unfold conclude
  dsimp only
  by_cases habort : fireIntervention r.onAuditDone = .abort
  · rw [if_pos habort]
    exact .inl ⟨_, _, rfl, ⟨hhist, hpers, h.auditorCalls, hcalls, fun hs => Bool.noConfusion hs⟩,
      .inl ((fireIntervention_abort _).mp habort)⟩
  rw [if_neg habort]
  have hmem : .intervention .abort ∉ r.onAuditDone := mt (fireIntervention_abort _).mpr habort
  cases hends : endsCycle cfg audit judged with
  | none => exact .inr (.inr ⟨_, rfl, hmem, rfl⟩)
  | some ends =>
    cases ends with
    | true =>
      refine .inl ⟨_, _, rfl, ⟨hhist, hpers, h.auditorCalls, hcalls, fun hs => ?_⟩, .inr rfl⟩
      exact ⟨(out, audit), by simp, verdictIn_true.mp (by simpa using hs)⟩
    | false =>
      exact .inr (.inl ⟨_, rfl, ⟨hhist.symm, hpers.symm, h.writerCalls, h.auditorCalls⟩, rfl, rfl, hmem, rfl⟩)

theorem hasTime_iff (h : InStep s) : HasTime cfg r s.roundNum ↔ wallClockExhausted cfg r s = false := by
  have hzero : s.roundNum ≠ 0 ↔ s.history ≠ [] := by
    rw [← h.history, Ne, List.length_eq_zero_iff]
  unfold HasTime wallClockExhausted
  rw [hzero]
  simp only [Bool.and_assoc, Bool.and_eq_false_iff, Bool.not_eq_false', List.isEmpty_iff, not_and_or,
    Bool.not_eq_true, ne_eq, not_not]

variable (cfg) in
/-- The outcome of a round that starts with all in step. -/
inductive RoundOutcome (r : Round) (s : CycleState) : Step → Prop
  | noTime {o : CycleOutput} (htime : ¬HasTime cfg r s.roundNum) (hc : Contract cfg (.returned o s)) :
      RoundOutcome r s (.finished o s)
  | raises {s' : CycleState} (htime : HasTime cfg r s.roundNum) (hb : Breaks cfg r s.prevAudit) :
      RoundOutcome r s (.raised s')
  | aborts {o : CycleOutput} {s' : CycleState} (htime : HasTime cfg r s.roundNum)
      (hb : Breaks cfg r s.prevAudit) (hc : ¬Contract cfg (.returned o s')) : RoundOutcome r s (.finished o s')
  | ends {o : CycleOutput} {s' : CycleState} {audit : Audit} {judged : Bool}
      (hb : ¬Breaks cfg r s.prevAudit) (haudit : r.audit = some (audit, judged))
      (hend : .intervention .abort ∈ r.onAuditDone ∨ endsCycle cfg audit judged = some true)
      (hc : Contract cfg (.returned o s')) : RoundOutcome r s (.finished o s')
  | continues {s' : CycleState} {audit : Audit} {judged : Bool} (htime : HasTime cfg r s.roundNum)
      (hb : ¬Breaks cfg r s.prevAudit) (haudit : r.audit = some (audit, judged))
      (habort : .intervention .abort ∉ r.onAuditDone) (hgo : endsCycle cfg audit judged = some false)
      (hs : InStep s') (hround : s'.roundNum = s.roundNum + 1) (hprev : s'.prevAudit = some audit) :
      RoundOutcome r s (.next s')

/-- A round that comes to an audit, which breaks the contract only where its
verdict is asked for and cannot be read. -/
theorem conclude_outcome {s₁ : CycleState} {audit : Audit} {judged : Bool} (htime : HasTime cfg r s.roundNum)
    (hb : Breaks cfg r s.prevAudit ↔
      judged = true ∧ audit.verdict = .unreadable ∧ .intervention .abort ∉ r.onAuditDone)
    (h : InRound cfg s₁) (hnum : s₁.roundNum = s.roundNum) (out : Written)
    (haudit : r.audit = some (audit, judged)) :
    RoundOutcome cfg r s (conclude cfg r s₁ out audit judged) := by
  have hsound {ends : Bool} (hends : .intervention .abort ∈ r.onAuditDone ∨ endsCycle cfg audit judged = some ends) :
      ¬Breaks cfg r s.prevAudit := by
    rintro hbreaks
    obtain ⟨hj, hv, hmem⟩ := hb.mp hbreaks
    rcases hends with hin | heq
    · exact hmem hin
    · rw [endsCycle_none.mpr ⟨hj, hv⟩] at heq
      cases heq
  rcases conclude_spec (r := r) h out audit judged with
    ⟨o, s', heq, hc, hend⟩ | ⟨s', heq, hs, hround, hprev, habort, hgo⟩ | ⟨s', heq, habort, hnone⟩
  · rw [heq]
    exact .ends (hsound hend) haudit hend hc
  · rw [heq]
    exact .continues htime (hsound (.inr hgo)) haudit habort hgo hs (hround.trans (by rw [hnum])) hprev
  · rw [heq]
    obtain ⟨hj, hv⟩ := endsCycle_none.mp hnone
    exact .raises htime (hb.mpr ⟨hj, hv, habort⟩)

theorem round_outcome (h : InStep s) (hlt : s.roundNum < cfg.maxRounds) :
    RoundOutcome cfg r s (round cfg r s) := by
  unfold round
  cases hwall : wallClockExhausted cfg r s with
  | true =>
    rw [if_pos rfl]
    refine .noTime (fun htime => ?_) ⟨h.history.symm, h.persisted.symm, h.auditorCalls, ?_, fun hs => Bool.noConfusion hs⟩
    · rw [(hasTime_iff h).mp htime] at hwall
      cases hwall
    · rw [h.writerCalls]
      exact Nat.le_of_lt hlt
  | false =>
    rw [if_neg (by simp)]
    have htime := (hasTime_iff h).mpr hwall
    cases hfeed : feedbackMd cfg s.prevAudit with
    | none => exact .raises htime (.inl hfeed)
    | some feedback =>
      dsimp only
      have hround : InRound cfg { s with writerCalls := s.writerCalls ++ [(s.roundNum, feedback)] } :=
        ⟨h.history, h.persisted, by simp [h.writerCalls], h.auditorCalls, hlt⟩
      cases hwriter : r.writer with
      | error exc =>
        dsimp only
        cases hsynth : synthWriterExceptionAudit exc with
        | none => exact .raises htime (.inr (.inl ⟨exc, hwriter, Option.map_eq_none_iff.mp hsynth⟩))
        | some synth =>
          have hshown : exc.message ≠ none := fun hnone => by
            rw [synthWriterExceptionAudit, hnone] at hsynth
            cases hsynth
          have hb : ¬Breaks cfg r s.prevAudit := by simp [Breaks, hfeed, hwriter, hshown]
          exact conclude_outcome htime (by simp [hb]) hround rfl _ (by rw [Round.audit, hwriter]; simp [hsynth])
      | ok out =>
        dsimp only
        by_cases habort : fireIntervention r.onWriterDone = .abort
        · rw [if_pos habort]
          refine .aborts htime (.inr (.inr ⟨⟨out, hwriter⟩, .inl ((fireIntervention_abort _).mp habort)⟩)) fun hc => ?_
          have hlen : s.roundNum + 1 = s.history.length := hc.1
          rw [h.history] at hlen
          omega
        · rw [if_neg habort]
          have hna : .intervention .abort ∉ r.onWriterDone := mt (fireIntervention_abort _).mpr habort
          cases hcheck : r.outputCheck with
          | raises => exact .raises htime (.inr (.inr ⟨⟨out, hwriter⟩, .inr (.inl hcheck)⟩))
          | unreadable => exact .raises htime (.inr (.inr ⟨⟨out, hwriter⟩, .inr (.inr (.inl hcheck))⟩))
          | missing artifacts =>
            have hb : ¬Breaks cfg r s.prevAudit := by simp [Breaks, hfeed, hwriter, hna, hcheck]
            exact conclude_outcome htime (by simp [hb]) hround rfl out (by rw [Round.audit, hwriter, hcheck])
          | nothing =>
            dsimp only
            cases hauditor : r.auditor with
            | none => exact .raises htime (.inr (.inr ⟨⟨out, hwriter⟩, .inr (.inr (.inr ⟨hcheck, .inl hauditor⟩))⟩))
            | some audit =>
              have hb : Breaks cfg r s.prevAudit ↔
                  true = true ∧ audit.verdict = .unreadable ∧ .intervention .abort ∉ r.onAuditDone := by
                simp [Breaks, BadAudit, hfeed, hwriter, hna, hcheck, hauditor]
              have hasked : InRound cfg { s with
                  writerCalls := s.writerCalls ++ [(s.roundNum, feedback)],
                  auditorCalls := s.auditorCalls ++ [(s.roundNum, .nothing)] } := by
                refine ⟨hround.history, hround.persisted, hround.writerCalls, fun call hcall => ?_, hlt⟩
                rcases List.mem_append.mp hcall with hcall | hcall
                · exact h.auditorCalls call hcall
                · rw [List.mem_singleton.mp hcall]
              exact conclude_outcome htime hb hasked rfl out (by rw [Round.audit, hwriter, hcheck, hauditor]; rfl)

/-! ### The run -/

theorem GoesOn.round_le {env : ℕ → Round} {x y : ℕ × Option Audit}
    (h : Relation.ReflTransGen (GoesOn cfg env) x y) : x.1 ≤ y.1 := by
  induction h with
  | refl => exact Nat.le_refl _
  | tail _ hgo ih =>
    obtain ⟨-, -, -, audit, judged, -, -, rfl⟩ := hgo
    exact Nat.le_succ_of_le ih

/-- What is to be shown of a round that is reached. -/
def Kept (cfg : Config) (env : ℕ → Round) (x : ℕ × Option Audit) : Prop :=
  ∀ y, Relation.ReflTransGen (GoesOn cfg env) x y → y.1 < cfg.maxRounds → HasTime cfg (env y.1) y.1 →
    ¬Breaks cfg (env y.1) y.2

/-- A round from which nothing goes on. -/
theorem kept_of_last {env : ℕ → Round} {x : ℕ × Option Audit} (hlast : ∀ y, ¬GoesOn cfg env x y) :
    (HasTime cfg (env x.1) x.1 → ¬Breaks cfg (env x.1) x.2) → Kept cfg env x := by
  intro hx y hy _
  rcases Relation.ReflTransGen.cases_head hy with rfl | ⟨z, hz, -⟩
  · exact hx
  · exact absurd hz (hlast z)

theorem kept_of_next {env : ℕ → Round} {x z : ℕ × Option Audit} (hz : GoesOn cfg env x z) :
    Kept cfg env x ↔ Kept cfg env z := by
  constructor
  · exact fun h y hy => h y (.head hz hy)
  · intro h y hy hlt htime
    rcases Relation.ReflTransGen.cases_head hy with rfl | ⟨z', hz', hy'⟩
    · exact hz.2.1
    · obtain ⟨-, -, -, audit, judged, haudit, -, rfl⟩ := hz
      obtain ⟨-, -, -, audit', judged', haudit', -, rfl⟩ := hz'
      obtain ⟨rfl, -⟩ := Prod.mk.inj (Option.some.inj (haudit.symm.trans haudit'))
      exact h y hy' hlt htime

/-- The rounds that are left, from a state with all in step. -/
theorem runRounds_contract (env : ℕ → Round) : ∀ (k : ℕ) (s : CycleState), InStep s →
    s.roundNum + k = cfg.maxRounds → (Contract cfg (runRounds cfg env k s) ↔ Kept cfg env (s.roundNum, s.prevAudit))
  | 0, s, h, hk => by
    rw [Nat.add_zero] at hk
    refine ⟨fun _ y hy hlt => absurd (GoesOn.round_le hy) (by rw [hk]; exact Nat.not_le_of_lt hlt), fun _ => ?_⟩
    refine ⟨?_, ?_, h.auditorCalls, ?_, fun hs => Bool.noConfusion hs⟩
    · rw [h.history, hk]
    · rw [h.persisted, hk]
    · exact Nat.le_of_eq (h.writerCalls.trans hk)
  | k + 1, s, h, hk => by
    have hout := round_outcome (r := env s.roundNum) h (show s.roundNum < cfg.maxRounds by omega)
    unfold runRounds
    revert hout
    cases round cfg (env s.roundNum) s with
    | next s' =>
      rintro (_ | _ | _ | _ | ⟨htime, hb, haudit, habort, hgo, hs, hround, hprev⟩)
      have hz : GoesOn cfg env (s.roundNum, s.prevAudit) (s'.roundNum, s'.prevAudit) :=
        ⟨htime, hb, habort, _, _, haudit, endsCycle_false hgo, by rw [hround, hprev]⟩
      rw [runRounds_contract env k s' hs (by rw [hround]; omega)]
      exact (kept_of_next hz).symm
    | raised s' =>
      rintro (_ | ⟨htime, hb⟩)
      exact ⟨fun hc => hc.elim, fun hkept => absurd hb (hkept _ .refl (by omega) htime)⟩
    | finished o s' =>
      intro hout
      cases hout with
      | noTime htime hc =>
        exact ⟨fun _ => kept_of_last (fun y hy => htime hy.1) fun ht => absurd ht htime, fun _ => hc⟩
      | aborts htime hb hc =>
        exact ⟨fun h => absurd h hc, fun hkept => absurd hb (hkept _ .refl (by omega) htime)⟩
      | ends hb haudit hend hc =>
        refine ⟨fun _ => kept_of_last (fun y hy => ?_) fun _ => hb, fun _ => hc⟩
        obtain ⟨-, -, habort, audit', judged', haudit', hgo, -⟩ := hy
        obtain ⟨rfl, rfl⟩ := Prod.mk.inj (Option.some.inj (haudit.symm.trans haudit'))
        rcases hend with hmem | hends
        · exact habort hmem
        · obtain ⟨hj, v, hv, hverdict⟩ := endsCycle_true.mp hends
          exact hgo hj v hv hverdict

/-- Two rounds at most, with a renderer that always renders. -/
def twoRounds : Config := { maxRounds := 2, render := fun _ => some "revise" }

/-- The writer raises, then writes; the auditor is down. -/
def auditorDown : ℕ → Round
  | 0 => { writer := .error ⟨"ValueError", some "no plan", ""⟩ }
  | _ => { writer := .ok (.output { content := "draft" }), auditor := none }

end Cycle
end AgentCore
