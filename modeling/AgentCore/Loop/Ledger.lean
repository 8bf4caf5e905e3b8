/-
# The ledger of attempts

What the attempt observer of `call_llm` is told. A round of the loop opens one
attempt and closes it once, or opens a second one for a replay and closes both;
so at every end of a round the attempts are those from 1 on, each started once
and then finished once. The one that is reported delivered is the one whose
response is returned: the last, or the one before it when the last was a replay
that failed.

One handler may raise before it closes the attempt: that of a 429 whose
`Retry-After` header reads as nan or negative infinity (`UnreadableWait`). The
call ends there with one attempt open.

Key definitions: `startedIndices`, `finishedIndices`, `deliveredIndices`,
`Ordered`, `Round`, `UnreadableWait`.
Key theorem: `attempt_ledger`.
-/
import AgentCore.Loop.Call
import Mathlib.Data.List.Perm.Basic

namespace AgentCore
namespace Loop

/-! ### Readings of the ledger -/

def AttemptEvent.startedIndex : AttemptEvent → Option ℕ
  | .started label => some label.attemptIndex
  | .finished .. => none

def AttemptEvent.finishedIndex : AttemptEvent → Option ℕ
  | .started _ => none
  | .finished label .. => some label.attemptIndex

def AttemptEvent.deliveredIndex : AttemptEvent → Option ℕ
  | .started _ => none
  | .finished label outcome .. => if outcome.delivered then some label.attemptIndex else none

def startedIndices (events : List AttemptEvent) : List ℕ := events.filterMap AttemptEvent.startedIndex

def finishedIndices (events : List AttemptEvent) : List ℕ := events.filterMap AttemptEvent.finishedIndex

def deliveredIndices (events : List AttemptEvent) : List ℕ := events.filterMap AttemptEvent.deliveredIndex

/-- An attempt is reported finished only after it was reported started. -/
def Ordered (events : List AttemptEvent) : Prop :=
  ∀ front e back, events = front ++ e :: back → ∀ i, e.finishedIndex = some i → i ∈ startedIndices front

/-- The attempt was a replay that failed: the response it was to replace is kept. -/
def ReplayFailed (events : List AttemptEvent) (i : ℕ) : Prop :=
  ∃ label reason errorType, label.attemptIndex = i ∧
    .finished label .failed reason "keep_streamed_response" errorType ∈ events

theorem ordered_concat {events : List AttemptEvent} (h : Ordered events) {e : AttemptEvent}
    (he : ∀ i, e.finishedIndex = some i → i ∈ startedIndices events) : Ordered (events ++ [e]) := by
  intro front e' back heq i hi
  rcases List.eq_nil_or_concat back with rfl | ⟨back', last, rfl⟩
  · obtain ⟨rfl, hlast⟩ := List.append_inj' heq rfl
    obtain rfl := (List.cons.inj hlast).1
    exact he i hi
  · have heq' : events ++ [e] = (front ++ e' :: back') ++ [last] := by
      rw [heq]
      simp
    exact h front e' back' (List.append_inj' heq' rfl).1 i hi

/-! ### One round -/

variable {cfg : CallConfig} {env : AttemptEnv} {a : Attempt} {s : CallState}

/-- The report that closes an attempt, as delivered exactly when the call
returns; none where the handler raises. -/
inductive Closing (l : AttemptLabel) (ended : Option CallEnd) : List AttemptEvent → Prop
  | told {outcome : AttemptOutcome} {reason action errorType : String} (hnot : ended ≠ some .escaped)
      (ho : outcome.delivered = true ↔ ∃ r, ended = some (.returned r)) :
      Closing l ended [.finished l outcome reason action errorType]
  | escaped (h : ended = some .escaped) : Closing l ended []

/-- The attempt is reported finished, once, or its handler raises. -/
def Concludes (a : Attempt) (s : CallState) (p : CallState × Option CallEnd) : Prop :=
  p.1.physicalAttemptIndex = s.physicalAttemptIndex ∧
    ∃ last, p.1.events = s.events ++ last ∧ Closing a.label p.2 last

theorem Concludes.returned (a : Attempt) (s : CallState) {outcome : AttemptOutcome} (ho : outcome.delivered = true)
    (reason action errorType : String) (r : Response) :
    Concludes a s (s.finish a outcome reason action errorType, some (.returned r)) :=
  ⟨rfl, _, rfl, .told (fun h => nomatch h) ⟨fun _ => ⟨r, rfl⟩, fun _ => ho⟩⟩

theorem Concludes.raised (a : Attempt) (s : CallState) (reason action errorType reason' : String) :
    Concludes a s (s.finish a .failed reason action errorType, some (.raised reason')) :=
  ⟨rfl, _, rfl, .told (fun h => nomatch h) ⟨fun h => Bool.noConfusion h, fun ⟨_, h⟩ => nomatch h⟩⟩

theorem Concludes.escaped (a : Attempt) (s : CallState) : Concludes a s (s, some .escaped) :=
  ⟨rfl, [], (List.append_nil _).symm, .escaped rfl⟩

/-- The call goes on: the attempt is reported, and what else the state holds
does not matter. -/
theorem Concludes.goesOn {p : CallState} (a : Attempt) (s : CallState) {outcome : AttemptOutcome}
    (ho : outcome.delivered = false) {reason action errorType : String}
    (hi : p.physicalAttemptIndex = s.physicalAttemptIndex)
    (he : p.events = s.events ++ [.finished a.label outcome reason action errorType]) : Concludes a s (p, none) := by
  refine ⟨hi, _, he, .told (fun h => nomatch h) ⟨fun h => ?_, fun ⟨_, h⟩ => nomatch h⟩⟩
  rw [ho] at h
  cases h

theorem retrySameKey_concludes (reason errorType : String) (backoff : ℚ) :
    Concludes a s (retrySameKey cfg env a s reason errorType backoff) := by
  unfold retrySameKey
  split
  · split
    · exact .raised ..
    · exact .goesOn a s rfl rfl rfl
  · exact .goesOn a s rfl rfl rfl

theorem recoverEmptyCompletion_concludes : Concludes a s (recoverEmptyCompletion cfg env a s) := by
  unfold recoverEmptyCompletion
  dsimp only
  split
  · exact Concludes.raised a { s with emptyCompletions := s.emptyCompletions + 1 } ..
  · split
    · exact Concludes.raised a { s with emptyCompletions := _ } ..
    · exact .goesOn a s rfl rfl rfl

theorem onResponse_concludes (r : Response) : Concludes a s (onResponse cfg env a s r) := by
  unfold onResponse
  split
  · split
    · exact .goesOn a s rfl rfl rfl
    · exact .returned a s rfl ..
  · split
    · exact .returned a s rfl ..
    · exact .returned a s rfl ..

theorem onError_concludes (e : Providers.LlmError) : Concludes a s (onError cfg env a s e) := by
  unfold onError
  dsimp only
  split
  · exact recoverEmptyCompletion_concludes
  · split
    · exact .goesOn a s rfl rfl rfl
    · split
      · exact .raised ..
      · split
        · split
          · split
            · exact retrySameKey_concludes ..
            · exact .raised ..
          · split
            · split
              · exact retrySameKey_concludes ..
              · exact .escaped a s
            · exact retrySameKey_concludes ..
        · exact retrySameKey_concludes ..

theorem onRaised_concludes (raised : Raised) : Concludes a s (onRaised cfg env a s raised) := by
  cases raised with
  | emptyCompletion => exact recoverEmptyCompletion_concludes
  | callExhausted reason errorType => exact .raised ..
  | reasoningRunaway r =>
    unfold onRaised
    dsimp only
    split
    · exact .goesOn a s rfl rfl rfl
    · exact .returned a s rfl ..
  | streamStalled =>
    unfold onRaised
    dsimp only
    split
    · exact Concludes.raised a { s with streamStallCount := s.streamStallCount + 1 } ..
    · exact retrySameKey_concludes (s := { s with streamStallCount := s.streamStallCount + 1 }) ..
  | timeoutError typeName =>
    unfold onRaised
    dsimp only
    split
    · exact .raised ..
    · exact retrySameKey_concludes ..
  | error e => exact onError_concludes e

/-- What the request of an attempt reports: nothing, or a replay that failed, or
a replay that takes the attempt's place. -/
inductive Requests (a : Attempt) (s : CallState) : CallState × Attempt × Except Raised Response → Prop
  | plain {s' : CallState} {a' : Attempt} {result : Except Raised Response} (hs : s' = s) (ha : a'.label = a.label) :
      Requests a s (s', a', result)
  | kept {s' : CallState} {a' : Attempt} {result : Except Raised Response} {label : AttemptLabel}
      {reason errorType : String} (hi : s'.physicalAttemptIndex = s.physicalAttemptIndex + 1)
      (hl : label.attemptIndex = s.physicalAttemptIndex + 1) (ha : a'.label = a.label)
      (he : s'.events = s.events ++ [.started label] ++
        [.finished label .failed reason "keep_streamed_response" errorType]) : Requests a s (s', a', result)
  | replaced {s' : CallState} {a' : Attempt} {result : Except Raised Response} {label : AttemptLabel}
      {reason action errorType : String} (hi : s'.physicalAttemptIndex = s.physicalAttemptIndex + 1)
      (hl : a'.label.attemptIndex = s.physicalAttemptIndex + 1) (ha : label = a.label)
      (he : s'.events = s.events ++ [.started a'.label] ++ [.finished label .discarded reason action errorType]) :
      Requests a s (s', a', result)

theorem admission_label {a' : Attempt} (h : admission cfg env a = .ok a') : a'.label = a.label := by
  unfold admission at h
  split at h
  · cases h
    rfl
  · split at h
    · cases h
    · split at h
      · split at h
        · cases h
        · cases h
          rfl
      · split at h <;> cases h

/-- What the check of the response adds to the requests is the result alone. -/
theorem Requests.bind {p : CallState × Attempt × Except Raised Response} (h : Requests a s p)
    (check : Response → Except Raised Response) : Requests a s (p.1, p.2.1, p.2.2.bind check) := by
  cases h with
  | plain hs ha => exact .plain hs ha
  | kept hi hl ha he => exact .kept hi hl ha he
  | replaced hi hl ha he => exact .replaced hi hl ha he

theorem afterStream_requests (r : Response) : Requests a s (afterStream cfg env a s r) := by
  unfold afterStream
  split
  · exact .plain rfl rfl
  · split
    · unfold replay
      dsimp only
      split
      · exact .plain rfl rfl
      · split
        · exact .kept rfl rfl rfl rfl
        · exact .replaced rfl rfl rfl rfl
    · exact .plain rfl rfl

/-- Admission takes the attempt's time again, its label stays. -/
theorem Requests.of_label {a' : Attempt} (hlabel : a'.label = a.label) {p : CallState × Attempt × Except Raised Response}
    (h : Requests a' s p) : Requests a s p := by
  cases h with
  | plain hs ha => exact .plain hs (ha.trans hlabel)
  | kept hi hl ha he => exact .kept hi hl (ha.trans hlabel) he
  | replaced hi hl ha he => exact .replaced hi hl (ha.trans hlabel) he

theorem request_requests : Requests a s (request cfg env a s) := by
  unfold request
  split
  · exact .plain rfl rfl
  · next a' ha =>
    have hlabel := admission_label ha
    split
    · exact .plain rfl hlabel
    · next r _ =>
      cases cfg.stream with
      | true => exact ((afterStream_requests r).bind _).of_label hlabel
      | false => exact .plain rfl hlabel

/-- What a round reports, by the number of attempts before it: nothing where a
deadline refuses it, else an attempt that starts and is closed, with a replay
between that is given up or takes its place. -/
inductive Round (n : ℕ) (ended : Option CallEnd) : ℕ → List AttemptEvent → Prop
  | refused (h : ∀ r, ended ≠ some (.returned r)) (hnot : ended ≠ some .escaped) : Round n ended n []
  | plain {l : AttemptLabel} {last : List AttemptEvent} (hl : l.attemptIndex = n + 1) (hlast : Closing l ended last) :
      Round n ended (n + 1) (.started l :: last)
  | kept {l l' : AttemptLabel} {reason' errorType' : String} {last : List AttemptEvent}
      (hl : l.attemptIndex = n + 1) (hl' : l'.attemptIndex = n + 2) (hlast : Closing l ended last) :
      Round n ended (n + 2) (.started l :: .started l' ::
        .finished l' .failed reason' "keep_streamed_response" errorType' :: last)
  | replaced {l l' : AttemptLabel} {reason' action' errorType' : String} {last : List AttemptEvent}
      (hl : l.attemptIndex = n + 1) (hl' : l'.attemptIndex = n + 2) (hlast : Closing l' ended last) :
      Round n ended (n + 2) (.started l :: .started l' :: .finished l .discarded reason' action' errorType' :: last)

/-- An attempt that has started, whose request is made and that is concluded. -/
theorem round_of {n : ℕ} {events : List AttemptEvent} (hstart : s.events = events ++ [.started a.label])
    (hn : s.physicalAttemptIndex = n + 1) (hl : a.label.attemptIndex = n + 1) {s' : CallState} {a' : Attempt}
    {result : Except Raised Response} (hreq : Requests a s (s', a', result)) {p : CallState × Option CallEnd}
    (hend : Concludes a' s' p) :
    ∃ reported, p.1.events = events ++ reported ∧ Round n p.2 p.1.physicalAttemptIndex reported := by
  obtain ⟨hi, last, he, hlast⟩ := hend
  cases hreq with
  | plain hs ha =>
    have hev : p.1.events = events ++ (.started a.label :: last) := by
      rw [he, hs, hstart]
      simp
    rw [ha] at hlast
    rw [hi, hs, hn]
    exact ⟨_, hev, .plain hl hlast⟩
  | @kept _ _ _ label reason' errorType' hi' hl' ha he' =>
    have hev : p.1.events = events ++ (.started a.label :: .started label ::
        .finished label .failed reason' "keep_streamed_response" errorType' :: last) := by
      rw [he, he', hstart]
      simp
    rw [ha] at hlast
    rw [hi, hi', hn]
    rw [hn] at hl'
    exact ⟨_, hev, .kept hl hl' hlast⟩
  | @replaced _ _ _ label reason' action' errorType' hi' hl' ha he' =>
    have hev : p.1.events = events ++ (.started a.label :: .started a'.label ::
        .finished a.label .discarded reason' action' errorType' :: last) := by
      rw [he, he', hstart, ha]
      simp
    rw [hi, hi', hn]
    rw [hn] at hl'
    exact ⟨_, hev, .replaced hl hl' hlast⟩

/-- **One round** adds such reports. -/
theorem iterate_round (cfg : CallConfig) (env : AttemptEnv) (s : CallState) :
    ∃ reported, (iterate cfg env s).1.events = s.events ++ reported ∧
      Round s.physicalAttemptIndex (iterate cfg env s).2 (iterate cfg env s).1.physicalAttemptIndex reported := by
  unfold iterate
  split
  · exact ⟨[], by simp, .refused (fun r h => by cases h) (fun h => by cases h)⟩
  · dsimp only
    split
    · next hq =>
      exact round_of rfl rfl rfl (hq ▸ request_requests) (onResponse_concludes _)
    · next hq =>
      exact round_of rfl rfl rfl (hq ▸ request_requests) (onRaised_concludes _)

/-! ### A handler that raises -/

/-- A 429 whose wait is told by a header that reads as nan or negative infinity. -/
structure UnreadableWait (cfg : CallConfig) (e : Providers.LlmError) : Prop where
  fixed : cfg.retryWaitFixed = none
  status : cfg.classes.getStatusCode e = some 429
  header : cfg.classes.getRetryAfter e = some .nan ∨ cfg.classes.getRetryAfter e = some .negInf

theorem retrySameKey_not_escaped (reason errorType : String) (backoff : ℚ) :
    (retrySameKey cfg env a s reason errorType backoff).2 ≠ some .escaped := by
  unfold retrySameKey
  split
  · split <;> exact fun h => nomatch h
  · exact fun h => nomatch h

theorem recoverEmptyCompletion_not_escaped : (recoverEmptyCompletion cfg env a s).2 ≠ some .escaped := by
  unfold recoverEmptyCompletion
  dsimp only
  split
  · exact fun h => nomatch h
  · split <;> exact fun h => nomatch h

theorem onResponse_not_escaped (r : Response) : (onResponse cfg env a s r).2 ≠ some .escaped := by
  unfold onResponse
  split
  · split <;> exact fun h => nomatch h
  · split <;> exact fun h => nomatch h

theorem rateLimitBackoff_eq_none {attempt : ℕ} {e : Providers.LlmError}
    (h : rateLimitBackoff cfg env attempt e = none) :
    cfg.retryWaitFixed = none ∧
      (cfg.classes.getRetryAfter e = some .nan ∨ cfg.classes.getRetryAfter e = some .negInf) := by
  unfold rateLimitBackoff at h
  split at h
  · cases h
  · next hfixed =>
    refine ⟨hfixed, ?_⟩
    split at h
    · cases h
    · cases h
    · next hheader => exact .inr hheader
    · next hheader => exact .inl hheader
    · cases h

theorem onError_escaped {e : Providers.LlmError} (h : (onError cfg env a s e).2 = some .escaped) :
    UnreadableWait cfg e := by
  unfold onError at h
  dsimp only at h
  split at h
  · exact absurd h recoverEmptyCompletion_not_escaped
  · split at h
    · cases h
    · split at h
      · cases h
      · split at h
        · next status hstatus =>
          split at h
          · split at h
            · exact absurd h (retrySameKey_not_escaped _ _ _)
            · cases h
          · split at h
            · next hlimit =>
              split at h
              · exact absurd h (retrySameKey_not_escaped _ _ _)
              · next hnone =>
                obtain ⟨hfixed, hheader⟩ := rateLimitBackoff_eq_none hnone
                exact ⟨hfixed, hlimit ▸ hstatus, hheader⟩
            · exact absurd h (retrySameKey_not_escaped _ _ _)
        · exact absurd h (retrySameKey_not_escaped _ _ _)

theorem onRaised_escaped {raised : Raised} (h : (onRaised cfg env a s raised).2 = some .escaped) :
    ∃ e, raised = .error e ∧ UnreadableWait cfg e := by
  cases raised with
  | emptyCompletion => exact absurd h recoverEmptyCompletion_not_escaped
  | callExhausted reason errorType => cases h
  | reasoningRunaway r =>
    unfold onRaised at h
    dsimp only at h
    split at h <;> cases h
  | streamStalled =>
    unfold onRaised at h
    dsimp only at h
    split at h
    · cases h
    · exact absurd h (retrySameKey_not_escaped _ _ _)
  | timeoutError typeName =>
    unfold onRaised at h
    dsimp only at h
    split at h
    · cases h
    · exact absurd h (retrySameKey_not_escaped _ _ _)
  | error e => exact ⟨e, rfl, onError_escaped h⟩

/-- A round is left by a handler's exception only where an attempt of it got such
a 429. -/
theorem iterate_escaped (h : (iterate cfg env s).2 = some .escaped) :
    ∃ a s' e, (request cfg env a s').2.2 = .error (.error e) ∧ UnreadableWait cfg e := by
  unfold iterate at h
  split at h
  · cases h
  · dsimp only at h
    split at h
    · exact absurd h (onResponse_not_escaped _)
    · next hq =>
      obtain ⟨e, rfl, hwait⟩ := onRaised_escaped h
      exact ⟨_, _, e, by rw [hq], hwait⟩

/-! ### The whole call -/

/-- What holds of the ledger at the end of every round. -/
structure Ledger (s : CallState) (ended : Option CallEnd) : Prop where
  started : startedIndices s.events = List.range' 1 s.physicalAttemptIndex
  finished : ended ≠ some .escaped → (finishedIndices s.events).Perm (List.range' 1 s.physicalAttemptIndex)
  escaped : ended = some .escaped → ∃ i, (finishedIndices s.events ++ [i]).Perm (List.range' 1 s.physicalAttemptIndex)
  ordered : Ordered s.events
  undelivered : (∀ r, ended ≠ some (.returned r)) → deliveredIndices s.events = []
  delivered : ∀ r, ended = some (.returned r) → ∃ i, deliveredIndices s.events = [i] ∧
    (i = s.physicalAttemptIndex ∨ (i + 1 = s.physicalAttemptIndex ∧ ReplayFailed s.events s.physicalAttemptIndex))

theorem startedIndices_append (es es' : List AttemptEvent) :
    startedIndices (es ++ es') = startedIndices es ++ startedIndices es' := List.filterMap_append

theorem finishedIndices_append (es es' : List AttemptEvent) :
    finishedIndices (es ++ es') = finishedIndices es ++ finishedIndices es' := List.filterMap_append

theorem deliveredIndices_append (es es' : List AttemptEvent) :
    deliveredIndices (es ++ es') = deliveredIndices es ++ deliveredIndices es' := List.filterMap_append

/-- The report that closes an attempt tells whether the call returns. -/
theorem Closing.delivered {l : AttemptLabel} {ended : Option CallEnd} {last : List AttemptEvent}
    (h : Closing l ended last) :
    ((∀ r, ended ≠ some (.returned r)) → deliveredIndices last = []) ∧
    ∀ r, ended = some (.returned r) → deliveredIndices last = [l.attemptIndex] := by
  cases h with
  | @told outcome _ _ _ hnot ho =>
    constructor
    · intro h
      have hd : outcome.delivered = false := by
        rw [← Bool.not_eq_true, ho]
        exact fun ⟨r, hr⟩ => h r hr
      simp [deliveredIndices, AttemptEvent.deliveredIndex, hd]
    · intro r hr
      have hd : outcome.delivered = true := ho.mpr ⟨r, hr⟩
      simp [deliveredIndices, AttemptEvent.deliveredIndex, hd]
  | escaped h =>
    refine ⟨fun _ => rfl, fun r hr => ?_⟩
    rw [h] at hr
    cases hr

theorem Closing.started {l : AttemptLabel} {ended : Option CallEnd} {last : List AttemptEvent}
    (h : Closing l ended last) : startedIndices last = [] := by
  cases h with
  | told _ _ => rfl
  | escaped _ => rfl

/-- It is the attempt's own, and missing only where the handler raises. -/
theorem Closing.finished {l : AttemptLabel} {ended : Option CallEnd} {last : List AttemptEvent}
    (h : Closing l ended last) :
    (ended ≠ some .escaped ∧ finishedIndices last = [l.attemptIndex]) ∨
      (ended = some .escaped ∧ finishedIndices last = []) := by
  cases h with
  | told hnot _ => exact .inl ⟨hnot, rfl⟩
  | escaped h => exact .inr ⟨h, rfl⟩

section Reports

variable {n n' : ℕ} {ended : Option CallEnd} {reported : List AttemptEvent}

theorem startedIndices_cons (l : AttemptLabel) (es : List AttemptEvent) :
    startedIndices (.started l :: es) = l.attemptIndex :: startedIndices es := rfl

theorem startedIndices_finished (l : AttemptLabel) (outcome : AttemptOutcome) (reason action errorType : String)
    (es : List AttemptEvent) : startedIndices (.finished l outcome reason action errorType :: es) = startedIndices es :=
  rfl

theorem finishedIndices_started (l : AttemptLabel) (es : List AttemptEvent) :
    finishedIndices (.started l :: es) = finishedIndices es := rfl

theorem finishedIndices_cons (l : AttemptLabel) (outcome : AttemptOutcome) (reason action errorType : String)
    (es : List AttemptEvent) :
    finishedIndices (.finished l outcome reason action errorType :: es) = l.attemptIndex :: finishedIndices es := rfl

theorem Round.started (h : Round n ended n' reported) :
    List.range' 1 n' = List.range' 1 n ++ startedIndices reported := by
  have hone : ∀ m, List.range' 1 (m + 1) = List.range' 1 m ++ [m + 1] := fun m => by
    rw [List.range'_1_concat, Nat.add_comm 1 m]
  cases h with
  | refused _ _ => exact (List.append_nil _).symm
  | plain hl hlast => rw [hone, startedIndices_cons, hlast.started, hl]
  | kept hl hl' hlast =>
    rw [hone, hone, startedIndices_cons, startedIndices_cons, startedIndices_finished, hlast.started, hl, hl',
      List.append_assoc, List.singleton_append]
  | replaced hl hl' hlast =>
    rw [hone, hone, startedIndices_cons, startedIndices_cons, startedIndices_finished, hlast.started, hl, hl',
      List.append_assoc, List.singleton_append]

/-- The attempts of a round are closed, all but one where a handler raises. -/
theorem Round.finished (h : Round n ended n' reported) :
    (ended ≠ some .escaped ∧ (finishedIndices reported).Perm (startedIndices reported)) ∨
      (ended = some .escaped ∧ ∃ i, (finishedIndices reported ++ [i]).Perm (startedIndices reported)) := by
  cases h with
  | refused _ hnot => exact .inl ⟨hnot, .refl _⟩
  | @plain l _ hl hlast =>
    rw [finishedIndices_started, startedIndices_cons, hlast.started]
    rcases hlast.finished with ⟨hnot, heq⟩ | ⟨hesc, heq⟩
    · rw [heq]
      exact .inl ⟨hnot, .refl _⟩
    · rw [heq]
      exact .inr ⟨hesc, l.attemptIndex, .refl _⟩
  | @kept l l' _ _ _ hl hl' hlast =>
    rw [finishedIndices_started, finishedIndices_started, finishedIndices_cons, startedIndices_cons,
      startedIndices_cons, startedIndices_finished, hlast.started]
    rcases hlast.finished with ⟨hnot, heq⟩ | ⟨hesc, heq⟩
    · rw [heq]
      exact .inl ⟨hnot, .swap ..⟩
    · rw [heq]
      exact .inr ⟨hesc, l.attemptIndex, .swap ..⟩
  | @replaced l l' _ _ _ _ hl hl' hlast =>
    rw [finishedIndices_started, finishedIndices_started, finishedIndices_cons, startedIndices_cons,
      startedIndices_cons, startedIndices_finished, hlast.started]
    rcases hlast.finished with ⟨hnot, heq⟩ | ⟨hesc, heq⟩
    · rw [heq]
      exact .inl ⟨hnot, .refl _⟩
    · rw [heq]
      exact .inr ⟨hesc, l'.attemptIndex, .refl _⟩

theorem Ordered.start {es : List AttemptEvent} (h : Ordered es) (l : AttemptLabel) :
    Ordered (es ++ [AttemptEvent.started l]) :=
  ordered_concat h fun i hi => by cases hi

theorem Ordered.finish {es : List AttemptEvent} (h : Ordered es) {l : AttemptLabel}
    (hl : l.attemptIndex ∈ startedIndices es) (outcome : AttemptOutcome) (reason action errorType : String) :
    Ordered (es ++ [AttemptEvent.finished l outcome reason action errorType]) := by
  refine ordered_concat h fun i hi => ?_
  cases hi
  exact hl

theorem Closing.ordered {l : AttemptLabel} {last : List AttemptEvent} (h : Closing l ended last)
    {es : List AttemptEvent} (hes : Ordered es) (hl : l.attemptIndex ∈ startedIndices es) : Ordered (es ++ last) := by
  cases h with
  | told _ _ => exact hes.finish hl _ _ _ _
  | escaped _ => rwa [List.append_nil]

theorem Round.ordered (h : Round n ended n' reported) {events : List AttemptEvent} (ho : Ordered events) :
    Ordered (events ++ reported) := by
  have hmem : ∀ {es es' l}, l.attemptIndex ∈ startedIndices (es ++ [AttemptEvent.started l] ++ es') := by
    intro es es' l
    rw [startedIndices_append, startedIndices_append]
    simp [startedIndices, AttemptEvent.startedIndex]
  cases h with
  | refused _ _ => rwa [List.append_nil]
  | plain _ hlast =>
    rw [List.append_cons]
    refine hlast.ordered (ho.start _) ?_
    rw [← List.append_nil (events ++ _)]
    exact hmem
  | @kept l l' _ _ _ _ _ hlast =>
    rw [List.append_cons, List.append_cons, List.append_cons]
    refine hlast.ordered (((ho.start l).start l').finish ?_ _ _ _ _) ?_
    · rw [← List.append_nil (_ ++ [AttemptEvent.started l'])]
      exact hmem
    · rw [List.append_assoc]
      exact hmem
  | @replaced l l' _ _ _ _ _ _ hlast =>
    rw [List.append_cons, List.append_cons, List.append_cons]
    exact hlast.ordered (((ho.start l).start l').finish hmem _ _ _ _) hmem

theorem Round.undelivered (h : Round n ended n' reported) (hend : ∀ r, ended ≠ some (.returned r)) :
    deliveredIndices reported = [] := by
  cases h with
  | refused _ _ => rfl
  | plain _ hlast => exact hlast.delivered.1 hend
  | kept _ _ hlast => exact hlast.delivered.1 hend
  | replaced _ _ hlast => exact hlast.delivered.1 hend

theorem Round.delivered (h : Round n ended n' reported) {r : Response} (hend : ended = some (.returned r)) :
    ∃ i, deliveredIndices reported = [i] ∧ (i = n' ∨ (i + 1 = n' ∧ ReplayFailed reported n')) := by
  cases h with
  | refused hnot _ => exact absurd hend (hnot r)
  | plain hl hlast => exact ⟨_, hlast.delivered.2 r hend, .inl hl⟩
  | kept hl hl' hlast =>
    refine ⟨_, hlast.delivered.2 r hend, .inr ⟨by rw [hl], ?_⟩⟩
    exact ⟨_, _, _, hl', List.mem_cons_of_mem _ (List.mem_cons_of_mem _ List.mem_cons_self)⟩
  | replaced _ hl' hlast => exact ⟨_, hlast.delivered.2 r hend, .inl hl'⟩

end Reports

theorem Ledger.round {s s' : CallState} {ended : Option CallEnd} (h : Ledger s none) {reported : List AttemptEvent}
    (he : s'.events = s.events ++ reported)
    (hr : Round s.physicalAttemptIndex ended s'.physicalAttemptIndex reported) : Ledger s' ended := by
  have hnone : deliveredIndices s.events = [] := h.undelivered fun r hr => by cases hr
  have hclosed := h.finished fun h => nomatch h
  refine ⟨?_, fun hnot => ?_, fun hesc => ?_, ?_, fun hend => ?_, fun r hend => ?_⟩
  · rw [he, startedIndices_append, h.started, hr.started]
  · rcases hr.finished with ⟨-, hperm⟩ | ⟨hesc, -⟩
    · rw [he, finishedIndices_append, hr.started]
      exact hclosed.append hperm
    · exact absurd hesc hnot
  · rcases hr.finished with ⟨hnot, -⟩ | ⟨-, i, hperm⟩
    · exact absurd hesc hnot
    · refine ⟨i, ?_⟩
      rw [he, finishedIndices_append, hr.started, List.append_assoc]
      exact hclosed.append hperm
  · rw [he]
    exact hr.ordered h.ordered
  · rw [he, deliveredIndices_append, hnone, hr.undelivered hend, List.append_nil]
  · obtain ⟨i, hi, hcase⟩ := hr.delivered hend
    refine ⟨i, by rw [he, deliveredIndices_append, hnone, hi, List.nil_append], ?_⟩
    refine hcase.imp_right fun ⟨hlast, label, reason, errorType, hl, hmem⟩ => ?_
    exact ⟨hlast, label, reason, errorType, hl, he ▸ List.mem_append_right _ hmem⟩

theorem Ledger.step {envs : ℕ → AttemptEnv} {c c' : Call} (h : Ledger c.state c.ended)
    (hs : callStep cfg envs c = some c') : Ledger c'.state c'.ended := by
  unfold callStep at hs
  split at hs
  · cases hs
  · next hend =>
    rw [hend] at h
    split at hs
    · cases hs
      obtain ⟨reported, he, hr⟩ := iterate_round cfg (envs c.round) c.state
      exact h.round he hr
    · cases hs
      have hnone := h.undelivered fun r hr => by cases hr
      have hclosed := h.finished fun h => nomatch h
      exact ⟨h.started, fun _ => hclosed, fun hesc => (nomatch hesc), h.ordered, fun _ => hnone, fun r hr => by cases hr⟩

/-- The ledger holds after any number of rounds. -/
theorem callLlm_ledger (cfg : CallConfig) (envs : ℕ → AttemptEnv) (maxTokens : Option ℤ) (rounds : ℕ) :
    Ledger (callLlm cfg envs maxTokens rounds).state (callLlm cfg envs maxTokens rounds).ended := by
  refine Halting.drive_keeps (I := fun c : Call => Ledger c.state c.ended) (fun _ _ h hs => h.step hs) rounds ?_
  exact ⟨rfl, fun _ => .refl _, fun hesc => (nomatch hesc), fun front e back heq => by simp at heq, fun _ => rfl,
    fun r hr => by cases hr⟩

/-- A call left by a handler's exception got a 429 of an unreadable wait. -/
theorem callLlm_escaped (cfg : CallConfig) (envs : ℕ → AttemptEnv) (maxTokens : Option ℤ) (rounds : ℕ) :
    (callLlm cfg envs maxTokens rounds).ended = some .escaped →
      ∃ k a s e, (request cfg (envs k) a s).2.2 = .error (.error e) ∧ UnreadableWait cfg e := by
  refine Halting.drive_keeps (I := fun c : Call => c.ended = some .escaped →
    ∃ k a s e, (request cfg (envs k) a s).2.2 = .error (.error e) ∧ UnreadableWait cfg e) ?_ rounds (fun h => nomatch h)
  intro c c' _ hs hend
  unfold callStep at hs
  split at hs
  · cases hs
  · split at hs
    · cases hs
      obtain ⟨a, s, e, hreq, hwait⟩ := iterate_escaped hend
      exact ⟨c.round, a, s, e, hreq, hwait⟩
    · cases hs
      cases hend

/-- A call with an attempt reported delivered has returned. -/
theorem Ledger.returned {s : CallState} {ended : Option CallEnd} (h : Ledger s ended) {i : ℕ}
    (hi : i ∈ deliveredIndices s.events) : ∃ r, ended = some (.returned r) := by
  by_contra hnot
  rw [h.undelivered fun r hr => hnot ⟨r, hr⟩] at hi
  cases hi

end Loop

open Loop in
/-- A call that streams, with two attempts at most and no deadline; every tool
call counts as broken. -/
def streamingCall : CallConfig where
  timeout := 60
  maxRetries := 2
  stream := true
  invalidNativeToolCalls := fun r => .ok !r.toolCalls.isEmpty
  missingRequiredArguments := fun _ => .ok false
  classes :=
    { isEmptyCompletion := fun _ => false, isContextLengthError := fun _ => false
      isRetriableWithFallback := fun _ => false, isOverloadedError := fun _ => false
      isTransientNetwork := fun _ => false, getStatusCode := fun _ => none, getRetryAfter := fun _ => none }

end AgentCore
