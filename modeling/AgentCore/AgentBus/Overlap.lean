/-
# Overlapping calls of `consume`

`AgentComm.consume` looks up its cursor, awaits the store and writes the cursor
afterwards, whatever has happened to it in between. Two calls for one key may
overlap; here each call under way has a number of its own, and any number of
them may be under way for one key.

The cursor is written to the end of the batch that is settled last, not of the
one that reaches farthest, so a short batch settled behind a longer one moves
it back. In a run where no batch is settled once the cursor is beyond its end
the cursors only move forward, and a message once returned is not returned by
a call that begins later.

Key definitions: `Overlapping`, `EventStore.overlapStep`, `NotOvertaken`.
Key theorem: `overlapping_consume_forward`.
-/
import AgentCore.AgentBus.Comm

namespace AgentCore
namespace AgentComm

open Cursor Runs

/-- The store, the cursors and the calls under way by their numbers, how many
calls have begun, what has been sent and what the calls came back with. -/
structure Overlapping (S : Type) where
  store : S
  cursors : Key → ℤ
  calls : ℕ → Option (Key × Call)
  started : ℕ
  sent : List KernelEvent
  outcomes : List (ℕ × Key × Except CommError (List KernelEvent))

def Overlapping.fresh {S : Type} (store : S) : Overlapping S := ⟨store, fun _ => 0, fun _ => none, 0, [], []⟩

inductive OverlapEvent
  | send (msg : AgentMessage) (mode : DeliveryMode)
  | consume (key : Key) (limit : ℤ)
  | answer (id : ℕ)
  | answerFails (id : ℕ)
  | settle (id : ℕ)

/-- One step. A call reads its cursor when it begins and writes it when its
answer is settled. -/
def EventStore.overlapStep {S : Type} (store : EventStore S) (s : Overlapping S) :
    OverlapEvent → Option (Overlapping S)
  | .send msg mode =>
    let (s', persisted) := store.append s.store (messageEvent msg mode)
    some { s with store := s', sent := s.sent ++ [persisted] }
  | .consume key limit =>
    some { s with
      calls := Function.update s.calls s.started (some (key, ⟨s.cursors key, limit, none⟩)), started := s.started + 1 }
  | .answer id =>
    match s.calls id with
    | some (key, ⟨afterId, limit, none⟩) =>
      let events := store.getEventsForAgent s.store key.agentId afterId limit key.taskId key.messageType
      some { s with calls := Function.update s.calls id (some (key, ⟨afterId, limit, some events⟩)) }
    | _ => none
  | .answerFails id =>
    match s.calls id with
    | some (_, ⟨_, _, none⟩) => some { s with calls := Function.update s.calls id none }
    | _ => none
  | .settle id =>
    match s.calls id with
    | some (key, ⟨_, _, some events⟩) =>
      let (outcome, cursors) := AgentComm.settle s.cursors key events
      some { s with
        cursors := cursors, calls := Function.update s.calls id none, outcomes := s.outcomes ++ [(id, key, outcome)] }
    | _ => none

/-- What the calls for a key have returned. -/
def Overlapping.returned {S : Type} (s : Overlapping S) (key : Key) : List KernelEvent :=
  (s.outcomes.filter (·.2.1 = key)).flatMap (delivered ·.2.2)

/-- A batch is settled only while the cursor of its key is not beyond its last
message: no overlapping call has carried the cursor farther. -/
def NotOvertaken {S : Type} (s : Overlapping S) : OverlapEvent → Prop
  | .settle id => ∀ key call batch e, s.calls id = some (key, call) → call.events = some (batch ++ [e]) →
      s.cursors key ≤ ordinal e
  | _ => True

def notOvertaken {S : Type} (s : Overlapping S) : OverlapEvent → Bool
  | .settle id =>
    match s.calls id with
    | some (key, ⟨_, _, some events⟩) => events.getLast?.all fun e => s.cursors key ≤ ordinal e
    | _ => true
  | _ => true

theorem notOvertaken_sound {S : Type} {s : Overlapping S} {ev : OverlapEvent} (h : notOvertaken s ev = true) :
    NotOvertaken s ev := by
  cases ev with
  | send | consume | answer | answerFails => trivial
  | settle id =>
    rintro key ⟨afterId, limit, _⟩ batch e hcall rfl
    rw [notOvertaken, hcall] at h
    simpa using h

/-! ### One step -/

section Steps

variable {S : Type} (retained : S → List KernelEvent)

/-- What holds whatever overlaps: the store retains what was sent, in order,
and the answer to a call is a beginning of what was beyond the cursor it read. -/
structure Answers (s : Overlapping S) : Prop where
  sent_eq : retained s.store = s.sent
  ordered : Ordered ordinal s.sent
  ordinals : ∀ e ∈ s.sent, eventOrdinal e = .ok (ordinal e)
  answered : ∀ id key call, s.calls id = some (key, call) → id < s.started ∧
    ∀ batch ∈ call.events, batch <+: beyond ordinal call.afterId (s.sent.filter key.selects)

/-- What a step does to the cursors and the outcomes: nothing, the end of a call
with nothing to return, or the end of one with a batch. -/
inductive Moved (s : Overlapping S) (ev : OverlapEvent) (s' : Overlapping S) : Prop
  | stays (hquiet : NotOvertaken s ev) (hcursors : s'.cursors = s.cursors) (houtcomes : s'.outcomes = s.outcomes)
  | empty (id : ℕ) (key : Key) (hid : id < s.started) (hquiet : NotOvertaken s ev) (hcursors : s'.cursors = s.cursors)
      (houtcomes : s'.outcomes = s.outcomes ++ [(id, key, .ok [])])
  | batch (id : ℕ) (key : Key) (call : Call) (batch : List KernelEvent) (e : KernelEvent)
      (hev : ev = .settle id) (hid : id < s.started) (hcall : s.calls id = some (key, call)) (hevents : call.events = some (batch ++ [e]))
      (hord : Ordered ordinal (batch ++ [e])) (hafter : ∀ x ∈ batch ++ [e], call.afterId < ordinal x)
      (hcursors : s'.cursors = Function.update s.cursors key (ordinal e))
      (houtcomes : s'.outcomes = s.outcomes ++ [(id, key, .ok (batch ++ [e]))])

variable {retained}

theorem Answers.fresh {s₀ : S} (h : retained s₀ = []) : Answers retained (Overlapping.fresh s₀) :=
  ⟨h, List.Pairwise.nil, by simp [Overlapping.fresh], by simp [Overlapping.fresh]⟩

/-- Taking a call away, or putting one there that is answered as it should. -/
theorem Answers.update {s : Overlapping S} (h : Answers retained s) (id : ℕ) (call : Option (Key × Call))
    {cursors : Key → ℤ} {started : ℕ} {outcomes : List (ℕ × Key × Except CommError (List KernelEvent))}
    (hstarted : s.started ≤ started)
    (hcall : ∀ key c, call = some (key, c) → id < started ∧
      ∀ batch ∈ c.events, batch <+: beyond ordinal c.afterId (s.sent.filter key.selects)) :
    Answers retained ⟨s.store, cursors, Function.update s.calls id call, started, s.sent, outcomes⟩ := by
  refine ⟨h.sent_eq, h.ordered, h.ordinals, fun id' key c hc => ?_⟩
  dsimp only at hc ⊢
  by_cases hid : id' = id
  · subst hid
    rw [Function.update_self] at hc
    exact hcall key c hc
  · rw [Function.update_of_ne hid] at hc
    obtain ⟨hlt, hb⟩ := h.answered id' key c hc
    exact ⟨by omega, hb⟩

theorem Answers.send {store : EventStore S} (hstore : store.Conforms retained) {s : Overlapping S}
    (h : Answers retained s) (msg : AgentMessage) (mode : DeliveryMode) :
    Answers retained { s with
      store := (store.append s.store (messageEvent msg mode)).1
      sent := s.sent ++ [(store.append s.store (messageEvent msg mode)).2] } := by
  obtain ⟨n, hn, -, hnew⟩ := hstore.append_ordinal s.store (messageEvent msg mode)
  rw [h.sent_eq] at hnew
  rw [← ordinal_of_ok hn] at hnew
  refine ⟨?_, h.ordered.append_singleton hnew, fun e' he' => ?_, fun id key call hc => ?_⟩
  · rw [hstore.append_retains, h.sent_eq]
  · rcases List.mem_append.mp he' with he' | he'
    · exact h.ordinals e' he'
    · rw [List.mem_singleton.mp he', ordinal_of_ok hn, hn]
  · obtain ⟨hlt, hb⟩ := h.answered id key call hc
    refine ⟨hlt, fun batch hbatch => (hb batch hbatch).trans ?_⟩
    dsimp only
    rw [List.filter_append, beyond, beyond, List.filter_append]
    exact List.prefix_append _ _

/-- **One step** keeps the answers right, and writes at most one cursor, to the
end of the batch settled. -/
theorem Answers.step {store : EventStore S} (hstore : store.Conforms retained) {s s' : Overlapping S}
    {e : OverlapEvent} (h : Answers retained s) (hs : store.overlapStep s e = some s') :
    Answers retained s' ∧ Moved s e s' := by
  cases e with
  | send msg mode =>
    cases hs
    exact ⟨h.send hstore msg mode, .stays trivial rfl rfl⟩
  | consume key limit =>
    cases hs
    refine ⟨h.update s.started _ (Nat.le_succ _) fun key' c hc => ?_, .stays trivial rfl rfl⟩
    cases hc
    exact ⟨Nat.lt_succ_self _, by simp⟩
  | answer id =>
    simp only [EventStore.overlapStep] at hs
    split at hs
    · next key afterId limit hc =>
      cases hs
      refine ⟨h.update id _ (Nat.le_refl _) fun key' c hc' => ?_, .stays trivial rfl rfl⟩
      cases hc'
      refine ⟨(h.answered _ _ _ hc).1, fun batch hbatch => ?_⟩
      rw [← Option.some.inj hbatch, ← h.sent_eq]
      exact hstore.reads s.store key afterId limit
    · cases hs
  | answerFails id =>
    simp only [EventStore.overlapStep] at hs
    split at hs
    · cases hs
      exact ⟨h.update id none (Nat.le_refl _) (by simp), .stays trivial rfl rfl⟩
    · cases hs
  | settle id =>
    simp only [EventStore.overlapStep] at hs
    split at hs
    · next key afterId limit events hc =>
      cases hs
      have hb := (h.answered _ _ _ hc).2 events rfl
      refine ⟨h.update id none (Nat.le_refl _) (by simp), ?_⟩
      rcases List.eq_nil_or_concat events with rfl | ⟨batch, e, rfl⟩
      · refine .empty id key (h.answered _ _ _ hc).1 (fun key' call batch e hc' he => ?_) rfl rfl
        rw [hc] at hc'
        cases hc'
        simp at he
      · rw [List.concat_eq_append] at *
        have hmem : ∀ x ∈ batch ++ [e], x ∈ s.sent := fun x hx =>
          (List.mem_filter.mp (mem_beyond (hb.subset hx)).1).1
        have hord : Ordered ordinal (batch ++ [e]) := ((h.ordered.filter _).filter _).of_initial hb
        have hsettle := settle_ordered s.cursors key (fun x hx => h.ordinals x (hmem x hx)) hord
        refine .batch id key _ batch e rfl (h.answered _ _ _ hc).1 hc rfl hord (fun x hx => (mem_beyond (hb.subset hx)).2)
          (congrArg Prod.snd hsettle) ?_
        rw [congrArg Prod.fst hsettle]
    · cases hs

end Steps

/-! ### Whole runs -/

section Runs

variable {S : Type} {retained : S → List KernelEvent} {store : EventStore S}

/-- What has become of a state: the cursors have moved forward only, and the
calls begun since have read them where they were by then. -/
structure Since (s₁ s : Overlapping S) : Prop where
  started_le : s₁.started ≤ s.started
  cursors_le : ∀ key, s₁.cursors key ≤ s.cursors key
  calls_after : ∀ id key call, s.calls id = some (key, call) → s₁.started ≤ id → s₁.cursors key ≤ call.afterId
  outcomes_beyond : ∀ id key events, (id, key, .ok events) ∈ s.outcomes → s₁.started ≤ id →
    ∀ e ∈ events, s₁.cursors key < ordinal e

/-- What has been returned for a key is not beyond its cursor. -/
def Behind (s : Overlapping S) : Prop := ∀ key, ∀ e ∈ s.returned key, ordinal e ≤ s.cursors key

/-- A call under way after a step was under way before it, from the same
cursor, or has just read it. -/
theorem overlapStep_calls {s s' : Overlapping S} {e : OverlapEvent} (hs : store.overlapStep s e = some s') :
    s.started ≤ s'.started ∧ ∀ id key call, s'.calls id = some (key, call) →
      (∃ call₀, s.calls id = some (key, call₀) ∧ call₀.afterId = call.afterId) ∨ call.afterId = s.cursors key := by
  have hupdate : ∀ (id₀ : ℕ) (c : Option (Key × Call)),
      (∀ key call, c = some (key, call) →
        (∃ call₀, s.calls id₀ = some (key, call₀) ∧ call₀.afterId = call.afterId) ∨ call.afterId = s.cursors key) →
      ∀ id key call, Function.update s.calls id₀ c id = some (key, call) →
        (∃ call₀, s.calls id = some (key, call₀) ∧ call₀.afterId = call.afterId) ∨ call.afterId = s.cursors key := by
    intro id₀ c hc id key call hcall
    by_cases hid : id = id₀
    · subst hid
      rw [Function.update_self] at hcall
      exact hc key call hcall
    · rw [Function.update_of_ne hid] at hcall
      exact .inl ⟨call, hcall, rfl⟩
  cases e with
  | send msg mode =>
    cases hs
    exact ⟨Nat.le_refl _, fun id key call hcall => .inl ⟨call, hcall, rfl⟩⟩
  | consume key limit =>
    cases hs
    refine ⟨Nat.le_succ _, hupdate _ _ fun key' call hc => ?_⟩
    cases hc
    exact .inr rfl
  | answer id =>
    simp only [EventStore.overlapStep] at hs
    split at hs
    · next key afterId limit hc =>
      cases hs
      refine ⟨Nat.le_refl _, hupdate _ _ fun key' call hc' => ?_⟩
      cases hc'
      exact .inl ⟨_, hc, rfl⟩
    · cases hs
  | answerFails id =>
    simp only [EventStore.overlapStep] at hs
    split at hs
    · cases hs
      exact ⟨Nat.le_refl _, hupdate _ _ (by simp)⟩
    · cases hs
  | settle id =>
    simp only [EventStore.overlapStep] at hs
    split at hs
    · cases hs
      exact ⟨Nat.le_refl _, hupdate _ _ (by simp)⟩
    · cases hs

theorem mem_returned {s : Overlapping S} {key : Key} {e : KernelEvent} :
    e ∈ s.returned key ↔ ∃ id outcome, (id, key, outcome) ∈ s.outcomes ∧ e ∈ delivered outcome := by
  unfold Overlapping.returned
  rw [List.mem_flatMap]
  constructor
  · rintro ⟨⟨id, key', outcome⟩, hmem, he⟩
    obtain ⟨hmem', hkey⟩ := List.mem_filter.mp hmem
    obtain rfl : key' = key := by simpa using hkey
    exact ⟨id, outcome, hmem', he⟩
  · rintro ⟨id, outcome, hmem, he⟩
    exact ⟨(id, key, outcome), List.mem_filter.mpr ⟨hmem, by simp⟩, he⟩

/-- A step moves no cursor back exactly when it settles no batch that was
overtaken. -/
theorem Moved.forward_iff {s s' : Overlapping S} {ev : OverlapEvent} (h : Moved s ev s') :
    (∀ key, s.cursors key ≤ s'.cursors key) ↔ NotOvertaken s ev := by
  cases h with
  | stays hquiet hcursors => exact ⟨fun _ => hquiet, fun _ key => by rw [hcursors]⟩
  | empty id key hid hquiet hcursors => exact ⟨fun _ => hquiet, fun _ key => by rw [hcursors]⟩
  | batch id key call batch e hev hid hcall hevents hord hafter hcursors =>
    subst hev
    constructor
    · intro hle key' call' batch' e' hcall' hevents'
      rw [hcall] at hcall'
      cases hcall'
      rw [hevents, Option.some.injEq] at hevents'
      obtain ⟨-, he⟩ := List.append_inj' hevents' rfl
      have hkey := hle key
      rw [hcursors, Function.update_self] at hkey
      rw [← (List.cons.inj he).1]
      exact hkey
    · intro hquiet key'
      rw [hcursors]
      by_cases hk : key' = key
      · subst hk
        rw [Function.update_self]
        exact hquiet _ _ _ _ hcall hevents
      · rw [Function.update_of_ne hk]

/-- A batch returned ends at the cursor. -/
theorem Behind.step {s s' : Overlapping S} {ev : OverlapEvent} (h : Behind s) (hm : Moved s ev s')
    (hforward : ∀ key, s.cursors key ≤ s'.cursors key) : Behind s' := by
  have hold : ∀ key id outcome, (id, key, outcome) ∈ s.outcomes → ∀ e ∈ delivered outcome,
      ordinal e ≤ s'.cursors key := fun key id outcome hmem e he =>
    le_trans (h key e (mem_returned.mpr ⟨id, outcome, hmem, he⟩)) (hforward key)
  intro key e he
  obtain ⟨id, outcome, hmem, he⟩ := mem_returned.mp he
  cases hm with
  | stays _ _ houtcomes =>
    rw [houtcomes] at hmem
    exact hold key id outcome hmem e he
  | empty id' key' _ _ _ houtcomes =>
    rw [houtcomes] at hmem
    rcases List.mem_append.mp hmem with hmem | hmem
    · exact hold key id outcome hmem e he
    · cases List.mem_singleton.mp hmem
      simp [delivered] at he
  | batch id' key' call batch last _ hid' hcall hevents hord hafter hcursors houtcomes =>
    rw [houtcomes] at hmem
    rcases List.mem_append.mp hmem with hmem | hmem
    · exact hold key id outcome hmem e he
    · cases List.mem_singleton.mp hmem
      rw [hcursors, Function.update_self]
      rcases List.mem_append.mp he with he | he
      · exact le_of_lt ((List.pairwise_append.mp hord).2.2 e he last (List.mem_singleton_self _))
      · rw [List.mem_singleton.mp he]

theorem Since.refl {s : Overlapping S} (hcalls : ∀ id key call, s.calls id = some (key, call) → id < s.started)
    (houtcomes : ∀ o ∈ s.outcomes, o.1 < s.started) : Since s s := by
  refine ⟨Nat.le_refl _, fun _ => le_refl _, fun id key call hcall hid => ?_, fun id key events hmem hid => ?_⟩
  · exact absurd (hcalls id key call hcall) (by omega)
  · exact absurd (houtcomes _ hmem) (by dsimp only; omega)

/-- A call begun since reads a cursor that has only moved forward. -/
theorem Since.step {s₁ s s' : Overlapping S} {ev : OverlapEvent} (h : Since s₁ s)
    (hs : store.overlapStep s ev = some s') (hm : Moved s ev s')
    (hforward : ∀ key, s.cursors key ≤ s'.cursors key) : Since s₁ s' := by
  obtain ⟨hstarted, hcalls⟩ := overlapStep_calls hs
  refine ⟨Nat.le_trans h.started_le hstarted, fun key => le_trans (h.cursors_le key) (hforward key), ?_, ?_⟩
  · intro id key call hcall hid
    rcases hcalls id key call hcall with ⟨call₀, hcall₀, hafter⟩ | hafter
    · rw [← hafter]
      exact h.calls_after id key call₀ hcall₀ hid
    · rw [hafter]
      exact h.cursors_le key
  · intro id key events hmem hid e he
    cases hm with
    | stays _ _ houtcomes =>
      rw [houtcomes] at hmem
      exact h.outcomes_beyond id key events hmem hid e he
    | empty id' key' _ _ _ houtcomes =>
      rw [houtcomes] at hmem
      rcases List.mem_append.mp hmem with hmem | hmem
      · exact h.outcomes_beyond id key events hmem hid e he
      · cases List.mem_singleton.mp hmem
        simp at he
    | batch id' key' call batch last _ hid' hcall hevents hord hafter hcursors houtcomes =>
      rw [houtcomes] at hmem
      rcases List.mem_append.mp hmem with hmem | hmem
      · exact h.outcomes_beyond id key events hmem hid e he
      · cases List.mem_singleton.mp hmem
        exact lt_of_le_of_lt (h.calls_after id key call hcall hid) (hafter e he)

/-- Only calls that have begun come back. -/
theorem Moved.outcome_lt {s s' : Overlapping S} {ev : OverlapEvent} (hm : Moved s ev s')
    (hstarted : s.started ≤ s'.started) (h : ∀ o ∈ s.outcomes, o.1 < s.started) :
    ∀ o ∈ s'.outcomes, o.1 < s'.started := by
  have hold : ∀ o ∈ s.outcomes, o.1 < s'.started := fun o ho => Nat.lt_of_lt_of_le (h o ho) hstarted
  have hadded : ∀ new, new.1 < s.started → ∀ o ∈ s.outcomes ++ [new], o.1 < s'.started := by
    intro new hid o ho
    rcases List.mem_append.mp ho with ho | ho
    · exact hold o ho
    · rw [List.mem_singleton.mp ho]
      exact Nat.lt_of_lt_of_le hid hstarted
  intro o ho
  cases hm with
  | stays _ _ houtcomes =>
    rw [houtcomes] at ho
    exact hold o ho
  | empty id key hid _ _ houtcomes =>
    rw [houtcomes] at ho
    exact hadded _ hid o ho
  | batch id key call batch e _ hid _ _ _ _ _ houtcomes =>
    rw [houtcomes] at ho
    exact hadded _ hid o ho

/-- The invariant of the runs in which no batch is overtaken. -/
structure Forward (retained : S → List KernelEvent) (s : Overlapping S) : Prop where
  answers : Answers retained s
  behind : Behind s
  outcome_lt : ∀ o ∈ s.outcomes, o.1 < s.started

theorem Forward.step (hstore : store.Conforms retained) {s s' : Overlapping S} {ev : OverlapEvent}
    (h : Forward retained s) (hquiet : NotOvertaken s ev) (hs : store.overlapStep s ev = some s') :
    Forward retained s' := by
  obtain ⟨hanswers, hm⟩ := h.answers.step hstore hs
  exact ⟨hanswers, h.behind.step hm (hm.forward_iff.mpr hquiet),
    hm.outcome_lt (overlapStep_calls hs).1 h.outcome_lt⟩

theorem Forward.fresh {s₀ : S} (h : retained s₀ = []) : Forward retained (Overlapping.fresh s₀) :=
  ⟨Answers.fresh h, by simp [Behind, Overlapping.returned, Overlapping.fresh], by simp [Overlapping.fresh]⟩

end Runs

/-- **Cursors move forward where no batch is overtaken.** In every run over a
store that keeps its contract whose batches are all settled before the cursor
is beyond them, no cursor ever decreases, and a message that a call for the key
has returned is not returned by a call for it that begins later. A step from
there moves a cursor back exactly when the batch it settles was overtaken. -/
theorem overlapping_consume_forward {S : Type} (store : EventStore S) (retained : S → List KernelEvent)
    (hstore : store.Conforms retained) (s₀ : S) (h0 : retained s₀ = []) (es₁ es₂ : List OverlapEvent)
    (s₁ s₂ : Overlapping S)
    (h₁ : Trace store.overlapStep (fun _ => NotOvertaken) (Overlapping.fresh s₀) es₁ s₁)
    (h₂ : Trace store.overlapStep (fun _ => NotOvertaken) s₁ es₂ s₂) :
    (∀ key, s₁.cursors key ≤ s₂.cursors key) ∧
    (∀ id key events, (id, key, .ok events) ∈ s₂.outcomes → s₁.started ≤ id →
      ∀ e ∈ events, e ∉ s₁.returned key) ∧
    ∀ ev s', store.overlapStep s₂ ev = some s' → ((∀ key, s₂.cursors key ≤ s'.cursors key) ↔ NotOvertaken s₂ ev) := by
  have hinv₁ : Forward retained s₁ := by
    refine Trace.invariant (I := fun _ s => Forward retained s) (Forward.fresh h0) ?_ h₁
    intro _ s ev s' h hquiet hs
    exact h.step hstore hquiet hs
  obtain ⟨hinv₂, hsince⟩ : Forward retained s₂ ∧ Since s₁ s₂ := by
    refine Trace.invariant (I := fun _ s => Forward retained s ∧ Since s₁ s) ⟨hinv₁, ?_⟩ ?_ h₂
    · exact Since.refl (fun id key call hcall => (hinv₁.answers.answered id key call hcall).1) hinv₁.outcome_lt
    · rintro _ s ev s' ⟨h, hsince⟩ hquiet hs
      have hm := (h.answers.step hstore hs).2
      exact ⟨h.step hstore hquiet hs, hsince.step hs hm (hm.forward_iff.mpr hquiet)⟩
  refine ⟨hsince.cursors_le, fun id key events hmem hid e he hret => ?_, fun ev s' hs => ?_⟩
  · have hlt := hsince.outcomes_beyond id key events hmem hid e he
    have hle := hinv₁.behind key e hret
    omega
  · exact (hinv₂.answers.step hstore hs).2.forward_iff

/-! ### Two calls at once -/

def inboxKey : Key := ⟨"b", some "t", none⟩

def inboxMessage (n : ℕ) : AgentMessage := ⟨"m" ++ toString n, "t", "a", "b", "status", [], none⟩

/-- Two messages are sent, two calls begin, and the store answers both. -/
def twoCalls : List OverlapEvent :=
  [.send (inboxMessage 1) .queue, .send (inboxMessage 2) .queue, .consume inboxKey 2, .consume inboxKey 1, .answer 0,
    .answer 1]

def emptyInbox : Overlapping ReferenceStore := Overlapping.fresh ⟨[], 1, by decide, by simp⟩

/-- The longer batch is settled first: the shorter one moves the cursor back to
the first message, and a call that begins after both returns the second message
again. -/
theorem shorter_batch_moves_back :
    ∃ s₁ s₂ s₃, run referenceStore.overlapStep emptyInbox (twoCalls ++ [.settle 0]) = some s₁ ∧
      run referenceStore.overlapStep s₁ [.settle 1] = some s₂ ∧
      run referenceStore.overlapStep s₂ [.consume inboxKey 5, .answer 2, .settle 2] = some s₃ ∧
      s₂.cursors inboxKey < s₁.cursors inboxKey ∧
      ∃ e events, e ∈ s₂.returned inboxKey ∧ (2, inboxKey, .ok events) ∈ s₃.outcomes ∧ e ∈ events := by
  refine ⟨_, _, _, rfl, rfl, rfl, by decide +kernel, ?_⟩
  let second : KernelEvent := { messageEvent (inboxMessage 2) .queue with id := "e2", seq := some 2 }
  exact ⟨second, [second], by decide +kernel, by decide +kernel, List.mem_singleton_self _⟩

/-- Settled the other way round they leave the cursor at the end. -/
theorem overlapping_consume_forward_twoCalls :
    ∃ s₁ s₂, run referenceStore.overlapStep emptyInbox (twoCalls ++ [.settle 1]) = some s₁ ∧
      run referenceStore.overlapStep s₁ [.settle 0] = some s₂ ∧
      s₁.cursors inboxKey = 1 ∧ s₂.cursors inboxKey = 2 ∧ ∀ key, s₁.cursors key ≤ s₂.cursors key := by
  refine ⟨_, _, rfl, rfl, by decide +kernel, by decide +kernel, ?_⟩
  refine (overlapping_consume_forward referenceStore _ referenceStore_conforms ⟨[], 1, by decide, by simp⟩ rfl
    (twoCalls ++ [.settle 1]) [.settle 0] _ _ ?_ ?_).1
  · exact Trace.of_run (p := fun _ => notOvertaken) (fun _ _ _ => notOvertaken_sound) (by decide +kernel) rfl
  · exact Trace.of_run (p := fun _ => notOvertaken) (fun _ _ _ => notOvertaken_sound) (by decide +kernel) rfl

end AgentComm
end AgentCore
