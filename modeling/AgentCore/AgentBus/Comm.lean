/-
# Messages between agents

`AgentComm` of `agent_comm.py`. A message sent is appended to an event store,
which stamps it with an ordinal; `consume` asks the store for the messages of
an agent beyond a cursor, checks that they come in strictly ascending order and
moves the cursor to the last. There is one cursor for each agent, task and
message type asked for.

The store is the host's: `EventStore` is its interface, `Conforms` what
`_AgentCommEventStore` and `EventReader` ask of it, and `ReferenceStore` the
store of `test_agent_comm_store_contract.py`. A call of `consume` takes three
steps, so that sends and the calls for other keys happen in between: it looks
up its cursor, the store answers, the answer is checked. The hot queues and
the broadcast of `send` reach no reader of the store and are left out.

Key definitions: `eventOrdinal`, `settle`, `EventStore.step`,
`EventStore.Conforms`.
Key theorem: `consume_exactly_once`.
-/
import AgentCore.Lib.Cursor
import AgentCore.Lib.Runs
import Mathlib.Data.Int.Order.Basic
import Mathlib.Logic.Function.Basic

namespace AgentCore
namespace AgentComm

open Cursor Runs

inductive DeliveryMode
  | trigger
  | queue
  deriving DecidableEq, Repr

structure AgentMessage where
  id : String
  taskId : String
  fromAgent : String
  toAgent : String
  messageType : String
  content : List (String × String)
  parentId : Option String
  deriving DecidableEq, Repr

structure Payload where
  messageId : String
  fromAgent : String
  toAgent : String
  messageType : String
  content : List (String × String)
  parentId : Option String
  correlationId : Option String
  deliveryMode : DeliveryMode
  deriving DecidableEq, Repr

structure KernelEvent where
  id : String
  seq : Option ℤ
  taskId : String
  eventType : String
  payload : Payload
  fromAgent : Option String
  toAgent : Option String
  messageType : Option String
  correlationId : Option String
  deriving DecidableEq, Repr

/-! ### Ordinals -/

/-- `EventStoreContractError` with the id it quotes, the `ValueError` of `int`
for a number beyond its digit limit, and the `RuntimeError` of a misordered
batch. -/
inductive CommError
  | contract (rawId : String)
  | digits
  | misordered
  deriving DecidableEq, Repr

/-- The zeros of the decimal digits of Unicode; each has its nine successors
behind it. -/
def decimalZeros : List ℕ :=
  [0x30, 0x660, 0x6f0, 0x7c0, 0x966, 0x9e6, 0xa66, 0xae6, 0xb66, 0xbe6, 0xc66, 0xce6, 0xd66, 0xde6, 0xe50, 0xed0,
    0xf20, 0x1040, 0x1090, 0x17e0, 0x1810, 0x1946, 0x19d0, 0x1a80, 0x1a90, 0x1b50, 0x1bb0, 0x1c40, 0x1c50, 0xa620,
    0xa8d0, 0xa900, 0xa9d0, 0xa9f0, 0xaa50, 0xabf0, 0xff10, 0x104a0, 0x10d30, 0x11066, 0x110f0, 0x11136, 0x111d0,
    0x112f0, 0x11450, 0x114d0, 0x11650, 0x116c0, 0x11730, 0x118e0, 0x11950, 0x11c50, 0x11d50, 0x11da0, 0x11f50,
    0x16a60, 0x16ac0, 0x16b50, 0x1d7ce, 0x1d7d8, 0x1d7e2, 0x1d7ec, 0x1d7f6, 0x1e140, 0x1e2f0, 0x1e4f0, 0x1e950,
    0x1fbf0]

def decimalDigit (c : Char) : Option ℕ :=
  (decimalZeros.find? fun z => z ≤ c.toNat ∧ c.toNat < z + 10).map (c.toNat - ·)

/-- `str.isdecimal`. -/
def isDecimal (s : String) : Bool := s ≠ "" && s.toList.all fun c => (decimalDigit c).isSome

/-- `int` of a decimal text. -/
def parseInt (s : String) : Except CommError ℤ :=
  if 4300 < s.length then .error .digits
  else .ok (s.toList.foldl (fun n c => 10 * n + (decimalDigit c).getD 0) 0 : ℕ)

def eventOrdinal (e : KernelEvent) : Except CommError ℤ :=
  match e.seq with
  | some seq => .ok seq
  | none => if isDecimal e.id then parseInt e.id else .error (.contract e.id)

/-- The ordinal of an event that has one. -/
def ordinal (e : KernelEvent) : ℤ := (eventOrdinal e).toOption.getD 0

/-! ### Sending and consuming -/

/-- The event a message is logged as. -/
def messageEvent (msg : AgentMessage) (mode : DeliveryMode) : KernelEvent where
  id := ""
  seq := none
  taskId := msg.taskId
  eventType := "agent_message"
  payload := ⟨msg.id, msg.fromAgent, msg.toAgent, msg.messageType, msg.content, msg.parentId,
    msg.content.lookup "correlation_id", mode⟩
  fromAgent := some msg.fromAgent
  toAgent := some msg.toAgent
  messageType := some msg.messageType
  correlationId := msg.content.lookup "correlation_id"

/-- What a cursor belongs to. -/
structure Key where
  agentId : String
  taskId : Option String
  messageType : Option String
  deriving DecidableEq, Repr

/-- The message goes to the agent and is of the task and the type asked for. -/
def Key.selects (key : Key) (e : KernelEvent) : Bool :=
  e.toAgent == some key.agentId && key.taskId.all (· == e.taskId) &&
    key.messageType.all fun t => e.messageType == some t

/-- The event store of the host. -/
structure EventStore (S : Type) where
  append : S → KernelEvent → S × KernelEvent
  getEventsForAgent : S → (toAgent : String) → (afterId limit : ℤ) → (taskId messageType : Option String) →
    List KernelEvent

/-- Two neighbours that do not ascend. -/
def misordered (ids : List ℤ) : Bool := (ids.zip ids.tail).any fun p => p.2 ≤ p.1

/-- The end of `consume`: the answer of the store, checked, and the cursors. -/
def settle (cursors : Key → ℤ) (key : Key) (events : List KernelEvent) :
    Except CommError (List KernelEvent) × (Key → ℤ) :=
  if events = [] then (.ok events, cursors)
  else match events.mapM eventOrdinal with
    | .error e => (.error e, cursors)
    | .ok ids =>
      if misordered ids then (.error .misordered, cursors)
      else (.ok events, Function.update cursors key (ids.getLastD 0))

/-- A call of `consume` under way, with the answer of the store once it is in. -/
structure Call where
  afterId : ℤ
  limit : ℤ
  events : Option (List KernelEvent)
  deriving DecidableEq

/-- The store, the cursors and the calls under way; and what has been sent and
what the calls have come back with so far. -/
structure System (S : Type) where
  store : S
  cursors : Key → ℤ
  calls : Key → Option Call
  sent : List KernelEvent
  outcomes : List (Key × Except CommError (List KernelEvent))

/-- A new `AgentComm` over a store. -/
def System.fresh {S : Type} (store : S) : System S := ⟨store, fun _ => 0, fun _ => none, [], []⟩

inductive Event
  | send (msg : AgentMessage) (mode : DeliveryMode)
  | consume (key : Key) (limit : ℤ)
  | answer (key : Key)
  | answerFails (key : Key)
  | settle (key : Key)

/-- One step. Calls for one key do not overlap. -/
def EventStore.step {S : Type} (store : EventStore S) (s : System S) : Event → Option (System S)
  | .send msg mode =>
    let (s', persisted) := store.append s.store (messageEvent msg mode)
    some { s with store := s', sent := s.sent ++ [persisted] }
  | .consume key limit =>
    if (s.calls key).isNone then
      some { s with calls := Function.update s.calls key (some ⟨s.cursors key, limit, none⟩) }
    else none
  | .answer key =>
    match s.calls key with
    | some ⟨afterId, limit, none⟩ =>
      let events := store.getEventsForAgent s.store key.agentId afterId limit key.taskId key.messageType
      some { s with calls := Function.update s.calls key (some ⟨afterId, limit, some events⟩) }
    | _ => none
  | .answerFails key =>
    match s.calls key with
    | some ⟨_, _, none⟩ => some { s with calls := Function.update s.calls key none }
    | _ => none
  | .settle key =>
    match s.calls key with
    | some ⟨_, _, some events⟩ =>
      let (outcome, cursors) := AgentComm.settle s.cursors key events
      some { s with
        cursors := cursors, calls := Function.update s.calls key none, outcomes := s.outcomes ++ [(key, outcome)] }
    | _ => none

/-- What a call returned. -/
def delivered : Except CommError (List KernelEvent) → List KernelEvent
  | .ok events => events
  | .error _ => []

/-- What the calls for a key have returned, one after the other. -/
def System.returned {S : Type} (s : System S) (key : Key) : List KernelEvent :=
  (s.outcomes.filter (·.1 = key)).flatMap (delivered ·.2)

/-! ### What the store owes -/

/-- The contract of `_AgentCommEventStore`, with the events a state of the
store retains: an append retains the event and stamps it with an ordinal above
the others (all of them above zero, where every cursor starts), and a read
returns the messages asked for, beyond the cursor and in the order of their
ordinals, as far as it goes. -/
structure EventStore.Conforms {S : Type} (store : EventStore S) (retained : S → List KernelEvent) : Prop where
  append_retains : ∀ s e, retained (store.append s e).1 = retained s ++ [(store.append s e).2]
  append_stamps : ∀ s e, ∃ id seq, (store.append s e).2 = { e with id := id, seq := seq }
  append_ordinal : ∀ s e, ∃ n, eventOrdinal (store.append s e).2 = .ok n ∧ 0 < n ∧ ∀ e' ∈ retained s, ordinal e' < n
  reads : ∀ s (key : Key) afterId limit,
    store.getEventsForAgent s key.agentId afterId limit key.taskId key.messageType <+:
      beyond ordinal afterId ((retained s).filter key.selects)

/-! ### One step -/

theorem ordinal_of_ok {e : KernelEvent} {n : ℤ} (h : eventOrdinal e = .ok n) : ordinal e = n := by
  rw [ordinal, h]
  rfl

theorem mapM_eventOrdinal {events : List KernelEvent} (h : ∀ e ∈ events, eventOrdinal e = .ok (ordinal e)) :
    events.mapM eventOrdinal = .ok (events.map ordinal) := by
  induction events with
  | nil => rfl
  | cons e es ih =>
    rw [List.mapM_cons, h e List.mem_cons_self, ih fun x hx => h x (List.mem_cons_of_mem _ hx)]
    rfl

theorem not_misordered : ∀ {ids : List ℤ}, ids.Pairwise (· < ·) → misordered ids = false
  | [], _ => rfl
  | [_], _ => rfl
  | x :: y :: ids, h => by
    obtain ⟨hx, hrest⟩ := List.pairwise_cons.mp h
    have ih := not_misordered hrest
    have hxy := hx y List.mem_cons_self
    unfold misordered at ih ⊢
    simp only [List.tail_cons] at ih
    rw [List.tail_cons, List.zip_cons_cons, List.any_cons, ih, Bool.or_false, decide_eq_false_iff_not]
    omega

/-- A batch in order moves the cursor to its last ordinal. -/
theorem settle_ordered (cursors : Key → ℤ) (key : Key) {batch : List KernelEvent} {e : KernelEvent}
    (hok : ∀ x ∈ batch ++ [e], eventOrdinal x = .ok (ordinal x)) (hord : Ordered ordinal (batch ++ [e])) :
    settle cursors key (batch ++ [e]) = (.ok (batch ++ [e]), Function.update cursors key (ordinal e)) := by
  have hids : misordered ((batch ++ [e]).map ordinal) = false := not_misordered (List.pairwise_map.mpr hord)
  unfold settle
  rw [if_neg (by simp), mapM_eventOrdinal hok]
  dsimp only
  rw [hids, if_neg Bool.false_ne_true, List.map_append, List.map_singleton, List.getLastD_concat]

/-- A call that fails moves no cursor. -/
theorem settle_error {cursors : Key → ℤ} {key : Key} {events : List KernelEvent} {e : CommError}
    (h : (settle cursors key events).1 = .error e) : (settle cursors key events).2 = cursors := by
  unfold settle at h ⊢
  split
  · rfl
  · next hne =>
    rw [if_neg hne] at h
    split
    · rfl
    · next ids hids =>
      rw [hids] at h
      dsimp only at h
      split
      · rfl
      · next hm =>
        rw [if_neg hm] at h
        cases h

theorem settle_misordered {cursors : Key → ℤ} {key : Key} {events : List KernelEvent} {ids : List ℤ}
    (hids : events.mapM eventOrdinal = .ok ids) (hm : misordered ids = true) :
    settle cursors key events = (.error .misordered, cursors) := by
  have hne : events ≠ [] := by
    rintro rfl
    cases hids
    cases hm
  unfold settle
  rw [if_neg hne, hids]
  dsimp only
  rw [if_pos hm]

/-! ### Whole runs -/

section Runs

variable {S : Type} (retained : S → List KernelEvent)

/-- What holds between the events retained, the cursor of a key, the call
under way for it and what its calls have returned. -/
structure Reads (events : List KernelEvent) (key : Key) (cursor : ℤ) (call : Option Call)
    (returned : List KernelEvent) : Prop where
  returned_eq : returned = upTo ordinal cursor (events.filter key.selects)
  cursor_le : cursor = 0 ∨ ∃ e ∈ events, ordinal e = cursor
  call_after : ∀ c ∈ call, c.afterId = cursor
  call_events : ∀ c ∈ call, ∀ batch ∈ c.events, batch <+: beyond ordinal cursor (events.filter key.selects)

/-- The invariant: the store retains what was sent, in order, and every key has
read its messages up to its cursor. -/
structure Inv (s : System S) : Prop where
  sent_eq : retained s.store = s.sent
  ordered : Ordered ordinal s.sent
  ordinals : ∀ e ∈ s.sent, eventOrdinal e = .ok (ordinal e) ∧ 0 < ordinal e
  reads : ∀ key, Reads s.sent key (s.cursors key) (s.calls key) (s.returned key)

variable {retained}

/-- A new entry of the log leaves what a key has read. -/
theorem Reads.append {events : List KernelEvent} {key : Key} {cursor : ℤ} {call : Option Call}
    {returned : List KernelEvent} (h : Reads events key cursor call returned) {e : KernelEvent} (hpos : 0 < ordinal e)
    (hnew : ∀ e' ∈ events, ordinal e' < ordinal e) : Reads (events ++ [e]) key cursor call returned := by
  have hc : cursor < ordinal e := by
    rcases h.cursor_le with hc | ⟨e', he', hc⟩
    · rwa [hc]
    · exact hc ▸ hnew e' he'
  have hfilter : (events ++ [e]).filter key.selects = events.filter key.selects ++ [e].filter key.selects :=
    List.filter_append _ _
  constructor
  · rw [hfilter, h.returned_eq]
    by_cases hs : key.selects e = true
    · rw [List.filter_cons_of_pos hs, List.filter_nil, upTo_append hc]
    · rw [List.filter_cons_of_neg hs, List.filter_nil, List.append_nil]
  · rcases h.cursor_le with hc | ⟨e', he', hc⟩
    · exact .inl hc
    · exact .inr ⟨e', List.mem_append_left _ he', hc⟩
  · exact h.call_after
  · intro c hcall batch hbatch
    refine (h.call_events c hcall batch hbatch).trans ?_
    rw [hfilter, beyond, beyond, List.filter_append]
    exact List.prefix_append _ _

/-- A call that ends well returns what comes next. -/
theorem Reads.settle {events : List KernelEvent} {key : Key} {cursors : Key → ℤ} {call : Option Call}
    {returned batch : List KernelEvent} (h : Reads events key (cursors key) call returned)
    (hord : Ordered ordinal events) (hok : ∀ e ∈ events, eventOrdinal e = .ok (ordinal e))
    (hb : batch <+: beyond ordinal (cursors key) (events.filter key.selects)) :
    Reads events key ((AgentComm.settle cursors key batch).2 key) none
        (returned ++ delivered (AgentComm.settle cursors key batch).1) ∧
      ∀ key' ≠ key, (AgentComm.settle cursors key batch).2 key' = cursors key' := by
  have hmem : ∀ x ∈ batch, x ∈ events := fun x hx =>
    (List.mem_filter.mp (mem_beyond (hb.subset hx)).1).1
  have hbatch : Ordered ordinal batch := ((hord.filter _).filter _).of_initial hb
  rcases List.eq_nil_or_concat batch with rfl | ⟨front, e, rfl⟩
  · refine ⟨⟨?_, h.cursor_le, by simp, by simp⟩, fun _ _ => rfl⟩
    rw [AgentComm.settle, if_pos rfl, delivered, List.append_nil]
    exact h.returned_eq
  · rw [List.concat_eq_append] at *
    rw [settle_ordered cursors key (fun x hx => hok x (hmem x hx)) hbatch]
    dsimp only
    refine ⟨⟨?_, .inr ⟨e, hmem e (by simp), ?_⟩, by simp, by simp⟩, fun key' hne => Function.update_of_ne hne _ _⟩
    · rw [Function.update_self, upTo_last (hord.filter _) hb, delivered, h.returned_eq]
    · rw [Function.update_self]

theorem returned_append (s : System S) (key key' : Key) (outcome : Except CommError (List KernelEvent)) :
    (s.outcomes ++ [(key, outcome)]).filter (·.1 = key') =
      if key = key' then s.outcomes.filter (·.1 = key') ++ [(key, outcome)] else s.outcomes.filter (·.1 = key') := by
  rw [List.filter_append]
  split
  · next h => rw [List.filter_cons_of_pos (by simpa using h), List.filter_nil]
  · next h => rw [List.filter_cons_of_neg (by simpa using h), List.filter_nil, List.append_nil]

/-- **One step keeps the invariant.** -/
theorem Inv.step {store : EventStore S} (hstore : store.Conforms retained) {s s' : System S} {e : Event}
    (h : Inv retained s) (hs : store.step s e = some s') : Inv retained s' := by
  -- a step that only changes the call of one key, to one that is fine there
  have hcall : ∀ key call,
      (∀ c ∈ call, c.afterId = s.cursors key ∧
        ∀ batch ∈ c.events, batch <+: beyond ordinal (s.cursors key) (s.sent.filter key.selects)) →
      Inv retained { s with calls := Function.update s.calls key call } := by
    intro key call hc
    refine ⟨h.sent_eq, h.ordered, h.ordinals, fun key' => ?_⟩
    by_cases hk : key' = key
    · subst hk
      refine ⟨(h.reads key').returned_eq, (h.reads key').cursor_le, ?_, ?_⟩
      all_goals
        dsimp only
        rw [Function.update_self]
      · exact fun c hm => (hc c hm).1
      · exact fun c hm => (hc c hm).2
    · refine ⟨(h.reads key').returned_eq, (h.reads key').cursor_le, ?_, ?_⟩
      all_goals
        dsimp only
        rw [Function.update_of_ne hk]
      · exact (h.reads key').call_after
      · exact (h.reads key').call_events
  cases e with
  | send msg mode =>
    cases hs
    obtain ⟨n, hn, hpos, hnew⟩ := hstore.append_ordinal s.store (messageEvent msg mode)
    rw [h.sent_eq] at hnew
    rw [← ordinal_of_ok hn] at hpos hnew
    refine ⟨?_, h.ordered.append_singleton hnew, fun e' he' => ?_, fun key => (h.reads key).append hpos hnew⟩
    · rw [hstore.append_retains, h.sent_eq]
    · rcases List.mem_append.mp he' with he' | he'
      · exact h.ordinals e' he'
      · rw [List.mem_singleton.mp he']
        exact ⟨by rw [ordinal_of_ok hn, hn], hpos⟩
  | consume key limit =>
    simp only [EventStore.step] at hs
    split at hs
    · cases hs
      exact hcall key _ (by simp)
    · cases hs
  | answer key =>
    simp only [EventStore.step] at hs
    split at hs
    · next afterId limit hc =>
      cases hs
      have hafter : afterId = s.cursors key := (h.reads key).call_after _ hc
      refine hcall key _ fun c hm => ?_
      rw [← Option.some.inj hm]
      refine ⟨hafter, fun batch hbatch => ?_⟩
      rw [← Option.some.inj hbatch, ← h.sent_eq, ← hafter]
      exact hstore.reads s.store key afterId limit
    · cases hs
  | answerFails key =>
    simp only [EventStore.step] at hs
    split at hs
    · cases hs
      exact hcall key none (by simp)
    · cases hs
  | settle key =>
    simp only [EventStore.step] at hs
    split at hs
    · next afterId limit events hc =>
      cases hs
      have hb := (h.reads key).call_events _ hc events rfl
      obtain ⟨hread, hother⟩ := (h.reads key).settle h.ordered (fun e he => (h.ordinals e he).1) hb
      refine ⟨h.sent_eq, h.ordered, h.ordinals, fun key' => ?_⟩
      unfold System.returned
      dsimp only
      rw [returned_append]
      by_cases hk : key' = key
      · subst hk
        rw [Function.update_self, if_pos rfl, List.flatMap_append, List.flatMap_singleton]
        exact hread
      · rw [Function.update_of_ne hk, if_neg (Ne.symm hk), hother key' hk]
        exact h.reads key'
    · cases hs

theorem Inv.fresh {s₀ : S} (h : retained s₀ = []) : Inv retained (System.fresh s₀) :=
  ⟨h, List.Pairwise.nil, by simp [System.fresh], fun key => ⟨rfl, .inl rfl, by simp [System.fresh], by
    simp [System.fresh]⟩⟩

end Runs

/-- The event of a message sent, before the store stamps it. -/
def sentEvent : Event → Option KernelEvent
  | .send msg mode => some (messageEvent msg mode)
  | _ => none

def sentEvents (es : List Event) : List KernelEvent := es.filterMap sentEvent

/-- An event without the stamps of the store. -/
def KernelEvent.unstamped (e : KernelEvent) : KernelEvent := { e with id := "", seq := none }

theorem Inv.nodup {S : Type} {retained : S → List KernelEvent} {s : System S} (h : Inv retained s) : s.sent.Nodup :=
  h.ordered.imp fun hlt heq => absurd (congrArg ordinal heq) (ne_of_lt hlt)

theorem step_sent {S : Type} {store : EventStore S} {s s' : System S} {e : Event} (he : sentEvent e = none)
    (hs : store.step s e = some s') : s'.sent = s.sent := by
  cases e
  case send => cases he
  all_goals
    simp only [EventStore.step] at hs
    split at hs <;> cases hs
    rfl

/-- What the store retains of a run are its messages, in the order sent. -/
theorem sent_unstamped {S : Type} {retained : S → List KernelEvent} {store : EventStore S}
    (hstore : store.Conforms retained) {s₀ : S} {es : List Event} {s : System S}
    (ht : Trace store.step (fun _ _ _ => True) (System.fresh s₀) es s) :
    s.sent.map KernelEvent.unstamped = sentEvents es := by
  refine Trace.invariant (I := fun es s => s.sent.map KernelEvent.unstamped = sentEvents es) rfl ?_ ht
  intro es s e s' ih _ hs
  rw [sentEvents, List.filterMap_append, ← sentEvents, ← ih]
  cases he : sentEvent e with
  | none => rw [step_sent he hs, List.filterMap_cons_none he, List.filterMap_nil, List.append_nil]
  | some event =>
    cases e with
    | send msg mode =>
      cases hs
      obtain ⟨id, seq, hstamp⟩ := hstore.append_stamps s.store (messageEvent msg mode)
      rw [List.map_append, hstamp]
      rfl
    | consume | answer | answerFails | settle => cases he

/-- **Messages are consumed once and in order.** In every run over a store that
keeps its contract, what the calls for a key have returned is a beginning of
the messages sent to the key, in the order sent, and no message occurs twice.
Over any store at all, a call whose batch is out of order fails, and a call
that fails moves no cursor. -/
theorem consume_exactly_once :
    (∀ {S : Type} (store : EventStore S) (retained : S → List KernelEvent), store.Conforms retained →
      ∀ s₀, retained s₀ = [] → ∀ es s, Trace store.step (fun _ _ _ => True) (System.fresh s₀) es s →
        s.sent.map KernelEvent.unstamped = sentEvents es ∧ s.sent.Nodup ∧
          ∀ key, s.returned key <+: s.sent.filter key.selects) ∧
    (∀ {S : Type} (store : EventStore S) (s : System S) key call events, s.calls key = some call →
      call.events = some events → ∃ s' outcome, store.step s (.settle key) = some s' ∧
        s'.outcomes = s.outcomes ++ [(key, outcome)] ∧
        (∀ ids, events.mapM eventOrdinal = .ok ids → misordered ids = true → outcome = .error .misordered) ∧
        ∀ e, outcome = .error e → s'.cursors = s.cursors) := by
  constructor
  · intro S store retained hstore s₀ h0 es s ht
    have hinv : Inv retained s :=
      Trace.invariant (I := fun _ s => Inv retained s) (Inv.fresh h0) (fun _ _ _ _ h _ hs => h.step hstore hs) ht
    refine ⟨sent_unstamped hstore ht, hinv.nodup, fun key => ?_⟩
    rw [(hinv.reads key).returned_eq]
    exact upTo_initial (hinv.ordered.filter _) _
  · intro S store s key call events hcall hevents
    obtain ⟨afterId, limit, _⟩ := call
    subst hevents
    refine ⟨_, (settle s.cursors key events).1, by rw [EventStore.step, hcall], rfl, fun ids hids hm => ?_, fun e he => ?_⟩
    · rw [settle_misordered hids hm]
    · exact settle_error he

/-! ### The reference store -/

/-- `ReferenceStore`: the events, each stamped with the next number. -/
structure ReferenceStore where
  events : List KernelEvent
  nextSeq : ℤ
  nextSeq_pos : 0 < nextSeq
  stamped : ∀ e ∈ events, ∃ n, e.seq = some n ∧ n < nextSeq

/-- `found[:limit]`. -/
def sliceTo {α : Type} (limit : ℤ) (found : List α) : List α :=
  if 0 ≤ limit then found.take limit.toNat else found.take (found.length - (-limit).toNat)

/-- `append` of the store. -/
def ReferenceStore.append (s : ReferenceStore) (e : KernelEvent) : ReferenceStore × KernelEvent :=
  let stamped : KernelEvent := { e with id := "e" ++ toString s.nextSeq, seq := some s.nextSeq }
  (⟨s.events ++ [stamped], s.nextSeq + 1, by have := s.nextSeq_pos; omega, fun e' he' => by
    rcases List.mem_append.mp he' with he' | he'
    · obtain ⟨n, hn, hlt⟩ := s.stamped e' he'
      exact ⟨n, hn, by omega⟩
    · rw [List.mem_singleton.mp he']
      exact ⟨s.nextSeq, rfl, by omega⟩⟩, stamped)

def referenceStore : EventStore ReferenceStore where
  append := ReferenceStore.append
  getEventsForAgent s toAgent afterId limit taskId messageType :=
    sliceTo limit ((s.events.filter (Key.selects ⟨toAgent, taskId, messageType⟩)).filter fun e =>
      afterId < e.seq.getD 0)

theorem referenceStore_conforms : referenceStore.Conforms ReferenceStore.events where
  append_retains _ _ := rfl
  append_stamps _ _ := ⟨_, _, rfl⟩
  append_ordinal s e := by
    refine ⟨s.nextSeq, rfl, s.nextSeq_pos, fun e' he' => ?_⟩
    obtain ⟨n, hn, hlt⟩ := s.stamped e' he'
    rwa [ordinal, eventOrdinal, hn]
  reads s key afterId limit := by
    have hseq : (s.events.filter key.selects).filter (fun e => decide (afterId < e.seq.getD 0)) =
        beyond ordinal afterId (s.events.filter key.selects) := by
      refine List.filter_congr fun e he => ?_
      obtain ⟨n, hn, -⟩ := s.stamped e (List.mem_filter.mp he).1
      rw [ordinal, eventOrdinal, hn]
      rfl
    show sliceTo limit _ <+: _
    rw [hseq, sliceTo]
    split <;> exact List.take_prefix _ _

/-- Two messages for an agent and one for another, read one at a time. -/
def inboxRun : List Event :=
  let msg (agent : String) (n : ℕ) : AgentMessage := ⟨"m" ++ toString n, "t", "a", agent, "status", [], none⟩
  let key : Key := ⟨"b", some "t", none⟩
  [.send (msg "b" 1) .queue, .consume key 1, .send (msg "c" 2) .trigger, .send (msg "b" 3) .queue, .answer key,
    .settle key, .consume key 1, .answer key, .settle key]

theorem consume_exactly_once_inboxRun :
    ∃ s, run referenceStore.step (System.fresh ⟨[], 1, by decide, by simp⟩) inboxRun = some s ∧
      (s.returned ⟨"b", some "t", none⟩).map (·.payload.messageId) = ["m1", "m3"] ∧
      s.returned ⟨"b", some "t", none⟩ <+: s.sent.filter (Key.selects ⟨"b", some "t", none⟩) := by
  have hrun : (run referenceStore.step (System.fresh ⟨[], 1, by decide, by simp⟩) inboxRun).map
      (fun s => (s.returned ⟨"b", some "t", none⟩).map (·.payload.messageId)) = some ["m1", "m3"] := by
    decide +kernel
  obtain ⟨s, hs, hids⟩ := Option.map_eq_some_iff.mp hrun
  refine ⟨s, hs, hids, ?_⟩
  have ht : Trace referenceStore.step (fun _ _ _ => True) (System.fresh ⟨[], 1, by decide, by simp⟩) inboxRun s :=
    Trace.of_run (p := fun _ _ _ => true) (fun _ _ _ _ => trivial) (by decide +kernel) hs
  exact (consume_exactly_once.1 referenceStore _ referenceStore_conforms _ rfl inboxRun s ht).2.2 _

end AgentComm
end AgentCore
