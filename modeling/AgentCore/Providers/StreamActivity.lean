/-
# Events and activity of one stream

`stream_events_with_activity` of `providers/_stream_activity.py` passes on the
events of an SDK stream and `None` for bytes that lead to no event. A reader task
puts the events into a queue of one place, the transport reports bytes, callbacks
on the event loop put the `None`s in, and the generator takes from the queue. A
state machine with an event for each of them gives every interleaving. Where the
transport cannot be observed the generator iterates the stream itself.

What the SDK stream has yielded, what the consumer was given, and whether it has
taken from the queue since bytes last arrived are kept beside the state.

Key definitions: `Mux`, `step`, `LosesNothing`.
Key theorem: `loses_nothing`.
-/
import AgentCore.Lib.Runs
import Mathlib.Data.List.ReduceOption

namespace AgentCore
namespace Providers
namespace Activity

/-- What is put into the queue. -/
inductive Item (E : Type)
  | activity
  | event (e : E) (hadBytes : Bool)
  | endOfStream
  deriving DecidableEq, Repr

/-- The task of `read_events`: in its `async for`, held up by a full queue with an
event or at the end, over, or cancelled. -/
inductive Reader (E X : Type)
  | absent
  | iterating (eventEpoch : ℕ)
  | putting (e : E) (hadBytes : Bool) (eventEpoch : ℕ)
  | ending (error : Option X)
  | done (error : Option X)
  | cancelled
  deriving DecidableEq, Repr

/-- The generator: iterating the stream itself, before its first `yield`, at the
`yield` of a `None` or of an event, in `queue.get`, in `await reader`, closing the
stream, over, or given up by its consumer. -/
inductive Generator (X : Type)
  | passing
  | starting
  | resting
  | given (hadBytes : Bool)
  | waiting
  | joining
  | closing (error : Option X)
  | ended (error : Option X)
  | abandoned
  deriving DecidableEq, Repr

structure Mux (E X : Type) where
  queue : Option (Item E) := none
  bytesPending : Bool := false
  bytesEpoch : ℕ := 0
  /-- Callbacks of `flush_activity` that the event loop still has to run. -/
  scheduled : ℕ := 0
  outputReported : Bool := false
  reader : Reader E X
  generator : Generator X
  sdkEvents : List E := []
  /-- How the SDK stream ended. -/
  sdkEnd : Option (Option X) := none
  yielded : List (Option E) := []
  /-- An item was taken after the latest arrival of bytes. -/
  takenSince : Bool := true
  deriving DecidableEq, Repr

/-- What `stream.close()` comes to. -/
inductive CloseResult (X : Type)
  | closed
  | timedOut
  | raised (error : X)
  deriving DecidableEq, Repr

inductive Event (E X : Type)
  | bytes
  | flush
  | sdkEvent (e : E)
  /-- The SDK stream ends, or raises. -/
  | sdkStop (error : Option X)
  | sdkCancelled
  | put
  /-- The consumer asks for the next item. -/
  | next
  | markOutput
  | take
  | join
  | close (result : CloseResult X)
  | abandon
  | cancelReader
  deriving DecidableEq, Repr

section Model

variable {E X : Type}

/-- The start, where the transport can be observed or not. -/
def start (observable : Bool) : Mux E X :=
  if observable then { reader := .iterating 0, generator := .starting }
  else { reader := .absent, generator := .passing }

def onBytes (s : Mux E X) : Mux E X :=
  let s := { s with bytesEpoch := s.bytesEpoch + 1, takenSince := false }
  if s.bytesPending then s else { s with bytesPending := true, scheduled := s.scheduled + 1 }

/-- A callback runs; `put_nowait` does nothing where the queue is full. -/
def flushActivity (s : Mux E X) : Mux E X :=
  let s := { s with scheduled := s.scheduled - 1 }
  if s.bytesPending then { s with bytesPending := false, queue := s.queue.or (some .activity) } else s

def readEvent (s : Mux E X) (eventEpoch : ℕ) (e : E) : Mux E X :=
  let hadBytes := s.bytesEpoch != eventEpoch
  let s := { s with bytesPending := false, sdkEvents := s.sdkEvents ++ [e] }
  match s.queue with
  | none => { s with queue := some (.event e hadBytes), reader := .iterating s.bytesEpoch }
  | some _ => { s with reader := .putting e hadBytes s.bytesEpoch }

def readStop (s : Mux E X) (error : Option X) : Mux E X :=
  let s := { s with sdkEnd := some error }
  match s.queue with
  | none => { s with queue := some .endOfStream, reader := .done error }
  | some _ => { s with reader := .ending error }

def takeItem (s : Mux E X) (item : Item E) : Mux E X :=
  let s := { s with queue := none, takenSince := true }
  match item with
  | .activity => { s with yielded := s.yielded ++ [none], generator := .resting }
  | .event e hadBytes =>
    { s with outputReported := false, yielded := s.yielded ++ [some e], generator := .given hadBytes }
  | .endOfStream => { s with generator := .joining }

/-- The error after `stream.close()`, whose own error takes the place of any other. -/
def closeError (error : Option X) : CloseResult X → Option X
  | .raised x => some x
  | _ => error

def step (s : Mux E X) : Event E X → Option (Mux E X)
  | .bytes =>
    match s.reader with
    | .absent => none
    | _ => some (onBytes s)
  | .flush => if s.scheduled = 0 then none else some (flushActivity s)
  | .sdkEvent e =>
    match s.generator, s.reader with
    | .passing, _ => some { s with sdkEvents := s.sdkEvents ++ [e], yielded := s.yielded ++ [some e] }
    | _, .iterating eventEpoch => some (readEvent s eventEpoch e)
    | _, _ => none
  | .sdkStop error =>
    match s.generator, s.reader with
    | .passing, _ => some { s with sdkEnd := some error, generator := .ended error }
    | _, .iterating _ => some (readStop s error)
    | _, _ => none
  | .sdkCancelled =>
    -- an exception that puts no end into the queue
    match s.reader with
    | .iterating _ => some { s with reader := .cancelled }
    | _ => none
  | .put =>
    match s.queue, s.reader with
    | none, .putting e hadBytes eventEpoch =>
      some { s with queue := some (.event e hadBytes), reader := .iterating eventEpoch }
    | none, .ending error => some { s with queue := some .endOfStream, reader := .done error }
    | _, _ => none
  | .next =>
    match s.generator with
    | .starting => some { s with yielded := s.yielded ++ [none], generator := .resting }
    | .resting => some { s with generator := .waiting }
    | .given hadBytes =>
      if hadBytes && !s.outputReported then some { s with yielded := s.yielded ++ [none], generator := .resting }
      else some { s with generator := .waiting }
    | _ => none
  | .markOutput => some { s with outputReported := true }
  | .take =>
    match s.generator, s.queue with
    | .waiting, some item => some (takeItem s item)
    | _, _ => none
  | .join =>
    match s.generator, s.reader with
    | .joining, .done error => some { s with generator := .closing error }
    | _, _ => none
  | .close result =>
    match s.generator with
    | .closing error => some { s with generator := .ended (closeError error result) }
    | _ => none
  | .abandon =>
    match s.generator with
    | .closing _ | .ended _ => none
    | _ => some { s with generator := .abandoned }
  | .cancelReader =>
    match s.generator, s.reader with
    | .abandoned, .absent => none
    | .abandoned, .done _ => none
    | .abandoned, _ => some { s with reader := .cancelled }
    | _, _ => none

/-! ### What is promised -/

/-- The reader waits for a place in the queue. -/
def Reader.blocked : Reader E X → Bool
  | .putting _ _ _ | .ending _ => true
  | _ => false

structure LosesNothing (s : Mux E X) : Prop where
  /-- A consumer that runs to the end was given the events, and then the error. -/
  exact : ∀ error, s.generator = .ended error → s.yielded.reduceOption = s.sdkEvents ∧ s.sdkEnd = some error
  /-- No arrival of bytes is passed over. -/
  live : s.queue = none → s.reader.blocked = false → s.scheduled = 0 → s.takenSince = true

/-- `stream.close()` does not raise. -/
def ClosesQuietly (e : Event E X) : Prop := ∀ error, e ≠ .close (.raised error)

end Model

section Proofs

variable {E X : Type} {s s' : Mux E X} {e : Event E X}

/-- What an event does where it happens. -/
inductive Move (s : Mux E X) : Event E X → Mux E X → Prop
  | bytes (h : s.reader ≠ .absent) : Move s .bytes (onBytes s)
  | flush (h : s.scheduled ≠ 0) : Move s .flush (flushActivity s)
  | pass {e : E} (h : s.generator = .passing) :
      Move s (.sdkEvent e) { s with sdkEvents := s.sdkEvents ++ [e], yielded := s.yielded ++ [some e] }
  | read {e : E} {eventEpoch : ℕ} (h : s.reader = .iterating eventEpoch) :
      Move s (.sdkEvent e) (readEvent s eventEpoch e)
  | passStop {error : Option X} (h : s.generator = .passing) :
      Move s (.sdkStop error) { s with sdkEnd := some error, generator := .ended error }
  | readStop {error : Option X} {eventEpoch : ℕ} (h : s.reader = .iterating eventEpoch) :
      Move s (.sdkStop error) (readStop s error)
  | sdkCancelled {eventEpoch : ℕ} (h : s.reader = .iterating eventEpoch) :
      Move s .sdkCancelled { s with reader := .cancelled }
  | putEvent {e : E} {hadBytes : Bool} {eventEpoch : ℕ} (hq : s.queue = none)
      (h : s.reader = .putting e hadBytes eventEpoch) :
      Move s .put { s with queue := some (.event e hadBytes), reader := .iterating eventEpoch }
  | putEnd {error : Option X} (hq : s.queue = none) (h : s.reader = .ending error) :
      Move s .put { s with queue := some .endOfStream, reader := .done error }
  | yieldNone (h : s.generator = .starting ∨ ∃ hadBytes, s.generator = .given hadBytes) :
      Move s .next { s with yielded := s.yielded ++ [none], generator := .resting }
  | wait (h : s.generator = .resting ∨ ∃ hadBytes, s.generator = .given hadBytes) :
      Move s .next { s with generator := .waiting }
  | markOutput : Move s .markOutput { s with outputReported := true }
  | take {item : Item E} (h : s.generator = .waiting) (hq : s.queue = some item) : Move s .take (takeItem s item)
  | join {error : Option X} (hg : s.generator = .joining) (h : s.reader = .done error) :
      Move s .join { s with generator := .closing error }
  | close {error : Option X} {result : CloseResult X} (h : s.generator = .closing error) :
      Move s (.close result) { s with generator := .ended (closeError error result) }
  | abandon : Move s .abandon { s with generator := .abandoned }
  | cancelReader (hg : s.generator = .abandoned) (habsent : s.reader ≠ .absent)
      (hdone : ∀ error, s.reader ≠ .done error) : Move s .cancelReader { s with reader := .cancelled }

theorem step_move (hstep : step s e = some s') : Move s e s' := by
  cases e with
  | bytes =>
    simp only [step] at hstep
    split at hstep
    · cases hstep
    · next h =>
      obtain rfl := Option.some.inj hstep
      exact .bytes h
  | flush =>
    obtain ⟨h, hs⟩ := Option.ite_none_left_eq_some.mp hstep
    obtain rfl := Option.some.inj hs
    exact .flush h
  | sdkEvent e =>
    simp only [step] at hstep
    split at hstep
    · next h =>
      obtain rfl := Option.some.inj hstep
      exact .pass h
    · next h _ =>
      obtain rfl := Option.some.inj hstep
      exact .read h
    · cases hstep
  | sdkStop error =>
    simp only [step] at hstep
    split at hstep
    · next h =>
      obtain rfl := Option.some.inj hstep
      exact .passStop h
    · next h _ =>
      obtain rfl := Option.some.inj hstep
      exact .readStop h
    · cases hstep
  | sdkCancelled =>
    simp only [step] at hstep
    split at hstep
    · next h =>
      obtain rfl := Option.some.inj hstep
      exact .sdkCancelled h
    · cases hstep
  | put =>
    simp only [step] at hstep
    split at hstep
    · next hq h =>
      obtain rfl := Option.some.inj hstep
      exact .putEvent hq h
    · next hq h =>
      obtain rfl := Option.some.inj hstep
      exact .putEnd hq h
    · cases hstep
  | next =>
    simp only [step] at hstep
    split at hstep
    · next h =>
      obtain rfl := Option.some.inj hstep
      exact .yieldNone (.inl h)
    · next h =>
      obtain rfl := Option.some.inj hstep
      exact .wait (.inl h)
    · next hadBytes h =>
      split at hstep
      · obtain rfl := Option.some.inj hstep
        exact .yieldNone (.inr ⟨hadBytes, h⟩)
      · obtain rfl := Option.some.inj hstep
        exact .wait (.inr ⟨hadBytes, h⟩)
    · cases hstep
  | markOutput =>
    obtain rfl := Option.some.inj hstep
    exact .markOutput
  | take =>
    simp only [step] at hstep
    split at hstep
    · next h hq =>
      obtain rfl := Option.some.inj hstep
      exact .take h hq
    · cases hstep
  | join =>
    simp only [step] at hstep
    split at hstep
    · next hg h =>
      obtain rfl := Option.some.inj hstep
      exact .join hg h
    · cases hstep
  | close result =>
    simp only [step] at hstep
    split at hstep
    · next h =>
      obtain rfl := Option.some.inj hstep
      exact .close h
    · cases hstep
  | abandon =>
    simp only [step] at hstep
    split at hstep
    · cases hstep
    · cases hstep
    · obtain rfl := Option.some.inj hstep
      exact .abandon
  | cancelReader =>
    simp only [step] at hstep
    split at hstep
    · cases hstep
    · cases hstep
    · next hg habsent hdone =>
      obtain rfl := Option.some.inj hstep
      exact .cancelReader hg habsent hdone
    · cases hstep

/-! ### Activity -/

/-- Bytes the consumer has not taken an item after are in the queue, or wait for a
callback. -/
def Lively (s : Mux E X) : Prop :=
  (s.takenSince = true ∨ s.queue ≠ none ∨ s.bytesPending = true) ∧ (s.bytesPending = true → s.scheduled ≠ 0)

theorem onBytes_lively (h : Lively s) : Lively (onBytes s) := by
  unfold onBytes
  dsimp only
  split
  · next hp => exact ⟨.inr (.inr hp), h.2⟩
  · exact ⟨.inr (.inr rfl), fun _ => Nat.succ_ne_zero _⟩

theorem flushActivity_lively (h : Lively s) : Lively (flushActivity s) := by
  unfold flushActivity
  dsimp only
  split
  · refine ⟨.inr (.inl ?_), fun hp => by cases hp⟩
    cases s.queue <;> simp
  · next hp => exact ⟨h.1, fun hp' => absurd hp' hp⟩

theorem readEvent_lively (eventEpoch : ℕ) (e : E) : Lively (readEvent s eventEpoch e) := by
  unfold readEvent
  dsimp only
  split
  · exact ⟨.inr (.inl (Option.some_ne_none _)), fun hp => by cases hp⟩
  · next hq =>
    refine ⟨.inr (.inl ?_), fun hp => by cases hp⟩
    rw [hq]
    exact Option.some_ne_none _

theorem readStop_lively (h : Lively s) (error : Option X) : Lively (readStop s error) := by
  unfold readStop
  dsimp only
  split
  · exact ⟨.inr (.inl (Option.some_ne_none _)), h.2⟩
  · exact h

theorem takeItem_lively (h : Lively s) (item : Item E) : Lively (takeItem s item) := by
  unfold takeItem
  cases item <;> exact ⟨.inl rfl, h.2⟩

theorem Move.lively (hmove : Move s e s') (h : Lively s) : Lively s' := by
  cases hmove with
  | bytes => exact onBytes_lively h
  | flush => exact flushActivity_lively h
  | read => exact readEvent_lively _ _
  | readStop => exact readStop_lively h _
  | putEvent => exact ⟨.inr (.inl (Option.some_ne_none _)), h.2⟩
  | putEnd => exact ⟨.inr (.inl (Option.some_ne_none _)), h.2⟩
  | take => exact takeItem_lively h _
  | pass | passStop | sdkCancelled | yieldNone | wait | markOutput | join | close | abandon | cancelReader => exact h

/-! ### Events -/

/-- The events of an item. -/
def inQueue : Option (Item E) → List E
  | some (.event e _) => [e]
  | _ => []

/-- The event the reader holds. -/
def Reader.held : Reader E X → List E
  | .putting e _ _ => [e]
  | _ => []

/-- The reader adds nothing any more. -/
def Reader.stopped : Reader E X → Bool
  | .absent | .done _ => true
  | _ => false

/-- Every event of the SDK stream is with the consumer, in the queue or with the
reader, in that order, and the end comes after all of them. -/
structure Ordered (s : Mux E X) : Prop where
  conserved : s.generator ≠ .abandoned → s.sdkEvents = s.yielded.reduceOption ++ inQueue s.queue ++ s.reader.held
  ending : ∀ error, s.reader = .ending error ∨ s.reader = .done error → s.sdkEnd = some error
  queued : s.queue = some .endOfStream → ∃ error, s.reader = .done error
  absent : s.reader = .absent → s.queue = none ∧ s.bytesPending = false
  passing : s.generator = .passing → s.reader = .absent
  joining : s.generator = .joining → (∃ error, s.reader = .done error) ∧ inQueue s.queue = []
  finished : ∀ error, s.generator = .closing error ∨ s.generator = .ended error →
    s.sdkEnd = some error ∧ s.reader.stopped = true ∧ inQueue s.queue = []

theorem start_ordered (observable : Bool) : Ordered (start observable : Mux E X) := by
  cases observable with
  | false =>
    refine ⟨fun _ => rfl, fun error h => ?_, nofun, fun _ => ⟨rfl, rfl⟩, fun _ => rfl, nofun, fun error h => ?_⟩
    · rcases h with h | h <;> cases h
    · rcases h with h | h <;> cases h
  | true =>
    refine ⟨fun _ => rfl, fun error h => ?_, nofun, nofun, nofun, nofun, fun error h => ?_⟩
    · rcases h with h | h <;> cases h
    · rcases h with h | h <;> cases h

/-- While the reader is at work the generator is neither past the end nor without
it. -/
theorem Ordered.reading (h : Ordered s) (hstop : s.reader.stopped = false) :
    s.generator ≠ .passing ∧ s.generator ≠ .joining ∧ (∀ error, s.generator ≠ .closing error) ∧
      (∀ error, s.generator ≠ .ended error) ∧ s.queue ≠ some .endOfStream := by
  refine ⟨fun hg => ?_, fun hg => ?_, fun error hg => ?_, fun error hg => ?_, fun hq => ?_⟩
  · rw [h.passing hg] at hstop
    cases hstop
  · obtain ⟨⟨error, hr⟩, -⟩ := h.joining hg
    rw [hr] at hstop
    cases hstop
  · obtain ⟨-, hs, -⟩ := h.finished error (.inl hg)
    rw [hs] at hstop
    cases hstop
  · obtain ⟨-, hs, -⟩ := h.finished error (.inr hg)
    rw [hs] at hstop
    cases hstop
  · obtain ⟨error, hr⟩ := h.queued hq
    rw [hr] at hstop
    cases hstop

/-- The reader goes from one point of its work to another, or stops. -/
theorem Ordered.readerMoves (h : Ordered s) (hstop : s.reader.stopped = false) (hgen : s'.generator = s.generator)
    (hcons : s.generator ≠ .abandoned → s'.sdkEvents = s'.yielded.reduceOption ++ inQueue s'.queue ++ s'.reader.held)
    (hending : ∀ error, s'.reader = .ending error ∨ s'.reader = .done error → s'.sdkEnd = some error)
    (hqueued : s'.queue = some .endOfStream → ∃ error, s'.reader = .done error) (habsent : s'.reader ≠ .absent) :
    Ordered s' := by
  obtain ⟨hpass, hjoin, hclosing, hended, -⟩ := h.reading hstop
  refine ⟨?_, hending, hqueued, fun hr => absurd hr habsent, ?_, ?_, ?_⟩
  · rw [hgen]
    exact hcons
  · rw [hgen]
    exact fun hg => absurd hg hpass
  · rw [hgen]
    exact fun hg => absurd hg hjoin
  · rw [hgen]
    rintro error (hg | hg)
    · exact absurd hg (hclosing error)
    · exact absurd hg (hended error)

theorem inQueue_or_activity (q : Option (Item E)) : inQueue (q.or (some .activity)) = inQueue q := by
  cases q <;> rfl

theorem onBytes_ordered (h : Ordered s) (hr : s.reader ≠ .absent) : Ordered (onBytes s) := by
  unfold onBytes
  dsimp only
  split
  · exact { h with absent := fun hr' => absurd hr' hr }
  · exact { h with absent := fun hr' => absurd hr' hr }

theorem flushActivity_ordered (h : Ordered s) : Ordered (flushActivity s) := by
  unfold flushActivity
  dsimp only
  split
  · next hp =>
    have hq := inQueue_or_activity s.queue
    refine ⟨?_, h.ending, fun hend => h.queued ?_, fun hr => ?_, h.passing, ?_, ?_⟩
    · rw [hq]
      exact h.conserved
    · cases hqueue : s.queue with
      | none => simp [hqueue] at hend
      | some item => simpa [hqueue] using hend
    · rw [(h.absent hr).2] at hp
      cases hp
    · rw [hq]
      exact h.joining
    · rw [hq]
      exact h.finished
  · exact { h with }

theorem readEvent_ordered (h : Ordered s) {eventEpoch : ℕ} (hr : s.reader = .iterating eventEpoch) (e : E) :
    Ordered (readEvent s eventEpoch e) := by
  have hstop : s.reader.stopped = false := by rw [hr]; rfl
  have hcons : s.generator ≠ .abandoned → s.sdkEvents = s.yielded.reduceOption ++ inQueue s.queue := by
    intro hg
    rw [h.conserved hg, hr]
    exact List.append_nil _
  unfold readEvent
  dsimp only
  split
  · next hq =>
    refine h.readerMoves hstop rfl (fun hg => ?_) (fun error hd => ?_) (fun hend => ?_) nofun
    · dsimp only
      rw [hcons hg, hq]
      simp [inQueue, Reader.held]
    · rcases hd with hd | hd <;> cases hd
    · cases hend
  · next item hq =>
    refine h.readerMoves hstop rfl (fun hg => ?_) (fun error hd => ?_) (fun hend => ?_) nofun
    · dsimp only
      rw [hcons hg]
      rfl
    · rcases hd with hd | hd <;> cases hd
    · exact absurd hend (h.reading hstop).2.2.2.2

theorem readStop_ordered (h : Ordered s) {eventEpoch : ℕ} (hr : s.reader = .iterating eventEpoch) (error : Option X) :
    Ordered (readStop s error) := by
  have hstop : s.reader.stopped = false := by rw [hr]; rfl
  unfold readStop
  dsimp only
  split
  · next hq =>
    refine h.readerMoves hstop rfl (fun hg => ?_) (fun error' hd => ?_) (fun _ => ⟨error, rfl⟩) nofun
    · dsimp only
      rw [h.conserved hg, hr, hq]
      rfl
    · rcases hd with hd | hd
      · cases hd
      · rw [Reader.done.inj hd]
  · refine h.readerMoves hstop rfl (fun hg => ?_) (fun error' hd => ?_) (fun hend => ?_) nofun
    · dsimp only
      rw [h.conserved hg, hr]
      rfl
    · rcases hd with hd | hd
      · rw [Reader.ending.inj hd]
      · cases hd
    · exact absurd hend (h.reading hstop).2.2.2.2

theorem takeItem_ordered (h : Ordered s) (hg : s.generator = .waiting) {item : Item E} (hq : s.queue = some item) :
    Ordered (takeItem s item) := by
  have hcons := h.conserved (by rw [hg]; nofun)
  have habsent : s.reader ≠ .absent := by
    intro hr
    rw [(h.absent hr).1] at hq
    cases hq
  unfold takeItem
  cases item with
  | activity =>
    refine ⟨fun _ => ?_, h.ending, nofun, fun hr => absurd hr habsent, nofun, nofun, fun error hd => ?_⟩
    · rw [hq] at hcons
      simpa [inQueue, List.reduceOption_append] using hcons
    · rcases hd with hd | hd <;> cases hd
  | event e hadBytes =>
    refine ⟨fun _ => ?_, h.ending, nofun, fun hr => absurd hr habsent, nofun, nofun, fun error hd => ?_⟩
    · rw [hq] at hcons
      simpa [inQueue, List.reduceOption_append] using hcons
    · rcases hd with hd | hd <;> cases hd
  | endOfStream =>
    refine ⟨fun _ => ?_, h.ending, nofun, fun hr => absurd hr habsent, nofun, fun _ => ⟨h.queued hq, rfl⟩,
      fun error hd => ?_⟩
    · rw [hq] at hcons
      exact hcons
    · rcases hd with hd | hd <;> cases hd

/-- The generator goes on before the end. -/
theorem Ordered.generatorMoves (h : Ordered s) {g : Generator X} (ys : List (Option E))
    (hs : s.generator ≠ .abandoned) (hg : g = .resting ∨ g = .waiting) (hys : ys.reduceOption = s.yielded.reduceOption) :
    Ordered { s with yielded := ys, generator := g } := by
  refine { h with
    conserved := fun _ => ?_
    passing := fun hp => ?_
    joining := fun hj => ?_
    finished := fun error ho => ?_ }
  · dsimp only
    rw [hys]
    exact h.conserved hs
  · rcases hg with rfl | rfl <;> cases hp
  · rcases hg with rfl | rfl <;> cases hj
  · rcases hg with rfl | rfl <;> rcases ho with ho | ho <;> cases ho

theorem Move.ordered (hmove : Move s e s') (hquiet : ClosesQuietly e) (h : Ordered s) : Ordered s' := by
  cases hmove with
  | bytes hr => exact onBytes_ordered h hr
  | flush => exact flushActivity_ordered h
  | pass hg =>
    have hr := h.passing hg
    obtain ⟨hq, -⟩ := h.absent hr
    refine { h with conserved := fun hne => ?_ }
    dsimp only
    rw [h.conserved hne, hr, hq]
    simp [inQueue, Reader.held, List.reduceOption_append]
  | read hr => exact readEvent_ordered h hr _
  | @passStop error hg =>
    have hr := h.passing hg
    obtain ⟨hq, -⟩ := h.absent hr
    refine { h with
      conserved := fun _ => ?_
      ending := fun error' hd => ?_
      passing := nofun
      joining := nofun
      finished := ?_ }
    · exact h.conserved (by rw [hg]; nofun)
    · rw [hr] at hd
      rcases hd with hd | hd <;> cases hd
    · rintro error' (ho | ho)
      · cases ho
      · rw [Generator.ended.inj ho, hr, hq]
        exact ⟨rfl, rfl, rfl⟩
  | readStop hr => exact readStop_ordered h hr _
  | sdkCancelled hr =>
    have hstop : s.reader.stopped = false := by rw [hr]; rfl
    refine h.readerMoves hstop rfl (fun hg => ?_) (fun error hd => ?_) (fun hend => ?_) nofun
    · rw [h.conserved hg, hr]
      rfl
    · rcases hd with hd | hd <;> cases hd
    · exact absurd hend (h.reading hstop).2.2.2.2
  | putEvent hq hr =>
    have hstop : s.reader.stopped = false := by rw [hr]; rfl
    refine h.readerMoves hstop rfl (fun hg => ?_) (fun error hd => ?_) nofun nofun
    · dsimp only
      rw [h.conserved hg, hr, hq]
      simp [inQueue, Reader.held]
    · rcases hd with hd | hd <;> cases hd
  | @putEnd error hq hr =>
    have hstop : s.reader.stopped = false := by rw [hr]; rfl
    refine h.readerMoves hstop rfl (fun hg => ?_) (fun error' hd => ?_) (fun _ => ⟨error, rfl⟩) nofun
    · dsimp only
      rw [h.conserved hg, hr, hq]
      rfl
    · rcases hd with hd | hd
      · cases hd
      · rw [← Reader.done.inj hd]
        exact h.ending error (.inl hr)
  | yieldNone hg =>
    refine h.generatorMoves _ ?_ (.inl rfl) (by simp [List.reduceOption_append])
    rcases hg with hg | ⟨_, hg⟩ <;> rw [hg] <;> nofun
  | wait hg =>
    refine h.generatorMoves s.yielded ?_ (.inr rfl) rfl
    rcases hg with hg | ⟨_, hg⟩ <;> rw [hg] <;> nofun
  | markOutput => exact { h with }
  | take hg hq => exact takeItem_ordered h hg hq
  | @join error hg hr =>
    obtain ⟨-, hq⟩ := h.joining hg
    refine { h with conserved := fun _ => ?_, passing := nofun, joining := nofun, finished := ?_ }
    · exact h.conserved (by rw [hg]; nofun)
    · rintro error' (ho | ho)
      · rw [← Generator.closing.inj ho, hr]
        exact ⟨h.ending error (.inr hr), rfl, hq⟩
      · cases ho
  | @close error result hg =>
    have hresult : closeError error result = error := by
      cases result with
      | closed => rfl
      | timedOut => rfl
      | raised x => exact absurd rfl (hquiet x)
    refine { h with conserved := fun _ => ?_, passing := nofun, joining := nofun, finished := ?_ }
    · exact h.conserved (by rw [hg]; nofun)
    · rintro error' (ho | ho)
      · cases ho
      · rw [← Generator.ended.inj ho, hresult]
        exact h.finished error (.inl hg)
  | abandon =>
    refine { h with
      conserved := fun hne => absurd rfl hne
      passing := nofun
      joining := nofun
      finished := fun error ho => ?_ }
    rcases ho with ho | ho <;> cases ho
  | cancelReader hg habsent hdone =>
    refine ⟨fun hne => absurd hg hne, fun error hd => ?_, fun hq => ?_, nofun, fun hp => ?_, fun hj => ?_,
      fun error ho => ?_⟩
    · rcases hd with hd | hd <;> cases hd
    · obtain ⟨error, hr⟩ := h.queued hq
      exact absurd hr (hdone error)
    · cases hg.symm.trans hp
    · cases hg.symm.trans hj
    · rcases ho with ho | ho <;> cases hg.symm.trans ho

theorem Reader.held_stopped {r : Reader E X} (h : r.stopped = true) : r.held = [] := by
  cases r with
  | absent => rfl
  | done error => rfl
  | iterating eventEpoch => cases h
  | putting e hadBytes eventEpoch => cases h
  | ending error => cases h
  | cancelled => cases h

theorem start_lively (observable : Bool) : Lively (start observable : Mux E X) := by
  cases observable <;> exact ⟨.inl rfl, nofun⟩

/-- **Nothing is lost**, in every interleaving in which closing the stream raises
nothing: a consumer that runs to the end is given the events of the SDK stream in
order and then its error, and no arrival of bytes is passed over. -/
theorem loses_nothing {observable : Bool} {es : List (Event E X)}
    (h : Runs.Trace step (fun _ _ e => ClosesQuietly e) (start observable) es s) : LosesNothing s := by
  have hordered : Ordered s := h.invariant (I := fun _ s => Ordered s) (start_ordered observable)
    fun _ _ _ _ hi hq hstep => (step_move hstep).ordered hq hi
  have hlively : Lively s := h.invariant (I := fun _ s => Lively s) (start_lively observable)
    fun _ _ _ _ hi _ hstep => (step_move hstep).lively hi
  refine ⟨fun error hg => ?_, fun hq _ hsched => ?_⟩
  · obtain ⟨hend, hstop, hqueue⟩ := hordered.finished error (.inr hg)
    have hcons := hordered.conserved (by rw [hg]; nofun)
    rw [hqueue, Reader.held_stopped hstop, List.append_nil, List.append_nil] at hcons
    exact ⟨hcons.symm, hend⟩
  · rcases hlively.1 with htaken | hne | hpending
    · exact htaken
    · exact absurd hq hne
    · exact absurd hsched (hlively.2 hpending)

end Proofs

/-- A ping while the first event waits in the queue, a second event that finds it
full, an error, and a consumer that takes everything. -/
def pingedRun : List (Event String String) :=
  [.bytes, .sdkEvent "a", .flush, .bytes, .flush, .sdkEvent "b", .next, .next, .take, .put, .markOutput, .next,
    .take, .sdkStop (some "reset"), .next, .next, .take, .join, .close .timedOut]

def pingedEnd : Mux String String := (Runs.run step (start true) pingedRun).getD (start true)

theorem loses_nothing_pinged :
    Runs.Trace step (fun _ _ e => ClosesQuietly e) (start true) pingedRun pingedEnd ∧
      pingedEnd.generator = .ended (some "reset") ∧ pingedEnd.yielded.reduceOption = ["a", "b"] ∧
      LosesNothing pingedEnd := by
  have hquiet : ∀ (es : List (Event String String)) (s : Mux String String) (e : Event String String),
      (!(e matches .close (.raised _))) = true → ClosesQuietly e := by
    intro _ _ e h error heq
    rw [heq] at h
    cases h
  have htrace : Runs.Trace step (fun _ _ e => ClosesQuietly e) (start true) pingedRun pingedEnd :=
    Runs.Trace.of_run hquiet (by decide +kernel) rfl
  exact ⟨htrace, by decide +kernel, by decide +kernel, loses_nothing htrace⟩

/-- The SDK stream raises, and closing it raises something else. -/
def maskedRun : List (Event String String) :=
  [.sdkEvent "a", .next, .next, .take, .sdkStop (some "reset"), .next, .take, .join, .close (.raised "closed twice")]

/-- The consumer gets the error of closing the stream, and not the SDK's. -/
theorem close_masks_error :
    ∃ s, Runs.Trace step (fun _ _ _ => True) (start true) maskedRun s ∧ s.sdkEnd = some (some "reset") ∧
      s.generator = .ended (some "closed twice") ∧ ¬LosesNothing s := by
  refine ⟨(Runs.run step (start true) maskedRun).getD (start true), Runs.Trace.of_run_any rfl, by decide +kernel,
    by decide +kernel, fun h => ?_⟩
  obtain ⟨-, hend⟩ := h.exact (some "closed twice") (by decide +kernel)
  exact absurd hend (by decide +kernel)

end Activity
end Providers
end AgentCore
