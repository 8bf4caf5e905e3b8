/-
# A stream whose writes never wait

`NonBlockingStream` of `providers/nonblocking_stream.py`. Producers put their text on a
bounded queue, and a thread of its own writes it to the real stream, which may stall or
fail. What finds the queue full is dropped and counted, and the thread reports the drops
with the next batch.

Producers, the shutdown and the thread interleave freely: a producer may lie between the
full queue and the count, and the thread between any two of its calls. Everything that
was taken up to the sentinel is handed over in order, every drop is counted, and the thread
alone empties the queue or comes to the sentinel (`delivers`); what is written after a
shutdown stays on the queue. What was taken, offered and handed over is a ghost, as is the number of
calls that failed.

Key definitions: `Stage`, `Stream`, `step`, `Delivers`, `measure`.
Key theorem: `delivers`.
-/
import AgentCore.Lib.Runs
import Mathlib.Algebra.BigOperators.Group.List.Basic
import Mathlib.Algebra.GroupWithZero.Nat

namespace AgentCore.Providers.NonBlockingStream

/-- What lies on the queue: a text, or the sentinel. -/
abbrev Item := Option String

/-- The thread in its loop; `last` after the sentinel. -/
inductive Stage
  /-- Waiting for the first of a batch. -/
  | waiting
  | collecting (parts : List String)
  /-- At the head of `_write_parts`. -/
  | reporting (parts : List String) (last : Bool)
  /-- Writing the notice, if there is one, and then the batch. -/
  | sending (notice : Option ℕ) (parts : List String) (last : Bool)
  | flushing (last : Bool)
  | done
  deriving DecidableEq, Repr

/-- A call of the real stream. -/
inductive Call
  | notice (unreported : ℕ)
  | text (parts : List String)
  deriving DecidableEq, Repr

/-- The notice of drops. -/
def Call.output : Call → String
  | .notice unreported =>
    "\n[nonblocking-stream] pipe backpressure: " ++ "dropped " ++ toString unreported ++ " writes\n"
  | .text parts => String.join parts

structure Stream where
  queue : List Item := []
  droppedTotal : ℕ := 0
  droppedReported : ℕ := 0
  stage : Stage := .waiting
  /-- Producers that found the queue full and have not counted it. -/
  refused : ℕ := 0
  /-- What the real stream took. -/
  target : List Call := []
  offered : ℕ := 0
  taken : List Item := []
  handed : List (List String) := []
  failures : ℕ := 0
  deriving DecidableEq, Repr

inductive Event
  | write (s : String)
  | count
  | shutdown
  /-- A step of the thread; a call of the real stream succeeds or raises. -/
  | thread (succeeds : Bool)
  deriving DecidableEq, Repr

section Source

variable (maxQueue : ℕ)

/-- `put_nowait` finds no room; a queue of size zero has no bound. -/
def Stream.full (s : Stream) : Bool := 0 < maxQueue && maxQueue ≤ s.queue.length

def put (s : Stream) (item : Item) : Stream := { s with queue := s.queue ++ [item], taken := s.taken ++ [item] }

/-- `write`, up to the count of a drop. -/
def write (s : Stream) (text : String) : Stream :=
  if s.full maxQueue then { s with refused := s.refused + 1, offered := s.offered + 1 }
  else { put s (some text) with offered := s.offered + 1 }

def shutdown (s : Stream) : Stream := if s.full maxQueue then s else put s none

/-- The loop that batches what is already queued. -/
def collect (s : Stream) (parts : List String) : Stream :=
  if parts.length < 256 then
    match s.queue with
    | [] => { s with stage := .reporting parts false }
    | none :: queue => { s with queue := queue, stage := .reporting parts true }
    | some text :: queue => { s with queue := queue, stage := .collecting (parts ++ [text]) }
  else { s with stage := .reporting parts false }

/-- What has not been reported is, under the lock. -/
def report (s : Stream) (parts : List String) (last : Bool) : Stream :=
  let unreported := s.droppedTotal - s.droppedReported
  { s with
    droppedReported := s.droppedTotal
    stage := .sending (if unreported ≠ 0 then some unreported else none) parts last
    handed := s.handed ++ [parts] }

def Stage.afterBatch (last : Bool) : Stage := if last then .done else .waiting

/-- A call that raises ends the batch. -/
def Stream.fail (s : Stream) (last : Bool) : Stream :=
  { s with stage := .afterBatch last, failures := s.failures + 1 }

def thread (s : Stream) (succeeds : Bool) : Option Stream :=
  match s.stage with
  | .waiting =>
    match s.queue with
    | [] => none
    | none :: queue => some { s with queue := queue, stage := .done }
    | some text :: queue => some { s with queue := queue, stage := .collecting [text] }
  | .collecting parts => some (collect s parts)
  | .reporting parts last => some (report s parts last)
  | .sending (some unreported) parts last =>
    if succeeds then some { s with target := s.target ++ [.notice unreported], stage := .sending none parts last }
    else some (s.fail last)
  | .sending none parts last =>
    if succeeds then some { s with target := s.target ++ [.text parts], stage := .flushing last } else some (s.fail last)
  | .flushing last => if succeeds then some { s with stage := .afterBatch last } else some (s.fail last)
  | .done => none

def step (s : Stream) : Event → Option Stream
  | .write text => some (write maxQueue s text)
  | .count => if s.refused = 0 then none else some { s with refused := s.refused - 1, droppedTotal := s.droppedTotal + 1 }
  | .shutdown => some (shutdown maxQueue s)
  | .thread succeeds => thread s succeeds

end Source

/-! ### What the stream guarantees -/

/-- What the thread has taken off the queue and not yet handed over. -/
def Stage.inHand : Stage → List String
  | .collecting parts => parts
  | .reporting parts _ => parts
  | _ => []

/-- The batch that is being written. -/
def Stage.unsent : Stage → List (List String)
  | .sending _ parts _ => [parts]
  | _ => []

/-- The drops of a notice that is being written. -/
def Stage.pending : Stage → ℕ
  | .sending (some unreported) _ _ => unreported
  | _ => 0

/-- The sentinel has been taken off the queue. -/
def Stage.last : Stage → Bool
  | .waiting => false
  | .collecting _ => false
  | .reporting _ last => last
  | .sending _ _ last => last
  | .flushing last => last
  | .done => true

def Call.parts? : Call → Option (List String)
  | .notice _ => none
  | .text parts => some parts

def Call.drops : Call → ℕ
  | .notice unreported => unreported
  | .text _ => 0

/-- The queue is bounded, every write is taken or dropped, and what was taken up to the
sentinel is handed over in order and in bounded batches, while what was taken after it stays
on the queue; a stream that never fails gets all that is handed over, and the notices of all
the drops that were reported. -/
structure Delivers (maxQueue : ℕ) (s : Stream) : Prop where
  queue_le : 0 < maxQueue → s.queue.length ≤ maxQueue
  inHand_le : s.stage.inHand.length ≤ 256
  batches_le : ∀ parts ∈ s.handed, parts.length ≤ 256
  counted : s.offered = (s.taken.filter Option.isSome).length + s.droppedTotal + s.refused
  in_order : s.taken =
    (s.handed.flatten ++ s.stage.inHand).map some ++ (if s.stage.last then [none] else []) ++ s.queue
  reported_le : s.droppedReported ≤ s.droppedTotal
  sent : s.failures = 0 → s.target.filterMap Call.parts? ++ s.stage.unsent = s.handed
  notices : s.failures = 0 → (s.target.map Call.drops).sum + s.stage.pending = s.droppedReported

/-- The thread has nothing to do: it has come to the sentinel, or the queue is empty. -/
def Stream.idle (s : Stream) : Prop := s.stage = .done ∨ s.stage = .waiting ∧ s.queue = []

/-! ### The invariant -/

variable {maxQueue : ℕ} {s s' : Stream}

theorem delivers_start : Delivers maxQueue {} where
  queue_le _ := Nat.zero_le _
  inHand_le := Nat.zero_le _
  batches_le _ h := absurd h List.not_mem_nil
  counted := rfl
  in_order := rfl
  reported_le := Nat.le_refl _
  sent _ := rfl
  notices _ := rfl

theorem delivers_put (h : Delivers maxQueue s) (item : Item) (hroom : ¬ s.full maxQueue = true) :
    Delivers maxQueue { put s item with offered := s.offered + if item.isSome then 1 else 0 } :=
  { h with
    queue_le := fun hpos => by
      have hlt : s.queue.length < maxQueue := by
        unfold Stream.full at hroom
        rw [Bool.and_eq_true, decide_eq_true hpos, decide_eq_true_eq] at hroom
        exact Nat.lt_of_not_le fun hle => hroom ⟨rfl, hle⟩
      show (s.queue ++ [item]).length ≤ maxQueue
      rw [List.length_append]
      exact hlt
    counted := by
      have hcount := h.counted
      show s.offered + _ = ((s.taken ++ [item]).filter Option.isSome).length + s.droppedTotal + s.refused
      rw [List.filter_append, List.length_append]
      cases item with
      | none => exact hcount
      | some text =>
        show s.offered + 1 = (s.taken.filter Option.isSome).length + 1 + s.droppedTotal + s.refused
        omega
    in_order := by
      show s.taken ++ [item] =
        (s.handed.flatten ++ s.stage.inHand).map some ++ (if s.stage.last then [none] else []) ++ (s.queue ++ [item])
      rw [← List.append_assoc _ s.queue, ← h.in_order] }

theorem delivers_write (h : Delivers maxQueue s) (text : String) : Delivers maxQueue (write maxQueue s text) := by
  unfold write
  split
  · have hcount := h.counted
    refine { h with counted := ?_ }
    dsimp only
    omega
  · rename_i hroom
    exact delivers_put h (some text) hroom

theorem delivers_shutdown (h : Delivers maxQueue s) : Delivers maxQueue (shutdown maxQueue s) := by
  unfold shutdown
  split
  · exact h
  · rename_i hroom
    exact delivers_put h none hroom

/-- What comes off the queue is taken in hand. -/
theorem delivers_take (h : Delivers maxQueue s) {item : Item} {queue : List Item} (hqueue : s.queue = item :: queue)
    {stage : Stage} (hlast : s.stage.last = false) (hunsent : stage.unsent = s.stage.unsent)
    (hpending : stage.pending = s.stage.pending) (hle : stage.inHand.length ≤ 256)
    (hmoved : stage.inHand.map some ++ (if stage.last then [none] else []) = s.stage.inHand.map some ++ [item]) :
    Delivers maxQueue { s with queue := queue, stage := stage } :=
  { h with
    inHand_le := hle
    queue_le := fun hpos => by
      have hbound := h.queue_le hpos
      rw [hqueue, List.length_cons] at hbound
      exact Nat.le_of_succ_le hbound
    in_order := by
      have horder := h.in_order
      rw [hlast, hqueue] at horder
      dsimp only
      rw [horder, List.map_append, List.map_append, List.append_assoc _ (stage.inHand.map some), hmoved]
      simp
    sent := fun hzero => by rw [hunsent]; exact h.sent hzero
    notices := fun hzero => by rw [hpending]; exact h.notices hzero }

theorem delivers_collect (h : Delivers maxQueue s) {parts : List String} (hstage : s.stage = .collecting parts) :
    Delivers maxQueue (collect s parts) := by
  have hle := h.inHand_le
  rw [hstage] at hle
  have hbatch : Delivers maxQueue { s with stage := .reporting parts false } := by
    refine { h with inHand_le := hle, in_order := ?_, sent := ?_, notices := ?_ }
    · have horder := h.in_order
      rw [hstage] at horder
      exact horder
    · have hsent := h.sent
      rw [hstage] at hsent
      exact hsent
    · have hnotices := h.notices
      rw [hstage] at hnotices
      exact hnotices
  unfold collect
  split
  · rename_i hlt
    split
    · exact hbatch
    · rename_i queue hqueue
      refine delivers_take h hqueue ?_ ?_ ?_ hle ?_
      all_goals rw [hstage]; rfl
    · rename_i text queue hqueue
      refine delivers_take h hqueue ?_ ?_ ?_ ?_ ?_
      · rw [hstage]
        rfl
      · rw [hstage]
        rfl
      · rw [hstage]
        rfl
      · show (parts ++ [text]).length ≤ 256
        rw [List.length_append]
        exact hlt
      · rw [hstage]
        show (parts ++ [text]).map some ++ [] = parts.map some ++ [some text]
        rw [List.map_append, List.append_nil]
        rfl
  · exact hbatch

theorem delivers_report (h : Delivers maxQueue s) {parts : List String} {last : Bool}
    (hstage : s.stage = .reporting parts last) : Delivers maxQueue (report s parts last) := by
  have horder := h.in_order
  have hsent := h.sent
  have hnotices := h.notices
  have hle := h.inHand_le
  rw [hstage] at horder hsent hnotices hle
  refine { h with
    inHand_le := Nat.zero_le _, batches_le := fun batch hbatch => ?_, reported_le := Nat.le_refl _, in_order := ?_
    sent := fun hzero => ?_, notices := fun hzero => ?_ }
  · rcases List.mem_append.mp hbatch with hbatch | hbatch
    · exact h.batches_le batch hbatch
    · rw [List.mem_singleton.mp hbatch]
      exact hle
  · show s.taken = ((s.handed ++ [parts]).flatten ++ []).map some ++ _ ++ s.queue
    rw [List.flatten_append, List.flatten_singleton, List.append_nil]
    exact horder
  · show s.target.filterMap Call.parts? ++ [parts] = s.handed ++ [parts]
    rw [← hsent hzero]
    exact congrArg (· ++ [parts]) (List.append_nil _).symm
  · have hle := h.reported_le
    have hreported : (s.target.map Call.drops).sum = s.droppedReported := hnotices hzero
    unfold report
    dsimp only
    split
    · show (s.target.map Call.drops).sum + (s.droppedTotal - s.droppedReported) = s.droppedTotal
      omega
    · show (s.target.map Call.drops).sum + 0 = s.droppedTotal
      omega

/-- The end of a batch leaves nothing in hand. -/
theorem delivers_ended (h : Delivers maxQueue s) {last : Bool} (hlast : s.stage.last = last)
    (hhand : s.stage.inHand = []) (hdone : s.stage.unsent = [] ∧ s.stage.pending = 0 ∨ 0 < s.failures) :
    Delivers maxQueue { s with stage := .afterBatch last } := by
  have hstage : (Stage.afterBatch last).last = last ∧ (Stage.afterBatch last).inHand = [] ∧
      (Stage.afterBatch last).unsent = [] ∧ (Stage.afterBatch last).pending = 0 := by
    cases last <;> exact ⟨rfl, rfl, rfl, rfl⟩
  obtain ⟨hlast', hhand', hunsent, hpending⟩ := hstage
  refine { h with inHand_le := ?_, in_order := ?_, sent := fun hzero => ?_, notices := fun hzero => ?_ }
  · dsimp only
    rw [hhand']
    exact Nat.zero_le _
  · have horder := h.in_order
    rw [hlast, hhand] at horder
    dsimp only
    rw [hlast', hhand']
    exact horder
  · rcases hdone with ⟨hnone, -⟩ | hfailed
    · have hsent := h.sent hzero
      rw [hnone] at hsent
      dsimp only
      rw [hunsent]
      exact hsent
    · exact absurd hzero (Nat.ne_of_gt hfailed)
  · rcases hdone with ⟨-, hnone⟩ | hfailed
    · have hnotices := h.notices hzero
      rw [hnone] at hnotices
      dsimp only
      rw [hpending]
      exact hnotices
    · exact absurd hzero (Nat.ne_of_gt hfailed)

theorem delivers_fail (h : Delivers maxQueue s) {last : Bool} (hlast : s.stage.last = last) (hhand : s.stage.inHand = []) :
    Delivers maxQueue (s.fail last) := by
  have hfailed : Delivers maxQueue { s with failures := s.failures + 1 } := { h with sent := nofun, notices := nofun }
  exact delivers_ended hfailed hlast hhand (.inr (Nat.succ_pos _))

theorem delivers_thread (h : Delivers maxQueue s) {succeeds : Bool} (hstep : thread s succeeds = some s') :
    Delivers maxQueue s' := by
  unfold thread at hstep
  cases hstage : s.stage with
  | waiting =>
    rw [hstage] at hstep
    dsimp only at hstep
    split at hstep
    · cases hstep
    · rename_i queue hqueue
      cases hstep
      refine delivers_take h hqueue ?_ ?_ ?_ (Nat.zero_le _) ?_
      all_goals rw [hstage]; rfl
    · rename_i text queue hqueue
      cases hstep
      refine delivers_take h hqueue ?_ ?_ ?_ (Nat.le_of_ble_eq_true rfl) ?_
      all_goals rw [hstage]; rfl
  | collecting parts =>
    rw [hstage] at hstep
    cases hstep
    exact delivers_collect h hstage
  | reporting parts last =>
    rw [hstage] at hstep
    cases hstep
    exact delivers_report h hstage
  | sending notice parts last =>
    have horder := h.in_order
    have hsent := h.sent
    have hnotices := h.notices
    have hlast : s.stage.last = last := by rw [hstage]; rfl
    have hfail := delivers_fail h hlast (by rw [hstage]; rfl)
    rw [hstage] at hstep horder hsent hnotices
    cases notice with
    | some unreported =>
      dsimp only at hstep
      split at hstep
      · cases hstep
        refine { h with inHand_le := Nat.zero_le _, in_order := horder, sent := fun hzero => ?_, notices := fun hzero => ?_ }
        · show (s.target ++ [Call.notice unreported]).filterMap Call.parts? ++ [parts] = s.handed
          rw [List.filterMap_append, ← hsent hzero]
          exact congrArg (· ++ [parts]) (List.append_nil _)
        · show ((s.target ++ [Call.notice unreported]).map Call.drops).sum + 0 = s.droppedReported
          rw [List.map_append, List.sum_append, ← hnotices hzero]
          rfl
      · cases hstep
        exact hfail
    | none =>
      dsimp only at hstep
      split at hstep
      · cases hstep
        refine { h with inHand_le := Nat.zero_le _, in_order := horder, sent := fun hzero => ?_, notices := fun hzero => ?_ }
        · show (s.target ++ [Call.text parts]).filterMap Call.parts? ++ [] = s.handed
          rw [List.filterMap_append, List.append_nil, ← hsent hzero]
          rfl
        · show ((s.target ++ [Call.text parts]).map Call.drops).sum + 0 = s.droppedReported
          rw [List.map_append, List.sum_append, ← hnotices hzero]
          rfl
      · cases hstep
        exact hfail
  | flushing last =>
    rw [hstage] at hstep
    dsimp only at hstep
    have hlast : s.stage.last = last := by rw [hstage]; rfl
    have hhand : s.stage.inHand = [] := by rw [hstage]; rfl
    split at hstep
    · cases hstep
      refine delivers_ended h hlast hhand (.inl ?_)
      rw [hstage]
      exact ⟨rfl, rfl⟩
    · cases hstep
      exact delivers_fail h hlast hhand
  | done =>
    rw [hstage] at hstep
    cases hstep

theorem delivers_step (h : Delivers maxQueue s) {e : Event} (hstep : step maxQueue s e = some s') :
    Delivers maxQueue s' := by
  cases e with
  | write text =>
    cases hstep
    exact delivers_write h text
  | count =>
    obtain ⟨hsome, heq⟩ := Option.ite_none_left_eq_some.mp hstep
    cases heq
    have hcount := h.counted
    have hle := h.reported_le
    refine { h with counted := ?_, reported_le := Nat.le_succ_of_le hle }
    dsimp only
    omega
  | shutdown =>
    cases hstep
    exact delivers_shutdown h
  | thread succeeds => exact delivers_thread h hstep

/-! ### The thread alone -/

/-- The steps that the thread still has to make. -/
def Stage.weight : Stage → ℕ
  | .waiting => 0
  | .collecting _ => 5
  | .reporting _ _ => 4
  | .sending (some _) _ _ => 3
  | .sending none _ _ => 2
  | .flushing _ => 1
  | .done => 0

def measure (s : Stream) : ℕ := 6 * s.queue.length + s.stage.weight

theorem weight_afterBatch (last : Bool) : (Stage.afterBatch last).weight = 0 := by
  cases last <;> rfl

/-- A thread that has something to do does some of it. -/
theorem thread_decreases (hidle : ¬ s.idle) : ∃ s', thread s true = some s' ∧ measure s' < measure s := by
  have hcollect : ∀ parts, s.stage = .collecting parts → measure (collect s parts) < measure s := by
    intro parts hstage
    unfold collect measure
    rw [hstage]
    split
    · split
      · exact Nat.add_lt_add_left (Nat.lt_succ_self 4) _
      · rename_i queue hqueue
        simp only [hqueue, List.length_cons, Stage.weight]
        omega
      · rename_i text queue hqueue
        simp only [hqueue, List.length_cons, Stage.weight]
        omega
    · exact Nat.add_lt_add_left (Nat.lt_succ_self 4) _
  unfold thread
  cases hstage : s.stage with
  | waiting =>
    cases hqueue : s.queue with
    | nil => exact absurd (.inr ⟨hstage, hqueue⟩) hidle
    | cons item queue =>
      have hlt : ∀ n ≤ 5, 6 * queue.length + n < measure s := by
        intro n hn
        unfold measure
        rw [hstage, hqueue, List.length_cons, Stage.weight]
        omega
      cases item with
      | none => exact ⟨_, rfl, hlt 0 (Nat.zero_le _)⟩
      | some text => exact ⟨_, rfl, hlt 5 (Nat.le_refl _)⟩
  | collecting parts => exact ⟨_, rfl, hcollect parts hstage⟩
  | reporting parts last =>
    refine ⟨_, rfl, ?_⟩
    unfold measure report
    rw [hstage]
    refine Nat.add_lt_add_left ?_ _
    dsimp only
    split
    · exact Nat.lt_succ_self 3
    · exact Nat.lt_of_succ_lt (Nat.lt_succ_self 3)
  | sending notice parts last =>
    cases notice with
    | some unreported =>
      refine ⟨_, rfl, ?_⟩
      unfold measure
      rw [hstage]
      exact Nat.add_lt_add_left (Nat.lt_succ_self 2) _
    | none =>
      refine ⟨_, rfl, ?_⟩
      unfold measure
      rw [hstage]
      exact Nat.add_lt_add_left (Nat.lt_succ_self 1) _
  | flushing last =>
    refine ⟨_, rfl, ?_⟩
    unfold measure
    rw [hstage]
    refine Nat.add_lt_add_left ?_ _
    dsimp only
    rw [weight_afterBatch]
    exact Nat.zero_lt_one
  | done => exact absurd (.inl hstage) hidle

/-- By induction on the measure. -/
theorem drains (maxQueue : ℕ) : ∀ (n : ℕ) (s : Stream), measure s ≤ n →
    ∃ k ≤ n, ∃ s', Runs.run (step maxQueue) s (List.replicate k (.thread true)) = some s' ∧ s'.idle
  | 0, s, hle => by
    refine ⟨0, Nat.le_refl _, s, rfl, ?_⟩
    by_contra hidle
    obtain ⟨s', -, hlt⟩ := thread_decreases hidle
    omega
  | n + 1, s, hle => by
    by_cases hidle : s.idle
    · exact ⟨0, Nat.zero_le _, s, rfl, hidle⟩
    · obtain ⟨s', hstep, hlt⟩ := thread_decreases hidle
      obtain ⟨k, hk, s'', hrun, hidle'⟩ := drains maxQueue n s' (by omega)
      refine ⟨k + 1, Nat.succ_le_succ hk, s'', ?_, hidle'⟩
      rw [List.replicate_succ, Runs.run, step, hstep]
      exact hrun

/-- **The stream in every run**, and the thread has nothing left to do after six steps a
text once the producers pause and the real stream takes what it gets. -/
theorem delivers {es : List Event} (h : Runs.Trace (step maxQueue) (fun _ _ _ => True) {} es s) :
    Delivers maxQueue s ∧ ∃ k ≤ 6 * s.queue.length + 5, ∃ s',
      Runs.run (step maxQueue) s (List.replicate k (.thread true)) = some s' ∧ s'.idle ∧ Delivers maxQueue s' := by
  have hinv := h.invariant (I := fun _ s => Delivers maxQueue s) delivers_start
    fun _ _ _ _ hI _ hstep => delivers_step hI hstep
  have hweight : s.stage.weight ≤ 5 := by
    cases s.stage with
    | sending notice parts last => cases notice <;> exact Nat.le_of_ble_eq_true rfl
    | _ => exact Nat.le_of_ble_eq_true rfl
  obtain ⟨k, hk, s', hrun, hidle⟩ := drains maxQueue (measure s) s (Nat.le_refl _)
  refine ⟨hinv, k, Nat.le_trans hk (Nat.add_le_add_left hweight _), s', hrun, hidle, ?_⟩
  exact (Runs.Trace.of_run_any hrun).invariant (I := fun _ s => Delivers maxQueue s) hinv
    fun _ _ _ _ hI _ hstep => delivers_step hI hstep

/-- A queue of two that overflows while the thread is in a call. -/
def stalledRun : List Event :=
  [.write "a", .thread true, .thread true, .write "b", .write "c", .write "d", .thread true, .count, .thread true,
    .thread true, .thread true, .thread true, .shutdown]

/-- The drop was counted after the first batch was on its way, so it comes with the second. -/
theorem delivers_stalled : ∃ s, Runs.run (step 2) {} stalledRun = some s ∧
    s.droppedTotal = 1 ∧ s.target.map Call.output = ["a"] ∧ s.stage = .collecting ["b", "c"] ∧
    Delivers 2 s ∧ ∃ k ≤ 6 * s.queue.length + 5, ∃ s',
      Runs.run (step 2) s (List.replicate k (.thread true)) = some s' ∧ s'.idle ∧ Delivers 2 s' := by
  have hrun : (Runs.run (step 2) {} stalledRun).map (fun s => (s.droppedTotal, s.target.map Call.output, s.stage)) =
      some (1, ["a"], .collecting ["b", "c"]) := by
    decide +kernel
  obtain ⟨s, hs, heq⟩ := Option.map_eq_some_iff.mp hrun
  simp only [Prod.mk.injEq] at heq
  exact ⟨s, hs, heq.1, heq.2.1, heq.2.2, delivers (Runs.Trace.of_run_any hs)⟩

end AgentCore.Providers.NonBlockingStream
