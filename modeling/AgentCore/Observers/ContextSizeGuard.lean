/-
# Requests that grow too large

`ContextSizeGuard` of `components/observers/context_size_guard.py` looks at the tokens of each
request. One over the limit stops the loop, or has it compact its history first: guard and loop
talk by two entries of the loop's metadata, the wish for a compaction, which the next turn end
that gets that far takes away and grants (`handleTurnEnd`), and the number of compactions so
far. A turn may end without getting there, so the guard asks twice at most. A loop that starts
has metadata of its own, and the guard begins anew.

The log of a loop has the responses and the turn ends, the last one first. From the log alone it
is clear what the guard should answer (`due`) and which turn ends compact (`requested`).

Key definitions: `step`, `since`, `due`, `requested`.
Key theorem: `oversized_answered`.
-/
import AgentCore.Lib.Runs
import AgentCore.Loop.Turn
import AgentCore.Text
import Mathlib.Data.List.Basic

namespace AgentCore.Observers.ContextSizeGuard

open Loop (Intervention)

structure Guard where
  /-- `max_input_tokens`. -/
  limit : ℤ
  forceCompactionFirst : Bool := false
  limit_pos : 0 < limit

structure Observer where
  tripped : Bool := false
  requestedAtSeq : Option ℕ := none
  rearmsLeft : ℕ := 0
  deriving DecidableEq

/-- The two entries that guard and loop share. -/
structure Metadata where
  /-- `COMPACTION_SEQ_KEY`. -/
  compactionSeq : ℕ := 0
  /-- `FORCE_COMPACTION_KEY`. -/
  forceCompaction : Bool := false
  deriving DecidableEq

def thousands (n : ℤ) : String := (if n < 0 then "-" else "") ++ Text.thousands n.natAbs

def stop (g : Guard) (used : ℤ) : Intervention where
  stopReason := "budget_exhausted"
  injectMessages :=
    ["Context approaching the model's limit " ++
      "(" ++ thousands used ++ " > " ++ thousands g.limit ++ " tokens). Stopping now to " ++
      "deliver the answer based on information gathered so far."]

/-- What a response leads to: nothing, a wish for a compaction, or the end of the loop. -/
inductive Answer
  | silent
  | forces
  | stops
  deriving DecidableEq

inductive Entry
  | within
  | over (answer : Answer)
  | turnEnd (compacts : Bool)
  deriving DecidableEq

section Source

variable (g : Guard)

/-- `on_loop_start`. -/
def onLoopStart (_ : Observer) : Observer := {}

/-- The decision of `on_llm_response` about a request of so many tokens. -/
def decideOn (o : Observer) (seq : ℕ) (used : ℤ) : Observer × Answer :=
  if o.tripped then (o, .silent)
  else if used ≤ g.limit then ({ o with requestedAtSeq := none }, .silent)
  else if g.forceCompactionFirst then
    match o.requestedAtSeq with
    | none => ({ o with requestedAtSeq := some seq, rearmsLeft := 1 }, .forces)
    | some requestedAtSeq =>
      if seq ≤ requestedAtSeq ∧ 0 < o.rearmsLeft then ({ o with rearmsLeft := o.rearmsLeft - 1 }, .forces)
      else ({ o with tripped := true }, .stops)
  else ({ o with tripped := true }, .stops)

/-- A response need not tell the tokens. -/
def onLlmResponse (o : Observer) (metadata : Metadata) : Option ℤ → Observer × Metadata × Option Intervention
  | none => (o, metadata, none)
  | some used =>
    match decideOn g o metadata.compactionSeq used with
    | (o, .silent) => (o, metadata, none)
    | (o, .forces) => (o, { metadata with forceCompaction := true }, none)
    | (o, .stops) => (o, metadata, some (stop g used))

/-- `_handle_turn_end` from the compaction on, and whether it compacts. -/
def handleTurnEnd (metadata : Metadata) (shouldCompact : Bool) : Metadata × Bool :=
  if metadata.forceCompaction || shouldCompact then (⟨metadata.compactionSeq + 1, false⟩, true)
  else ({ metadata with forceCompaction := false }, false)

/-! ### Runs -/

structure System where
  observer : Observer := {}
  metadata : Metadata := {}
  log : List Entry := []
  deriving DecidableEq

/-- A turn that ends before it comes to the compaction makes no event. -/
inductive Event
  | loopStart
  | response (used : Option ℤ)
  | turnEnd (shouldCompact : Bool)

def entries (o : Observer) (seq : ℕ) : Option ℤ → List Entry
  | none => []
  | some used => [if used ≤ g.limit then .within else .over (decideOn g o seq used).2]

def step (s : System) : Event → Option System
  | .loopStart => some { observer := onLoopStart s.observer }
  | .response used =>
    let answered := onLlmResponse g s.observer s.metadata used
    some ⟨answered.1, answered.2.1, entries g s.observer s.metadata.compactionSeq used ++ s.log⟩
  | .turnEnd shouldCompact =>
    let ended := handleTurnEnd s.metadata shouldCompact
    some ⟨s.observer, ended.1, .turnEnd ended.2 :: s.log⟩

end Source

/-! ### What should happen -/

def Entry.isOver : Entry → Bool
  | .over _ => true
  | _ => false

/-- The entries from the first response over the limit on, of those that came without one
within it between them. -/
def since : List Entry → List Entry
  | [] => []
  | .within :: _ => []
  | .over answer :: log => .over answer :: since log
  | .turnEnd compacts :: log => if since log = [] then [] else .turnEnd compacts :: since log

/-- The responses over the limit in a row. -/
def overs (log : List Entry) : ℕ := (since log).countP Entry.isOver

/-- The answer to a response over the limit. -/
def due (g : Guard) (log : List Entry) : Answer :=
  if .over .stops ∈ log then .silent
  else if g.forceCompactionFirst = false then .stops
  else if overs log = 0 ∨ overs log = 1 ∧ .turnEnd true ∉ since log then .forces
  else .stops

/-- A compaction is wished for, and no turn end has come to it since. -/
def requested : List Entry → Bool
  | .over .forces :: _ => true
  | .turnEnd _ :: _ => false
  | _ :: log => requested log
  | [] => false

/-- The last entry is as it should be: a wish is granted at the next turn end that can, and the
loop is not stopped before a compaction has been tried, or missed twice. -/
structure Answered (g : Guard) (log : List Entry) : Prop where
  oversized : ∀ answer older, log = .over answer :: older → answer = due g older
  turnEnd : ∀ compacts older, log = .turnEnd compacts :: older → requested older = true → compacts = true
  fair : g.forceCompactionFirst = true → ∀ older, log = .over .stops :: older →
    .turnEnd true ∈ since older ∨ overs older = 2 ∧ ∀ compacts, .turnEnd compacts ∉ since older
  few : .over .stops ∉ log → overs log ≤ 2

variable {g : Guard} {s s' : System}

/-! ### Rows -/

theorem overs_over (answer : Answer) (log : List Entry) : overs (.over answer :: log) = overs log + 1 :=
  List.countP_cons_of_pos rfl

theorem overs_turnEnd (compacts : Bool) (log : List Entry) : overs (.turnEnd compacts :: log) = overs log := by
  unfold overs
  rw [since]
  split
  · rename_i hnil
    rw [hnil]
  · rfl

theorem since_eq_nil_iff : ∀ {log : List Entry}, since log = [] ↔ overs log = 0
  | [] => iff_of_true rfl rfl
  | .within :: _ => iff_of_true rfl rfl
  | .over answer :: log => iff_of_false (List.cons_ne_nil _ _) (by rw [overs_over]; exact Nat.succ_ne_zero _)
  | .turnEnd compacts :: log => by
    rw [overs_turnEnd, ← since_eq_nil_iff, since]
    split
    · rename_i hnil
      exact iff_of_true rfl hnil
    · rename_i hne
      exact iff_of_false (List.cons_ne_nil _ _) hne

/-- The row without a turn end ends in a response. -/
theorem exists_over_of_no_turnEnd : ∀ {log : List Entry}, since log ≠ [] → (∀ compacts, .turnEnd compacts ∉ since log) →
    ∃ answer older, log = .over answer :: older
  | [], h, _ => absurd rfl h
  | .within :: _, h, _ => absurd rfl h
  | .over answer :: older, _, _ => ⟨answer, older, rfl⟩
  | .turnEnd compacts :: log, h, hno => by
    rw [since] at h hno
    split at h
    · exact absurd rfl h
    · rename_i hne
      rw [if_neg hne] at hno
      exact absurd List.mem_cons_self (hno compacts)

/-! ### The invariant -/

/-- What the guard and the loop know, told by the log. -/
structure Knows (g : Guard) (s : System) : Prop where
  seq : s.metadata.compactionSeq = s.log.count (.turnEnd true)
  flag : s.metadata.forceCompaction = requested s.log
  tripped : s.observer.tripped = true ↔ .over .stops ∈ s.log
  silent : .over .silent ∈ s.log → .over .stops ∈ s.log
  unasked : s.observer.tripped = false → s.observer.requestedAtSeq = none → since s.log = []
  asked : s.observer.tripped = false → ∀ r, s.observer.requestedAtSeq = some r →
    r + (since s.log).count (.turnEnd true) = s.metadata.compactionSeq ∧ 1 ≤ overs s.log ∧
      overs s.log + s.observer.rearmsLeft = 2
  granted : g.forceCompactionFirst = true → s.observer.tripped = false → .turnEnd false ∈ since s.log →
    .turnEnd true ∈ since s.log

theorem knows_start : Knows g {} where
  seq := rfl
  flag := rfl
  tripped := iff_of_false Bool.false_ne_true List.not_mem_nil
  silent h := absurd h List.not_mem_nil
  unasked _ _ := rfl
  asked _ _ h := by cases h
  granted _ _ h := absurd h List.not_mem_nil

/-- A log that asks for nothing and has a row without turn ends: its last entry is a response
that was not asked for. -/
theorem requested_of_no_turnEnd (h : Knows g s) (htripped : s.observer.tripped = false) (hrow : since s.log ≠ [])
    (hno : ∀ compacts, .turnEnd compacts ∉ since s.log) : requested s.log = true := by
  have hgoes : .over .stops ∉ s.log := fun hmem => by
    rw [h.tripped.mpr hmem] at htripped
    cases htripped
  obtain ⟨answer, older, hlog⟩ := exists_over_of_no_turnEnd hrow hno
  rw [hlog] at hgoes ⊢
  cases answer with
  | forces => rfl
  | silent =>
    have hsilent := h.silent
    rw [hlog] at hsilent
    exact absurd (hsilent List.mem_cons_self) hgoes
  | stops => exact absurd List.mem_cons_self hgoes

/-- Behind a response the same is known. -/
theorem knows_over (h : Knows g s) {o : Observer} {metadata : Metadata} {answer : Answer}
    (hseq : metadata.compactionSeq = s.metadata.compactionSeq)
    (hflag : metadata.forceCompaction = (requested s.log || decide (answer = .forces)))
    (htripped : o.tripped = true ↔ s.observer.tripped = true ∨ answer = .stops)
    (hsilent : answer = .silent → s.observer.tripped = true)
    (hasked : o.tripped = false → ∃ r, o.requestedAtSeq = some r ∧
      r + (since s.log).count (.turnEnd true) = s.metadata.compactionSeq ∧ overs s.log + 1 + o.rearmsLeft = 2) :
    Knows g ⟨o, metadata, .over answer :: s.log⟩ where
  seq := by
    rw [hseq, h.seq]
    exact (List.count_cons_of_ne (show Entry.over answer ≠ .turnEnd true from nofun)).symm
  flag := by
    rw [hflag]
    cases answer with
    | forces => exact Bool.or_true _
    | silent => exact Bool.or_false _
    | stops => exact Bool.or_false _
  tripped := by
    rw [htripped, h.tripped, List.mem_cons, or_comm]
    exact or_congr_left ⟨fun heq => by rw [heq], fun heq => (Entry.over.inj heq).symm⟩
  silent hmem := by
    rcases List.mem_cons.mp hmem with heq | hmem
    · exact List.mem_cons_of_mem _ (h.tripped.mp (hsilent (Entry.over.inj heq).symm))
    · exact List.mem_cons_of_mem _ (h.silent hmem)
  unasked ho hnone := by
    obtain ⟨r, hr, -⟩ := hasked ho
    rw [hnone] at hr
    cases hr
  asked ho r hr := by
    obtain ⟨r', hr', hcount, hrearms⟩ := hasked ho
    obtain rfl := Option.some.inj (hr'.symm.trans hr)
    refine ⟨?_, ?_, ?_⟩
    · rw [hseq, ← hcount, since, List.count_cons_of_ne (show Entry.over answer ≠ .turnEnd true from nofun)]
    · rw [overs_over]
      exact Nat.le_add_left ..
    · rw [overs_over]
      exact hrearms
  granted hforce ho hmem := by
    have hbefore : s.observer.tripped = false := by
      rw [← Bool.not_eq_true] at ho ⊢
      exact fun hno => ho (htripped.mpr (.inl hno))
    have hmem : .turnEnd false ∈ since s.log := (List.mem_cons.mp hmem).resolve_left nofun
    exact List.mem_cons_of_mem _ (h.granted hforce hbefore hmem)

theorem knows_within (h : Knows g s) {o : Observer} (htripped : o.tripped = s.observer.tripped)
    (hasked : o.tripped = false → o.requestedAtSeq = none) : Knows g ⟨o, s.metadata, .within :: s.log⟩ where
  seq := by
    rw [h.seq]
    exact (List.count_cons_of_ne (show Entry.within ≠ .turnEnd true from nofun)).symm
  flag := h.flag
  tripped := by
    rw [htripped, h.tripped, List.mem_cons]
    exact (or_iff_right nofun).symm
  silent hmem := List.mem_cons_of_mem _ (h.silent ((List.mem_cons.mp hmem).resolve_left nofun))
  unasked _ _ := rfl
  asked ho r hr := by
    rw [hasked ho] at hr
    cases hr
  granted _ _ hmem := absurd hmem List.not_mem_nil

theorem handleTurnEnd_snd (metadata : Metadata) (shouldCompact : Bool) :
    (handleTurnEnd metadata shouldCompact).2 = (metadata.forceCompaction || shouldCompact) := by
  unfold handleTurnEnd
  cases metadata.forceCompaction || shouldCompact <;> rfl

theorem knows_turnEnd (h : Knows g s) (shouldCompact : Bool) :
    Knows g ⟨s.observer, (handleTurnEnd s.metadata shouldCompact).1,
      .turnEnd (handleTurnEnd s.metadata shouldCompact).2 :: s.log⟩ := by
  have hflag : (handleTurnEnd s.metadata shouldCompact).1.forceCompaction = false := by
    unfold handleTurnEnd
    cases s.metadata.forceCompaction || shouldCompact <;> rfl
  have hseq : (handleTurnEnd s.metadata shouldCompact).1.compactionSeq =
      s.metadata.compactionSeq + [Entry.turnEnd (handleTurnEnd s.metadata shouldCompact).2].count (.turnEnd true) := by
    rw [handleTurnEnd_snd]
    unfold handleTurnEnd
    cases s.metadata.forceCompaction || shouldCompact <;> rfl
  have hasked : ∀ r, s.observer.tripped = false → s.observer.requestedAtSeq = some r → since s.log ≠ [] :=
    fun r ho hr => mt since_eq_nil_iff.mp (Nat.one_le_iff_ne_zero.mp (h.asked ho r hr).2.1)
  refine ⟨?_, ?_, ?_, ?_, ?_, ?_, ?_⟩
  · rw [hseq, h.seq, Nat.add_comm, ← List.count_append]
    rfl
  · exact hflag
  · rw [h.tripped, List.mem_cons]
    exact (or_iff_right nofun).symm
  · exact fun hmem => List.mem_cons_of_mem _ (h.silent ((List.mem_cons.mp hmem).resolve_left nofun))
  · exact fun ho hnone => if_pos (h.unasked ho hnone)
  · intro ho r hr
    obtain ⟨hcount, hrow⟩ := h.asked ho r hr
    refine ⟨?_, by rw [overs_turnEnd]; exact hrow⟩
    rw [since, if_neg (hasked r ho hr), hseq, ← hcount, Nat.add_assoc, Nat.add_comm (List.count _ _) (List.count _ _),
      ← List.count_append]
    rfl
  · intro hforce ho hmem
    rw [since] at hmem ⊢
    split at hmem
    · cases hmem
    rename_i hrow
    rw [if_neg hrow]
    by_cases htrue : .turnEnd true ∈ since s.log
    · exact List.mem_cons_of_mem _ htrue
    have hno : ∀ compacts, .turnEnd compacts ∉ since s.log
      | true => htrue
      | false => fun hfalse => htrue (h.granted hforce ho hfalse)
    have hrequested := requested_of_no_turnEnd h ho hrow hno
    rw [handleTurnEnd_snd, h.flag, hrequested]
    exact List.mem_cons_self

/-- The decision about a request over the limit is the one the log makes due. -/
theorem decideOn_due (h : Knows g s) {used : ℤ} (hused : ¬used ≤ g.limit) :
    (decideOn g s.observer s.metadata.compactionSeq used).2 = due g s.log := by
  unfold decideOn due
  cases htripped : s.observer.tripped with
  | true => rw [if_pos rfl, if_pos (h.tripped.mp htripped)]
  | false =>
    have hgoes : .over .stops ∉ s.log := fun hmem => by
      rw [h.tripped.mpr hmem] at htripped
      cases htripped
    rw [if_neg nofun, if_neg hused, if_neg hgoes]
    cases hforce : g.forceCompactionFirst with
    | false => rfl
    | true =>
      rw [if_pos rfl, if_neg nofun]
      cases hr : s.observer.requestedAtSeq with
      | none => exact (if_pos (.inl (since_eq_nil_iff.mp (h.unasked htripped hr)))).symm
      | some r =>
        obtain ⟨hcount, hpos, hrearms⟩ := h.asked htripped r hr
        have hiff : (s.metadata.compactionSeq ≤ r ∧ 0 < s.observer.rearmsLeft) ↔
            (overs s.log = 0 ∨ overs s.log = 1 ∧ .turnEnd true ∉ since s.log) := by
          rw [← List.count_eq_zero]
          omega
        dsimp only
        by_cases hagain : s.metadata.compactionSeq ≤ r ∧ 0 < s.observer.rearmsLeft
        · rw [if_pos hagain, if_pos (hiff.mp hagain)]
        · rw [if_neg hagain, if_neg (mt hiff.mpr hagain)]

/-- The guard was stopped before, or is now, or asks for a compaction. -/
theorem decideOn_cases (h : Knows g s) {used : ℤ} (hused : ¬used ≤ g.limit) :
    s.observer.tripped = true ∧ decideOn g s.observer s.metadata.compactionSeq used = (s.observer, .silent) ∨
    s.observer.tripped = false ∧
      decideOn g s.observer s.metadata.compactionSeq used = ({ s.observer with tripped := true }, .stops) ∨
    s.observer.tripped = false ∧ ∃ r rearmsLeft,
      decideOn g s.observer s.metadata.compactionSeq used = (⟨false, some r, rearmsLeft⟩, .forces) ∧
      r + (since s.log).count (.turnEnd true) = s.metadata.compactionSeq ∧ overs s.log + 1 + rearmsLeft = 2 := by
  unfold decideOn
  cases htripped : s.observer.tripped with
  | true => exact .inl ⟨rfl, if_pos rfl⟩
  | false =>
    rw [if_neg nofun, if_neg hused]
    cases hforce : g.forceCompactionFirst with
    | false => exact .inr (.inl ⟨rfl, if_neg nofun⟩)
    | true =>
      rw [if_pos rfl]
      cases hr : s.observer.requestedAtSeq with
      | none =>
        have hnil := h.unasked htripped hr
        refine .inr (.inr ⟨rfl, _, _, rfl, ?_, ?_⟩)
        · rw [hnil]
          rfl
        · rw [since_eq_nil_iff.mp hnil]
      | some r =>
        obtain ⟨hcount, hpos, hrearms⟩ := h.asked htripped r hr
        dsimp only
        by_cases hagain : s.metadata.compactionSeq ≤ r ∧ 0 < s.observer.rearmsLeft
        · rw [if_pos hagain]
          exact .inr (.inr ⟨rfl, _, _, rfl, hcount, by omega⟩)
        · rw [if_neg hagain]
          exact .inr (.inl ⟨rfl, by rw [hr]⟩)

theorem knows_oversized (h : Knows g s) {used : ℤ} (hused : ¬used ≤ g.limit) {o : Observer} {answer : Answer}
    (hdecide : decideOn g s.observer s.metadata.compactionSeq used = (o, answer)) {metadata : Metadata}
    (hseq : metadata.compactionSeq = s.metadata.compactionSeq)
    (hflag : metadata.forceCompaction = (requested s.log || decide (answer = .forces))) :
    Knows g ⟨o, metadata, .over answer :: s.log⟩ := by
  rcases decideOn_cases h hused with ⟨htripped, heq⟩ | ⟨htripped, heq⟩ | ⟨htripped, r, rearmsLeft, heq, hcount, hrearms⟩
  all_goals obtain ⟨rfl, rfl⟩ := Prod.mk.inj (heq.symm.trans hdecide)
  · exact knows_over h hseq hflag (iff_of_true htripped (.inl htripped)) (fun _ => htripped)
      fun ho => absurd (htripped.symm.trans ho) nofun
  · exact knows_over h hseq hflag (iff_of_true rfl (.inr rfl)) nofun nofun
  · have hno : ¬(s.observer.tripped = true ∨ Answer.forces = .stops) := fun hor => by
      rw [htripped] at hor
      exact hor.elim nofun nofun
    exact knows_over h hseq hflag (iff_of_false nofun hno) nofun fun _ => ⟨r, rfl, hcount, hrearms⟩

theorem entries_within {o : Observer} {seq : ℕ} {used : ℤ} (h : used ≤ g.limit) : entries g o seq (some used) = [.within] := by
  rw [entries, if_pos h]

theorem entries_over {o : Observer} {seq : ℕ} {used : ℤ} (h : ¬used ≤ g.limit) :
    entries g o seq (some used) = [.over (decideOn g o seq used).2] := by
  rw [entries, if_neg h]

theorem knows_step (h : Knows g s) {e : Event} (hstep : step g s e = some s') : Knows g s' := by
  cases e with
  | loopStart =>
    cases hstep
    exact knows_start
  | turnEnd shouldCompact =>
    obtain rfl := Option.some.inj hstep
    exact knows_turnEnd h shouldCompact
  | response used =>
    cases used with
    | none =>
      cases hstep
      exact h
    | some used =>
      have hend : (⟨(onLlmResponse g s.observer s.metadata (some used)).1,
          (onLlmResponse g s.observer s.metadata (some used)).2.1,
          entries g s.observer s.metadata.compactionSeq (some used) ++ s.log⟩ : System) = s' := Option.some.inj hstep
      rw [onLlmResponse] at hend
      cases hdecide : decideOn g s.observer s.metadata.compactionSeq used with
      | mk o answer =>
        by_cases hused : used ≤ g.limit
        · rw [entries_within hused, hdecide] at hend
          unfold decideOn at hdecide
          rw [if_pos hused] at hdecide
          split at hdecide
          · obtain ⟨rfl, rfl⟩ := Prod.mk.inj hdecide
            rw [← hend]
            rename_i htripped
            exact knows_within h rfl fun ho => absurd (htripped.symm.trans ho) nofun
          · obtain ⟨rfl, rfl⟩ := Prod.mk.inj hdecide
            rw [← hend]
            exact knows_within h rfl fun _ => rfl
        · rw [entries_over hused, hdecide] at hend
          have hknows : ∀ {metadata : Metadata}, metadata.compactionSeq = s.metadata.compactionSeq →
              metadata.forceCompaction = (requested s.log || decide (answer = .forces)) →
              Knows g ⟨o, metadata, .over answer :: s.log⟩ := fun hseq hflag => knows_oversized h hused hdecide hseq hflag
          cases answer with
          | forces =>
            rw [← hend]
            exact hknows rfl (Bool.or_true _).symm
          | silent =>
            rw [← hend]
            exact hknows rfl (h.flag.trans (Bool.or_false _).symm)
          | stops =>
            rw [← hend]
            exact hknows rfl (h.flag.trans (Bool.or_false _).symm)

/-! ### The log -/

theorem Knows.few (h : Knows g s) (hgoes : .over .stops ∉ s.log) : overs s.log ≤ 2 := by
  have htripped : s.observer.tripped = false := by
    rw [← Bool.not_eq_true]
    exact mt h.tripped.mp hgoes
  cases hr : s.observer.requestedAtSeq with
  | none =>
    rw [since_eq_nil_iff.mp (h.unasked htripped hr)]
    exact Nat.zero_le 2
  | some r =>
    have hrearms := (h.asked htripped r hr).2.2
    omega

/-- The loop is stopped in time, and no sooner. -/
theorem Knows.fair (h : Knows g s) (hforce : g.forceCompactionFirst = true) (hstops : due g s.log = .stops) :
    .turnEnd true ∈ since s.log ∨ overs s.log = 2 ∧ ∀ compacts, .turnEnd compacts ∉ since s.log := by
  unfold due at hstops
  split at hstops
  · cases hstops
  rename_i hgoes
  rw [if_neg (by rw [hforce]; nofun)] at hstops
  split at hstops
  · cases hstops
  rename_i hno
  rw [not_or] at hno
  by_cases htrue : .turnEnd true ∈ since s.log
  · exact .inl htrue
  have htripped : s.observer.tripped = false := by
    rw [← Bool.not_eq_true]
    exact mt h.tripped.mp hgoes
  have hfew := h.few hgoes
  have hmany : overs s.log ≠ 1 := fun hone => hno.2 ⟨hone, htrue⟩
  refine .inr ⟨by omega, fun compacts => ?_⟩
  cases compacts with
  | true => exact htrue
  | false => exact fun hfalse => htrue (h.granted hforce htripped hfalse)

/-- One step: the log begins anew, or the entry it adds, if any, is as it should be. -/
theorem step_log (h : Knows g s) {e : Event} (hstep : step g s e = some s') :
    s'.log = [] ∨ s'.log = s.log ∨ ∃ entry, s'.log = entry :: s.log ∧ Answered g s'.log := by
  have hknows := knows_step h hstep
  cases e with
  | loopStart =>
    cases hstep
    exact .inl rfl
  | turnEnd shouldCompact =>
    obtain rfl := Option.some.inj hstep
    refine .inr (.inr ⟨_, rfl, ⟨nofun, ?_, nofun, hknows.few⟩⟩)
    intro compacts older heq hrequested
    obtain ⟨hcompacts, rfl⟩ := List.cons.inj heq
    rw [← Entry.turnEnd.inj hcompacts, handleTurnEnd_snd, h.flag, hrequested]
    rfl
  | response used =>
    cases used with
    | none =>
      cases hstep
      exact .inr (.inl rfl)
    | some used =>
      have hlog : s'.log = entries g s.observer s.metadata.compactionSeq (some used) ++ s.log := by
        rw [← Option.some.inj hstep]
      by_cases hused : used ≤ g.limit
      · rw [entries_within hused] at hlog
        refine .inr (.inr ⟨_, hlog, ⟨?_, ?_, ?_, hknows.few⟩⟩)
        all_goals rw [hlog]
        · exact nofun
        · exact nofun
        · exact nofun
      · rw [entries_over hused, decideOn_due h hused] at hlog
        refine .inr (.inr ⟨_, hlog, ⟨?_, ?_, ?_, hknows.few⟩⟩)
        all_goals rw [hlog]
        · intro answer older heq
          obtain ⟨hanswer, rfl⟩ := List.cons.inj heq
          exact (Entry.over.inj hanswer).symm
        · exact nofun
        · intro hforce older heq
          obtain ⟨hanswer, rfl⟩ := List.cons.inj heq
          exact h.fair hforce (Entry.over.inj hanswer)

/-- **Requests that grow too large are answered** as the log makes due, at every place of every
run: a wish for a compaction is granted at the next turn end that comes to it, the loop is not
stopped before one was tried or missed twice, and at the third request in a row at the latest. -/
theorem oversized_answered {es : List Event} (h : Runs.Trace (step g) (fun _ _ _ => True) {} es s) :
    ∀ log, log <:+ s.log → Answered g log := by
  have hnew : ∀ log, log <:+ [] → Answered g log := by
    intro log hlog
    obtain rfl := List.suffix_nil.mp hlog
    exact ⟨nofun, nofun, nofun, fun _ => Nat.zero_le 2⟩
  have hinv : Knows g s ∧ ∀ log, log <:+ s.log → Answered g log := by
    refine h.invariant (I := fun _ s => Knows g s ∧ ∀ log, log <:+ s.log → Answered g log) ⟨knows_start, hnew⟩ ?_
    · rintro _ s e s' ⟨hknows, hlogs⟩ - hstep
      refine ⟨knows_step hknows hstep, fun log hlog => ?_⟩
      rcases step_log hknows hstep with hnil | heq | ⟨entry, heq, hanswered⟩
      · exact hnew log (hnil ▸ hlog)
      · exact hlogs log (heq ▸ hlog)
      · rw [heq] at hlog hanswered
        rcases List.suffix_cons_iff.mp hlog with rfl | hlog
        · exact hanswered
        · exact hlogs log hlog
  exact hinv.2

def forcing : Guard := ⟨100, true, by decide⟩

def growing : List Event :=
  [.response (some 150), .loopStart, .response (some 101), .turnEnd false, .response (some 90), .response (some 120), .response none,
    .response (some 130), .response (some 140)]

/-- In a loop that starts anew, a compaction that helps for a while, and then one that never
comes. -/
theorem oversized_answered_forcing :
    ∃ s, Runs.run (step forcing) {} growing = some s ∧
      s.log = [.over .stops, .over .forces, .over .forces, .within, .turnEnd true, .over .forces] ∧
      Answered forcing s.log := by
  refine ⟨_, rfl, rfl, ?_⟩
  have h : Runs.run (step forcing) {} growing = some _ := rfl
  exact oversized_answered (Runs.Trace.of_run_any h) _ (List.suffix_refl _)

end AgentCore.Observers.ContextSizeGuard
