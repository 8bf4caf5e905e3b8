/-
# The fallback chain

`LLMFallbackChain` of `fallback.py`: entries in order, each with the triggers
that let a failure fall through to the next. A call tries the entries from the
cursor's start on; a stream falls through only while nothing but transport
activity has reached the consumer. A cursor made for a logical call
(`for_logical_call`) passes streams on as they are and is moved past an entry
that keeps coming back empty (`advance_empty_completion`).

What the clients do in a call is an argument of it: the stream of each entry,
or its reply. Exceptions that are no errors (cancellation) are left out.

Key definitions: `FallbackEntry.matches`, `Chain.stream`, `Chain.step`.
Key theorem: `chain_commits_to_one_model`.
-/
import AgentCore.Lib.Runs
import AgentCore.Providers.Stream

namespace AgentCore
namespace Providers

open Runs

/-- An entry of a chain; `none` for triggers left unset. -/
structure FallbackEntry where
  triggers : Option (List FallbackTrigger)
  provider : String := ""
  deriving DecidableEq, Repr

def FallbackEntry.matches (entry : FallbackEntry) (e : LlmError) : Bool :=
  (entry.triggers.getD [.anyError]).any (triggerMatches e)

/-- A chain of at least one entry, whose triggers are all set. -/
structure Chain where
  entries : List FallbackEntry
  nonempty : entries ≠ []
  triggers_set : ∀ entry ∈ entries, entry.triggers.isSome = true

/-- `__post_init__`: entries that left their triggers unset get the default. -/
def Chain.postInit (entries : List FallbackEntry) (defaultTriggers : List FallbackTrigger) (h : entries ≠ []) :
    Chain where
  entries := entries.map fun entry => { entry with triggers := some (entry.triggers.getD defaultTriggers) }
  nonempty := by simpa using h
  triggers_set := by
    intro entry he
    obtain ⟨entry', -, rfl⟩ := List.mem_map.mp he
    rfl

/-- Where the calls of a chain start, which entry served last, and whether the
caller looks after empty completions. -/
structure ChainCursor where
  managed : Bool
  startIndex : ℕ
  servingIndex : ℕ
  deriving DecidableEq, Repr

/-- How a call of a chain ends: an entry succeeded, an entry's error reached the
caller, or there was no entry. -/
inductive ChainEnding
  | finished
  | raised (index : ℕ) (e : LlmError)
  | exhausted
  deriving DecidableEq, Repr

namespace Chain

/-- The loop over the entries: `outcome` is the error of an entry, with whether
its output has reached the consumer. -/
def tryEntries (last : ℕ) (outcome : ℕ → Option (LlmError × Bool)) :
    List (FallbackEntry × ℕ) → List ℕ × ChainEnding
  | [] => ([], .exhausted)
  | (entry, index) :: rest =>
    match outcome index with
    | none => ([index], .finished)
    | some (e, yielded) =>
      if yielded = true ∨ index = last ∨ entry.matches e = false then ([index], .raised index e)
      else
        let (tried, ending) := tryEntries last outcome rest
        (index :: tried, ending)

variable (chain : Chain)

def tryFrom (c : ChainCursor) (outcome : ℕ → Option (LlmError × Bool)) : List ℕ × ChainEnding :=
  tryEntries (chain.entries.length - 1) outcome (chain.entries.zipIdx.filter fun p => c.startIndex ≤ p.2)

/-- The cursor after the entries tried. -/
def moved (c : ChainCursor) (tried : List ℕ) : ChainCursor :=
  match tried.getLast? with
  | none => c
  | some index => { c with servingIndex := index, startIndex := if c.managed then index else c.startIndex }

/-! ### Streaming -/

/-- The stream of an entry in a call, and how long it took. -/
structure EntryStream where
  stream : Stream
  elapsed : String

/-- What an entry of the chain yields in a call. -/
def served (c : ChainCursor) (calls : ℕ → EntryStream) (index : ℕ) : Stream :=
  if c.managed then (calls index).stream else nonemptyStream (calls index).elapsed (calls index).stream

/-- The provider stamped on the output of an entry. -/
def stamp (index : ℕ) (d : StreamDelta) : StreamDelta :=
  let provider := ((chain.entries[index]?).map (·.provider)).getD ""
  if provider ≠ "" ∧ d.transportActivity = false then { d with provider := provider } else d

/-- A call of `stream`: what the consumer sees, from which entry, and how it
ends. -/
structure Served where
  output : List (ℕ × StreamDelta)
  ending : ChainEnding
  tried : List ℕ
  cursor : ChainCursor

def streamOutcome (c : ChainCursor) (calls : ℕ → EntryStream) (index : ℕ) : Option (LlmError × Bool) :=
  match (served c calls index).ending with
  | .finished => none
  | .raised e => some (e, (served c calls index).deltas.any fun d => !d.transportActivity)

def stream (c : ChainCursor) (calls : ℕ → EntryStream) : Served :=
  let (tried, ending) := chain.tryFrom c (streamOutcome c calls)
  { output := tried.flatMap fun index => (served c calls index).deltas.map fun d => (index, chain.stamp index d)
    ending := ending
    tried := tried
    cursor := moved c tried }

/-! ### Chat, and the empty completions of a logical call -/

/-- The reply of an entry to `chat`. -/
inductive ChatReply
  | response (whollyEmpty : Bool)
  | raised (e : LlmError)

def chatOutcome (c : ChainCursor) (replies : ℕ → ChatReply) (index : ℕ) : Option (LlmError × Bool) :=
  match replies index with
  | .response whollyEmpty =>
    if c.managed = false ∧ whollyEmpty = true then some (emptyCompletionError 0 "0.0", false) else none
  | .raised e => some (e, false)

/-- `advance_empty_completion`; `nested` is what the entry's own hook says. -/
def advanceEmptyCompletion (c : ChainCursor) (e : LlmError) (nested : Bool) : Bool × ChainCursor :=
  if c.managed = true ∧ nested = true then (true, c)
  else match chain.entries[c.servingIndex]? with
    | none => (false, c)
    | some entry =>
      if c.managed = false ∨ chain.entries.length ≤ c.servingIndex + 1 ∨ entry.matches e = false then (false, c)
      else (true, { c with startIndex := c.servingIndex + 1 })

/-- The calls on one cursor. -/
inductive Call
  | stream (calls : ℕ → EntryStream)
  | chat (replies : ℕ → ChatReply)
  | advanceEmptyCompletion (e : LlmError) (nested : Bool)

/-- A cursor and the entries tried through it so far. -/
structure Use where
  cursor : ChainCursor
  tried : List ℕ

def step (s : Use) : Call → Option Use
  | .stream calls =>
    let r := chain.stream s.cursor calls
    some ⟨r.cursor, s.tried ++ r.tried⟩
  | .chat replies =>
    let tried := (chain.tryFrom s.cursor (chatOutcome s.cursor replies)).1
    some ⟨moved s.cursor tried, s.tried ++ tried⟩
  | .advanceEmptyCompletion e nested => some ⟨(chain.advanceEmptyCompletion s.cursor e nested).2, s.tried⟩

/-- A chain as built, or a cursor of it for a logical call. -/
def fresh (managed : Bool) : Use := ⟨⟨managed, 0, 0⟩, []⟩

/-- An entry that lets nothing fall through. -/
def Barrier (index : ℕ) : Prop := ∃ entry, chain.entries[index]? = some entry ∧ entry.triggers = some []

/-! ### The loop over the entries -/

section Loop

variable {last : ℕ} {outcome : ℕ → Option (LlmError × Bool)}

section Cases

variable {entry : FallbackEntry} {index : ℕ} (rest : List (FallbackEntry × ℕ)) {e : LlmError} {yielded : Bool}

theorem tryEntries_ok (h : outcome index = none) :
    tryEntries last outcome ((entry, index) :: rest) = ([index], .finished) := by
  rw [tryEntries, h]

theorem tryEntries_stop (h : outcome index = some (e, yielded))
    (hc : yielded = true ∨ index = last ∨ entry.matches e = false) :
    tryEntries last outcome ((entry, index) :: rest) = ([index], .raised index e) := by
  rw [tryEntries, h]
  exact if_pos hc

theorem tryEntries_pass (h : outcome index = some (e, yielded))
    (hc : ¬(yielded = true ∨ index = last ∨ entry.matches e = false)) :
    tryEntries last outcome ((entry, index) :: rest) =
      (index :: (tryEntries last outcome rest).1, (tryEntries last outcome rest).2) := by
  rw [tryEntries, h]
  exact if_neg hc

/-- An entry succeeds, ends the call with its error, or is passed. -/
theorem tryEntries_cases (entry : FallbackEntry) (index : ℕ) :
    (outcome index = none ∧ tryEntries last outcome ((entry, index) :: rest) = ([index], .finished)) ∨
    (∃ e yielded, outcome index = some (e, yielded) ∧ (yielded = true ∨ index = last ∨ entry.matches e = false) ∧
      tryEntries last outcome ((entry, index) :: rest) = ([index], .raised index e)) ∨
    (∃ e, outcome index = some (e, false) ∧ index ≠ last ∧ entry.matches e = true ∧
      tryEntries last outcome ((entry, index) :: rest) =
        (index :: (tryEntries last outcome rest).1, (tryEntries last outcome rest).2)) := by
  cases h : outcome index with
  | none => exact .inl ⟨rfl, tryEntries_ok rest h⟩
  | some o =>
    obtain ⟨e, yielded⟩ := o
    by_cases hc : yielded = true ∨ index = last ∨ entry.matches e = false
    · exact .inr (.inl ⟨e, yielded, rfl, hc, tryEntries_stop rest h hc⟩)
    · have hpass := tryEntries_pass rest h hc
      simp only [not_or, Bool.not_eq_true, Bool.not_eq_false] at hc
      obtain ⟨rfl, hne, hm⟩ := hc
      exact .inr (.inr ⟨e, rfl, hne, hm, hpass⟩)

end Cases

theorem tried_initial : ∀ l : List (FallbackEntry × ℕ), (tryEntries last outcome l).1 <+: l.map (·.2)
  | [] => List.prefix_rfl
  | (entry, index) :: rest => by
    have hone : [index] <+: index :: rest.map (·.2) := ⟨rest.map (·.2), rfl⟩
    rcases tryEntries_cases rest entry index with ⟨-, heq⟩ | ⟨e, y, -, -, heq⟩ | ⟨e, -, -, -, heq⟩
    · rwa [heq]
    · rwa [heq]
    · rw [heq]
      exact (List.prefix_cons_inj index).mpr (tried_initial rest)

/-- The entry whose error reaches the caller was tried. -/
theorem mem_tried_of_raised : ∀ {l : List (FallbackEntry × ℕ)} {i : ℕ} {e : LlmError},
    (tryEntries last outcome l).2 = .raised i e → i ∈ (tryEntries last outcome l).1
  | [], i, e, h => by cases h
  | (entry, index) :: rest, i, e, h => by
    rcases tryEntries_cases rest entry index with ⟨-, heq⟩ | ⟨e', y, -, -, heq⟩ | ⟨e', -, -, -, heq⟩
    all_goals rw [heq] at h ⊢
    · cases h
    · cases h
      exact List.mem_singleton_self _
    · exact List.mem_cons_of_mem _ (mem_tried_of_raised h)

theorem lt_of_mem_tried {index : ℕ} {rest : List (FallbackEntry × ℕ)} (h : ∀ p ∈ rest, index < p.2) :
    ∀ k ∈ (tryEntries last outcome rest).1, index < k := by
  intro k hk
  obtain ⟨p, hp, rfl⟩ := List.mem_map.mp ((tried_initial rest).subset hk)
  exact h p hp

/-- An entry before another one tried failed with an error that its triggers
match, before any of its output reached the consumer. -/
theorem passed_of_lt : ∀ {l : List (FallbackEntry × ℕ)}, l.Pairwise (fun p q => p.2 < q.2) → ∀ {i j : ℕ},
    i ∈ (tryEntries last outcome l).1 → j ∈ (tryEntries last outcome l).1 → i < j →
    ∃ entry e, (entry, i) ∈ l ∧ outcome i = some (e, false) ∧ entry.matches e = true
  | [], _, i, j, hi, _, _ => by cases hi
  | (entry, index) :: rest, hl, i, j, hi, hj, hlt => by
    obtain ⟨hfirst, hrest⟩ := List.pairwise_cons.mp hl
    rcases tryEntries_cases rest entry index with ⟨-, heq⟩ | ⟨e, y, -, -, heq⟩ | ⟨e, ho, -, hm, heq⟩
    all_goals rw [heq] at hi hj
    · rw [List.mem_singleton] at hi hj
      omega
    · rw [List.mem_singleton] at hi hj
      omega
    · rcases List.mem_cons.mp hi with rfl | hi
      · exact ⟨entry, e, List.mem_cons_self, ho, hm⟩
      · have hi' := lt_of_mem_tried hfirst i hi
        rcases List.mem_cons.mp hj with rfl | hj
        · omega
        · obtain ⟨entry', e', hmem, hpassed⟩ := passed_of_lt hrest hi hj hlt
          exact ⟨entry', e', List.mem_cons_of_mem _ hmem, hpassed⟩

/-- The error of an entry tried reaches the caller exactly when its output has
reached the consumer, it is the last entry, or its triggers do not match. -/
theorem raised_iff : ∀ {l : List (FallbackEntry × ℕ)}, l.Pairwise (fun p q => p.2 < q.2) →
    ∀ {i : ℕ} {entry : FallbackEntry} {e : LlmError} {yielded : Bool}, i ∈ (tryEntries last outcome l).1 →
    (entry, i) ∈ l → outcome i = some (e, yielded) →
    ((tryEntries last outcome l).2 = .raised i e ↔ yielded = true ∨ i = last ∨ entry.matches e = false)
  | [], _, i, _, _, _, hi, _, _ => by cases hi
  | (first, index) :: rest, hl, i, entry, e, yielded, hi, hmem, ho => by
    obtain ⟨hfirst, hrest⟩ := List.pairwise_cons.mp hl
    rcases List.mem_cons.mp hmem with heq | hmem'
    · obtain ⟨hentry, hindex⟩ := Prod.mk.inj heq
      subst hentry hindex
      by_cases hc : yielded = true ∨ i = last ∨ entry.matches e = false
      · rw [tryEntries_stop rest ho hc]
        exact ⟨fun _ => hc, fun _ => rfl⟩
      · rw [tryEntries_pass rest ho hc]
        refine ⟨fun hr => ?_, fun h => absurd h hc⟩
        exact absurd (lt_of_mem_tried hfirst i (mem_tried_of_raised hr)) (Nat.lt_irrefl _)
    · have hlt : index < i := hfirst _ hmem'
      rcases tryEntries_cases rest first index with ⟨-, heq⟩ | ⟨e', y, -, -, heq⟩ | ⟨e', -, -, -, heq⟩
      all_goals rw [heq] at hi
      · rw [List.mem_singleton] at hi
        omega
      · rw [List.mem_singleton] at hi
        omega
      · rw [heq]
        rcases List.mem_cons.mp hi with rfl | hi
        · omega
        · exact raised_iff hrest hi hmem' ho

end Loop

/-! ### One call -/

variable {chain}

theorem remaining_pairwise (c : ChainCursor) :
    (chain.entries.zipIdx.filter fun p => c.startIndex ≤ p.2).Pairwise fun p q => p.2 < q.2 := by
  refine List.Pairwise.filter _ ?_
  have hsnd : (chain.entries.zipIdx.map Prod.snd).Pairwise (· < ·) := by
    rw [List.zipIdx_map_snd]
    exact List.pairwise_lt_range'
  exact List.pairwise_map.mp hsnd

theorem mem_remaining {c : ChainCursor} {entry : FallbackEntry} {i : ℕ} :
    (entry, i) ∈ (chain.entries.zipIdx.filter fun p => c.startIndex ≤ p.2) ↔
      chain.entries[i]? = some entry ∧ c.startIndex ≤ i := by
  rw [List.mem_filter, List.mem_zipIdx_iff_getElem?]
  simp

theorem transportActivity_stamp (index : ℕ) (d : StreamDelta) :
    (chain.stamp index d).transportActivity = d.transportActivity := by
  unfold stamp
  dsimp only
  split <;> rfl

/-- What the consumer sees of an entry. -/
theorem mem_output {c : ChainCursor} {calls : ℕ → EntryStream} {i : ℕ} {d : StreamDelta} :
    (i, d) ∈ (chain.stream c calls).output ↔
      i ∈ (chain.stream c calls).tried ∧ ∃ d' ∈ (served c calls i).deltas, chain.stamp i d' = d := by
  unfold stream
  dsimp only
  rw [List.mem_flatMap]
  constructor
  · rintro ⟨index, hindex, hmem⟩
    obtain ⟨d', hd', heq⟩ := List.mem_map.mp hmem
    cases heq
    exact ⟨hindex, d', hd', rfl⟩
  · rintro ⟨hi, d', hd', rfl⟩
    exact ⟨i, hi, List.mem_map.mpr ⟨d', hd', rfl⟩⟩

/-- The entry produced output that the consumer has seen. -/
theorem yielded_iff {c : ChainCursor} {calls : ℕ → EntryStream} {i : ℕ} (hi : i ∈ (chain.stream c calls).tried) :
    ((served c calls i).deltas.any fun d => !d.transportActivity) = true ↔
      ∃ d, (i, d) ∈ (chain.stream c calls).output ∧ d.transportActivity = false := by
  rw [List.any_eq_true]
  constructor
  · rintro ⟨d, hd, ht⟩
    refine ⟨chain.stamp i d, mem_output.mpr ⟨hi, d, hd, rfl⟩, ?_⟩
    rw [transportActivity_stamp]
    simpa using ht
  · rintro ⟨d, hd, ht⟩
    obtain ⟨-, d', hd', rfl⟩ := mem_output.mp hd
    rw [transportActivity_stamp] at ht
    exact ⟨d', hd', by simp [ht]⟩

/-- The entries tried are those from the start on, as far as the loop goes. -/
theorem mem_tried_between {c : ChainCursor} {outcome : ℕ → Option (LlmError × Bool)} {i j : ℕ}
    (hj : j ∈ (chain.tryFrom c outcome).1) (hi : c.startIndex ≤ i) (hij : i < j) : i ∈ (chain.tryFrom c outcome).1 := by
  have hpre : (chain.tryFrom c outcome).1 <+:
      (chain.entries.zipIdx.filter fun p => c.startIndex ≤ p.2).map (·.2) := tried_initial _
  have hlt : i < chain.entries.length := by
    obtain ⟨⟨entry, j'⟩, hp, rfl⟩ := List.mem_map.mp (hpre.subset hj)
    have hget := (mem_remaining.mp hp).1
    have := (List.getElem?_eq_some_iff.mp hget).1
    dsimp only at hij
    omega
  have hmem : i ∈ (chain.entries.zipIdx.filter fun p => c.startIndex ≤ p.2).map (·.2) :=
    List.mem_map.mpr ⟨(chain.entries[i], i), mem_remaining.mpr ⟨List.getElem?_eq_getElem hlt, hi⟩, rfl⟩
  have hsorted : ((chain.entries.zipIdx.filter fun p => c.startIndex ≤ p.2).map (·.2)).Pairwise (· < ·) :=
    List.pairwise_map.mpr (remaining_pairwise c)
  obtain ⟨rest, hrest⟩ := hpre
  rw [← hrest] at hmem hsorted
  rcases List.mem_append.mp hmem with hmem | hmem
  · exact hmem
  · exact absurd ((List.pairwise_append.mp hsorted).2.2 j hj i hmem) (by omega)

/-! ### No entry beyond a barrier -/

/-- No barrier stands before the entry. -/
def Open (chain : Chain) (index : ℕ) : Prop := ∀ i < index, ¬chain.Barrier i

theorem not_matches_of_barrier {i : ℕ} (hb : chain.Barrier i) {entry : FallbackEntry}
    (hentry : chain.entries[i]? = some entry) (e : LlmError) : entry.matches e = false := by
  obtain ⟨entry', hentry', ht⟩ := hb
  rw [hentry, Option.some.injEq] at hentry'
  rw [FallbackEntry.matches, hentry', ht]
  rfl

/-- A loop that starts where no barrier stands before comes to no entry with
one before it. -/
theorem open_of_mem_tried {c : ChainCursor} {outcome : ℕ → Option (LlmError × Bool)} (hc : chain.Open c.startIndex)
    {j : ℕ} (hj : j ∈ (chain.tryFrom c outcome).1) : chain.Open j := by
  intro i hij hb
  rcases Nat.lt_or_ge i c.startIndex with hlt | hle
  · exact hc i hlt hb
  · obtain ⟨entry, e, hmem, -, hm⟩ :=
      passed_of_lt (remaining_pairwise c) (mem_tried_between hj hle hij) hj hij
    rw [not_matches_of_barrier hb (mem_remaining.mp hmem).1 e] at hm
    cases hm

/-- What holds of a cursor between calls. -/
structure Inv (chain : Chain) (s : Use) : Prop where
  start : chain.Open s.cursor.startIndex
  serving : chain.Open s.cursor.servingIndex
  tried : ∀ j ∈ s.tried, chain.Open j

theorem Inv.moved {s : Use} (h : Inv chain s) (outcome : ℕ → Option (LlmError × Bool)) :
    Inv chain ⟨Chain.moved s.cursor (chain.tryFrom s.cursor outcome).1, s.tried ++ (chain.tryFrom s.cursor outcome).1⟩ := by
  have htried : ∀ j ∈ (chain.tryFrom s.cursor outcome).1, chain.Open j := fun j hj => open_of_mem_tried h.start hj
  have hall : ∀ j ∈ s.tried ++ (chain.tryFrom s.cursor outcome).1, chain.Open j := by
    intro j hj
    rcases List.mem_append.mp hj with hj | hj
    · exact h.tried j hj
    · exact htried j hj
  unfold Chain.moved
  cases hlast : (chain.tryFrom s.cursor outcome).1.getLast? with
  | none => exact ⟨h.start, h.serving, hall⟩
  | some index =>
    have hindex := htried index (List.mem_of_getLast? hlast)
    refine ⟨?_, hindex, hall⟩
    dsimp only
    split
    · exact hindex
    · exact h.start

theorem Inv.step {s s' : Use} {call : Call} (h : Inv chain s) (hs : chain.step s call = some s') : Inv chain s' := by
  cases call with
  | stream calls =>
    cases hs
    exact h.moved _
  | chat replies =>
    cases hs
    exact h.moved _
  | advanceEmptyCompletion e nested =>
    cases hs
    unfold advanceEmptyCompletion
    split
    · exact h
    · split
      · exact h
      · next entry hentry =>
        split
        · exact h
        · next hc =>
          simp only [not_or, Bool.not_eq_false] at hc
          refine ⟨fun i hi hb => ?_, h.serving, h.tried⟩
          rcases Nat.lt_or_eq_of_le (Nat.le_of_lt_succ hi) with hlt | rfl
          · exact h.serving i hlt hb
          · rw [not_matches_of_barrier hb hentry e] at hc
            exact absurd hc.2.2 Bool.false_ne_true

end Chain

open Chain in
/-- **The chain commits to one model.** In every call of `stream`, whatever the
entries do, the consumer sees output of at most one entry, and the error of an
entry reaches it exactly when the entry is the last, its triggers do not match
the error, or the consumer has seen output of it. And in no sequence of calls
on a chain or a cursor of it is an entry beyond a barrier tried. -/
theorem chain_commits_to_one_model (chain : Chain) :
    (∀ c calls, let r := chain.stream c calls
      (∀ i d j d', (i, d) ∈ r.output → (j, d') ∈ r.output → d.transportActivity = false →
        d'.transportActivity = false → i = j) ∧
      ∀ i ∈ r.tried, ∀ entry e, chain.entries[i]? = some entry → (served c calls i).ending = .raised e →
        (r.ending = .raised i e ↔ i + 1 = chain.entries.length ∨ entry.matches e = false ∨
          ∃ d, (i, d) ∈ r.output ∧ d.transportActivity = false)) ∧
    (∀ managed es s, Trace chain.step (fun _ _ _ => True) (Chain.fresh managed) es s →
      ∀ i j, chain.Barrier i → i < j → j ∉ s.tried) := by
  refine ⟨fun c calls => ⟨?_, ?_⟩, ?_⟩
  · -- an entry with output that the consumer has seen is not passed
    have hlt : ∀ i d j d', (i, d) ∈ (chain.stream c calls).output → (j, d') ∈ (chain.stream c calls).output →
        d.transportActivity = false → ¬i < j := by
      intro i d j d' hi hj ht hij
      have hti := (mem_output.mp hi).1
      obtain ⟨entry, e, -, ho, -⟩ := passed_of_lt (remaining_pairwise c) hti (mem_output.mp hj).1 hij
      have hyes := (yielded_iff hti).mpr ⟨d, hi, ht⟩
      unfold streamOutcome at ho
      split at ho
      · cases ho
      · rw [hyes] at ho
        cases ho
    intro i d j d' hi hj ht ht'
    have := hlt i d j d' hi hj ht
    have := hlt j d' i d hj hi ht'
    omega
  · intro i hi entry e hentry hend
    have hpos : i < chain.entries.length := (List.getElem?_eq_some_iff.mp hentry).1
    have hstart : c.startIndex ≤ i := by
      obtain ⟨p, hp, rfl⟩ := List.mem_map.mp ((tried_initial _).subset hi)
      exact (mem_remaining.mp hp).2
    have ho : streamOutcome c calls i = some (e, (served c calls i).deltas.any fun d => !d.transportActivity) := by
      rw [streamOutcome, hend]
    have hiff := raised_iff (remaining_pairwise c) hi (mem_remaining.mpr ⟨hentry, hstart⟩) ho
    rw [yielded_iff hi] at hiff
    refine hiff.trans ?_
    rw [show i = chain.entries.length - 1 ↔ i + 1 = chain.entries.length by omega, or_comm, or_assoc]
  · intro managed es s ht i j hb hij hj
    have hinv : Inv chain s := by
      refine Trace.invariant (I := fun _ s => Inv chain s) ?_ (fun _ _ _ _ h _ hs => h.step hs) ht
      exact ⟨fun i hi => absurd hi (Nat.not_lt_zero i), fun i hi => absurd hi (Nat.not_lt_zero i), by simp [fresh]⟩
    exact hinv.tried j hj i hij hb

/-- A primary that is passed on a timeout, a barrier, and a third entry. -/
def barrierChain : Chain :=
  .postInit [⟨some [.timeout], "a"⟩, ⟨some [], "b"⟩, ⟨none, "c"⟩] [.anyError] (by decide)

def timedOut : LlmError := { typeName := "ReadTimeout", text := "", timeoutError := true }

/-- The primary times out before its first output, the barrier fails in the
middle of its own: the third entry is not tried. -/
theorem chain_commits_barrierChain :
    let calls : ℕ → Chain.EntryStream := fun
      | 0 => ⟨⟨[{ transportActivity := true }], .raised timedOut⟩, "1.0"⟩
      | _ => ⟨⟨[{ content := "partial" }], .raised timedOut⟩, "1.0"⟩
    let r := barrierChain.stream ⟨false, 0, 0⟩ calls
    r.tried = [0, 1] ∧ r.ending = .raised 1 timedOut ∧ (∃ d, (1, d) ∈ r.output ∧ d.transportActivity = false) := by
  intro calls r
  have hentry : barrierChain.entries[1]? = some ⟨some [], "b"⟩ := by decide
  refine ⟨by decide +kernel, ?_, ⟨{ content := "partial", provider := "b" }, by decide +kernel, rfl⟩⟩
  exact (((chain_commits_to_one_model barrierChain).1 _ calls).2 1 (by decide +kernel) _ timedOut hentry
    (by decide +kernel)).mpr (.inr (.inl (by decide)))

end Providers
end AgentCore
