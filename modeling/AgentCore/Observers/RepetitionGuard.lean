/-
# Turns that repeat their calls

`RepetitionGuard` of `components/observers/repetition_guard.py` signs the calls of a turn and
counts the turns in a row that have one signature, where a turn without calls breaks the row.
It hints at every multiple of its threshold, and stops the loop where it may and the row is
long enough. The row is a fact about the turns alone (`streak`), and so is what the guard
answers (`repeated_calls_noticed`): it has hinted before it stops, and what it complains of are as many
turns with the calls of this one.

Key definitions: `onTurnEnd`, `answers`, `streak`.
Key theorem: `repeated_calls_noticed`.
-/
import AgentCore.Lib.Window
import AgentCore.Loop.Turn
import AgentCore.Text

namespace AgentCore.Observers.RepetitionGuard

open Loop (Intervention)

variable {A : Type}

structure Call (A : Type) where
  name : String
  args : A
  deriving DecidableEq

/-- The sorted JSON of arguments, or their `repr` where they have none, and the digest of it. -/
structure Signer (A : Type) where
  payload : A → String
  digest : String → String

/-- `_tool_signature`. -/
def toolSignature (signer : Signer A) (c : Call A) : String := c.name ++ ":" ++ signer.digest (signer.payload c.args)

def turnSignature (signer : Signer A) (calls : List (Call A)) : String :=
  Text.join "|" (calls.map (toolSignature signer))

/-- A hint comes before a stop. -/
structure Guard where
  threshold : ℕ
  /-- Zero where the guard does not stop. -/
  stopAfter : ℕ
  two_le : 2 ≤ threshold
  beyond : stopAfter = 0 ∨ threshold < stopAfter

/-- `RepetitionGuard(threshold, stop_after=…)`. -/
def Guard.ofOptions (threshold stopAfter : ℤ) : Guard where
  threshold := (max 2 threshold).toNat
  stopAfter := if stopAfter = 0 then 0 else (max (max 2 threshold + 1) stopAfter).toNat
  two_le := by omega
  beyond := by
    split
    · exact .inl rfl
    · exact .inr (by omega)

structure State where
  lastSignature : String := ""
  streak : ℕ := 0
  deriving DecidableEq

section Source

variable (signer : Signer A) (g : Guard)

def names (calls : List (Call A)) : String :=
  Text.join ", " ((Text.fromKeys (calls.map (·.name))).insertionSort (· ≤ ·))

def stop : Intervention := { stopReason := "repeated_tool_calls" }

def hint (calls : List (Call A)) (streak : ℕ) : Intervention where
  injectMessages :=
    ["You have now called " ++ names calls ++ " " ++ toString streak ++ " times in a row " ++
      "with identical arguments, and the results are not changing. " ++
      "Repeating it again will not help. Change the arguments, use a " ++
      "different tool, or work with what you already have."]

def onTurnEnd (s : State) (calls : List (Call A)) : State × Option Intervention :=
  if calls.isEmpty then ({}, none)
  else if turnSignature signer calls = s.lastSignature then
    let s := { s with streak := s.streak + 1 }
    if g.stopAfter ≠ 0 ∧ g.stopAfter ≤ s.streak then (s, some stop)
    else if s.streak < g.threshold ∨ s.streak % g.threshold ≠ 0 then (s, none)
    else (s, some (hint calls s.streak))
  else (⟨turnSignature signer calls, 1⟩, none)

/-- What the guard answers at the ends of the turns of a loop. -/
def answers : State → List (List (Call A)) → List (Option Intervention)
  | _, [] => []
  | s, calls :: turns => (onTurnEnd signer g s calls).2 :: answers (onTurnEnd signer g s calls).1 turns

/-! ### What it should answer -/

/-- The signature of a turn with calls. -/
def signed (calls : List (Call A)) : Option String := if calls.isEmpty then none else some (turnSignature signer calls)

/-- The turns in a row, up to the last one, that have its signature; none if that has no
calls. -/
def streak (turns : List (List (Call A))) : ℕ :=
  match turns.getLast?.bind (signed signer) with
  | none => 0
  | some signature => Window.trailing (some signature) (turns.map (signed signer))

/-- The answer at the end of the last turn. -/
def due (turns : List (List (Call A))) : Option Intervention :=
  if g.stopAfter ≠ 0 ∧ g.stopAfter ≤ streak signer turns then some stop
  else if g.threshold ≤ streak signer turns ∧ g.threshold ∣ streak signer turns then
    some (hint (turns.getLast?.getD []) (streak signer turns))
  else none

end Source

variable {signer : Signer A} {g : Guard} {s : State} {past : List (List (Call A))} {calls : List (Call A)}

theorem toolSignature_ne (c : Call A) : toolSignature signer c ≠ "" := by
  intro h
  have hlen := congrArg String.length h
  unfold toolSignature at hlen
  rw [String.length_append, String.length_append] at hlen
  have hcolon : ":".length = 1 := rfl
  have hempty : "".length = 0 := rfl
  omega

theorem turnSignature_ne (h : calls.isEmpty = false) : turnSignature signer calls ≠ "" := by
  cases calls with
  | nil => cases h
  | cons c calls => exact Text.join_ne_empty (toolSignature_ne c) _

/-! ### The state tells the row -/

/-- The row of any signature behind these turns is the one counted, or empty. -/
def Tells (signer : Signer A) (s : State) (past : List (List (Call A))) : Prop :=
  ∀ signature, signature ≠ "" →
    Window.trailing (some signature) (past.map (signed signer)) = if signature = s.lastSignature then s.streak else 0

theorem tells_start : Tells signer {} [] := fun signature h => by
  rw [if_neg h]
  rfl

theorem onTurnEnd_state (signer : Signer A) (g : Guard) (s : State) (calls : List (Call A)) :
    (onTurnEnd signer g s calls).1 =
      if calls.isEmpty then {}
      else ⟨turnSignature signer calls, if turnSignature signer calls = s.lastSignature then s.streak + 1 else 1⟩ := by
  unfold onTurnEnd
  by_cases hempty : calls.isEmpty = true
  · rw [if_pos hempty, if_pos hempty]
  rw [if_neg hempty, if_neg hempty]
  by_cases hsame : turnSignature signer calls = s.lastSignature
  · rw [if_pos hsame, if_pos hsame, hsame]
    dsimp only
    split_ifs <;> rfl
  · rw [if_neg hsame, if_neg hsame]

theorem tells_onTurnEnd (h : Tells signer s past) : Tells signer (onTurnEnd signer g s calls).1 (past ++ [calls]) := by
  intro signature hne
  rw [onTurnEnd_state, List.map_append, List.map_singleton]
  by_cases hempty : calls.isEmpty = true
  · have hsigned : signed signer calls = none := if_pos hempty
    rw [if_pos hempty, if_neg hne, hsigned,
      Window.trailing_concat_ne _ (Option.some_ne_none signature).symm]
  have hsigned : signed signer calls = some (turnSignature signer calls) := if_neg hempty
  rw [if_neg hempty, hsigned]
  by_cases heq : signature = turnSignature signer calls
  · rw [if_pos heq, ← heq, Window.trailing_concat_self, h signature hne]
    by_cases hsame : signature = s.lastSignature
    · rw [if_pos hsame, if_pos hsame]
    · rw [if_neg hsame, if_neg hsame]
  · rw [if_neg heq]
    exact Window.trailing_concat_ne _ fun hsome => heq (Option.some.inj hsome).symm

theorem streak_concat_empty (past : List (List (Call A))) (h : calls.isEmpty = true) : streak signer (past ++ [calls]) = 0 := by
  have hsigned : signed signer calls = none := if_pos h
  unfold streak
  rw [List.getLast?_concat, Option.bind_some, hsigned]

theorem streak_concat (past : List (List (Call A))) (h : calls.isEmpty = false) :
    streak signer (past ++ [calls]) =
      Window.trailing (some (turnSignature signer calls)) ((past ++ [calls]).map (signed signer)) := by
  have hsigned : signed signer calls = some (turnSignature signer calls) := if_neg (by rw [h]; nofun)
  unfold streak
  rw [List.getLast?_concat, Option.bind_some, hsigned]

theorem streak_eq (h : Tells signer s past) (hcalls : calls.isEmpty = false) : streak signer (past ++ [calls]) =
    if turnSignature signer calls = s.lastSignature then s.streak + 1 else 1 := by
  have hstate : (onTurnEnd signer (.ofOptions 3 0) s calls).1 =
      ⟨turnSignature signer calls, if turnSignature signer calls = s.lastSignature then s.streak + 1 else 1⟩ := by
    rw [onTurnEnd_state, hcalls]
    rfl
  rw [streak_concat past hcalls, tells_onTurnEnd h _ (turnSignature_ne hcalls), hstate, if_pos rfl]

theorem onTurnEnd_due (h : Tells signer s past) :
    (onTurnEnd signer g s calls).2 = due signer g (past ++ [calls]) := by
  have htwo := g.two_le
  unfold onTurnEnd due
  rw [List.getLast?_concat, Option.getD_some]
  cases hempty : calls.isEmpty with
  | true =>
    rw [streak_concat_empty past hempty, if_pos rfl, if_neg (fun hstop => hstop.1 (Nat.le_zero.mp hstop.2)),
      if_neg (by omega)]
  | false =>
    rw [streak_eq h hempty, if_neg nofun]
    by_cases hsame : turnSignature signer calls = s.lastSignature
    · rw [if_pos hsame, if_pos hsame]
      dsimp only
      by_cases hstop : g.stopAfter ≠ 0 ∧ g.stopAfter ≤ s.streak + 1
      · rw [if_pos hstop, if_pos hstop]
      rw [if_neg hstop, if_neg hstop]
      by_cases hdue : g.threshold ≤ s.streak + 1 ∧ g.threshold ∣ s.streak + 1
      · rw [if_pos hdue, if_neg]
        rw [Nat.dvd_iff_mod_eq_zero] at hdue
        omega
      · rw [if_neg hdue, if_pos]
        rw [Nat.dvd_iff_mod_eq_zero] at hdue
        omega
    · -- the first of a row: neither a stop nor a hint comes before the second
      have hbeyond := g.beyond
      rw [if_neg hsame, if_neg hsame, if_neg (by omega), if_neg (by omega)]

/-- By induction on the turns to come. -/
theorem answers_due (h : Tells signer s past) (turns : List (List (Call A))) :
    answers signer g s turns = (List.range turns.length).map fun i => due signer g (past ++ turns.take (i + 1)) := by
  induction turns generalizing s past with
  | nil => rfl
  | cons calls turns ih =>
    rw [answers, onTurnEnd_due h, ih (tells_onTurnEnd h), List.length_cons, List.range_succ_eq_map, List.map_cons,
      List.map_map]
    congr 1
    refine List.map_congr_left fun i _ => ?_
    rw [Function.comp_apply, List.take_succ_cons, List.append_assoc, List.singleton_append]

/-! ### What it complains of -/

variable {turns : List (List (Call A))}

theorem due_streak (h : due signer g turns ≠ none) : g.threshold ≤ streak signer turns := by
  have hbeyond := g.beyond
  unfold due at h
  split at h
  · omega
  split at h
  · omega
  · exact absurd rfl h

/-- A row is as many turns of one signature. -/
theorem streak_spec {n : ℕ} (hpos : 0 < n) (h : n ≤ streak signer turns) :
    ∃ signature, turns.getLast?.bind (signed signer) = some signature ∧
      n ≤ Window.trailing (some signature) (turns.map (signed signer)) := by
  unfold streak at h
  cases hlast : turns.getLast?.bind (signed signer) with
  | none =>
    rw [hlast] at h
    exact absurd h (Nat.not_le_of_lt hpos)
  | some signature =>
    rw [hlast] at h
    exact ⟨signature, rfl, h⟩

theorem streak_of_trailing {signature : String}
    (h : 0 < Window.trailing (some signature) (turns.map (signed signer))) :
    streak signer turns = Window.trailing (some signature) (turns.map (signed signer)) := by
  induction turns using List.reverseRecOn with
  | nil => exact absurd h (Nat.lt_irrefl 0)
  | append_singleton past calls _ =>
    have hsigned : signed signer calls = some signature := by
      by_contra hne
      rw [List.map_append, List.map_singleton, Window.trailing_concat_ne _ hne] at h
      exact Nat.lt_irrefl 0 h
    unfold streak
    rw [List.getLast?_concat, Option.bind_some, hsigned]

theorem streak_concat_le (signer : Signer A) (past : List (List (Call A))) (calls : List (Call A)) :
    streak signer (past ++ [calls]) ≤ streak signer past + 1 := by
  cases hempty : calls.isEmpty with
  | true =>
    rw [streak_concat_empty past hempty]
    exact Nat.zero_le _
  | false =>
    have hsigned : signed signer calls = some (turnSignature signer calls) := if_neg (by rw [hempty]; nofun)
    rw [streak_concat past hempty, List.map_append, List.map_singleton, hsigned, Window.trailing_concat_self]
    rcases Nat.eq_zero_or_pos (Window.trailing (some (turnSignature signer calls)) (past.map (signed signer))) with
      hzero | hpos
    · omega
    · rw [streak_of_trailing hpos]

/-- The turns a complaint is about. -/
theorem due_repeats (h : due signer g turns ≠ none) :
    g.threshold ≤ turns.length ∧ ∃ signature, ∀ calls ∈ turns.rtake g.threshold, signed signer calls = some signature := by
  obtain ⟨signature, -, hle⟩ := streak_spec (Nat.lt_of_lt_of_le Nat.two_pos g.two_le) (due_streak h)
  obtain ⟨hlen, hall⟩ := Window.le_trailing_iff.mp hle
  rw [List.length_map] at hlen
  refine ⟨hlen, signature, fun calls hcalls => hall _ ?_⟩
  rw [← Window.map_rtake]
  exact List.mem_map_of_mem hcalls

/-- A hint came before, in the same row: the turns it was about and those after it have one
signature. -/
theorem due_hint_before (h : due signer g turns = some stop) :
    ∃ before after, turns = before ++ after ∧ after ≠ [] ∧
      due signer g before = some (hint (before.getLast?.getD []) g.threshold) ∧
      ∃ signature, ∀ calls ∈ turns.rtake (g.threshold + after.length), signed signer calls = some signature := by
  have htwo := g.two_le
  have hstop : g.stopAfter ≠ 0 ∧ g.stopAfter ≤ streak signer turns := by
    by_contra hno
    unfold due at h
    rw [if_neg hno] at h
    split at h
    · exact absurd (congrArg Intervention.stopReason (Option.some.inj h)) (show "" ≠ "repeated_tool_calls" by decide)
    · cases h
  have hbeyond := g.beyond.resolve_left hstop.1
  obtain ⟨signature, -, hle⟩ := streak_spec (by omega) hstop.2
  obtain ⟨n, hn⟩ : ∃ n, Window.trailing (some signature) (turns.map (signed signer)) = n + g.threshold :=
    ⟨_, (Nat.sub_add_cancel (by omega)).symm⟩
  have hlen : n ≤ turns.length := by
    have hall := (Window.le_trailing_iff.mp (Nat.le_of_eq hn.symm)).1
    rw [List.length_map] at hall
    omega
  have hbefore : Window.trailing (some signature) ((turns.take (turns.length - n)).map (signed signer)) = g.threshold := by
    have htake := Window.trailing_take_of_le (Nat.le.intro hn.symm)
    rw [List.length_map, hn, Nat.add_sub_cancel_left] at htake
    rw [List.map_take]
    exact htake
  refine ⟨turns.take (turns.length - n), turns.drop (turns.length - n), (List.take_append_drop ..).symm, ?_, ?_,
    signature, fun calls hcalls => ?_⟩
  · rw [← List.length_pos_iff, List.length_drop]
    omega
  · have hstreak := streak_of_trailing (by rw [hbefore]; omega : 0 < Window.trailing (some signature) _)
    unfold due
    rw [hstreak, hbefore, if_neg (by omega), if_pos ⟨Nat.le_refl _, Nat.dvd_refl _⟩]
  · have hrow : g.threshold + (turns.drop (turns.length - n)).length ≤
        Window.trailing (some signature) (turns.map (signed signer)) := by
      rw [List.length_drop, hn]
      omega
    refine (Window.le_trailing_iff.mp hrow).2 _ ?_
    rw [← Window.map_rtake]
    exact List.mem_map_of_mem hcalls

/-- **Repeated calls are noticed**: at every multiple of its threshold with a hint, and from
the limit on with a stop, which a hint in the same row preceded; and whatever it answers, as
many turns as its threshold have just ended on one signature. -/
theorem repeated_calls_noticed (signer : Signer A) (g : Guard) (turns : List (List (Call A))) :
    answers signer g {} turns = ((List.range turns.length).map fun i => due signer g (turns.take (i + 1))) ∧
    (∀ past, due signer g past ≠ none → g.threshold ≤ past.length ∧
      ∃ signature, ∀ calls ∈ past.rtake g.threshold, signed signer calls = some signature) ∧
    ∀ past, due signer g past = some stop → ∃ before after, past = before ++ after ∧ after ≠ [] ∧
      due signer g before = some (hint (before.getLast?.getD []) g.threshold) ∧
      ∃ signature, ∀ calls ∈ past.rtake (g.threshold + after.length), signed signer calls = some signature :=
  ⟨answers_due tells_start turns, fun _ => due_repeats, fun _ => due_hint_before⟩

def plain : Signer ℕ := ⟨toString, id⟩

def fetch : Call ℕ := ⟨"web_fetch", 7⟩

/-- The second of three equal turns is told so, and the third ends the loop. -/
theorem repeated_calls_noticed_row :
    answers plain (.ofOptions 2 3) {} [[fetch], [fetch], [fetch]] = [none, some (hint [fetch] 2), some stop] ∧
    ∃ before after, [[fetch], [fetch], [fetch]] = before ++ after ∧ after ≠ [] ∧
      due plain (.ofOptions 2 3) before = some (hint (before.getLast?.getD []) 2) ∧
      ∃ signature, ∀ calls ∈ [[fetch], [fetch], [fetch]].rtake (2 + after.length), signed plain calls = some signature := by
  have hnoticed := repeated_calls_noticed plain (.ofOptions 2 3) [[fetch], [fetch], [fetch]]
  have hrow : (List.range 3).map (fun i => due plain (.ofOptions 2 3) ([[fetch], [fetch], [fetch]].take (i + 1))) =
      [none, some (hint [fetch] 2), some stop] := rfl
  exact ⟨hnoticed.1.trans hrow, hnoticed.2.2 _ rfl⟩

end AgentCore.Observers.RepetitionGuard
