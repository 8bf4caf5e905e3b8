/-
# Guards in the loop

The repetition guards as observers of the agent loop. Each answers a turn end by the turns that
have ended in the loop, so a loop with one of them ends where its row is full, whatever the
model, the tools, the host and the other observers do.

Key definitions: `repetitionGuard`, `textRepetitionGuard`.
Key theorems: `repeated_calls_end`, `repeated_texts_end`.
-/
import AgentCore.Loop.Observers
import AgentCore.Observers.RepetitionGuard
import AgentCore.Observers.TextRepetitionGuard

namespace AgentCore.Observers

open Loop (Attached Ended Guards Host Hook LoopConfig Observer Reply TurnContext runObserved)

/-- An observer that hears of turn ends only. -/
def atTurnEnds (State : Type) (start : State) (onTurnEnd : State → TurnContext → State × Option Loop.Intervention) :
    Observer where
  State := State
  critical := true
  start := start
  hook
    | .turnEnd, state, metadata, ctx =>
      ((onTurnEnd state ctx).1, metadata, (onTurnEnd state ctx).2.elim .nothing .intervenes)
    | _, state, metadata, _ => (state, metadata, .nothing)

/-- A state that tells the row makes a guard. -/
def guardsAtTurnEnds {State : Type} {start : State}
    {onTurnEnd : State → TurnContext → State × Option Loop.Intervention} {bad : List TurnContext → Prop}
    (Tells : State → List TurnContext → Prop) (hstart : Tells start [])
    (hkeeps : ∀ {s past ctx}, Tells s past → Tells (onTurnEnd s ctx).1 (past ++ [ctx]))
    (hstops : ∀ {s past ctx}, Tells s past → bad (past ++ [ctx]) →
      ∃ iv, (onTurnEnd s ctx).2 = some iv ∧ iv.stopReason ≠ "") :
    Guards (atTurnEnds State start onTurnEnd) bad where
  Tells := Tells
  critical := rfl
  start := hstart
  elsewhere := by
    intro hook state metadata ctx past hne htells
    cases hook with
    | beforeLlm => exact htells
    | llmResponse => exact htells
    | turnEnd => exact absurd rfl hne
  turnEnd := hkeeps
  stops := by
    intro state metadata ctx past htells hbad
    obtain ⟨iv, hiv, hstop⟩ := hstops htells hbad
    refine ⟨iv, ?_, hstop⟩
    simp only [atTurnEnds, hiv, Option.elim_some]

/-! ### Repeated calls -/

section Calls

open RepetitionGuard

variable (signer : Signer String) (g : RepetitionGuard.Guard)

/-- The calls of a turn as the guard signs them. -/
def signedCalls (ctx : TurnContext) : List (Call String) := ctx.toolCalls.map fun c => ⟨c.name, c.arguments⟩

def repetitionGuard : Observer :=
  atTurnEnds RepetitionGuard.State {} fun s ctx => RepetitionGuard.onTurnEnd signer g s (signedCalls ctx)

/-- The turns that have ended, by their calls. -/
def turnCalls (ended : List Ended) : List (List (Call String)) := ended.map fun e => signedCalls e.ctx

def repetitionGuards :
    Guards (repetitionGuard signer g) fun ctxs => RepetitionGuard.due signer g (ctxs.map signedCalls) = some stop :=
  guardsAtTurnEnds (fun s past => Tells signer s (past.map signedCalls)) tells_start
    (fun h => by
      rw [List.map_append]
      exact tells_onTurnEnd h)
    (fun h hbad => by
      rw [List.map_append] at hbad
      exact ⟨stop, (onTurnEnd_due h).trans hbad, by decide⟩)

/-- **Repeated calls end the loop**: no more turns in a row end on the same calls than the guard
allows, and where they are as many, that is the end of the last attempt. -/
theorem repeated_calls_end (hstop : g.stopAfter ≠ 0) (cfg : LoopConfig) (host : ℕ → Host)
    {observers : List Observer} (hmem : repetitionGuard signer g ∈ observers) (messages : History)
    (toolNames : List String) {past : List Ended}
    (hpast : past <+: (runObserved cfg host observers messages toolNames).2.ended) :
    streak signer (turnCalls past) ≤ g.stopAfter ∧
      (streak signer (turnCalls past) = g.stopAfter →
        past = (runObserved cfg host observers messages toolNames).2.ended ∧
          ∀ e ∈ past.getLast?, e.attempt = (runObserved cfg host observers messages toolNames).2.loop.attempts) := by
  have hends := (repetitionGuards signer g).ends cfg host hmem messages toolNames
  have hfull : ∀ before e, before ++ [e] <+: (runObserved cfg host observers messages toolNames).2.ended →
      g.stopAfter ≤ streak signer (turnCalls (before ++ [e])) →
      before ++ [e] = (runObserved cfg host observers messages toolNames).2.ended ∧
        e.attempt = (runObserved cfg host observers messages toolNames).2.loop.attempts := by
    intro before e hpre hrow
    refine hends before e hpre ?_
    have hturns : ((before ++ [e]).map (·.ctx)).map signedCalls = turnCalls (before ++ [e]) := List.map_map
    dsimp only
    rw [hturns]
    exact if_pos ⟨hstop, hrow⟩
  have hempty : streak signer (turnCalls []) = 0 := rfl
  -- The turns before the last one are not the whole run, so their row is not full.
  have hshort : ∀ before e, before ++ [e] <+: (runObserved cfg host observers messages toolNames).2.ended →
      streak signer (turnCalls before) < g.stopAfter := by
    intro before e hpre
    by_contra hrow
    rw [Nat.not_lt] at hrow
    rcases List.eq_nil_or_concat before with rfl | ⟨earlier, d, rfl⟩
    · omega
    · rw [List.concat_eq_append] at hpre hrow
      have hwhole := (hfull earlier d ((List.prefix_append _ _).trans hpre) hrow).1
      have hlen := hpre.length_le
      rw [← hwhole, List.length_append, List.length_singleton] at hlen
      omega
  rcases List.eq_nil_or_concat past with rfl | ⟨before, e, rfl⟩
  · rw [hempty]
    exact ⟨Nat.zero_le _, fun h => absurd h.symm hstop⟩
  · rw [List.concat_eq_append] at hpast ⊢
    constructor
    · have hle := streak_concat_le signer (turnCalls before) (signedCalls e.ctx)
      have hlt := hshort before e hpast
      have hrow : turnCalls (before ++ [e]) = turnCalls before ++ [signedCalls e.ctx] := List.map_append
      rw [hrow]
      omega
    · intro hrow
      obtain ⟨hwhole, hattempt⟩ := hfull before e hpast hrow.ge
      refine ⟨hwhole, fun d hd => ?_⟩
      rw [List.getLast?_concat] at hd
      obtain rfl := Option.some.inj hd
      exact hattempt

/-- A model that asks for the same page again and again. -/
def stubborn : Host where
  env := { call := .response { toolCalls := [{ id := "call_a", name := "web_fetch", arguments := "{}" }] } }
  compactor := ⟨id, id, id⟩

def plainSigner : Signer String := ⟨id, id⟩

theorem repeated_calls_end_stubborn :
    let run := runObserved { maxTurns := 10 } (fun _ => stubborn) [repetitionGuard plainSigner (.ofOptions 2 3)] []
      ["web_fetch"]
    run.1.stoppedBy = some "repeated_tool_calls" ∧ run.2.ended.length = 3 ∧
      streak plainSigner (turnCalls run.2.ended) ≤ 3 := by
  refine ⟨by decide +kernel, by decide +kernel, ?_⟩
  exact (repeated_calls_end plainSigner (.ofOptions 2 3) (by decide) { maxTurns := 10 } (fun _ => stubborn)
    (List.mem_singleton_self _) [] ["web_fetch"] (List.prefix_refl _)).1

end Calls

/-! ### Repeated texts -/

section Texts

open TextRepetitionGuard

variable {F : Type} [LE F] [DecidableLE F] (py : Python F) (g : TextRepetitionGuard.Guard F)

def textRepetitionGuard : Observer :=
  atTurnEnds TextRepetitionGuard.State {} fun s ctx => TextRepetitionGuard.onTurnEnd py g s ctx.aiText

/-- The turns that have ended, by their texts. -/
def turnTexts (ended : List Ended) : List String := ended.map fun e => e.ctx.aiText

def textRepetitionGuards : Guards (textRepetitionGuard py g) fun ctxs =>
    ∃ past aiText, ctxs.map (·.aiText) = past ++ [aiText] ∧ TextRepetitionGuard.due py g past aiText = some stop :=
  guardsAtTurnEnds (fun s past => Tells py g s (past.map (·.aiText))) tells_start
    (fun h => by
      rw [List.map_append]
      exact (onTurnEnd_spec h _).1)
    (fun {s past ctx} h hbad => by
      obtain ⟨before, aiText, heq, hdue⟩ := hbad
      rw [List.map_append, List.map_singleton] at heq
      obtain ⟨rfl, hlast⟩ := List.append_inj' heq rfl
      obtain rfl := List.singleton_inj.mp hlast
      exact ⟨stop, (onTurnEnd_spec h _).2.trans hdue, by decide⟩)

/-- **Repeated texts end the loop**: where the guard may stop, no more turns in a row end on the same
long text than it allows. -/
theorem repeated_texts_end (hstop : g.enableStop = true) (hwindow : 0 < g.windowSize)
    (hthreshold : g.similarityThreshold ≤ py.ratios.one) (cfg : LoopConfig) (host : ℕ → Host)
    {observers : List Observer} (hmem : textRepetitionGuard py g ∈ observers) (messages : History)
    (toolNames : List String) {before copies after : List Ended} {aiText : String}
    (hended : (runObserved cfg host observers messages toolNames).2.ended = before ++ copies ++ after)
    (hcopies : ∀ e ∈ copies, e.ctx.aiText = aiText) (hcounts : counts py g aiText = true) :
    copies.length ≤ g.stopAfter := by
  by_contra hlong
  have htwo := g.two_le
  have hmin := g.inject_le_stop
  -- The copy that fills the row, with another one behind it.
  obtain ⟨first, e, d, rest, rfl, hfirst⟩ : ∃ first e d rest,
      copies = first ++ e :: d :: rest ∧ first.length + 1 = g.stopAfter := by
    have hdrop : 2 ≤ (copies.drop (g.stopAfter - 1)).length := by
      rw [List.length_drop]
      omega
    match hd : copies.drop (g.stopAfter - 1) with
    | [] => simp [hd] at hdrop
    | [e] => simp [hd] at hdrop
    | e :: d :: rest =>
      refine ⟨copies.take (g.stopAfter - 1), e, d, rest, ?_, ?_⟩
      · rw [← hd, List.take_append_drop]
      · rw [List.length_take]
        omega
  have htexts : turnTexts (before ++ first) = turnTexts before ++ List.replicate first.length aiText := by
    have hfirst : turnTexts first = List.replicate first.length aiText := by
      refine List.eq_replicate_iff.mpr ⟨List.length_map _, fun text htext => ?_⟩
      obtain ⟨c, hc, rfl⟩ := List.mem_map.mp htext
      exact hcopies c (List.mem_append_left _ hc)
    rw [← hfirst]
    exact List.map_append
  have he : e.ctx.aiText = aiText := hcopies e (List.mem_append_right _ List.mem_cons_self)
  have hdue : TextRepetitionGuard.due py g (turnTexts (before ++ first)) aiText = some stop := by
    have hrow := length_le_row hwindow hthreshold (shingles (normalise py aiText) g.shingleSize)
      (kept py g (turnTexts before)) first.length
    rw [← kept_copies _ hcounts, ← htexts] at hrow
    rw [due_counts _ hcounts rfl, if_pos ⟨hstop, by omega⟩]
  have hpre : before ++ first ++ [e] <+: (runObserved cfg host observers messages toolNames).2.ended :=
    ⟨d :: rest ++ after, by rw [hended]; simp⟩
  have hbad : ((before ++ first ++ [e]).map (·.ctx)).map (·.aiText) = turnTexts (before ++ first) ++ [aiText] := by
    rw [List.map_map, List.map_append, List.map_singleton, Function.comp_apply, he]
    rfl
  have hwhole := ((textRepetitionGuards py g).ends cfg host hmem messages toolNames (before ++ first) e hpre
    ⟨_, aiText, hbad, hdue⟩).1
  rw [hended] at hwhole
  have hlen := congrArg List.length hwhole
  simp only [List.length_append, List.length_cons, List.length_nil] at hlen
  omega

/-- A model that waits, turn after turn. -/
def patient : Host where
  env :=
    { call := .response
        { toolCalls := [{ id := "call_a", name := "wait", arguments := "{}" }], aiText := "still waiting" } }
  compactor := ⟨id, id, id⟩

def impatient : TextRepetitionGuard.Guard ℚ :=
  { byDefault with
    similarityThreshold := 1
    minChars := 8
    enableStop := true }

def waitedTurns : List Ended :=
  (runObserved { maxTurns := 9 } (fun _ => patient) [textRepetitionGuard exact impatient] [] ["wait"]).2.ended

theorem repeated_texts_end_patient :
    waitedTurns.map (·.ctx.aiText) = List.replicate 6 "still waiting" ∧ waitedTurns.length ≤ 6 := by
  have htexts : waitedTurns.map (·.ctx.aiText) = List.replicate 6 "still waiting" := by decide +kernel
  have hcopies : ∀ e ∈ waitedTurns, e.ctx.aiText = "still waiting" := fun e he =>
    List.eq_of_mem_replicate (htexts ▸ List.mem_map_of_mem he)
  have hended : waitedTurns = [] ++ waitedTurns ++ [] := by rw [List.nil_append, List.append_nil]
  exact ⟨htexts, repeated_texts_end exact impatient rfl (by decide) (by decide +kernel) { maxTurns := 9 }
    (fun _ => patient) (List.mem_singleton_self _) [] ["wait"] hended hcopies (by decide +kernel)⟩

end Texts

end AgentCore.Observers
