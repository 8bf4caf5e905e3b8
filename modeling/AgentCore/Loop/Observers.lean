/-
# The loop and its observers

`notify_observers` of `loop_types.py` calls a hook of each observer in turn, and
`merge_interventions` makes one intervention of what they return: all messages, the
first stop, every control that any of them asks for. Only a critical observer is
waited for and heard, and one that raises has said nothing. Observers keep a state of
their own; with the loop and with each other they share the entries of the loop's
metadata, by which they narrow the tools of a turn or ask for a compaction.

A loop with observers is a run of the loop in the surroundings they make, so what holds of
every run holds of it; at each hook they have a part in it by the one intervention that the
critical ones' answers make, and the others none (`observers_united`). A guard that answers
a bad row of turns with a stop ends the loop there, whatever the others say (`Guards.ends`).

The hooks for single tool calls and their results stay with the surroundings, and so
does the one for an interrupted wait. Background observers do not write metadata.

Key definitions: `mergeInterventions`, `Observer`, `notify`, `observedAttempt`,
`observedRun`, `Said`, `Guards`.
Key theorems: `observers_united`, `Guards.ends`.
-/
import AgentCore.Loop.Run

namespace AgentCore
namespace Loop

/-! ### Hooks -/

/-- What one more observer adds. -/
def mergeOne (merged iv : Intervention) : Intervention where
  injectMessages := merged.injectMessages ++ iv.injectMessages
  stopReason := if merged.stopReason = "" then iv.stopReason else merged.stopReason
  skipToolExecution := merged.skipToolExecution || iv.skipToolExecution
  popLastMessage := merged.popLastMessage || iv.popLastMessage
  continueToNextTurn := merged.continueToNextTurn || iv.continueToNextTurn

def mergeInterventions (ivs : List Intervention) : Intervention := ivs.foldl mergeOne {}

/-- The entries of the metadata that the loop reads. -/
structure Metadata where
  /-- `_llm_strip_tools`. -/
  stripTools : Bool := false
  /-- `_llm_allowed_tools`. -/
  allowedTools : Option (List String) := none
  /-- `FORCE_COMPACTION_KEY`. -/
  forceCompaction : Bool := false
  /-- `COMPACTION_SEQ_KEY`. -/
  compactionSeq : ℕ := 0

/-- What a hook is shown. -/
structure TurnContext where
  turn : ℤ
  maxTurns : ℤ
  aiText : String := ""
  toolCalls : List ToolCall := []
  messages : History
  promptTokens : ℕ := 0
  completionTokens : ℕ := 0
  blockedToolCalls : List ToolCall := []
  toolSchemasStripped : Bool := false
  finishReason : String := ""

inductive Hook
  | beforeLlm
  | llmResponse
  | turnEnd
  deriving DecidableEq

inductive Reply
  | raised
  | nothing
  | intervenes (iv : Intervention)

def Reply.toList : Reply → List Intervention
  | .intervenes iv => [iv]
  | _ => []

structure Observer where
  State : Type
  critical : Bool
  /-- The state `on_loop_start` leaves. -/
  start : State
  hook : Hook → State → Metadata → TurnContext → State × Metadata × Reply

/-- An observer in a state of its own. -/
abbrev Attached := (o : Observer) × o.State

def notify (hook : Hook) (ctx : TurnContext) : List Attached → Metadata → List Attached × Metadata × List Intervention
  | [], metadata => ([], metadata, [])
  | ⟨o, s⟩ :: rest, metadata =>
    if o.critical then
      let (s, metadata, reply) := o.hook hook s metadata ctx
      let (rest, metadata, ivs) := notify hook ctx rest metadata
      (⟨o, s⟩ :: rest, metadata, reply.toList ++ ivs)
    else
      let (rest, metadata, ivs) := notify hook ctx rest metadata
      (⟨o, s⟩ :: rest, metadata, ivs)

/-! ### An attempt with observers -/

/-- What neither the loop nor its observers decide. -/
structure Host where
  /-- Its interventions, its narrowing of the tools and its compactor are the observers' to make. -/
  env : TurnEnv
  /-- `visible` of the tools bound anew. -/
  visible : Option (List String) := none
  shouldCompact : ℤ → History → Bool := fun _ _ => false
  compactor : Compactor

/-- The end of a turn, as the log of the run has it. -/
structure Ended where
  attempt : ℤ
  ctx : TurnContext

structure Observed where
  loop : LoopState
  observers : List Attached
  metadata : Metadata := {}
  ended : List Ended := []

section Source

variable (cfg : LoopConfig)

/-- The request: what was narrowed before applies, and the observers are asked. -/
def prepare (host : Host) (a : Observed) : TurnEnv × Observed :=
  let allowedTools :=
    if host.env.resolvedTools.isSome ∧ host.visible.isSome then host.visible else a.metadata.allowedTools
  let metadata := { a.metadata with stripTools := false, allowedTools := allowedTools }
  let ctx : TurnContext := { turn := a.loop.turn + 1, maxTurns := cfg.maxTurns, messages := a.loop.messages }
  let (observers, metadata, ivs) := notify .beforeLlm ctx a.observers metadata
  ({ host.env with
      stripTools := a.metadata.stripTools
      allowedTools := allowedTools
      onBeforeLlm := mergeInterventions ivs
      onLlmResponse := {}
      onTurnEnd := {}
      compaction := none },
    { a with observers := observers, metadata := metadata })

/-- The context of a turn with a response; `s` is the state at the request. -/
def responseContext (env : TurnEnv) (s : LoopState) (r : Response) : TurnContext where
  turn := s.turn
  maxTurns := cfg.maxTurns
  aiText := r.aiText
  toolCalls := parsedCalls cfg env s.toolNames s.turn r
  messages := recordResponse cfg env s.toolNames s.turn s.messages r
  promptTokens := r.promptTokens
  completionTokens := r.completionTokens
  blockedToolCalls := blockedCalls (gate cfg env s.toolNames) (identifiedCalls cfg env s.toolNames s.turn r)
  toolSchemasStripped := env.stripTools
  finishReason := r.finishReason

/-- The response the attempt has the observers hear of, with the state at the request. -/
def responded (env : TurnEnv) (s : LoopState) : Option (Response × LoopState) :=
  if env.onBeforeLlm.stopReason ≠ "" then none
  else match env.call with
    | .failure _ => none
    | .response r => if escapes env r then none else some (r, beforeCall env s)

def hearResponse (env : TurnEnv) (a : Observed) : TurnEnv × Observed :=
  match responded env a.loop with
  | none => (env, a)
  | some (r, s) =>
    let (observers, metadata, ivs) := notify .llmResponse (responseContext cfg env s r) a.observers a.metadata
    ({ env with onLlmResponse := mergeInterventions ivs }, { a with observers := observers, metadata := metadata })

/-- The calls of the turn are carried out: the state after that, and the observers' stop reason. -/
def dispatched (env : TurnEnv) (s : LoopState) (p : Processed) : LoopState × String :=
  let s := { s with noToolRetries := 0, truncationContinuations := 0, runawayRecoveries := 0,
                    truncatedTextParts := [] }
  if p.skipToolExecution then
    let detail := "tool execution was suppressed for this turn; re-issue it if " ++ "still needed."
    ({ s with messages := answerUnexecutedToolCalls s.messages detail }, "")
  else
    let (messages, stopReason) := executeToolCalls cfg env s.turn s.totalToolCalls s.messages p.parsed
    ({ s with messages := messages, totalToolCalls := s.totalToolCalls + p.parsed.length }, stopReason)

/-- The state in which the attempt comes to `_handle_turn_end`, with the response of the turn. -/
def atTurnEnd (env : TurnEnv) (s : LoopState) : Option (Response × LoopState) :=
  match responded env s with
  | none => none
  | some (r, s) =>
    let s := logged env s (some (decide (parsedCalls cfg env s.toolNames s.turn r ≠ [])))
    let p := processLlmResponse cfg env s.toolNames s.turn s.messages r
    if p.stopReason ≠ "" ∨ p.continueToNextTurn ∨ r.rejectionReason ≠ "" ∨ p.parsed = [] then none
    else
      let (s, stopReason) := dispatched cfg env (afterResponse cfg env s r) p
      if stopReason ≠ "" ∨ overflows cfg env s then none else some (r, s)

/-- `_handle_turn_end` and what the loop makes of it. -/
def closeTurn (env : TurnEnv) (s : LoopState) : Outcome :=
  let (messages, stopReason, again) := handleTurnEnd env s.messages
  let s := { s with messages := messages }
  if stopReason ≠ "" then .stop s stopReason
  else if again then .next { s with turn := s.turn - 1 }
  else .next s

/-- The surroundings with other decisions at the end of the turn. -/
def TurnEnv.closedBy (env : TurnEnv) (iv : Intervention) (c : Option Compactor) : TurnEnv :=
  { env with onTurnEnd := iv, compaction := c }

/-- The end of the turn: the observers are asked, and a compaction is due where one of them
wanted it or the policy does. -/
def hearTurnEnd (host : Host) (env : TurnEnv) (a : Observed) : TurnEnv × Observed :=
  match atTurnEnd cfg env a.loop with
  | none => (env, a)
  | some (r, s) =>
    let ctx : TurnContext := { responseContext cfg env (beforeCall env a.loop) r with messages := s.messages }
    let (observers, metadata, ivs) := notify .turnEnd ctx a.observers a.metadata
    let iv := mergeInterventions ivs
    let messages := injectMessages (if iv.popLastMessage then popLastAssistantTurn s.messages else s.messages)
      iv.injectMessages
    let compacts := iv.stopReason = "" && !iv.continueToNextTurn &&
      (metadata.forceCompaction || host.shouldCompact s.turn messages)
    (env.closedBy iv (if compacts then some host.compactor else none),
      { a with
        observers := observers
        metadata :=
          if compacts then { metadata with forceCompaction := false, compactionSeq := metadata.compactionSeq + 1 }
          else metadata
        ended := a.ended ++ [⟨s.attempts, ctx⟩] })

/-- The surroundings the observers make, and what the attempt does to them. -/
def surroundings (host : Host) (a : Observed) : TurnEnv × Observed :=
  let (env, a) := prepare cfg host a
  let (env, a) := hearResponse cfg env a
  hearTurnEnd cfg host env a

def observedAttempt (host : Host) (a : Observed) : Outcome × Observed :=
  let (env, a') := surroundings cfg host a
  let outcome := attempt cfg env a.loop
  (outcome, { a' with loop := outcome.state })

def observedRun (host : ℕ → Host) : ℕ → Observed → RunResult × Observed
  | 0, a => (finish cfg a.loop, a)
  | left + 1, a =>
    if a.loop.turn < cfg.maxTurns then
      match observedAttempt cfg (host a.loop.attempts.toNat) a with
      | (.next _, a) => observedRun host left a
      | (.stop s reason, a) => (⟨s, some reason⟩, a)
      | (.raised s, a) => (⟨s, none⟩, a)
    else (finish cfg a.loop, a)

/-- A run of the loop with observers. -/
def runObserved (host : ℕ → Host) (observers : List Observer) (messages : History) (toolNames : List String) :
    RunResult × Observed :=
  observedRun cfg host (maxAttempts cfg).toNat
    { loop := { messages := messages, toolNames := toolNames }, observers := observers.map fun o => ⟨o, o.start⟩ }

end Source

/-! ### What an attempt comes to -/

section Attempts

variable {cfg : LoopConfig} {host : Host} {env : TurnEnv} {s s' : LoopState} {r : Response} {a : Observed}

theorem withCalls_eq (p : Processed) :
    withCalls cfg env s p =
      if (dispatched cfg env s p).2 ≠ "" then .stop (dispatched cfg env s p).1 (dispatched cfg env s p).2
      else if overflows cfg env (dispatched cfg env s p).1 then
        .stop { (dispatched cfg env s p).1 with
          messages := overflowHistory env (dispatched cfg env s p).1.messages } "context_limit_reached"
      else closeTurn env (dispatched cfg env s p).1 := by
  unfold withCalls dispatched closeTurn
  by_cases hskip : p.skipToolExecution = true
  · simp only [if_pos hskip, Nat.add_zero]
  · simp only [if_neg hskip]

/-- Where the attempt comes to the end of its turn, that decides. -/
theorem attempt_of_atTurnEnd (h : atTurnEnd cfg env s = some (r, s')) : attempt cfg env s = closeTurn env s' := by
  unfold atTurnEnd responded at h
  unfold attempt
  by_cases hbefore : env.onBeforeLlm.stopReason ≠ ""
  · rw [if_pos hbefore] at h
    cases h
  rw [if_neg hbefore] at h ⊢
  cases hcall : env.call with
  | failure f =>
    rw [hcall] at h
    cases h
  | response r =>
    rw [hcall] at h
    dsimp only at h ⊢
    by_cases hescapes : escapes env r = true
    · rw [if_pos hescapes] at h
      cases h
    rw [if_neg hescapes] at h ⊢
    unfold respond
    dsimp only at h ⊢
    split_ifs at h with hcond hover
    simp only [not_or] at hcond hover
    obtain ⟨rfl, rfl⟩ := Prod.mk.inj (Option.some.inj h)
    rw [if_neg hcond.1, if_neg hcond.2.1, if_neg hcond.2.2.1, if_neg hcond.2.2.2, withCalls_eq, if_neg hover.1,
      if_neg hover.2]

theorem callSlots_closedBy (env : TurnEnv) (iv : Intervention) (c : Option Compactor) (turn : ℤ) (total : ℕ)
    (calls : List ToolCall) (i : ℕ) :
    callSlots (env.closedBy iv c) turn total i calls = callSlots env turn total i calls := by
  induction calls generalizing i with
  | nil => rfl
  | cons c calls ih =>
    rw [callSlots, callSlots, ih]
    rfl

theorem dispatched_closedBy (env : TurnEnv) (iv : Intervention) (c : Option Compactor) (s : LoopState) (p : Processed) :
    dispatched cfg (env.closedBy iv c) s p = dispatched cfg env s p := by
  have hresults : ∀ turn total calls,
      toolResults (env.closedBy iv c) turn total calls = toolResults env turn total calls := by
    intro turn total calls
    unfold toolResults
    rw [callSlots_closedBy]
    rfl
  have hexecute : ∀ turn total messages calls,
      executeToolCalls cfg (env.closedBy iv c) turn total messages calls =
        executeToolCalls cfg env turn total messages calls := by
    intro turn total messages calls
    unfold executeToolCalls
    rw [hresults]
    rfl
  unfold dispatched
  dsimp only
  rw [hexecute]

/-- What is decided at the end of a turn has no part in what comes before it. -/
theorem atTurnEnd_closedBy (env : TurnEnv) (iv : Intervention) (c : Option Compactor) (s : LoopState) :
    atTurnEnd cfg (env.closedBy iv c) s = atTurnEnd cfg env s := by
  have hresponded : responded (env.closedBy iv c) s = responded env s := rfl
  unfold atTurnEnd
  rw [hresponded]
  cases responded env s with
  | none => rfl
  | some found =>
    dsimp only
    rw [dispatched_closedBy]
    rfl

theorem closeTurn_attempts (env : TurnEnv) (s : LoopState) : (closeTurn env s).state.attempts = s.attempts := by
  unfold closeTurn
  dsimp only
  split_ifs <;> rfl

theorem atTurnEnd_attempts (h : atTurnEnd cfg env s = some (r, s')) : s'.attempts = s.attempts + 1 := by
  rw [← (attempt_frame cfg env s).2.1, attempt_of_atTurnEnd h, closeTurn_attempts]

/-- A stop at the end of the turn ends the loop. -/
theorem closeTurn_stop (h : env.onTurnEnd.stopReason ≠ "") :
    ∃ s', closeTurn env s = .stop s' env.onTurnEnd.stopReason := by
  unfold closeTurn handleTurnEnd
  dsimp only
  rw [if_pos h]
  dsimp only
  rw [if_pos h]
  exact ⟨_, rfl⟩

end Attempts

/-! ### What the observers say -/

/-- All messages in their order, the first stop, and every control that one asks for. -/
def united (ivs : List Intervention) : Intervention where
  injectMessages := ivs.flatMap (·.injectMessages)
  stopReason := ((ivs.map (·.stopReason)).find? (· ≠ "")).getD ""
  skipToolExecution := ivs.any (·.skipToolExecution)
  popLastMessage := ivs.any (·.popLastMessage)
  continueToNextTurn := ivs.any (·.continueToNextTurn)

theorem united_cons (iv : Intervention) (ivs : List Intervention) : united (iv :: ivs) = mergeOne iv (united ivs) := by
  unfold united mergeOne
  by_cases hstop : iv.stopReason = ""
  · simp [hstop]
  · simp [hstop]

theorem mergeOne_assoc (iv iv' iv'' : Intervention) :
    mergeOne (mergeOne iv iv') iv'' = mergeOne iv (mergeOne iv' iv'') := by
  unfold mergeOne
  by_cases hstop : iv.stopReason = ""
  · simp [hstop, Bool.or_assoc]
  · simp [hstop, Bool.or_assoc]

theorem mergeInterventions_eq (ivs : List Intervention) : mergeInterventions ivs = united ivs := by
  have hfold : ∀ (ivs : List Intervention) (merged : Intervention),
      ivs.foldl mergeOne merged = mergeOne merged (united ivs) := by
    intro ivs
    induction ivs with
    | nil =>
      intro merged
      have hstop : (if merged.stopReason = "" then "" else merged.stopReason) = merged.stopReason := by
        split
        · next hempty => exact hempty.symm
        · rfl
      simp [mergeOne, united, hstop]
    | cons iv ivs ih =>
      intro merged
      rw [List.foldl_cons, ih, mergeOne_assoc, united_cons]
  have hempty : mergeOne {} (united ivs) = united ivs := by simp [mergeOne]
  exact (hfold ivs {}).trans hempty

/-- What some critical observers have said at a hook, in their order, and nobody else. -/
def Said (observers : List Observer) (hook : Hook) (iv : Intervention) : Prop :=
  ∃ speakers ivs, speakers.Sublist (observers.filter (·.critical)) ∧
    List.Forall₂ (fun o iv => ∃ state metadata ctx, (o.hook hook state metadata ctx).2.2 = .intervenes iv) speakers ivs ∧
    iv = united ivs

theorem said_nothing (observers : List Observer) (hook : Hook) : Said observers hook {} :=
  ⟨[], [], List.nil_sublist _, .nil, rfl⟩

section Notify

variable {hook : Hook} {ctx : TurnContext} {o : Observer} {state : o.State} {rest : List Attached} {metadata : Metadata}

theorem notify_critical (h : o.critical = true) : notify hook ctx (⟨o, state⟩ :: rest) metadata =
    (⟨o, (o.hook hook state metadata ctx).1⟩ :: (notify hook ctx rest (o.hook hook state metadata ctx).2.1).1,
      (notify hook ctx rest (o.hook hook state metadata ctx).2.1).2.1,
      (o.hook hook state metadata ctx).2.2.toList ++ (notify hook ctx rest (o.hook hook state metadata ctx).2.1).2.2) := by
  rw [notify, if_pos h]

theorem notify_passive (h : ¬ o.critical = true) : notify hook ctx (⟨o, state⟩ :: rest) metadata =
    (⟨o, state⟩ :: (notify hook ctx rest metadata).1, (notify hook ctx rest metadata).2) := by
  rw [notify, if_neg h]

end Notify

theorem notify_said (hook : Hook) (ctx : TurnContext) : ∀ (os : List Attached) (metadata : Metadata),
    Said (os.map (·.1)) hook (mergeInterventions (notify hook ctx os metadata).2.2)
  | [], _ => said_nothing _ _
  | ⟨o, state⟩ :: rest, metadata => by
    by_cases hcritical : o.critical = true
    · obtain ⟨speakers, ivs, hsub, hsaid, heq⟩ := notify_said hook ctx rest (o.hook hook state metadata ctx).2.1
      rw [mergeInterventions_eq] at heq
      rw [notify_critical hcritical, mergeInterventions_eq, List.map_cons]
      unfold Said
      rw [List.filter_cons_of_pos hcritical]
      cases hreply : (o.hook hook state metadata ctx).2.2 with
      | raised | nothing => exact ⟨speakers, ivs, hsub.cons o, hsaid, heq⟩
      | intervenes iv =>
        refine ⟨o :: speakers, iv :: ivs, hsub.cons_cons o, .cons ⟨state, metadata, ctx, hreply⟩ hsaid, ?_⟩
        rw [united_cons, ← heq, ← united_cons]
        rfl
    · obtain ⟨speakers, ivs, hsub, hsaid, heq⟩ := notify_said hook ctx rest metadata
      rw [notify_passive hcritical, List.map_cons]
      unfold Said
      rw [List.filter_cons_of_neg hcritical]
      exact ⟨speakers, ivs, hsub, hsaid, heq⟩

theorem notify_kinds (hook : Hook) (ctx : TurnContext) : ∀ (os : List Attached) (metadata : Metadata),
    (notify hook ctx os metadata).1.map (·.1) = os.map (·.1)
  | [], _ => rfl
  | ⟨o, state⟩ :: rest, metadata => by
    by_cases hcritical : o.critical = true
    · rw [notify_critical hcritical]
      exact congrArg (o :: ·) (notify_kinds hook ctx rest _)
    · rw [notify_passive hcritical]
      exact congrArg (o :: ·) (notify_kinds hook ctx rest metadata)

/-! #### Who is not heard -/

def Reply.quiet : Reply → Reply
  | .raised => .nothing
  | reply => reply

/-- The observer that says nothing where this one raises. -/
def Observer.quiet (o : Observer) : Observer :=
  { o with
    hook := fun hook state metadata ctx =>
      let (state, metadata, reply) := o.hook hook state metadata ctx
      (state, metadata, reply.quiet) }

/-- The critical observers, none of which raises. -/
def heard (observers : List Observer) : List Observer := (observers.filter (·.critical)).map Observer.quiet

def Attached.quiet (a : Attached) : Attached := ⟨a.1.quiet, a.2⟩

def heardAttached (os : List Attached) : List Attached := (os.filter (·.1.critical)).map Attached.quiet

theorem heardAttached_critical {a : Attached} (h : a.1.critical = true) (os : List Attached) :
    heardAttached (a :: os) = a.quiet :: heardAttached os :=
  congrArg (List.map Attached.quiet) (List.filter_cons_of_pos h)

theorem heardAttached_passive {a : Attached} (h : ¬ a.1.critical = true) (os : List Attached) :
    heardAttached (a :: os) = heardAttached os :=
  congrArg (List.map Attached.quiet) (List.filter_cons_of_neg h)

theorem Reply.toList_quiet (reply : Reply) : reply.quiet.toList = reply.toList := by
  cases reply with
  | raised | nothing | intervenes => rfl

theorem notify_quiet {hook : Hook} {ctx : TurnContext} {o : Observer} {state : o.State} {rest : List Attached}
    {metadata : Metadata} (h : o.critical = true) : notify hook ctx (Attached.quiet ⟨o, state⟩ :: rest) metadata =
      (Attached.quiet ⟨o, (o.hook hook state metadata ctx).1⟩ ::
          (notify hook ctx rest (o.hook hook state metadata ctx).2.1).1,
        (notify hook ctx rest (o.hook hook state metadata ctx).2.1).2.1,
        (o.hook hook state metadata ctx).2.2.toList ++
          (notify hook ctx rest (o.hook hook state metadata ctx).2.1).2.2) := by
  have hquiet : o.quiet.critical = true := h
  rw [← Reply.toList_quiet]
  exact notify_critical hquiet

theorem notify_heard (hook : Hook) (ctx : TurnContext) : ∀ (os : List Attached) (metadata : Metadata),
    notify hook ctx (heardAttached os) metadata =
      (heardAttached (notify hook ctx os metadata).1, (notify hook ctx os metadata).2)
  | [], _ => rfl
  | ⟨o, state⟩ :: rest, metadata => by
    by_cases hcritical : o.critical = true
    · rw [heardAttached_critical hcritical, notify_quiet hcritical, notify_critical hcritical,
        notify_heard hook ctx rest]
      dsimp only
      rw [heardAttached_critical hcritical]
    · rw [heardAttached_passive hcritical, notify_passive hcritical, notify_heard hook ctx rest]
      dsimp only
      rw [heardAttached_passive hcritical]

/-- The same with the heard observers alone. -/
def Observed.heard (a : Observed) : Observed := { a with observers := heardAttached a.observers }

section Heard

variable (cfg : LoopConfig)

theorem prepare_heard (host : Host) (a : Observed) :
    prepare cfg host a.heard = ((prepare cfg host a).1, (prepare cfg host a).2.heard) := by
  unfold prepare Observed.heard
  dsimp only
  rw [notify_heard]

theorem hearResponse_heard (env : TurnEnv) (a : Observed) :
    hearResponse cfg env a.heard = ((hearResponse cfg env a).1, (hearResponse cfg env a).2.heard) := by
  have hsame : a.heard.loop = a.loop := rfl
  unfold hearResponse
  rw [hsame]
  cases responded env a.loop with
  | none => rfl
  | some found =>
    unfold Observed.heard
    dsimp only
    rw [notify_heard]

theorem hearTurnEnd_heard (host : Host) (env : TurnEnv) (a : Observed) :
    hearTurnEnd cfg host env a.heard = ((hearTurnEnd cfg host env a).1, (hearTurnEnd cfg host env a).2.heard) := by
  have hsame : a.heard.loop = a.loop := rfl
  unfold hearTurnEnd
  rw [hsame]
  cases atTurnEnd cfg env a.loop with
  | none => rfl
  | some found =>
    unfold Observed.heard
    dsimp only
    rw [notify_heard]

theorem observedAttempt_heard (host : Host) (a : Observed) :
    observedAttempt cfg host a.heard = ((observedAttempt cfg host a).1, (observedAttempt cfg host a).2.heard) := by
  unfold observedAttempt surroundings
  dsimp only
  rw [prepare_heard]
  dsimp only
  rw [hearResponse_heard]
  dsimp only
  rw [hearTurnEnd_heard]
  rfl

theorem observedRun_heard (host : ℕ → Host) : ∀ (left : ℕ) (a : Observed),
    observedRun cfg host left a.heard = ((observedRun cfg host left a).1, (observedRun cfg host left a).2.heard)
  | 0, _ => rfl
  | left + 1, a => by
    have hsame : a.heard.loop = a.loop := rfl
    unfold observedRun
    rw [hsame, observedAttempt_heard]
    by_cases hturn : a.loop.turn < cfg.maxTurns
    · rw [if_pos hturn, if_pos hturn]
      cases observedAttempt cfg (host a.loop.attempts.toNat) a with
      | mk outcome a' =>
        cases outcome with
        | next s => exact observedRun_heard host left a'
        | stop s reason => rfl
        | raised s => rfl
    · rw [if_neg hturn, if_neg hturn]

end Heard

/-! ### A run with observers is a run -/

section Runs

variable {cfg : LoopConfig} {host : ℕ → Host}

/-- A run looks at the surroundings of its own attempts only. -/
theorem runLoop_congr {env env' : ℕ → TurnEnv} : ∀ (left : ℕ) (s : LoopState), 0 ≤ s.attempts →
    (∀ i, s.attempts.toNat ≤ i → env i = env' i) → runLoop cfg env left s = runLoop cfg env' left s
  | 0, _, _, _ => rfl
  | left + 1, s, hs, h => by
    unfold runLoop
    rw [← h _ (Nat.le_refl _)]
    have hcount := (attempt_frame cfg (env s.attempts.toNat) s).2.1
    split
    · cases ha : attempt cfg (env s.attempts.toNat) s with
      | next s' =>
        rw [ha] at hcount
        simp only [Outcome.state] at hcount
        exact runLoop_congr left s' (by omega) fun i hi => h i (by omega)
      | stop s' reason => rfl
      | raised s' => rfl
    · rfl

/-- These are the host's surroundings but for the observers' part in them: what they have said,
the tools they have narrowed, and the compaction that is due. -/
structure Spoken (observers : List Observer) (host : Host) (env : TurnEnv) : Prop where
  surrounds : env = { host.env with
    stripTools := env.stripTools, allowedTools := env.allowedTools, onBeforeLlm := env.onBeforeLlm
    onLlmResponse := env.onLlmResponse, onTurnEnd := env.onTurnEnd, compaction := env.compaction }
  compaction : env.compaction = none ∨ env.compaction = some host.compactor
  beforeLlm : Said observers .beforeLlm env.onBeforeLlm
  llmResponse : Said observers .llmResponse env.onLlmResponse
  turnEnd : Said observers .turnEnd env.onTurnEnd

theorem surroundings_spoken (cfg : LoopConfig) (host : Host) (a : Observed) :
    Spoken (a.observers.map (·.1)) host (surroundings cfg host a).1 ∧
      (surroundings cfg host a).2.observers.map (·.1) = a.observers.map (·.1) := by
  have hprepare : Spoken (a.observers.map (·.1)) host (prepare cfg host a).1 ∧
      (prepare cfg host a).2.observers.map (·.1) = a.observers.map (·.1) :=
    ⟨⟨rfl, .inl rfl, notify_said .beforeLlm _ a.observers _, said_nothing _ _, said_nothing _ _⟩,
      notify_kinds .beforeLlm _ a.observers _⟩
  have hresponse : ∀ (env : TurnEnv) (b : Observed), Spoken (b.observers.map (·.1)) host env →
      Spoken (b.observers.map (·.1)) host (hearResponse cfg env b).1 ∧
        (hearResponse cfg env b).2.observers.map (·.1) = b.observers.map (·.1) := by
    intro env b hb
    unfold hearResponse
    cases responded env b.loop with
    | none => exact ⟨hb, rfl⟩
    | some found =>
      have hhost := fun iv => congrArg (fun e : TurnEnv => { e with onLlmResponse := iv }) hb.surrounds
      exact ⟨⟨hhost _, hb.compaction, hb.beforeLlm, notify_said .llmResponse _ b.observers _, hb.turnEnd⟩,
        notify_kinds .llmResponse _ b.observers _⟩
  have hend : ∀ (env : TurnEnv) (b : Observed), Spoken (b.observers.map (·.1)) host env →
      Spoken (b.observers.map (·.1)) host (hearTurnEnd cfg host env b).1 ∧
        (hearTurnEnd cfg host env b).2.observers.map (·.1) = b.observers.map (·.1) := by
    intro env b hb
    unfold hearTurnEnd
    cases atTurnEnd cfg env b.loop with
    | none => exact ⟨hb, rfl⟩
    | some found =>
      have hhost := fun iv c => congrArg (fun e : TurnEnv => e.closedBy iv c) hb.surrounds
      exact ⟨⟨hhost _ _, (ite_eq_or_eq _ _ _).symm, hb.beforeLlm, hb.llmResponse,
        notify_said .turnEnd _ b.observers _⟩, notify_kinds .turnEnd _ b.observers _⟩
  obtain ⟨hspoken, hkinds⟩ := hprepare
  rw [← hkinds] at hspoken ⊢
  obtain ⟨hspoken', hkinds'⟩ := hresponse _ _ hspoken
  rw [← hkinds'] at hspoken' ⊢
  exact hend _ _ hspoken'

theorem observedRun_eq {observers : List Observer} : ∀ (left : ℕ) (a : Observed), 0 ≤ a.loop.attempts →
    a.observers.map (·.1) = observers →
    ∃ env : ℕ → TurnEnv, (observedRun cfg host left a).1 = runLoop cfg env left a.loop ∧
      ∀ i, Spoken observers (host i) (env i)
  | 0, a, _, hkinds => ⟨fun i => (surroundings cfg (host i) a).1, rfl,
      fun i => hkinds ▸ (surroundings_spoken cfg (host i) a).1⟩
  | left + 1, a, h, hkinds => by
    let own : ℕ → TurnEnv := fun i => (surroundings cfg (host i) a).1
    have hown : ∀ i, Spoken observers (host i) (own i) := fun i => hkinds ▸ (surroundings_spoken cfg (host i) a).1
    have hcount := (attempt_frame cfg (own a.loop.attempts.toNat) a.loop).2.1
    unfold observedRun observedAttempt
    by_cases hturn : a.loop.turn < cfg.maxTurns
    · rw [if_pos hturn]
      dsimp only
      cases ha : attempt cfg (own a.loop.attempts.toNat) a.loop with
      | next s' =>
        rw [ha] at hcount
        simp only [Outcome.state] at hcount
        obtain ⟨env, hrun, henv⟩ := observedRun_eq left
          { (surroundings cfg (host a.loop.attempts.toNat) a).2 with loop := s' } (by dsimp only; omega)
          ((surroundings_spoken cfg (host a.loop.attempts.toNat) a).2.trans hkinds)
        refine ⟨Function.update env a.loop.attempts.toNat (own a.loop.attempts.toNat), ?_, fun i => ?_⟩
        · unfold runLoop
          rw [if_pos hturn, Function.update_self, ha]
          refine hrun.trans (runLoop_congr left s' (by omega) fun i hi => ?_)
          rw [Function.update_of_ne (by omega)]
        · by_cases hi : i = a.loop.attempts.toNat
          · rw [hi, Function.update_self]
            exact hown _
          · rw [Function.update_of_ne hi]
            exact henv i
      | stop s' reason =>
        refine ⟨own, ?_, hown⟩
        unfold runLoop
        rw [if_pos hturn, ha]
      | raised s' =>
        refine ⟨own, ?_, hown⟩
        unfold runLoop
        rw [if_pos hturn, ha]
    · refine ⟨own, ?_, hown⟩
      unfold runLoop
      rw [if_neg hturn, if_neg hturn]

end Runs

/-! ### Guards -/

/-- The observer answers a bad row of turn ends with a stop: it knows the row from its state. -/
structure Guards (o : Observer) (bad : List TurnContext → Prop) where
  Tells : o.State → List TurnContext → Prop
  critical : o.critical = true
  start : Tells o.start []
  elsewhere : ∀ {hook state metadata ctx past}, hook ≠ .turnEnd → Tells state past →
    Tells (o.hook hook state metadata ctx).1 past
  turnEnd : ∀ {state metadata ctx past}, Tells state past →
    Tells (o.hook .turnEnd state metadata ctx).1 (past ++ [ctx])
  stops : ∀ {state metadata ctx past}, Tells state past → bad (past ++ [ctx]) →
    ∃ iv, (o.hook .turnEnd state metadata ctx).2.2 = .intervenes iv ∧ iv.stopReason ≠ ""

theorem mergeOne_stopReason (merged iv : Intervention) :
    (mergeOne merged iv).stopReason ≠ "" ↔ merged.stopReason ≠ "" ∨ iv.stopReason ≠ "" := by
  unfold mergeOne
  by_cases h : merged.stopReason = ""
  · simp [h]
  · simp [h]

/-- One stop is enough. -/
theorem mergeInterventions_stopReason {iv : Intervention} {ivs : List Intervention} (hmem : iv ∈ ivs)
    (hstop : iv.stopReason ≠ "") : (mergeInterventions ivs).stopReason ≠ "" := by
  have hfold : ∀ (ivs : List Intervention) (merged : Intervention),
      (ivs.foldl mergeOne merged).stopReason ≠ "" ↔ merged.stopReason ≠ "" ∨ ∃ iv ∈ ivs, iv.stopReason ≠ "" := by
    intro ivs
    induction ivs with
    | nil => simp
    | cons iv ivs ih =>
      intro merged
      rw [List.foldl_cons, ih, mergeOne_stopReason, List.exists_mem_cons_iff, or_assoc]
  exact (hfold ivs {}).mpr (.inr ⟨iv, hmem, hstop⟩)

/-- A critical observer is called in its own state, and its intervention is collected. -/
theorem notify_mem {o : Observer} (hcritical : o.critical = true) (hook : Hook) (ctx : TurnContext)
    {state : o.State} {os : List Attached} (metadata : Metadata) (hmem : ⟨o, state⟩ ∈ os) :
    ∃ md, (⟨o, (o.hook hook state md ctx).1⟩ : Attached) ∈ (notify hook ctx os metadata).1 ∧
      ∀ iv, (o.hook hook state md ctx).2.2 = .intervenes iv → iv ∈ (notify hook ctx os metadata).2.2 := by
  induction os generalizing metadata with
  | nil => cases hmem
  | cons head rest ih =>
    obtain ⟨p, t⟩ := head
    unfold notify
    rcases List.mem_cons.mp hmem with heq | hmem
    · obtain ⟨rfl, ht⟩ := Sigma.mk.inj heq
      obtain rfl := eq_of_heq ht
      rw [if_pos hcritical]
      refine ⟨metadata, List.mem_cons_self, fun iv hiv => ?_⟩
      dsimp only
      rw [hiv]
      exact List.mem_append_left _ (List.mem_singleton_self iv)
    · by_cases hp : p.critical = true
      · rw [if_pos hp]
        obtain ⟨md, hnew, hiv⟩ := ih (p.hook hook t metadata ctx).2.1 hmem
        exact ⟨md, List.mem_cons_of_mem _ hnew, fun iv h => List.mem_append_right _ (hiv iv h)⟩
      · rw [if_neg hp]
        obtain ⟨md, hnew, hiv⟩ := ih metadata hmem
        exact ⟨md, List.mem_cons_of_mem _ hnew, hiv⟩

namespace Guards

variable {o : Observer} {bad : List TurnContext → Prop} (g : Guards o bad) (cfg : LoopConfig)

/-- The guard is among the observers and knows the row. -/
def Watches (a : Observed) : Prop :=
  ∃ state, (⟨o, state⟩ : Attached) ∈ a.observers ∧ g.Tells state (a.ended.map (·.ctx))

/-- No turn so far has ended a bad row. -/
def Fine (bad : List TurnContext → Prop) (ended : List Ended) : Prop :=
  ∀ past e, past ++ [e] <+: ended → ¬ bad ((past ++ [e]).map (·.ctx))

/-- Only the last turn may end a bad row, and then it is of the last attempt. -/
def Ends (bad : List TurnContext → Prop) (a : Observed) : Prop :=
  ∀ past e, past ++ [e] <+: a.ended → bad ((past ++ [e]).map (·.ctx)) →
    past ++ [e] = a.ended ∧ e.attempt = a.loop.attempts

theorem Fine.ends {a : Observed} (h : Fine bad a.ended) : Ends bad a := fun past e hpre hbad =>
  absurd hbad (h past e hpre)

variable {g} in
theorem Watches.prepare {a : Observed} (h : g.Watches a) (host : Host) : g.Watches (prepare cfg host a).2 := by
  obtain ⟨state, hmem, htells⟩ := h
  obtain ⟨md, hnew, -⟩ := notify_mem g.critical .beforeLlm _ _ hmem
  exact ⟨_, hnew, g.elsewhere (by decide) htells⟩

variable {g} in
theorem Watches.hearResponse {a : Observed} (h : g.Watches a) (env : TurnEnv) :
    g.Watches (hearResponse cfg env a).2 := by
  unfold Loop.hearResponse
  split
  · exact h
  · obtain ⟨state, hmem, htells⟩ := h
    obtain ⟨md, hnew, -⟩ := notify_mem g.critical .llmResponse _ _ hmem
    exact ⟨_, hnew, g.elsewhere (by decide) htells⟩

/-- The end of a turn: the row grows by one, and a bad row stops the loop. -/
theorem Watches.hearTurnEnd {g : Guards o bad} {a : Observed} (h : g.Watches a) (host : Host) (env : TurnEnv) :
    g.Watches (hearTurnEnd cfg host env a).2 ∧
      ((hearTurnEnd cfg host env a).2.ended = a.ended ∨
        ∃ e r s, atTurnEnd cfg (hearTurnEnd cfg host env a).1 a.loop = some (r, s) ∧
          (hearTurnEnd cfg host env a).2.ended = a.ended ++ [e] ∧ e.attempt = s.attempts ∧
          (bad ((a.ended ++ [e]).map (·.ctx)) → (hearTurnEnd cfg host env a).1.onTurnEnd.stopReason ≠ "")) := by
  unfold Loop.hearTurnEnd
  cases hend : atTurnEnd cfg env a.loop with
  | none => exact ⟨h, .inl rfl⟩
  | some found =>
    obtain ⟨r, s⟩ := found
    obtain ⟨state, hmem, htells⟩ := h
    let ctx : TurnContext := { responseContext cfg env (beforeCall env a.loop) r with messages := s.messages }
    obtain ⟨md, hnew, hheard⟩ := notify_mem g.critical .turnEnd ctx a.metadata hmem
    have hrow : (a.ended ++ [(⟨s.attempts, ctx⟩ : Ended)]).map (·.ctx) = a.ended.map (·.ctx) ++ [ctx] := List.map_append
    have hbad : bad ((a.ended ++ [(⟨s.attempts, ctx⟩ : Ended)]).map (·.ctx)) →
        (mergeInterventions (notify .turnEnd ctx a.observers a.metadata).2.2).stopReason ≠ "" := by
      rw [hrow]
      intro hbad
      obtain ⟨iv, hreply, hstop⟩ := g.stops htells hbad
      exact mergeInterventions_stopReason (hheard iv hreply) hstop
    have htells' : g.Tells (o.hook .turnEnd state md ctx).1
        ((a.ended ++ [(⟨s.attempts, ctx⟩ : Ended)]).map (·.ctx)) := by
      rw [hrow]
      exact g.turnEnd htells
    exact ⟨⟨_, hnew, htells'⟩, .inr ⟨_, r, s, (atTurnEnd_closedBy env _ _ a.loop).trans hend, rfl, rfl, hbad⟩⟩

theorem hearResponse_loop (env : TurnEnv) (a : Observed) :
    (Loop.hearResponse cfg env a).2.loop = a.loop ∧ (Loop.hearResponse cfg env a).2.ended = a.ended := by
  unfold Loop.hearResponse
  split
  · exact ⟨rfl, rfl⟩
  · exact ⟨rfl, rfl⟩

/-- What an attempt leaves: the loop goes on only after fine turns. -/
theorem attempt_ends {g : Guards o bad} {a : Observed} (hwatches : g.Watches a) (hfine : Fine bad a.ended)
    (host : Host) :
    g.Watches (observedAttempt cfg host a).2 ∧ Ends bad (observedAttempt cfg host a).2 ∧
      ∀ s, (observedAttempt cfg host a).1 = .next s → Fine bad (observedAttempt cfg host a).2.ended := by
  let asked := Loop.prepare cfg host a
  let heard := Loop.hearResponse cfg asked.1 asked.2
  let closed := Loop.hearTurnEnd cfg host heard.1 heard.2
  have hloop : heard.2.loop = a.loop := (hearResponse_loop cfg asked.1 asked.2).1
  have hended : heard.2.ended = a.ended := (hearResponse_loop cfg asked.1 asked.2).2
  obtain ⟨hw, hcases⟩ := ((hwatches.prepare cfg host).hearResponse cfg asked.1).hearTurnEnd cfg host heard.1
  have hattempt : (observedAttempt cfg host a).1 = attempt cfg closed.1 a.loop := rfl
  have hlist : (observedAttempt cfg host a).2.ended = closed.2.ended := rfl
  have hcount : (observedAttempt cfg host a).2.loop.attempts = a.loop.attempts + 1 :=
    (attempt_frame cfg closed.1 a.loop).2.1
  refine ⟨hw, ?_⟩
  rcases hcases with hsame | ⟨e, r, s, hend, hnew, hat, hstop⟩
  · have hfine' : Fine bad (observedAttempt cfg host a).2.ended := by
      rw [hlist, hsame, hended]
      exact hfine
    exact ⟨hfine'.ends, fun _ _ => hfine'⟩
  · rw [hloop] at hend
    rw [hended] at hnew hstop
    have hsplit : ∀ past d, past ++ [d] <+: (observedAttempt cfg host a).2.ended →
        past ++ [d] = a.ended ++ [e] ∨ past ++ [d] <+: a.ended := by
      intro past d hpre
      rw [hlist, hnew, List.prefix_concat_iff] at hpre
      exact hpre
    refine ⟨fun past d hpre hbad => ?_, fun s' hnext past d hpre hbad => ?_⟩
    · rcases hsplit past d hpre with heq | hpre
      · obtain ⟨-, hd⟩ := List.append_inj' heq rfl
        obtain rfl := List.singleton_inj.mp hd
        refine ⟨heq.trans (hlist.trans hnew).symm, ?_⟩
        rw [hat, hcount, atTurnEnd_attempts hend]
      · exact absurd hbad (hfine past d hpre)
    · -- The loop goes on, so the guard has not stopped it.
      rcases hsplit past d hpre with heq | hpre
      · rw [heq] at hbad
        obtain ⟨s'', hclose⟩ := closeTurn_stop (s := s) (hstop hbad)
        rw [hattempt, attempt_of_atTurnEnd hend, hclose] at hnext
        cases hnext
      · exact hfine past d hpre hbad

theorem run_ends {g : Guards o bad} {host : ℕ → Host} : ∀ (left : ℕ) (a : Observed), g.Watches a →
    Fine bad a.ended → Ends bad (observedRun cfg host left a).2
  | 0, _, _, hfine => hfine.ends
  | left + 1, a, hwatches, hfine => by
    obtain ⟨hw, hends, hnext⟩ := attempt_ends cfg hwatches hfine (host a.loop.attempts.toNat)
    unfold observedRun
    split
    · cases hout : observedAttempt cfg (host a.loop.attempts.toNat) a with
      | mk outcome a' =>
        rw [hout] at hw hends hnext
        cases outcome with
        | next s => exact run_ends left a' hw (hnext s rfl)
        | stop s reason => exact hends
        | raised s => exact hends
    · exact hfine.ends

/-- **A guard ends the loop**: among any observers, over any host and whatever the model answers, the
turn that ends a bad row is the last one, and no attempt follows it. -/
theorem ends (g : Guards o bad) (host : ℕ → Host) {observers : List Observer} (hmem : o ∈ observers)
    (messages : History) (toolNames : List String) :
    Ends bad (runObserved cfg host observers messages toolNames).2 := by
  refine run_ends (g := g) cfg _ _ ⟨o.start, List.mem_map_of_mem hmem, g.start⟩ fun past e hpre => ?_
  simp at hpre

end Guards

end Loop
end AgentCore
