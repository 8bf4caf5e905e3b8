/-
# One attempt of the agent loop

The body of the loop of `_run_loop_inner` in `agent_loop.py`, from the request
to the end of the turn. What the loop does not decide itself is one record,
`TurnEnv`: the tools the host resolves, what the provider answers, what the
observers return from each hook (already merged), how each tool call comes out,
the compactor in use and whether the run is paused. Everything the loop itself
computes is a function of that record and its own state.

Calls a parser recovers from text (`Response.textCalls`) exist only when the
response carries no native call. An exception of the parser or of the host's own
functions ends the run, wherever in the turn it comes from (`escapes`). A
compactor is a `Compactor`: a rewriting of histories that keeps the two pairing
invariants its protocol asks for.

The log of the state is a ghost: it holds for each provider call the turn, the
history sent, and whether the response carried a call the loop parsed.

Key definitions: `LoopConfig`, `TurnEnv`, `LoopState`, `processLlmResponse`,
`executeToolCalls`, `handleContextOverflow`, `handleTurnEnd`, `attempt`.
-/
import AgentCore.Loop.History
import AgentCore.ImageAttach
import AgentCore.Lib.Slots
import Mathlib.Data.List.Sort
import Mathlib.Algebra.Ring.Nat

namespace AgentCore
namespace Loop

def extraAttemptsBuffer : ℤ := 200

/-! ### Configuration and surroundings -/

structure LoopPolicy where
  landingToolNames : Option (List String) := none
  terminalToolNames : List String := []
  /-- `no_tool_behavior == "nudge"`. -/
  nudges : Bool := false
  noToolNudgeMessage : String := ""

structure LoopConfig where
  maxTurns : ℤ
  maxToolCallsPerTurn : ℤ := 5
  noToolMaxRetries : ℤ := 2
  truncationMaxContinuations : ℤ := 2
  runawayMaxLoopRecoveries : ℤ := 1
  loopPolicy : LoopPolicy := {}
  keepUnknownNativeCompanions : Bool := false
  maxImagesInHistory : ℤ := -1
  contextOverflowGuard : Bool := false
  summaryPrompt : String := ""
  maxCompletionTokens : ℤ := 0
  maxContextLength : ℤ := 262144

/-- Merged interventions of one hook; the empty stop reason is none. -/
structure Intervention where
  injectMessages : List String := []
  stopReason : String := ""
  skipToolExecution : Bool := false
  popLastMessage : Bool := false
  continueToNextTurn : Bool := false

structure ToolCallIntervention where
  rewriteArgs : Option String := none
  skipWithResult : Option String := none

structure Response where
  /-- The content the history normalizer stores. -/
  content : Content := .text ""
  reasoning : String := ""
  /-- Native calls. -/
  toolCalls : List ToolCall := []
  /-- Calls recovered from the text or the thinking. -/
  textCalls : List ToolCall := []
  /-- The tool-call parser raises on the text, as it does where a call's name is a list. -/
  parserRaises : Bool := false
  aiText : String := ""
  visibleText : String := ""
  finishReason : String := ""
  runaway : Bool := false
  rejectionReason : String := ""
  thinkingHistoryReset : Bool := false
  promptTokens : ℕ := 0
  completionTokens : ℕ := 0

/-- How a provider call that brings no response ends. -/
inductive CallFailure
  | emptyCompletion | wallDeadline
  /-- Out of retries, or no response; a fallback chain may surround the run. -/
  | exhausted (chainFallbackActive : Bool)
  /-- An exception `call_llm` lets out. -/
  | escaped

inductive CallOutcome
  | response (r : Response)
  | failure (f : CallFailure)

structure ToolResult where
  name : String
  result : String
  toolCallId : String
  isError : Bool
  interrupted : Bool

/-- What rendering makes of a tool result besides its role and id. -/
structure Rendered where
  content : Content
  name : String := ""
  resultStoreRef : String := ""
  spillRefs : Option (List String) := none
  imageMeta : List ImageMeta := []

/-- A `MessageCompactor` that honours its protocol. -/
structure Compactor where
  compact : History → History
  wellPaired : ∀ {h : History}, WellPaired h → WellPaired (compact h)
  callsAnswered : ∀ {h : History}, CallsAnswered h → CallsAnswered (compact h)

/-- All that an attempt meets. -/
structure TurnEnv where
  /-- Names of the tools the host binds anew for the turn. -/
  resolvedTools : Option (List String) := none
  stripTools : Bool := false
  allowedTools : Option (List String) := none
  onBeforeLlm : Intervention := {}
  /-- The per-call addendum, as a user's message or the system's. -/
  addendum : Option (Bool × String) := none
  call : CallOutcome
  /-- The random part of ids given to calls without one. -/
  idSuffix : String := ""
  onLlmResponse : Intervention := {}
  /-- Why a native call's arguments are invalid, by its id. -/
  invalidReason : String → Option String := fun _ => none
  onToolCall : ℕ → ToolCall → ToolCallIntervention := fun _ _ => {}
  /-- The text a call comes back with, and whether its wait was interrupted. -/
  execute : ℕ → ToolCall → String × Bool := fun _ _ => ("", false)
  render : ToolResult → Rendered := fun r => { content := .text r.result }
  onToolWaitInterrupted : Intervention := {}
  estimateMessageTokens : Message → ℕ := fun _ => 0
  estimateTextTokens : String → ℕ := fun _ => 0
  /-- What the host tells the model about a turn dropped by the overflow guard. -/
  recoveryNote : Option { m : Message // PlainMsg m } := none
  onTurnEnd : Intervention := {}
  /-- The compactor, when the policy or an observer asks for a pass. -/
  compaction : Option Compactor := none
  paused : Bool := false
  /-- One of the host's functions raises. -/
  hostRaises : Bool := false

/-- One provider call: the turn, the history sent, and whether the response
(if there was one) carried a parsed call. -/
structure TurnRecord where
  turn : ℤ
  request : History
  parsed : Option Bool

structure LoopState where
  messages : History
  toolNames : List String
  turn : ℤ := 0
  attempts : ℤ := 0
  totalToolCalls : ℕ := 0
  noToolRetries : ℕ := 0
  truncationContinuations : ℕ := 0
  runawayRecoveries : ℕ := 0
  truncatedTextParts : List String := []
  truncationFinalContent : String := ""
  lastInputTokens : ℕ := 0
  lastOutputTokens : ℕ := 0
  log : List TurnRecord := []

/-- How an attempt ends. -/
inductive Outcome
  | next (s : LoopState)
  | stop (s : LoopState) (reason : String)
  | raised (s : LoopState)

/-! ### The request -/

/-- The transient message of the per-call addendum. -/
def addendumMsg (asUser : Bool) (text : String) : Message :=
  { (if asUser then userMsg text else systemMsg text) with transient := true }

def messagesForCall (env : TurnEnv) (messages : History) : History :=
  match env.addendum with
  | some (asUser, text) => if text ≠ "" then messages ++ [addendumMsg asUser text] else messages
  | none => messages

def allowedNames (env : TurnEnv) (toolNames : List String) : Option (List String) :=
  env.allowedTools.map fun names => names.filter (· ∈ toolNames)

/-! ### The response -/

/-- What `parse` of the tool-call parser returns, where it does: known native calls, all of them when none
is known or the host keeps unknown companions, and text calls only when there
is no native one. -/
def parseCalls (cfg : LoopConfig) (r : Response) (names : List String) : List ToolCall :=
  if r.toolCalls = [] then r.textCalls
  else
    let known := r.toolCalls.filter fun c => c.name ∈ names
    if known ≠ [] ∧ cfg.keepUnknownNativeCompanions = false then known else r.toolCalls

/-- Ids for the calls that are not the assistant message's own, from index `i`
on. -/
def renumber (nativeIds : List String) (turn : ℤ) (suffix : String) : ℕ → List ToolCall → List ToolCall
  | _, [] => []
  | i, c :: cs =>
    (if c.id ∈ nativeIds then c
      else { c with id := "call_" ++ toString turn ++ "_" ++ toString i ++ "_" ++ suffix }) ::
      renumber nativeIds turn suffix (i + 1) cs

def assignUniqueToolCallIds (parsedCalls : List ToolCall) (historyMsg : Message) (turn : ℤ)
    (suffix : String) : List ToolCall :=
  let nativeIds := (historyMsg.toolCalls.map (·.id)).filter (· ≠ "")
  if parsedCalls.all (·.id ∈ nativeIds) then parsedCalls
  else renumber nativeIds turn suffix 0 parsedCalls

/-- Tools a landing turn accepts. -/
def landingNames (cfg : LoopConfig) (toolNames : List String) : List String :=
  (cfg.loopPolicy.landingToolNames.getD cfg.loopPolicy.terminalToolNames).filter (· ∈ toolNames)

def deliveryNotice (names : List String) : String :=
  "[tool call blocked] Delivery mode permits only: " ++
    Text.join ", " (names.dedup.insertionSort (· ≤ ·)) ++ ". Save and " ++
    "validate required artifacts now."

def landingNotice : String :=
  "[tool call blocked] final turn accepts only " ++
    "workflow-approved landing tools; report current progress."

/-- The names a turn accepts and what a blocked call is told: the landing
tools when the schemas were stripped, the allowed ones in delivery mode. -/
def gate (cfg : LoopConfig) (env : TurnEnv) (toolNames : List String) : Option (List String × String) :=
  if env.stripTools then some (landingNames cfg toolNames, landingNotice)
  else (allowedNames env toolNames).map fun names => (names, deliveryNotice names)

def acceptedCalls (g : Option (List String × String)) (calls : List ToolCall) : List ToolCall :=
  match g with
  | some (names, _) => calls.filter fun c => c.name ∈ names
  | none => calls

def blockedCalls (g : Option (List String × String)) (calls : List ToolCall) : List ToolCall :=
  match g with
  | some (names, _) => calls.filter fun c => c.name ∉ names
  | none => []

/-- The answers to blocked native calls. -/
def blockedAnswers (g : Option (List String × String)) (r : Response) (calls : List ToolCall) : List Message :=
  match g with
  | some (_, notice) =>
    ((blockedCalls g calls).filter fun c => c.id ≠ "" ∧ c.id ∈ r.toolCalls.map (·.id)).map fun c =>
      toolMsg notice c.id
  | none => []

def cappedCalls (cfg : LoopConfig) (calls : List ToolCall) : List ToolCall :=
  if 0 < cfg.maxToolCallsPerTurn then calls.take cfg.maxToolCallsPerTurn.toNat else calls

def overCapCalls (cfg : LoopConfig) (calls : List ToolCall) : List ToolCall :=
  if 0 < cfg.maxToolCallsPerTurn then calls.drop cfg.maxToolCallsPerTurn.toNat else []

def overCapAnswers (cfg : LoopConfig) (calls : List ToolCall) : List Message :=
  ((overCapCalls cfg calls).filter fun c => c.id ≠ "").map fun c =>
    toolMsg ("[tool call skipped] exceeded the per-turn tool-call cap of " ++
      toString cfg.maxToolCallsPerTurn ++ "; re-issue it in a later turn if still needed.") c.id

/-- The calls the parser hands over, with their final ids. -/
def identifiedCalls (cfg : LoopConfig) (env : TurnEnv) (toolNames : List String) (turn : ℤ) (r : Response) :
    List ToolCall :=
  let names := if env.stripTools then toolNames else (allowedNames env toolNames).getD toolNames
  assignUniqueToolCallIds (parseCalls cfg r names) (assistantMsg r.content r.toolCalls r.reasoning) turn
    env.idSuffix

/-- The calls the turn is to execute. -/
def parsedCalls (cfg : LoopConfig) (env : TurnEnv) (toolNames : List String) (turn : ℤ) (r : Response) :
    List ToolCall :=
  cappedCalls cfg (acceptedCalls (gate cfg env toolNames) (identifiedCalls cfg env toolNames turn r))

/-- The history with the assistant message and an answer to each call that
will not be executed. -/
def recordResponse (cfg : LoopConfig) (env : TurnEnv) (toolNames : List String) (turn : ℤ)
    (messages : History) (r : Response) : History :=
  let messages := if r.thinkingHistoryReset then resetSignedThinkingHistory messages else messages
  let historyMsg := assistantMsg r.content r.toolCalls r.reasoning
  let g := gate cfg env toolNames
  let calls := identifiedCalls cfg env toolNames turn r
  let messages := messages ++ [historyMsg] ++ blockedAnswers g r calls ++
    overCapAnswers cfg (acceptedCalls g calls)
  answerDroppedToolCalls messages historyMsg (parsedCalls cfg env toolNames turn r) toolNames

/-- What `_process_llm_response` hands back. -/
structure Processed where
  messages : History
  parsed : List ToolCall
  stopReason : String
  continueToNextTurn : Bool
  skipToolExecution : Bool

def processLlmResponse (cfg : LoopConfig) (env : TurnEnv) (toolNames : List String) (turn : ℤ)
    (messages : History) (r : Response) : Processed :=
  let parsed := parsedCalls cfg env toolNames turn r
  let blocked := blockedCalls (gate cfg env toolNames) (identifiedCalls cfg env toolNames turn r)
  let messages := recordResponse cfg env toolNames turn messages r
  let iv := env.onLlmResponse
  let messages := if iv.popLastMessage then popLastAssistantTurn messages else messages
  let messages := injectMessages messages iv.injectMessages
  if iv.continueToNextTurn then
    ⟨answerUnexecutedToolCalls messages
      ("the turn was restarted before this call ran; re-issue it if " ++ "still needed."),
      parsed, iv.stopReason, true, false⟩
  else if iv.stopReason = "" ∧ blocked ≠ [] ∧ parsed = [] then
    ⟨messages, parsed, "max_turns", false, false⟩
  else ⟨messages, parsed, iv.stopReason, false, iv.skipToolExecution⟩

/-! ### Tool execution -/

/-- A call is executed or gets a result made up for it. -/
def callSlot (env : TurnEnv) (turn : ℤ) (totalToolCalls idx : ℕ) (c : ToolCall) :
    (ℕ × ToolCall) ⊕ ToolResult :=
  let c := if c.id = "" then { c with id := "call_" ++ toString turn ++ "_" ++ toString (totalToolCalls + idx) }
    else c
  let iv := env.onToolCall idx c
  let c := match iv.rewriteArgs with
    | some args => { c with arguments := args }
    | none => c
  match (if iv.rewriteArgs.isSome then none else env.invalidReason c.id), iv.skipWithResult with
  | some reason, _ =>
    .inr ⟨c.name, "[invalid tool call] " ++ reason ++ "; re-issue the call with valid arguments.", c.id,
      true, false⟩
  | none, some result => .inr ⟨c.name, result, c.id, false, false⟩
  | none, none => .inl (idx, c)

/-- `execute_tools`: one result for each call, in order. -/
def executeTools (env : TurnEnv) (calls : List (ℕ × ToolCall)) : List ToolResult :=
  calls.map fun e => ⟨e.2.name, (env.execute e.1 e.2).1, e.2.id, false, (env.execute e.1 e.2).2⟩

def callSlots (env : TurnEnv) (turn : ℤ) (totalToolCalls : ℕ) : ℕ → List ToolCall →
    List ((ℕ × ToolCall) ⊕ ToolResult)
  | _, [] => []
  | i, c :: cs => callSlot env turn totalToolCalls i c :: callSlots env turn totalToolCalls (i + 1) cs

/-- The results of a batch: the two halves written into the slots of the
calls, unfilled slots dropped. -/
def toolResults (env : TurnEnv) (turn : ℤ) (totalToolCalls : ℕ) (calls : List ToolCall) : List ToolResult :=
  let slots := callSlots env turn totalToolCalls 0 calls
  let executable := Slots.lefts 0 slots
  let executed := executeTools env (executable.map (·.2))
  let entries := (executable.zip executed).map fun e => (e.1.1, e.2)
  let ordered := Slots.fill (Slots.fill (List.replicate slots.length none) entries) (Slots.rights 0 slots)
  ordered.filterMap id

def toolResultMsg (env : TurnEnv) (tr : ToolResult) : Message :=
  let out := env.render tr
  { role := .tool, content := out.content, name := out.name, toolCallId := tr.toolCallId,
    spillRefs := out.spillRefs, resultStoreRef := out.resultStoreRef, imageMeta := out.imageMeta }

/-- The history after the batch, and the observer's stop reason. -/
def executeToolCalls (cfg : LoopConfig) (env : TurnEnv) (turn : ℤ) (totalToolCalls : ℕ)
    (messages : History) (calls : List ToolCall) : History × String :=
  let results := toolResults env turn totalToolCalls calls
  let messages := evictOldImages (messages ++ results.map (toolResultMsg env)) cfg.maxImagesInHistory
  if results.any (·.interrupted) then
    (injectMessages messages env.onToolWaitInterrupted.injectMessages, env.onToolWaitInterrupted.stopReason)
  else (messages, "")

/-! ### The end of a turn -/

/-- `int(estimate * 1.5)`, an exact product. -/
def buffered (tokens : ℕ) : ℕ := tokens * 3 / 2

def overflowEstimate (cfg : LoopConfig) (env : TurnEnv) (s : LoopState) : ℤ :=
  s.lastInputTokens + s.lastOutputTokens +
    ((trailingTools s.messages).map fun m => buffered (env.estimateMessageTokens m)).sum +
    buffered (env.estimateTextTokens cfg.summaryPrompt) + cfg.maxCompletionTokens + 1000

/-- The guard trips on this history. -/
def overflows (cfg : LoopConfig) (env : TurnEnv) (s : LoopState) : Prop :=
  cfg.contextOverflowGuard = true ∧ s.messages ≠ [] ∧ cfg.maxContextLength ≤ overflowEstimate cfg env s

instance (cfg : LoopConfig) (env : TurnEnv) (s : LoopState) : Decidable (overflows cfg env s) := by
  unfold overflows
  infer_instance

/-- The history a tripped guard leaves. -/
def overflowHistory (env : TurnEnv) (messages : History) : History :=
  popTrailingTurn messages ++ (env.recoveryNote.map (·.1)).toList

/-- The history, the stop reason and whether the turn is to be retried. -/
def handleTurnEnd (env : TurnEnv) (messages : History) : History × String × Bool :=
  let iv := env.onTurnEnd
  if iv.stopReason ≠ "" then (injectMessages messages iv.injectMessages, iv.stopReason, false)
  else
    let messages := if iv.popLastMessage then popLastAssistantTurn messages else messages
    let messages := injectMessages messages iv.injectMessages
    if iv.continueToNextTurn then (messages, "", true)
    else
      let messages := match env.compaction with
        | some c => c.compact messages
        | none => messages
      (messages, if env.paused then "paused" else "", false)

/-! ### Replies without a call -/

def truncationContinuationGuidance : String :=
  "[system reminder] Your previous reply hit the output token limit and was " ++
    "cut off mid-sentence. The partial text is above. Continue from exactly " ++
    "where it stopped — do not repeat what you already wrote, and do not start " ++
    "over. Be brief and reach a tool call or a complete answer this time."

def runawayLoopRecoveryGuidance : String :=
  "[system reminder] Your last several replies spent the entire output budget " ++
    "on private reasoning and produced no visible text or tool call. Do not " ++
    "try to reconstruct large amounts of external data (prices, listings, " ++
    "constituents, product catalogues) from memory. Act now: either make one " ++
    "tool call that advances the task, or write the deliverable with what you " ++
    "can support and clearly mark what could not be verified."

def noToolNudge (p : LoopPolicy) : String :=
  if Text.strip p.noToolNudgeMessage ≠ "" then Text.strip p.noToolNudgeMessage
  else
    let terminals := Text.join ", " (p.terminalToolNames.map fun n => "\x60" ++ n ++ "\x60")
    let hint :=
      if p.terminalToolNames = [] then "If your workflow defines a terminal action, use it now. "
      else if p.terminalToolNames.length = 1 then "If you are done, call " ++ terminals ++ ". "
      else "If you are done, call one of the terminal tools: " ++ terminals ++ ". "
    "This loop requires a structured tool call to continue. " ++ hint ++
      "Otherwise, call an appropriate tool instead of replying in plain text."

/-- A reply the output cap cut off after it had produced text. -/
def isTruncatedWithText (r : Response) : Bool :=
  r.toolCalls.isEmpty && r.finishReason == "length" && r.visibleText != ""

/-- A reply without a parsed call: continue a truncated one, recover from a
runaway, nudge, or stop. `s` is the state at the head of the attempt's turn. -/
def withoutCalls (cfg : LoopConfig) (s : LoopState) (r : Response) : Outcome :=
  if isTruncatedWithText r then
    let s := { s with truncationContinuations := s.truncationContinuations + 1,
                      truncatedTextParts := s.truncatedTextParts ++ [r.aiText] }
    if (s.truncationContinuations : ℤ) ≤ cfg.truncationMaxContinuations then
      .next { s with messages := s.messages ++ [userMsg truncationContinuationGuidance], turn := s.turn - 1 }
    else
      .stop { s with truncationFinalContent := Text.join "" s.truncatedTextParts } "response_truncated"
  else if r.runaway then
    let s := { s with runawayRecoveries := s.runawayRecoveries + 1 }
    if (s.runawayRecoveries : ℤ) ≤ cfg.runawayMaxLoopRecoveries then
      .next { s with messages := s.messages ++ [userMsg runawayLoopRecoveryGuidance], turn := s.turn - 1 }
    else .stop s "reasoning_runaway"
  else
    let s := { s with noToolRetries := s.noToolRetries + 1 }
    if cfg.loopPolicy.nudges = false ∨ cfg.noToolMaxRetries ≤ (s.noToolRetries : ℤ) then
      let final := if s.truncatedTextParts = [] then s.truncationFinalContent
        else Text.join "" (s.truncatedTextParts ++ [r.aiText])
      .stop { s with truncationFinalContent := final, truncatedTextParts := [] } "no_tool"
    else
      .next { s with messages := s.messages ++ [userMsg (noToolNudge cfg.loopPolicy)],
                     truncatedTextParts := [] }

/-! ### The attempt -/

/-- From a parsed batch to the end of the turn. -/
def withCalls (cfg : LoopConfig) (env : TurnEnv) (s : LoopState) (p : Processed) : Outcome :=
  let s := { s with noToolRetries := 0, truncationContinuations := 0, runawayRecoveries := 0,
                    truncatedTextParts := [] }
  let (messages, stopReason, executed) :=
    if p.skipToolExecution then
      (answerUnexecutedToolCalls s.messages
        ("tool execution was suppressed for this turn; re-issue it if " ++ "still needed."), "", 0)
    else
      let (messages, stopReason) := executeToolCalls cfg env s.turn s.totalToolCalls s.messages p.parsed
      (messages, stopReason, p.parsed.length)
  let s := { s with messages := messages, totalToolCalls := s.totalToolCalls + executed }
  if stopReason ≠ "" then .stop s stopReason
  else if overflows cfg env s then
    .stop { s with messages := overflowHistory env s.messages } "context_limit_reached"
  else
    let (messages, stopReason, again) := handleTurnEnd env s.messages
    let s := { s with messages := messages }
    if stopReason ≠ "" then .stop s stopReason
    else if again then .next { s with turn := s.turn - 1 }
    else .next s

/-- The state once a response is recorded and the observers have seen it. -/
def afterResponse (cfg : LoopConfig) (env : TurnEnv) (s : LoopState) (r : Response) : LoopState :=
  { s with
    messages := (processLlmResponse cfg env s.toolNames s.turn s.messages r).messages
    lastInputTokens := if r.promptTokens ≠ 0 ∨ r.completionTokens ≠ 0 then r.promptTokens
      else s.lastInputTokens
    lastOutputTokens := if r.promptTokens ≠ 0 ∨ r.completionTokens ≠ 0 then r.completionTokens
      else s.lastOutputTokens }

/-- What follows a response; `s.messages` is the history sent, without the
addendum. -/
def respond (cfg : LoopConfig) (env : TurnEnv) (s : LoopState) (r : Response) : Outcome :=
  let p := processLlmResponse cfg env s.toolNames s.turn s.messages r
  let s := afterResponse cfg env s r
  if p.stopReason ≠ "" then .stop s p.stopReason
  else if p.continueToNextTurn then .next { s with turn := s.turn - 1 }
  else if r.rejectionReason ≠ "" then
    let detail := "the provider rejected this turn; this tool call was not executed."
    .stop { s with messages := answerUnexecutedToolCalls s.messages detail } r.rejectionReason
  else if p.parsed = [] then withoutCalls cfg s r
  else withCalls cfg env s p

/-- The state at the request: turn and attempt counted, the turn's tools bound
and the observers' messages injected. -/
def beforeCall (env : TurnEnv) (s : LoopState) : LoopState :=
  { s with turn := s.turn + 1, attempts := s.attempts + 1,
           toolNames := env.resolvedTools.getD s.toolNames,
           messages := injectMessages s.messages env.onBeforeLlm.injectMessages }

/-- The state with the provider call in its log. -/
def logged (env : TurnEnv) (s : LoopState) (parsed : Option Bool) : LoopState :=
  { s with log := s.log ++ [⟨s.turn, messagesForCall env s.messages, parsed⟩] }

/-- An exception nothing in the loop handles leaves the turn of the response. -/
def escapes (env : TurnEnv) (r : Response) : Bool := r.parserRaises || env.hostRaises

/-- One pass of the loop's body. -/
def attempt (cfg : LoopConfig) (env : TurnEnv) (s : LoopState) : Outcome :=
  let s := beforeCall env s
  if env.onBeforeLlm.stopReason ≠ "" then .stop s env.onBeforeLlm.stopReason
  else match env.call with
    | .failure .emptyCompletion => .stop (logged env s none) "empty_completion"
    | .failure .wallDeadline => .stop (logged env s none) "wall_deadline"
    | .failure (.exhausted chain) =>
      -- the chain wrapper gets a first call's failure as an exception
      if s.turn = 1 ∧ chain then .raised (logged env s none) else .stop (logged env s none) "llm_error"
    | .failure .escaped => .raised (logged env s none)
    | .response r =>
      -- the run returns no history then: the state is that of the request
      if escapes env r then .raised (logged env s (some false))
      else respond cfg env (logged env s (some (decide (parsedCalls cfg env s.toolNames s.turn r ≠ [])))) r

end Loop
end AgentCore
