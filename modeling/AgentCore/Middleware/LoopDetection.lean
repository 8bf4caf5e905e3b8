/-
# Detection of repeated tool calls

`LoopDetectionMiddleware` of `loop_detection.py`. After each response of a scope its
fingerprint goes into the scope's window, and where the last of the window are all
the same a hint is put into the scope's next request, which clears the window. The
windows are kept in the order of their use, and the least used one is dropped for
one too many.

A scope's window and its pending hint are what the scope's own calls make of them,
as long as there are no more scopes than fit (`view_run`). A trigger beyond the
window is never reached, and the system message that takes the hint is built anew
from its text; so the detection fires as it should iff neither matters
(`fires_exactly_iff`).

The digest of the arguments is a parameter. `cleanup_task` and the log are left out,
as is what a call without a task or a session does: it has no scope.

Key definitions: `LoopDetectionMiddleware`, `afterLlm`, `beforeLlm`, `run`,
`FiresExactly`.
Key theorems: `view_run`, `fires_exactly_iff`.
-/
import Mathlib.Data.List.Chain
import Mathlib.Data.List.Dedup
import Mathlib.Logic.Function.Basic
import AgentCore.Lib.Keyed
import AgentCore.Lib.Window
import AgentCore.Messages

namespace AgentCore.Middleware.LoopDetection

open Window

/-- `LoopDetectionMiddleware`, as it is constructed. -/
structure LoopDetectionMiddleware where
  patternWindow : ℕ
  triggerCount : ℕ
  maxScopes : ℕ
  window_pos : 0 < patternWindow
  trigger_pos : 0 < triggerCount
  scopes_pos : 0 < maxScopes

/-- The constructor. -/
def init (patternWindow triggerCount maxScopes : ℤ) : Except String LoopDetectionMiddleware :=
  if h₁ : patternWindow ≤ 0 then .error "pattern_window must be positive"
  else if h₂ : triggerCount ≤ 0 then .error "trigger_count must be positive"
  else if h₃ : maxScopes ≤ 0 then .error "max_scopes must be positive"
  else .ok {
    patternWindow := patternWindow.toNat
    triggerCount := triggerCount.toNat
    maxScopes := maxScopes.toNat
    window_pos := by omega
    trigger_pos := by omega
    scopes_pos := by omega }

/-- The constructor admits every choice of positive numbers. -/
theorem init_admits (mw : LoopDetectionMiddleware) : init mw.patternWindow mw.triggerCount mw.maxScopes = .ok mw := by
  have h₁ := mw.window_pos
  have h₂ := mw.trigger_pos
  have h₃ := mw.scopes_pos
  unfold init
  rw [dif_neg (by omega), dif_neg (by omega), dif_neg (by omega)]
  rfl

/-- What the hooks read of the context of a call. -/
structure LlmCallContext where
  taskId : String := ""
  roleId : String := ""
  phaseId : String := ""
  sessionId : String := ""
  streamIncomplete : Bool := false

structure Scope where
  taskOrSession : String
  roleId : String
  phaseId : String
  deriving DecidableEq

/-- `_scope_key`. -/
def scopeKey (ctx : LlmCallContext) : Option Scope :=
  let taskOrSession := if ctx.taskId ≠ "" then ctx.taskId else ctx.sessionId
  if taskOrSession = "" then none
  else some { taskOrSession := taskOrSession, roleId := ctx.roleId, phaseId := ctx.phaseId }

/-- The window of a scope. -/
structure ScopeHistory where
  key : Scope
  entries : List String := []

/-- The windows, the least used one first, and the scopes whose next call gets a hint. -/
structure State where
  histories : List ScopeHistory := []
  pendingHints : List Scope := []

def State.historyOf (s : State) (k : Scope) : List String :=
  ((Keyed.get? ScopeHistory.key s.histories k).map ScopeHistory.entries).getD []

def hintText : String :=
  "\n\n[Loop detected] You have been repeating the same " ++
    "tool calls. Please try a different approach: use " ++
    "different search terms, try a different tool, or " ++
    "synthesize from what you already have."

variable (digest : String → String)

/-- The fingerprint of the tool calls of a response; `digest` is `md5`, cut to eight digits. -/
def signature (toolCalls : List AgentCore.ToolCall) : String :=
  Text.join "|" (toolCalls.map fun tc => tc.name ++ ":" ++ digest tc.arguments)

def hashToolCalls (toolCalls : List AgentCore.ToolCall) : Option String :=
  if toolCalls = [] then none else some (signature digest toolCalls)

namespace LoopDetectionMiddleware

variable (mw : LoopDetectionMiddleware)

/-- `_history_for`: the scope's window is there, and is the last one used. -/
def historyFor (s : State) (k : Scope) : State :=
  match Keyed.get? ScopeHistory.key s.histories k with
  | some h => { s with histories := Keyed.pop ScopeHistory.key s.histories k ++ [h] }
  | none =>
    match s.histories ++ [{ key := k }] with
    | [] => s
    | evicted :: rest =>
      if mw.maxScopes < s.histories.length + 1 then
        { histories := rest, pendingHints := s.pendingHints.filter (· ≠ evicted.key) }
      else { s with histories := evicted :: rest }

/-- The last of a window, as many as the trigger says, are there and all the same. -/
def triggered (history : List String) : Bool :=
  mw.triggerCount ≤ history.length ∧ (history.rtake mw.triggerCount).dedup.length = 1

/-- The fingerprint goes into the window of the scope. -/
def record (s : State) (k : Scope) (sig : String) : State :=
  let s := mw.historyFor s k
  let history := push mw.patternWindow (s.historyOf k) sig
  { histories := Keyed.update ScopeHistory.key (fun h => { h with entries := history }) k s.histories
    pendingHints := if mw.triggered history then s.pendingHints.insert k else s.pendingHints }

def afterLlm (s : State) (ctx : LlmCallContext) (toolCalls : List AgentCore.ToolCall) : State :=
  if ctx.streamIncomplete then s
  else
    match scopeKey ctx, hashToolCalls digest toolCalls with
    | some k, some sig => mw.record s k sig
    | _, _ => s

end LoopDetectionMiddleware

/-- The hint goes to the first system message, if there is one. -/
def extendSystem (hintText : String) : History → Option History
  | [] => none
  | m :: ms =>
    if isSystemMsg m then some (systemMsg (textOf m.content ++ hintText) :: ms)
    else (extendSystem hintText ms).map (m :: ·)

def injectHint (messages : History) : History :=
  (extendSystem hintText messages).getD (systemMsg (Text.strip hintText) :: messages)

/-- The scope of the call waits for its hint. -/
def hints (s : State) (ctx : LlmCallContext) : Bool := (scopeKey ctx).any (· ∈ s.pendingHints)

def beforeLlm (s : State) (ctx : LlmCallContext) (messages : History) : State × History :=
  match scopeKey ctx with
  | some k =>
    if k ∈ s.pendingHints then
      ({ histories := Keyed.update ScopeHistory.key (fun h => { h with entries := [] }) k s.histories
         pendingHints := s.pendingHints.filter (· ≠ k) }, injectHint messages)
    else (s, messages)
  | none => (s, messages)

/-! ### Runs -/

inductive Op
  | before (ctx : LlmCallContext) (messages : History)
  | after (ctx : LlmCallContext) (toolCalls : List AgentCore.ToolCall)

def Op.scope : Op → Option Scope
  | .before ctx _ => scopeKey ctx
  | .after ctx _ => scopeKey ctx

def Op.isAfter : Op → Bool
  | .before _ _ => false
  | .after _ _ => true

/-- The state, and of each scope the tool calls of its complete responses since its
last hint. -/
structure Recording where
  state : State := {}
  sinceHint : Scope → List (List AgentCore.ToolCall) := fun _ => []

namespace LoopDetectionMiddleware

variable (mw : LoopDetectionMiddleware)

def step (r : Recording) : Op → Recording
  | .before ctx messages =>
    { state := (beforeLlm r.state ctx messages).1
      sinceHint := fun k => if scopeKey ctx = some k ∧ hints r.state ctx then [] else r.sinceHint k }
  | .after ctx toolCalls =>
    { state := mw.afterLlm digest r.state ctx toolCalls
      sinceHint := fun k =>
        if scopeKey ctx = some k ∧ ¬ (ctx.streamIncomplete ∨ toolCalls = []) then r.sinceHint k ++ [toolCalls]
        else r.sinceHint k }

def run (ops : List Op) : Recording := ops.foldl (mw.step digest) {}

/-- The request that follows these operations gets the hint. -/
def injects (ops : List Op) (ctx : LlmCallContext) : Bool := hints (mw.run digest ops).state ctx

/-- The messages of the request. -/
def sent (ops : List Op) (ctx : LlmCallContext) (messages : History) : History :=
  (beforeLlm (mw.run digest ops).state ctx messages).2

def scopes (ops : List Op) : List Scope := (ops.filterMap Op.scope).dedup

/-- There are no more scopes than fit. -/
def Fits (ops : List Op) : Prop := (scopes ops).length ≤ mw.maxScopes

end LoopDetectionMiddleware

/-- The operations of a scope. -/
def own (k : Scope) (ops : List Op) : List Op := ops.filter fun op => op.scope = some k

/-- The calls of a scope before and after a response take turns. -/
def Alternates (k : Scope) (ops : List Op) : Prop := ((own k ops).map Op.isAfter).IsChain (· ≠ ·)

/-- What the tool calls of a response are compared by. -/
def carried (toolCalls : List AgentCore.ToolCall) : List (String × String) :=
  toolCalls.map fun tc => (tc.name, tc.arguments)

def responses (ops : List Op) : List (List AgentCore.ToolCall) :=
  ops.filterMap fun
    | .after _ toolCalls => some toolCalls
    | .before _ _ => none

/-- The fingerprint tells the responses of a run apart. -/
def Distinguishes (ops : List Op) : Prop :=
  ∀ c ∈ responses ops, ∀ d ∈ responses ops, signature digest c = signature digest d → carried c = carried d

/-- The last `n` responses carry the same tool calls. -/
def LastSame (n : ℕ) (rs : List (List AgentCore.ToolCall)) : Prop :=
  n ≤ rs.length ∧ ∀ c ∈ rs.rtake n, ∀ d ∈ rs.rtake n, carried c = carried d

instance (n : ℕ) (rs : List (List AgentCore.ToolCall)) : Decidable (LastSame n rs) := by
  unfold LastSame
  infer_instance

instance (k : Scope) (ops : List Op) : Decidable (Alternates k ops) := by
  unfold Alternates
  infer_instance

instance (ops : List Op) : Decidable (Distinguishes digest ops) := by
  unfold Distinguishes
  infer_instance

instance (mw : LoopDetectionMiddleware) (ops : List Op) : Decidable (mw.Fits ops) := by
  unfold LoopDetectionMiddleware.Fits
  infer_instance

/-! ### What a hint does to the messages -/

def Block.isText : Block → Bool
  | .str _ => true
  | .text _ => true
  | _ => false

/-- The blocks of a content that are not text. -/
def nonText : Content → List Block
  | .blocks bs => bs.filter fun b => !Block.isText b
  | _ => []

/-- A message without its text. -/
def withoutText (m : Message) : Message := { m with content := .blocks (nonText m.content) }

/-- The message is nothing but its role and a text. -/
def OnlyText (m : Message) : Prop := withoutText m = { role := m.role, content := .blocks [] }

/-- The hint is added to the text of the first system message and nothing else is
changed, or a system message with the hint comes first where there was none. -/
def Hinted (messages messages' : History) : Prop :=
  (∃ pre m post m', messages = pre ++ m :: post ∧ (∀ x ∈ pre, isSystemMsg x = false) ∧ isSystemMsg m = true ∧
      messages' = pre ++ m' :: post ∧ withoutText m' = withoutText m ∧
        textOf m'.content = textOf m.content ++ hintText) ∨
    (∀ x ∈ messages, isSystemMsg x = false) ∧ messages' = systemMsg (Text.strip hintText) :: messages

theorem withoutText_systemMsg (s : String) : withoutText (systemMsg s) = { role := .system, content := .blocks [] } := rfl

theorem extendSystem_of_none {messages : History} (h : ∀ x ∈ messages, isSystemMsg x = false) :
    extendSystem hintText messages = none := by
  induction messages with
  | nil => rfl
  | cons m ms ih =>
    have hm : ¬ isSystemMsg m = true := by simp [h m List.mem_cons_self]
    rw [extendSystem, if_neg hm, ih fun x hx => h x (List.mem_cons_of_mem _ hx)]
    rfl

theorem extendSystem_append {pre post : History} {m : Message} (hpre : ∀ x ∈ pre, isSystemMsg x = false)
    (hm : isSystemMsg m = true) :
    extendSystem hintText (pre ++ m :: post) = some (pre ++ systemMsg (textOf m.content ++ hintText) :: post) := by
  induction pre with
  | nil => exact if_pos hm
  | cons x pre ih =>
    have hx : ¬ isSystemMsg x = true := by simp [hpre x List.mem_cons_self]
    rw [List.cons_append, extendSystem, if_neg hx, ih fun y hy => hpre y (List.mem_cons_of_mem _ hy)]
    rfl

/-- The messages up to the first system message. -/
theorem split_system (messages : History) : (∀ x ∈ messages, isSystemMsg x = false) ∨
    ∃ pre m post, messages = pre ++ m :: post ∧ (∀ x ∈ pre, isSystemMsg x = false) ∧ isSystemMsg m = true ∧
      messages.find? isSystemMsg = some m := by
  cases hfind : messages.find? isSystemMsg with
  | none =>
    refine .inl fun x hx => ?_
    simpa using List.find?_eq_none.mp hfind x hx
  | some m =>
    obtain ⟨hm, pre, post, rfl, hpre⟩ := List.find?_eq_some_iff_append.mp hfind
    exact .inr ⟨pre, m, post, rfl, fun x hx => by simpa using hpre x hx, hm, rfl⟩

/-- The first system message is at one place only. -/
theorem split_unique {pre pre' post post' : History} {m m' : Message} (hpre : ∀ x ∈ pre, isSystemMsg x = false)
    (hpre' : ∀ x ∈ pre', isSystemMsg x = false) (hm : isSystemMsg m = true) (hm' : isSystemMsg m' = true)
    (heq : pre ++ m :: post = pre' ++ m' :: post') : pre = pre' ∧ m :: post = m' :: post' := by
  have hfront : ∀ {pre post : History} {m : Message}, (∀ x ∈ pre, isSystemMsg x = false) → isSystemMsg m = true →
      (pre ++ m :: post).takeWhile (fun x => !isSystemMsg x) = pre := by
    intro pre post m hpre hm
    rw [List.takeWhile_append_of_pos fun x hx => by simp [hpre x hx], List.takeWhile_cons_of_neg (by simp [hm]),
      List.append_nil]
  have hpres : pre = pre' := by
    have hfirst : (pre ++ m :: post).takeWhile (fun x => !isSystemMsg x) = pre := hfront hpre hm
    rw [← hfirst, heq, hfront hpre' hm']
  subst hpres
  exact ⟨rfl, List.append_cancel_left heq⟩

/-- The hint changes nothing but a text iff the system message that takes it is nothing
but a text. -/
theorem hinted_injectHint_iff (messages : History) :
    Hinted messages (injectHint messages) ↔ ∀ m, messages.find? isSystemMsg = some m → OnlyText m := by
  rcases split_system messages with hnone | ⟨pre, m, post, rfl, hpre, hm, hfind⟩
  · have hfind : messages.find? isSystemMsg = none := List.find?_eq_none.mpr fun x hx => by simp [hnone x hx]
    refine iff_of_true (.inr ⟨hnone, ?_⟩) fun m h => ?_
    · unfold injectHint
      rw [extendSystem_of_none hnone]
      rfl
    · rw [hfind] at h
      cases h
  · have hrole : m.role = .system := by simpa [isSystemMsg] using hm
    have hsent : injectHint (pre ++ m :: post) = pre ++ systemMsg (textOf m.content ++ hintText) :: post := by
      unfold injectHint
      rw [extendSystem_append hpre hm]
      rfl
    rw [hsent]
    constructor
    · intro h m₁ hm₁
      rw [hfind, Option.some.injEq] at hm₁
      subst hm₁
      rcases h with ⟨pre₁, m₁, post₁, m', heq, hpre₁, hsys, heq', hkept, -⟩ | ⟨hno, -⟩
      · obtain ⟨rfl, hsplit⟩ := split_unique hpre hpre₁ hm hsys heq
        obtain ⟨rfl, rfl⟩ := List.cons.inj hsplit
        obtain ⟨rfl, -⟩ := List.cons.inj (List.append_cancel_left heq')
        rw [withoutText_systemMsg] at hkept
        unfold OnlyText
        rw [← hkept, hrole]
      · have := hno m (by simp)
        rw [hm] at this
        cases this
    · intro h
      have honly := h m hfind
      refine .inl ⟨pre, m, post, _, rfl, hpre, hm, rfl, ?_, rfl⟩
      rw [withoutText_systemMsg, honly, hrole]

/-! ### What the hooks do to the windows -/

variable {digest} {mw : LoopDetectionMiddleware}

open LoopDetectionMiddleware

/-- The scope has a window, or there is room for one. -/
def Room (mw : LoopDetectionMiddleware) (s : State) (k : Scope) : Prop :=
  Keyed.get? ScopeHistory.key s.histories k = none → s.histories.length + 1 ≤ mw.maxScopes

theorem historyFor_of_some {s : State} {k : Scope} {h : ScopeHistory}
    (hg : Keyed.get? ScopeHistory.key s.histories k = some h) :
    mw.historyFor s k = { s with histories := Keyed.pop ScopeHistory.key s.histories k ++ [h] } := by
  unfold historyFor
  rw [hg]

theorem historyFor_of_none {s : State} {k : Scope} (hg : Keyed.get? ScopeHistory.key s.histories k = none)
    (hroom : Room mw s k) : mw.historyFor s k = { s with histories := s.histories ++ [{ key := k }] } := by
  have hle := hroom hg
  unfold historyFor
  rw [hg]
  cases hs : s.histories with
  | nil =>
    rw [hs] at hle
    exact if_neg (Nat.not_lt.mpr hle)
  | cons h hs' =>
    rw [hs] at hle
    exact if_neg (Nat.not_lt.mpr hle)

theorem historyFor_pendingHints {s : State} {k : Scope} (hroom : Room mw s k) :
    (mw.historyFor s k).pendingHints = s.pendingHints := by
  cases hg : Keyed.get? ScopeHistory.key s.histories k with
  | some h => rw [historyFor_of_some hg]
  | none => rw [historyFor_of_none hg hroom]

/-- The windows stay what they are, and the scope's own is there. -/
theorem get?_historyFor {s : State} {k : Scope} (hroom : Room mw s k) (j : Scope) :
    Keyed.get? ScopeHistory.key (mw.historyFor s k).histories j =
      if j = k then some ((Keyed.get? ScopeHistory.key s.histories k).getD { key := k })
      else Keyed.get? ScopeHistory.key s.histories j := by
  cases hg : Keyed.get? ScopeHistory.key s.histories k with
  | some h =>
    have hk : h.key = k := (Keyed.get?_some hg).2
    rw [historyFor_of_some hg, Keyed.get?_append]
    by_cases hj : j = k
    · rw [if_pos hj, hj, Keyed.get?_pop_self]
      simp [Keyed.get?, hk]
    · have hne : ¬ h.key = j := fun e => hj (e.symm.trans hk)
      rw [if_neg hj, Keyed.get?_pop_of_ne hj]
      simp [Keyed.get?, hne]
  | none =>
    rw [historyFor_of_none hg hroom, Keyed.get?_append]
    by_cases hj : j = k
    · rw [if_pos hj, hj, hg]
      simp [Keyed.get?]
    · have hne : ¬ k = j := fun e => hj e.symm
      rw [if_neg hj]
      simp [Keyed.get?, hne]

theorem historyFor_historyOf {s : State} {k : Scope} (hroom : Room mw s k) (j : Scope) :
    (mw.historyFor s k).historyOf j = s.historyOf j := by
  unfold State.historyOf
  rw [get?_historyFor hroom]
  by_cases hj : j = k
  · rw [if_pos hj, hj]
    cases Keyed.get? ScopeHistory.key s.histories k with
    | some h => rfl
    | none => rfl
  · rw [if_neg hj]

/-- A window that is there is written. -/
theorem historyOf_update (s : State) (k : Scope) (es : List String) (hints : List Scope) (j : Scope) :
    State.historyOf { histories := Keyed.update ScopeHistory.key (fun h => { h with entries := es }) k s.histories
                      pendingHints := hints } j =
      if j = k ∧ (Keyed.get? ScopeHistory.key s.histories k).isSome then es else s.historyOf j := by
  have hkey : ∀ h : ScopeHistory, ({ h with entries := es } : ScopeHistory).key = h.key := fun _ => rfl
  have hget := Keyed.get?_update hkey k j s.histories
  unfold State.historyOf
  rw [hget]
  by_cases hj : j = k
  · subst hj
    cases Keyed.get? ScopeHistory.key s.histories j with
    | some h => simp
    | none => simp
  · simp [hj]

theorem record_historyOf {s : State} {k : Scope} (hroom : Room mw s k) (sig : String) (j : Scope) :
    (mw.record s k sig).historyOf j =
      if j = k then push mw.patternWindow (s.historyOf k) sig else s.historyOf j := by
  unfold record
  simp only [historyFor_historyOf hroom k]
  rw [historyOf_update, get?_historyFor hroom, if_pos rfl, historyFor_historyOf hroom]
  simp

theorem record_pendingHints {s : State} {k : Scope} (hroom : Room mw s k) (sig : String) :
    (mw.record s k sig).pendingHints =
      if mw.triggered (push mw.patternWindow (s.historyOf k) sig) then s.pendingHints.insert k else s.pendingHints := by
  unfold record
  simp only [historyFor_historyOf hroom k, historyFor_pendingHints hroom]

/-- The windows belong to different scopes, all of them scopes of the run. -/
structure Held (ops : List Op) (s : State) : Prop where
  nodup : (s.histories.map ScopeHistory.key).Nodup
  mem : ∀ k ∈ s.histories.map ScopeHistory.key, k ∈ scopes ops

theorem mem_scopes {ops : List Op} {k : Scope} : k ∈ scopes ops ↔ ∃ op ∈ ops, op.scope = some k := by
  unfold scopes
  rw [List.mem_dedup, List.mem_filterMap]

theorem LoopDetectionMiddleware.Fits.of_append {ops ops' : List Op} (h : mw.Fits (ops ++ ops')) : mw.Fits ops := by
  have hsub : scopes ops ⊆ scopes (ops ++ ops') := by
    intro k hk
    obtain ⟨op, hop, hscope⟩ := mem_scopes.mp hk
    exact mem_scopes.mpr ⟨op, List.mem_append_left _ hop, hscope⟩
  exact ((List.subperm_of_subset (List.nodup_dedup _) hsub).length_le).trans h

/-- Where the scopes fit no window is dropped. -/
theorem Held.room {ops : List Op} {s : State} (h : Held ops s) {op : Op} {k : Scope} (hop : op.scope = some k)
    (hfits : mw.Fits (ops ++ [op])) : Room mw s k := by
  intro hg
  have hnew : k ∉ s.histories.map ScopeHistory.key := by
    intro hmem
    obtain ⟨x, hx, hkey⟩ := List.mem_map.mp hmem
    exact Keyed.get?_none hg x hx hkey
  have hnodup : (k :: s.histories.map ScopeHistory.key).Nodup := List.nodup_cons.mpr ⟨hnew, h.nodup⟩
  have hsub : k :: s.histories.map ScopeHistory.key ⊆ scopes (ops ++ [op]) := by
    intro j hj
    rcases List.mem_cons.mp hj with rfl | hj
    · exact mem_scopes.mpr ⟨op, by simp, hop⟩
    · obtain ⟨op', hop', hscope⟩ := mem_scopes.mp (h.mem j hj)
      exact mem_scopes.mpr ⟨op', List.mem_append_left _ hop', hscope⟩
  have hlen := (List.subperm_of_subset hnodup hsub).length_le
  rw [List.length_cons, List.length_map] at hlen
  exact hlen.trans hfits

theorem historyFor_keys {s : State} {k : Scope} (hn : (s.histories.map ScopeHistory.key).Nodup) (hroom : Room mw s k) :
    ((mw.historyFor s k).histories.map ScopeHistory.key).Nodup ∧
      ∀ j ∈ (mw.historyFor s k).histories.map ScopeHistory.key, j = k ∨ j ∈ s.histories.map ScopeHistory.key := by
  cases hg : Keyed.get? ScopeHistory.key s.histories k with
  | some h =>
    have hk : h.key = k := (Keyed.get?_some hg).2
    have hsub : ((Keyed.pop ScopeHistory.key s.histories k).map ScopeHistory.key).Sublist
        (s.histories.map ScopeHistory.key) := (Keyed.pop_sublist k).map _
    have hout : k ∉ (Keyed.pop ScopeHistory.key s.histories k).map ScopeHistory.key := by
      intro hmem
      obtain ⟨x, hx, hkey⟩ := List.mem_map.mp hmem
      exact (Keyed.mem_pop.mp hx).2 hkey
    rw [historyFor_of_some hg, List.map_append, List.map_singleton, hk]
    constructor
    · rw [List.nodup_append']
      exact ⟨hn.sublist hsub, List.nodup_singleton k, fun j hj hjk => hout (List.mem_singleton.mp hjk ▸ hj)⟩
    · intro j hj
      rcases List.mem_append.mp hj with hj | hj
      · exact .inr (hsub.subset hj)
      · exact .inl (List.mem_singleton.mp hj)
  | none =>
    have hout : k ∉ s.histories.map ScopeHistory.key := by
      intro hmem
      obtain ⟨x, hx, hkey⟩ := List.mem_map.mp hmem
      exact Keyed.get?_none hg x hx hkey
    rw [historyFor_of_none hg hroom, List.map_append, List.map_singleton]
    constructor
    · rw [List.nodup_append']
      refine ⟨hn, List.nodup_singleton _, fun j hj hjk => hout ?_⟩
      have hjk' : j = k := List.mem_singleton.mp hjk
      rwa [← hjk']
    · intro j hj
      rcases List.mem_append.mp hj with hj | hj
      · exact .inr hj
      · exact .inl (List.mem_singleton.mp hj)

theorem update_keys (es : List String) (k : Scope) (hs : List ScopeHistory) :
    (Keyed.update ScopeHistory.key (fun h => { h with entries := es }) k hs).map ScopeHistory.key =
      hs.map ScopeHistory.key := by
  have hkey : ∀ h : ScopeHistory, ({ h with entries := es } : ScopeHistory).key = h.key := fun _ => rfl
  exact Keyed.map_key_update hkey k

theorem record_keys (s : State) (k : Scope) (sig : String) :
    (mw.record s k sig).histories.map ScopeHistory.key = (mw.historyFor s k).histories.map ScopeHistory.key :=
  update_keys _ k _

theorem beforeLlm_keys (s : State) (ctx : LlmCallContext) (messages : History) :
    (beforeLlm s ctx messages).1.histories.map ScopeHistory.key = s.histories.map ScopeHistory.key := by
  unfold beforeLlm
  cases scopeKey ctx with
  | none => rfl
  | some k =>
    by_cases hk : k ∈ s.pendingHints
    · simp only [if_pos hk]
      exact update_keys [] k _
    · simp only [if_neg hk]

theorem beforeLlm_none {ctx : LlmCallContext} (hk : scopeKey ctx = none) (s : State) (messages : History) :
    (beforeLlm s ctx messages).1 = s := by
  unfold beforeLlm
  rw [hk]

/-- A hint clears the window of its scope. -/
theorem beforeLlm_historyOf {ctx : LlmCallContext} {k : Scope} (hk : scopeKey ctx = some k) (s : State)
    (messages : History) (j : Scope) : (beforeLlm s ctx messages).1.historyOf j =
      if j = k ∧ k ∈ s.pendingHints then [] else s.historyOf j := by
  unfold beforeLlm
  rw [hk]
  by_cases hp : k ∈ s.pendingHints
  · have hset := historyOf_update s k [] (s.pendingHints.filter (· ≠ k)) j
    simp only [if_pos hp]
    rw [hset]
    by_cases hj : j = k
    · subst hj
      have hempty : (if j = j ∧ (Keyed.get? ScopeHistory.key s.histories j).isSome = true then [] else s.historyOf j) =
          [] := by
        unfold State.historyOf
        cases Keyed.get? ScopeHistory.key s.histories j with
        | some h => simp
        | none => simp
      rw [hempty, if_pos ⟨rfl, hp⟩]
    · simp [hj]
  · simp [hp]

theorem beforeLlm_pendingHints {ctx : LlmCallContext} {k : Scope} (hk : scopeKey ctx = some k) (s : State)
    (messages : History) (j : Scope) :
    j ∈ (beforeLlm s ctx messages).1.pendingHints ↔ j ∈ s.pendingHints ∧ j ≠ k := by
  unfold beforeLlm
  rw [hk]
  by_cases hp : k ∈ s.pendingHints
  · simp [hp]
  · simp only [if_neg hp]
    exact ⟨fun h => ⟨h, fun e => hp (e ▸ h)⟩, And.left⟩

theorem Held.mono {ops ops' : List Op} {s s' : State} (h : Held ops s)
    (hkeys : s'.histories.map ScopeHistory.key = s.histories.map ScopeHistory.key) : Held (ops ++ ops') s' := by
  refine ⟨hkeys ▸ h.nodup, fun k hk => ?_⟩
  obtain ⟨op, hop, hscope⟩ := mem_scopes.mp (h.mem k (hkeys ▸ hk))
  exact mem_scopes.mpr ⟨op, List.mem_append_left _ hop, hscope⟩

/-- What `after_llm` does in a scope. -/
theorem afterLlm_eq {ctx : LlmCallContext} {k : Scope} (hk : scopeKey ctx = some k) (s : State)
    (toolCalls : List AgentCore.ToolCall) : mw.afterLlm digest s ctx toolCalls =
      if ctx.streamIncomplete ∨ toolCalls = [] then s else mw.record s k (signature digest toolCalls) := by
  unfold afterLlm hashToolCalls
  rw [hk]
  by_cases hi : ctx.streamIncomplete = true
  · simp [hi]
  · by_cases ht : toolCalls = []
    · simp [ht]
    · simp [hi, ht]

theorem Held.step {ops : List Op} {r : Recording} (h : Held ops r.state) {op : Op} (hfits : mw.Fits (ops ++ [op])) :
    Held (ops ++ [op]) (mw.step digest r op).state := by
  cases op with
  | before ctx messages => exact h.mono (beforeLlm_keys r.state ctx messages)
  | after ctx toolCalls =>
    unfold LoopDetectionMiddleware.step
    dsimp only
    cases hk : scopeKey ctx with
    | none =>
      have hsame : mw.afterLlm digest r.state ctx toolCalls = r.state := by
        unfold afterLlm
        rw [hk]
        exact ite_self _
      rw [hsame]
      exact h.mono rfl
    | some k =>
      rw [afterLlm_eq hk]
      by_cases hskip : ctx.streamIncomplete = true ∨ toolCalls = []
      · rw [if_pos hskip]
        exact h.mono rfl
      · rw [if_neg hskip]
        have hscope : (Op.after ctx toolCalls).scope = some k := hk
        obtain ⟨hnodup, hmem⟩ := historyFor_keys h.nodup (h.room hscope hfits)
        refine ⟨by rwa [record_keys], fun j hj => ?_⟩
        rw [record_keys] at hj
        rcases hmem j hj with rfl | hj
        · exact mem_scopes.mpr ⟨.after ctx toolCalls, by simp, hk⟩
        · obtain ⟨op', hop', hscope⟩ := mem_scopes.mp (h.mem j hj)
          exact mem_scopes.mpr ⟨op', List.mem_append_left _ hop', hscope⟩

theorem run_append (ops : List Op) (op : Op) : mw.run digest (ops ++ [op]) = mw.step digest (mw.run digest ops) op := by
  unfold run
  rw [List.foldl_append]
  rfl

variable (digest) in
theorem held_run (ops : List Op) (hfits : mw.Fits ops) : Held ops (mw.run digest ops).state := by
  induction ops using List.reverseRecOn with
  | nil => exact ⟨List.nodup_nil, fun k hk => absurd hk List.not_mem_nil⟩
  | append_singleton ops op ih =>
    rw [run_append]
    exact (ih hfits.of_append).step hfits

/-! ### One scope by itself -/

/-- What a run keeps of one scope. -/
structure ScopeState where
  entries : List String := []
  pending : Bool := false
  sinceHint : List (List AgentCore.ToolCall) := []

variable (digest mw) in
/-- What a scope's own calls do to it. -/
def scopeStep (v : ScopeState) : Op → ScopeState
  | .before _ _ => if v.pending then {} else v
  | .after ctx toolCalls =>
    if ctx.streamIncomplete ∨ toolCalls = [] then v
    else
      let entries := push mw.patternWindow v.entries (signature digest toolCalls)
      { entries := entries, pending := mw.triggered entries || v.pending, sinceHint := v.sinceHint ++ [toolCalls] }

def view (r : Recording) (k : Scope) : ScopeState where
  entries := r.state.historyOf k
  pending := k ∈ r.state.pendingHints
  sinceHint := r.sinceHint k

theorem view_step_own {r : Recording} {op : Op} {k : Scope} (hk : op.scope = some k) (hroom : Room mw r.state k) :
    view (mw.step digest r op) k = scopeStep digest mw (view r k) op := by
  cases op with
  | before ctx messages =>
    replace hk : scopeKey ctx = some k := hk
    have hentries := beforeLlm_historyOf hk r.state messages k
    have hpending := beforeLlm_pendingHints hk r.state messages k
    unfold view LoopDetectionMiddleware.step scopeStep hints
    simp only [hk, hentries, hpending, Option.any_some]
    by_cases hp : k ∈ r.state.pendingHints
    · simp [hp]
    · simp [hp]
  | after ctx toolCalls =>
    replace hk : scopeKey ctx = some k := hk
    unfold view LoopDetectionMiddleware.step scopeStep
    simp only [hk, afterLlm_eq hk, true_and]
    by_cases hskip : ctx.streamIncomplete = true ∨ toolCalls = []
    · rw [if_pos hskip, if_pos hskip, if_neg (not_not_intro hskip)]
    · have hentries := record_historyOf hroom (signature digest toolCalls) k
      rw [if_pos rfl] at hentries
      rw [if_neg hskip, if_neg hskip, if_pos hskip, hentries, record_pendingHints hroom]
      by_cases ht : mw.triggered (push mw.patternWindow (r.state.historyOf k) (signature digest toolCalls)) = true
      · simp [ht]
      · simp [ht]

theorem view_congr {r r' : Recording} {k : Scope} (he : r.state.historyOf k = r'.state.historyOf k)
    (hp : k ∈ r.state.pendingHints ↔ k ∈ r'.state.pendingHints) (hs : r.sinceHint k = r'.sinceHint k) :
    view r k = view r' k := by
  unfold view
  rw [he, hs, decide_eq_decide.mpr hp]

theorem view_step_other {r : Recording} {op : Op} {k : Scope} (hk : op.scope ≠ some k)
    (hroom : ∀ j, op.scope = some j → Room mw r.state j) : view (mw.step digest r op) k = view r k := by
  cases op with
  | before ctx messages =>
    replace hk : scopeKey ctx ≠ some k := hk
    have hsince : (mw.step digest r (.before ctx messages)).sinceHint k = r.sinceHint k := if_neg fun h => hk h.1
    have hstate : (mw.step digest r (.before ctx messages)).state = (beforeLlm r.state ctx messages).1 := rfl
    cases hj : scopeKey ctx with
    | none =>
      rw [beforeLlm_none hj] at hstate
      exact view_congr (by rw [hstate]) (by rw [hstate]) hsince
    | some j =>
      have hne : k ≠ j := fun e => hk (e ▸ hj)
      have hentries := beforeLlm_historyOf hj r.state messages k
      have hpending := beforeLlm_pendingHints hj r.state messages k
      rw [if_neg fun h => hne h.1] at hentries
      exact view_congr (by rw [hstate, hentries]) (by rw [hstate, hpending, and_iff_left hne]) hsince
  | after ctx toolCalls =>
    replace hk : scopeKey ctx ≠ some k := hk
    have hsince : (mw.step digest r (.after ctx toolCalls)).sinceHint k = r.sinceHint k := if_neg fun h => hk h.1
    have hstate : (mw.step digest r (.after ctx toolCalls)).state = mw.afterLlm digest r.state ctx toolCalls := rfl
    cases hj : scopeKey ctx with
    | none =>
      have hsame : mw.afterLlm digest r.state ctx toolCalls = r.state := by
        unfold afterLlm
        rw [hj]
        exact ite_self _
      rw [hsame] at hstate
      exact view_congr (by rw [hstate]) (by rw [hstate]) hsince
    | some j =>
      have hne : k ≠ j := fun e => hk (e ▸ hj)
      have hroom := hroom j hj
      rw [afterLlm_eq hj] at hstate
      by_cases hskip : ctx.streamIncomplete = true ∨ toolCalls = []
      · rw [if_pos hskip] at hstate
        exact view_congr (by rw [hstate]) (by rw [hstate]) hsince
      · rw [if_neg hskip] at hstate
        have hentries := record_historyOf hroom (signature digest toolCalls) k
        rw [if_neg hne] at hentries
        refine view_congr (by rw [hstate, hentries]) ?_ hsince
        rw [hstate, record_pendingHints hroom]
        by_cases ht : mw.triggered (push mw.patternWindow (r.state.historyOf j) (signature digest toolCalls)) = true
        · simp [ht, hne]
        · simp [ht]

theorem own_append (k : Scope) (ops : List Op) (op : Op) :
    own k (ops ++ [op]) = if op.scope = some k then own k ops ++ [op] else own k ops := by
  unfold own
  rw [List.filter_append]
  by_cases h : op.scope = some k
  · simp [h]
  · simp [h]

variable (digest) in
/-- **A scope is what its own calls make of it**, as long as the scopes fit. -/
theorem view_run (ops : List Op) (hfits : mw.Fits ops) (k : Scope) :
    view (mw.run digest ops) k = (own k ops).foldl (scopeStep digest mw) {} := by
  induction ops using List.reverseRecOn with
  | nil => rfl
  | append_singleton ops op ih =>
    have hheld := held_run digest ops hfits.of_append
    rw [run_append, own_append]
    by_cases hk : op.scope = some k
    · rw [if_pos hk, view_step_own hk (hheld.room hk hfits), ih hfits.of_append, List.foldl_append]
      rfl
    · rw [if_neg hk, view_step_other hk fun j hj => hheld.room hj hfits]
      exact ih hfits.of_append

/-! ### When a hint is due -/

/-- The entries are all the same iff one is left of them without repetitions. -/
theorem dedup_length_eq_one {l : List String} (hne : l ≠ []) :
    l.dedup.length = 1 ↔ ∀ x ∈ l, ∀ y ∈ l, x = y := by
  obtain ⟨a, ha⟩ := List.exists_mem_of_ne_nil l hne
  constructor
  · intro h x hx y hy
    obtain ⟨z, hz⟩ := List.length_eq_one_iff.mp h
    have hall : ∀ w ∈ l, w = z := fun w hw => by
      have := List.mem_dedup.mpr hw
      rw [hz] at this
      exact List.mem_singleton.mp this
    rw [hall x hx, hall y hy]
  · intro h
    have hsub : l.dedup ⊆ [a] := fun x hx => List.mem_singleton.mpr (h x (List.mem_dedup.mp hx) a ha)
    have hle := (List.subperm_of_subset (List.nodup_dedup l) hsub).length_le
    have hpos : 0 < l.dedup.length := List.length_pos_of_mem (List.mem_dedup.mpr ha)
    rw [List.length_singleton] at hle
    omega

theorem rtake_rtake {l : List String} {m n : ℕ} (h : m ≤ n) : (l.rtake n).rtake m = l.rtake m := by
  simp [List.rtake_eq_reverse_take_reverse, List.take_take, h]

theorem signature_congr {c d : List AgentCore.ToolCall} (h : carried c = carried d) :
    signature digest c = signature digest d := by
  have hmap : ∀ calls : List AgentCore.ToolCall, calls.map (fun tc => tc.name ++ ":" ++ digest tc.arguments) =
      (carried calls).map fun p => p.1 ++ ":" ++ digest p.2 := by
    intro calls
    unfold carried
    rw [List.map_map]
    rfl
  unfold signature
  rw [hmap, hmap, h]

/-- The window of some responses ends in enough equal fingerprints iff the window
reaches so far and the last responses carry the same. -/
theorem triggered_iff {rs : List (List AgentCore.ToolCall)}
    (hd : ∀ c ∈ rs, ∀ d ∈ rs, signature digest c = signature digest d → carried c = carried d) :
    mw.triggered ((rs.map (signature digest)).rtake mw.patternWindow) = true ↔
      mw.triggerCount ≤ mw.patternWindow ∧ LastSame mw.triggerCount rs := by
  have hpos := mw.trigger_pos
  have hlen : ((rs.map (signature digest)).rtake mw.patternWindow).length = min mw.patternWindow rs.length := by
    unfold List.rtake
    rw [List.length_drop, List.length_map]
    omega
  unfold triggered LastSame
  rw [decide_eq_true_iff, hlen, Nat.le_min, and_assoc]
  refine and_congr_right fun hw => and_congr_right fun hl => ?_
  have hmap : ((rs.map (signature digest)).rtake mw.patternWindow).rtake mw.triggerCount =
      (rs.rtake mw.triggerCount).map (signature digest) := by
    rw [rtake_rtake hw]
    unfold List.rtake
    rw [List.map_drop, List.length_map]
  have hne : (rs.rtake mw.triggerCount).map (signature digest) ≠ [] := by
    intro h
    have := congrArg List.length h
    unfold List.rtake at this
    rw [List.length_map, List.length_drop, List.length_nil] at this
    omega
  have hsub : ∀ c ∈ rs.rtake mw.triggerCount, c ∈ rs := fun c hc => List.mem_of_mem_drop hc
  rw [hmap, dedup_length_eq_one hne]
  simp only [List.forall_mem_map]
  exact forall₂_congr fun c hc => forall₂_congr fun d hd' =>
    ⟨hd c (hsub c hc) d (hsub d hd'), signature_congr⟩

/-- What holds of a scope after its own calls: the window has the fingerprints of its
last responses, and a hint waits iff one is due, which is never the case behind a
request. -/
structure ScopeInv (digest : String → String) (mw : LoopDetectionMiddleware) (ops : List Op) (v : ScopeState) : Prop where
  window : v.entries = (v.sinceHint.map (signature digest)).rtake mw.patternWindow
  seen : ∀ c ∈ v.sinceHint, c ∈ responses ops
  idle : (∀ op ∈ ops.getLast?, op.isAfter = false) → v.pending = false
  due : v.pending = true ↔ mw.triggerCount ≤ mw.patternWindow ∧ LastSame mw.triggerCount v.sinceHint

theorem not_lastSame_nil : ¬ LastSame mw.triggerCount [] := fun h => absurd h.1 (Nat.not_le.mpr mw.trigger_pos)

theorem ScopeInv.init : ScopeInv digest mw [] {} where
  window := by simp [List.rtake]
  seen := fun c hc => absurd hc List.not_mem_nil
  idle := fun _ => rfl
  due := iff_of_false Bool.false_ne_true fun h => not_lastSame_nil h.2

theorem responses_append (ops : List Op) (op : Op) : responses (ops ++ [op]) = responses ops ++ responses [op] :=
  List.filterMap_append

theorem ScopeInv.step {ops : List Op} {v : ScopeState} (h : ScopeInv digest mw ops v) {op : Op}
    (halt : ((ops ++ [op]).map Op.isAfter).IsChain (· ≠ ·)) (hd : Distinguishes digest (ops ++ [op])) :
    ScopeInv digest mw (ops ++ [op]) (scopeStep digest mw v op) := by
  have hmono : ∀ c ∈ v.sinceHint, c ∈ responses (ops ++ [op]) := fun c hc => by
    rw [responses_append]
    exact List.mem_append_left _ (h.seen c hc)
  cases op with
  | before ctx messages =>
    dsimp only [scopeStep]
    by_cases hp : v.pending = true
    · rw [if_pos hp]
      exact {
        window := by simp [List.rtake]
        seen := fun c hc => absurd hc List.not_mem_nil
        idle := fun _ => rfl
        due := iff_of_false Bool.false_ne_true fun h => not_lastSame_nil h.2 }
    · rw [if_neg hp]
      exact { window := h.window, seen := hmono, idle := fun _ => by simpa using hp, due := h.due }
  | after ctx toolCalls =>
    -- the scope's last call was a request, so nothing waited
    have hidle : v.pending = false := by
      refine h.idle fun op hop => ?_
      rw [List.map_append, List.isChain_append] at halt
      have hlast : op.isAfter ∈ (ops.map Op.isAfter).getLast? := by
        rw [List.getLast?_map]
        exact Option.mem_map_of_mem _ hop
      have hne : op.isAfter ≠ true := halt.2.2 _ hlast true rfl
      simpa using hne
    have hnot : ¬ ∀ op ∈ (ops ++ [Op.after ctx toolCalls]).getLast?, op.isAfter = false := by
      intro hall
      exact Bool.noConfusion (hall (.after ctx toolCalls) (by simp))
    dsimp only [scopeStep]
    by_cases hskip : ctx.streamIncomplete = true ∨ toolCalls = []
    · rw [if_pos hskip]
      exact { window := h.window, seen := hmono, idle := fun hall => absurd hall hnot, due := h.due }
    · have hwindow : push mw.patternWindow v.entries (signature digest toolCalls) =
          ((v.sinceHint ++ [toolCalls]).map (signature digest)).rtake mw.patternWindow := by
        rw [h.window, push_rtake, List.map_append]
        rfl
      have hseen : ∀ c ∈ v.sinceHint ++ [toolCalls], c ∈ responses (ops ++ [.after ctx toolCalls]) := by
        intro c hc
        rcases List.mem_append.mp hc with hc | hc
        · exact hmono c hc
        · rw [responses_append, List.mem_singleton.mp hc]
          exact List.mem_append_right _ (by simp [responses])
      rw [if_neg hskip]
      refine { window := hwindow, seen := hseen, idle := fun hall => absurd hall hnot, due := ?_ }
      simp only [hidle, Bool.or_false]
      rw [hwindow]
      exact triggered_iff fun c hc d hd' => hd c (hseen c hc) d (hseen d hd')

theorem scope_inv {ops : List Op} (halt : (ops.map Op.isAfter).IsChain (· ≠ ·)) (hd : Distinguishes digest ops) :
    ScopeInv digest mw ops (ops.foldl (scopeStep digest mw) {}) := by
  induction ops using List.reverseRecOn with
  | nil => exact .init
  | append_singleton ops op ih =>
    have halt' : (ops.map Op.isAfter).IsChain (· ≠ ·) := by
      rw [List.map_append] at halt
      exact halt.left_of_append
    have hd' : Distinguishes digest ops := by
      intro c hc d hd'
      have hmem : ∀ c ∈ responses ops, c ∈ responses (ops ++ [op]) := fun c hc => by
        rw [responses_append]
        exact List.mem_append_left _ hc
      exact hd c (hmem c hc) d (hmem d hd')
    rw [List.foldl_append]
    exact (ih halt' hd').step halt hd

theorem mem_responses_own {k : Scope} {ops : List Op} {c : List AgentCore.ToolCall} (h : c ∈ responses (own k ops)) :
    c ∈ responses ops := by
  unfold responses own at h
  exact (List.filter_sublist.filterMap _).subset h

variable (digest mw) in
/-- The detection does for a request of a scope what it is for: the hint is given iff
the last responses since the last hint carry the same tool calls, whatever the other
scopes do, and it changes nothing but the text of the first system message. -/
def FiresExactly (ops : List Op) (k : Scope) (ctx : LlmCallContext) (messages : History) : Prop :=
  (mw.injects digest ops ctx = true ↔ LastSame mw.triggerCount ((mw.run digest ops).sinceHint k)) ∧
    (∀ ops' : List Op, mw.Fits (ops' ++ [.before ctx messages]) → own k ops' = own k ops →
      mw.injects digest ops' ctx = mw.injects digest ops ctx) ∧
    (mw.injects digest ops ctx = true → Hinted messages (mw.sent digest ops ctx messages)) ∧
    (mw.injects digest ops ctx = false → mw.sent digest ops ctx messages = messages)

theorem injects_eq {ctx : LlmCallContext} {k : Scope} (hk : scopeKey ctx = some k) (ops : List Op) :
    mw.injects digest ops ctx = (view (mw.run digest ops) k).pending := by
  unfold injects hints view
  rw [hk, Option.any_some]

theorem sent_eq (ops : List Op) (ctx : LlmCallContext) (messages : History) : mw.sent digest ops ctx messages =
    if mw.injects digest ops ctx then injectHint messages else messages := by
  unfold sent injects hints beforeLlm
  cases scopeKey ctx with
  | none => rfl
  | some k =>
    by_cases hp : k ∈ (mw.run digest ops).state.pendingHints
    · simp [hp]
    · simp [hp]

/-- A hint is given iff it is due and the window reaches as far as the trigger. -/
theorem injects_iff {ops : List Op} {k : Scope} {ctx : LlmCallContext} {messages : History}
    (hk : scopeKey ctx = some k) (hfits : mw.Fits (ops ++ [.before ctx messages]))
    (halt : Alternates k (ops ++ [.before ctx messages])) (hd : Distinguishes digest ops) :
    mw.injects digest ops ctx = true ↔
      mw.triggerCount ≤ mw.patternWindow ∧ LastSame mw.triggerCount ((mw.run digest ops).sinceHint k) := by
  have hview := view_run digest ops hfits.of_append k
  have halt' : ((own k ops).map Op.isAfter).IsChain (· ≠ ·) := by
    unfold Alternates at halt
    rw [own_append, if_pos (show (Op.before ctx messages).scope = some k from hk), List.map_append] at halt
    exact halt.left_of_append
  have hd' : Distinguishes digest (own k ops) := fun c hc d hd' =>
    hd c (mem_responses_own hc) d (mem_responses_own hd')
  have hinv : ScopeInv digest mw (own k ops) ((own k ops).foldl (scopeStep digest mw) {}) := scope_inv halt' hd'
  rw [← hview] at hinv
  rw [injects_eq hk]
  exact hinv.due

/-- **The detection fires exactly** iff no hint is due, or the window reaches as far as
the trigger and the first system message is nothing but a text. -/
theorem fires_exactly_iff {ops : List Op} {k : Scope} {ctx : LlmCallContext} {messages : History}
    (hk : scopeKey ctx = some k) (hfits : mw.Fits (ops ++ [.before ctx messages]))
    (halt : Alternates k (ops ++ [.before ctx messages])) (hd : Distinguishes digest ops) :
    FiresExactly digest mw ops k ctx messages ↔
      ¬ LastSame mw.triggerCount ((mw.run digest ops).sinceHint k) ∨
        mw.triggerCount ≤ mw.patternWindow ∧ ∀ m, messages.find? isSystemMsg = some m → OnlyText m := by
  have hiff := injects_iff hk hfits halt hd
  have hown : ∀ ops' : List Op, mw.Fits (ops' ++ [.before ctx messages]) → own k ops' = own k ops →
      mw.injects digest ops' ctx = mw.injects digest ops ctx := by
    intro ops' hfits' heq
    rw [injects_eq hk, injects_eq hk, view_run digest ops' hfits'.of_append, view_run digest ops hfits.of_append, heq]
  unfold FiresExactly
  rw [sent_eq]
  by_cases hlast : LastSame mw.triggerCount ((mw.run digest ops).sinceHint k)
  · by_cases hreach : mw.triggerCount ≤ mw.patternWindow
    · have hinj := hiff.mpr ⟨hreach, hlast⟩
      rw [hinj, if_pos rfl, hinted_injectHint_iff]
      constructor
      · exact fun h => .inr ⟨hreach, h.2.2.1 rfl⟩
      · rintro (h | h)
        · exact absurd hlast h
        · exact ⟨iff_of_true rfl hlast, fun ops' hf heq => hinj ▸ hown ops' hf heq, fun _ => h.2,
            fun h => Bool.noConfusion h⟩
    · have hinj : mw.injects digest ops ctx = false := by
        by_contra hne
        exact hreach (hiff.mp (by simpa using hne)).1
      refine iff_of_false (fun h => ?_) fun h => h.elim (fun h => h hlast) fun h => hreach h.1
      rw [h.1.mpr hlast] at hinj
      cases hinj
  · have hinj : mw.injects digest ops ctx = false := by
      by_contra hne
      exact hlast (hiff.mp (by simpa using hne)).2
    refine iff_of_true ⟨iff_of_false (by simp [hinj]) hlast, hown, fun h => ?_, fun _ => ?_⟩ (.inl hlast)
    · rw [hinj] at h
      cases h
    · rw [hinj]
      rfl

/-- The digest of an empty object. -/
def emptyDigest : String → String := fun _ => "99914b93"

def solver : LlmCallContext := { taskId := "task", roleId := "solver" }

def solverScope : Scope := { taskOrSession := "task", roleId := "solver", phaseId := "" }

def ask : History := [systemMsg "You are a solver.", userMsg "Go on."]

/-- So many responses with the same tool call. -/
def repeated (n : ℕ) : List Op :=
  (List.replicate n [.before solver ask, .after solver [{ id := "call", name := "bash", arguments := "{}" }]]).flatten

def defaults : LoopDetectionMiddleware := ⟨10, 3, 1024, by decide, by decide, by decide⟩

theorem fires_exactly_repeated : FiresExactly emptyDigest defaults (repeated 3) solverScope solver ask :=
  (fires_exactly_iff (by decide) (by decide +kernel) (by decide +kernel) (by decide +kernel)).mpr
    (.inr ⟨by decide, fun m h => by
      obtain rfl : systemMsg "You are a solver." = m := Option.some.inj h
      rfl⟩)

/-- A trigger of three is beyond a window of two. -/
theorem never_fires : ∃ (digest : String → String) (mw : LoopDetectionMiddleware) (ops : List Op) (k : Scope)
    (ctx : LlmCallContext) (messages : History), scopeKey ctx = some k ∧ mw.Fits (ops ++ [.before ctx messages]) ∧
      Alternates k (ops ++ [.before ctx messages]) ∧ Distinguishes digest ops ∧
        ¬ FiresExactly digest mw ops k ctx messages := by
  refine ⟨emptyDigest, ⟨2, 3, 1024, by decide, by decide, by decide⟩, repeated 3, solverScope, solver, ask, by decide,
    by decide +kernel, by decide +kernel, by decide +kernel, fun h => ?_⟩
  have hinj := h.1.mpr (by decide +kernel)
  exact absurd hinj (by decide +kernel)

end AgentCore.Middleware.LoopDetection
