/-
# Guardrails against repeated calls

`GuardrailsMiddleware` of `guardrails.py`. Before each tool call the fingerprints
of the task's last calls are looked at: so many equal to the call's own block it
as a duplicate, and else it is recorded. Only the last twenty are kept, so a
threshold above twenty is never reached.

The fingerprint is a parameter. The log is left out.

Key definitions: `GuardrailsMiddleware`, `beforeToolCall`, `run`, `recorded`, `LastSame`.
Key theorems: `run_windowed`, `run_ownTask`, `counts_exactly_iff`.
-/
import AgentCore.Lib.Window
import Mathlib.Logic.Function.Basic

namespace AgentCore.Loop.Guardrails

open Window

def defaultDuplicateThresholds : List (String × ℕ) :=
  [("web_search", 6), ("web_fetch", 5), ("bash", 6), ("file_editor_str_replace", 5), ("file_editor_view", 5),
    ("file_editor_create", 5), ("read_file", 5), ("read_text", 5), ("write_file", 5), ("grep_search", 5),
    ("glob_search", 5), ("view_image", 4), ("delegate_subtask", 3), ("collect_results", 3), ("abort_task", 3)]

/-- A tool call as the hook is asked about it. -/
structure Call (Args : Type) where
  taskId : String
  toolName : String
  args : Args

/-- `GuardrailsMiddleware`: what it is constructed with. -/
structure GuardrailsMiddleware (Args Fingerprint : Type) where
  /-- `_args_fingerprint`. -/
  fingerprint : String → Args → Fingerprint
  searchWarnThreshold : ℕ := 50
  maxLoopHints : ℕ := 3
  duplicateThresholds : Option (List (String × ℕ)) := none
  defaultDuplicateThreshold : ℕ := 5
  searchToolName : String := "web_search"
  ignoredTools : List String := ["tool_search"]

/-- `_stats`. -/
structure Stats where
  duplicateBlocks : ℕ := 0
  searchWarnings : ℕ := 0
  loopEscalationBlocks : ℕ := 0
  totalChecks : ℕ := 0

/-- The state, by task. A task without an entry is one with an empty entry. -/
structure State (Fingerprint : Type) where
  recentCalls : String → List Fingerprint := fun _ => []
  searchCounts : String → ℕ := fun _ => 0
  searchWarned : String → Bool := fun _ => false
  loopHintCounts : String → ℕ := fun _ => 0
  stats : Stats := {}

/-- What `before_tool_call` does with the call. -/
inductive Verdict
  | allowed
  | duplicate (reason : String)
  | loopEscalation (reason : String)
  deriving DecidableEq

def Verdict.isDuplicate : Verdict → Bool
  | .duplicate _ => true
  | _ => false

/-- `deque(maxlen=20)`. -/
def maxRecent : ℕ := 20

variable {Args Fingerprint : Type} [DecidableEq Fingerprint]

namespace GuardrailsMiddleware

variable (mw : GuardrailsMiddleware Args Fingerprint)

/-- `duplicate_thresholds or DEFAULT_DUPLICATE_THRESHOLDS`. -/
def thresholds : List (String × ℕ) :=
  match mw.duplicateThresholds with
  | some (t :: ts) => t :: ts
  | _ => defaultDuplicateThresholds

def threshold (toolName : String) : ℕ := (mw.thresholds.lookup toolName).getD mw.defaultDuplicateThreshold

def callFingerprint (c : Call Args) : Fingerprint := mw.fingerprint c.toolName c.args

def duplicateReason (c : Call Args) (consecutive : ℕ) : String :=
  "Blocked: " ++ c.toolName ++ " called " ++ toString (consecutive + 1) ++ " times " ++
    "consecutively with identical arguments. Try different parameters or a different approach."

def escalationReason (hintCount : ℕ) : String :=
  "Blocked: repeated tool call pattern detected after " ++ toString hintCount ++ " loop warnings. " ++
    "Try a completely different approach or conclude with available evidence."

/-- The count of searches, where the call is one. -/
def countSearch (s : State Fingerprint) (c : Call Args) : State Fingerprint :=
  if c.toolName = mw.searchToolName then
    let count := s.searchCounts c.taskId + 1
    let s := { s with searchCounts := Function.update s.searchCounts c.taskId count }
    if mw.searchWarnThreshold ≤ count ∧ s.searchWarned c.taskId = false then
      { s with
        searchWarned := Function.update s.searchWarned c.taskId true
        stats := { s.stats with searchWarnings := s.stats.searchWarnings + 1 } }
    else s
  else s

def beforeToolCall (s : State Fingerprint) (c : Call Args) : State Fingerprint × Verdict :=
  let s := { s with stats := { s.stats with totalChecks := s.stats.totalChecks + 1 } }
  if c.toolName ∈ mw.ignoredTools then (s, .allowed)
  else
    let recent := s.recentCalls c.taskId
    let consecutive := trailing (mw.callFingerprint c) recent
    if mw.threshold c.toolName ≤ consecutive then
      ({ s with stats := { s.stats with duplicateBlocks := s.stats.duplicateBlocks + 1 } },
        .duplicate (duplicateReason c consecutive))
    else
      let recent := push maxRecent recent (mw.callFingerprint c)
      let s := mw.countSearch { s with recentCalls := Function.update s.recentCalls c.taskId recent } c
      let hintCount := s.loopHintCounts c.taskId
      if mw.maxLoopHints ≤ hintCount ∧ mw.callFingerprint c ∈ recent.dropLast then
        ({ s with stats := { s.stats with loopEscalationBlocks := s.stats.loopEscalationBlocks + 1 } },
          .loopEscalation (escalationReason hintCount))
      else (s, .allowed)

end GuardrailsMiddleware

def notifyLoopHint (s : State Fingerprint) (taskId : String) : State Fingerprint :=
  { s with loopHintCounts := Function.update s.loopHintCounts taskId (s.loopHintCounts taskId + 1) }

def resetLoopHints (s : State Fingerprint) (taskId : String) : State Fingerprint :=
  { s with loopHintCounts := Function.update s.loopHintCounts taskId 0 }

def cleanupTask (s : State Fingerprint) (taskId : String) : State Fingerprint :=
  { s with
    recentCalls := Function.update s.recentCalls taskId []
    searchCounts := Function.update s.searchCounts taskId 0
    searchWarned := Function.update s.searchWarned taskId false
    loopHintCounts := Function.update s.loopHintCounts taskId 0 }

/-! ### Runs -/

/-- What the host does with the middleware. -/
inductive Op (Args : Type)
  | call (c : Call Args)
  | cleanup (taskId : String)
  | notifyHint (taskId : String)
  | resetHints (taskId : String)

def Op.taskId : Op Args → String
  | .call c => c.taskId
  | .cleanup t => t
  | .notifyHint t => t
  | .resetHints t => t

/-- The state, and the calls on record: those that were neither ignored nor blocked as
a duplicate, up to a clean-up of their task. -/
structure Recording (Args Fingerprint : Type) where
  state : State Fingerprint := {}
  calls : List (Call Args) := []

namespace GuardrailsMiddleware

variable (mw : GuardrailsMiddleware Args Fingerprint)

def step (r : Recording Args Fingerprint) : Op Args → Recording Args Fingerprint
  | .call c =>
    let out := mw.beforeToolCall r.state c
    { state := out.1
      calls := if c.toolName ∈ mw.ignoredTools ∨ out.2.isDuplicate then r.calls else r.calls ++ [c] }
  | .cleanup t => { state := cleanupTask r.state t, calls := r.calls.filter (·.taskId ≠ t) }
  | .notifyHint t => { r with state := notifyLoopHint r.state t }
  | .resetHints t => { r with state := resetLoopHints r.state t }

def run (ops : List (Op Args)) : Recording Args Fingerprint := ops.foldl mw.step {}

/-- The calls of a task on record. -/
def recorded (ops : List (Op Args)) (taskId : String) : List (Call Args) :=
  (mw.run ops).calls.filter (·.taskId = taskId)

/-- After these operations the call is blocked as a duplicate. -/
def blocks (ops : List (Op Args)) (c : Call Args) : Bool := (mw.beforeToolCall (mw.run ops).state c).2.isDuplicate

end GuardrailsMiddleware

/-- The last `n` calls have the tool and the arguments of `c`. -/
def LastSame (n : ℕ) (calls : List (Call Args)) (c : Call Args) : Prop :=
  n ≤ calls.length ∧ ∀ d ∈ calls.rtake n, d.toolName = c.toolName ∧ d.args = c.args

instance [DecidableEq Args] (n : ℕ) (calls : List (Call Args)) (c : Call Args) : Decidable (LastSame n calls c) := by
  unfold LastSame
  infer_instance

/-! ### What one operation does to a task's window -/

namespace GuardrailsMiddleware

variable {mw : GuardrailsMiddleware Args Fingerprint}

/-- The window of the task behind a call of its own. -/
def windowAfter (mw : GuardrailsMiddleware Args Fingerprint) (window : List Fingerprint) (c : Call Args) :
    List Fingerprint :=
  if c.toolName ∈ mw.ignoredTools ∨ mw.threshold c.toolName ≤ trailing (mw.callFingerprint c) window then window
  else push maxRecent window (mw.callFingerprint c)

omit [DecidableEq Fingerprint] in
theorem countSearch_recentCalls (s : State Fingerprint) (c : Call Args) :
    (mw.countSearch s c).recentCalls = s.recentCalls := by
  unfold countSearch
  by_cases hs : c.toolName = mw.searchToolName
  · rw [if_pos hs]
    dsimp only
    split
    · rfl
    · rfl
  · rw [if_neg hs]

/-- A call that is not ignored is a duplicate iff as many copies as the threshold says
end the task's window. -/
theorem isDuplicate_iff {s : State Fingerprint} {c : Call Args} (hc : c.toolName ∉ mw.ignoredTools) :
    (mw.beforeToolCall s c).2.isDuplicate = true ↔
      mw.threshold c.toolName ≤ trailing (mw.callFingerprint c) (s.recentCalls c.taskId) := by
  unfold beforeToolCall
  simp only [if_neg hc]
  by_cases hd : mw.threshold c.toolName ≤ trailing (mw.callFingerprint c) (s.recentCalls c.taskId)
  · rw [if_pos hd]
    exact ⟨fun _ => hd, fun _ => rfl⟩
  · rw [if_neg hd]
    refine iff_of_false ?_ hd
    split
    · exact Bool.false_ne_true
    · exact Bool.false_ne_true

/-- A call changes the window of its own task only. -/
theorem beforeToolCall_recentCalls (s : State Fingerprint) (c : Call Args) :
    (mw.beforeToolCall s c).1.recentCalls =
      Function.update s.recentCalls c.taskId (mw.windowAfter (s.recentCalls c.taskId) c) := by
  unfold beforeToolCall windowAfter
  by_cases hi : c.toolName ∈ mw.ignoredTools
  · simp [hi]
  · by_cases hd : mw.threshold c.toolName ≤ trailing (mw.callFingerprint c) (s.recentCalls c.taskId)
    · simp [hi, hd]
    · simp only [hi, hd, if_false, or_self]
      split
      · exact countSearch_recentCalls ..
      · exact countSearch_recentCalls ..

/-- The window of a task holds the fingerprints of its last calls on record. -/
def Windowed (mw : GuardrailsMiddleware Args Fingerprint) (r : Recording Args Fingerprint) : Prop :=
  ∀ t, r.state.recentCalls t = ((r.calls.filter (·.taskId = t)).map mw.callFingerprint).rtake maxRecent

theorem step_windowed {r : Recording Args Fingerprint} (h : mw.Windowed r) (op : Op Args) : mw.Windowed (mw.step r op) := by
  intro t
  cases op with
  | call c =>
    have hskip : c.toolName ∈ mw.ignoredTools ∨ (mw.beforeToolCall r.state c).2.isDuplicate = true ↔
        c.toolName ∈ mw.ignoredTools ∨
          mw.threshold c.toolName ≤ trailing (mw.callFingerprint c) (r.state.recentCalls c.taskId) := by
      by_cases hi : c.toolName ∈ mw.ignoredTools
      · simp [hi]
      · rw [isDuplicate_iff hi]
    simp only [step, beforeToolCall_recentCalls, windowAfter, hskip]
    by_cases hs : c.toolName ∈ mw.ignoredTools ∨
        mw.threshold c.toolName ≤ trailing (mw.callFingerprint c) (r.state.recentCalls c.taskId)
    · rw [if_pos hs, if_pos hs, Function.update_eq_self]
      exact h t
    · rw [if_neg hs, if_neg hs, List.filter_append, List.map_append]
      by_cases ht : c.taskId = t
      · subst ht
        rw [Function.update_self, h c.taskId, push_rtake]
        simp
      · rw [Function.update_of_ne (fun e => ht e.symm), h t]
        simp [ht]
  | cleanup t' =>
    simp only [step, cleanupTask, List.filter_filter]
    by_cases ht : t = t'
    · subst ht
      have hnone : r.calls.filter (fun c => decide (c.taskId = t) && decide (c.taskId ≠ t)) = [] := by
        rw [List.filter_eq_nil_iff]
        intro c _
        simp
      rw [Function.update_self, hnone]
      rfl
    · have hsame : r.calls.filter (fun c => decide (c.taskId = t) && decide (c.taskId ≠ t')) =
          r.calls.filter (·.taskId = t) := by
        refine List.filter_congr fun c _ => ?_
        by_cases hc : c.taskId = t
        · simp [hc, ht]
        · simp [hc]
      rw [Function.update_of_ne ht, hsame]
      exact h t
  | notifyHint _ => exact h t
  | resetHints _ => exact h t

/-- The window along a run. -/
theorem run_windowed (ops : List (Op Args)) : mw.Windowed (mw.run ops) := by
  have hall : ∀ (ops : List (Op Args)) (r : Recording Args Fingerprint), mw.Windowed r →
      mw.Windowed (ops.foldl mw.step r) := by
    intro ops
    induction ops with
    | nil => exact fun r h => h
    | cons op ops ih => exact fun r h => ih _ (step_windowed h op)
  exact hall ops {} fun t => rfl

/-! ### Tasks do not meet -/

/-- Two states with the same window of a task have it behind the same operation too. -/
theorem step_sameWindow {r r' : Recording Args Fingerprint} {t : String}
    (h : r.state.recentCalls t = r'.state.recentCalls t) (op : Op Args) :
    (mw.step r op).state.recentCalls t = (mw.step r' op).state.recentCalls t := by
  cases op with
  | call c =>
    simp only [step, beforeToolCall_recentCalls]
    by_cases ht : t = c.taskId
    · subst ht
      rw [Function.update_self, Function.update_self, h]
    · rw [Function.update_of_ne ht, Function.update_of_ne ht, h]
  | cleanup t' =>
    simp only [step, cleanupTask]
    by_cases ht : t = t'
    · subst ht
      rw [Function.update_self, Function.update_self]
    · rw [Function.update_of_ne ht, Function.update_of_ne ht, h]
  | notifyHint _ => exact h
  | resetHints _ => exact h

theorem step_otherTask (r : Recording Args Fingerprint) {t : String} {op : Op Args} (ht : op.taskId ≠ t) :
    (mw.step r op).state.recentCalls t = r.state.recentCalls t := by
  cases op with
  | call c =>
    simp only [step, beforeToolCall_recentCalls]
    exact Function.update_of_ne (fun e => ht e.symm) ..
  | cleanup t' => exact Function.update_of_ne (fun e => ht e.symm) ..
  | notifyHint _ => rfl
  | resetHints _ => rfl

/-- The window of a task is what the task's own operations make of it. -/
theorem run_ownTask (ops : List (Op Args)) (t : String) :
    (mw.run ops).state.recentCalls t = (mw.run (ops.filter (·.taskId = t))).state.recentCalls t := by
  have hall : ∀ (ops : List (Op Args)) (r r' : Recording Args Fingerprint),
      r.state.recentCalls t = r'.state.recentCalls t →
        (ops.foldl mw.step r).state.recentCalls t =
          ((ops.filter (·.taskId = t)).foldl mw.step r').state.recentCalls t := by
    intro ops
    induction ops with
    | nil => exact fun _ _ h => h
    | cons op ops ih =>
      intro r r' h
      by_cases hop : op.taskId = t
      · rw [List.filter_cons_of_pos (by simpa using hop)]
        exact ih _ _ (step_sameWindow h op)
      · rw [List.filter_cons_of_neg (by simpa using hop)]
        exact ih _ _ ((step_otherTask r hop).trans h)
  exact hall ops {} {} rfl

theorem blocks_ownTask {ops ops' : List (Op Args)} {c : Call Args}
    (h : ops'.filter (·.taskId = c.taskId) = ops.filter (·.taskId = c.taskId)) (hc : c.toolName ∉ mw.ignoredTools) :
    mw.blocks ops' c = mw.blocks ops c := by
  unfold blocks
  rw [Bool.eq_iff_iff, isDuplicate_iff hc, isDuplicate_iff hc, run_ownTask ops', h, ← run_ownTask ops]

/-! ### The count -/

theorem lastSame_iff (hinj : Function.Injective2 mw.fingerprint) (n : ℕ) (calls : List (Call Args)) (c : Call Args) :
    n ≤ trailing (mw.callFingerprint c) (calls.map mw.callFingerprint) ↔ LastSame n calls c := by
  have hmap : (calls.map mw.callFingerprint).rtake n = (calls.rtake n).map mw.callFingerprint := by
    unfold List.rtake
    rw [List.map_drop, List.length_map]
  rw [le_trailing_iff, hmap, List.length_map, List.forall_mem_map]
  unfold LastSame
  refine and_congr_right fun _ => forall₂_congr fun d _ => ?_
  exact ⟨fun h => hinj h, fun h => by rw [callFingerprint, callFingerprint, h.1, h.2]⟩

theorem blocks_iff (hinj : Function.Injective2 mw.fingerprint) (ops : List (Op Args)) {c : Call Args}
    (hc : c.toolName ∉ mw.ignoredTools) : mw.blocks ops c = true ↔
      mw.threshold c.toolName ≤ maxRecent ∧ LastSame (mw.threshold c.toolName) (mw.recorded ops c.taskId) c := by
  unfold blocks recorded
  rw [isDuplicate_iff hc, run_windowed ops c.taskId, trailing_rtake, Nat.le_min, lastSame_iff hinj]

/-- The call is blocked as a duplicate iff the last calls of its task on record, as many
as the threshold says, are the same, whatever the other tasks do. -/
def CountsExactly (mw : GuardrailsMiddleware Args Fingerprint) (ops : List (Op Args)) (c : Call Args) : Prop :=
  (mw.blocks ops c = true ↔ LastSame (mw.threshold c.toolName) (mw.recorded ops c.taskId) c) ∧
    ∀ ops' : List (Op Args), ops'.filter (·.taskId = c.taskId) = ops.filter (·.taskId = c.taskId) →
      mw.blocks ops' c = mw.blocks ops c

/-- The count is exact iff the threshold fits into the window or is not reached. -/
theorem counts_exactly_iff (hinj : Function.Injective2 mw.fingerprint) (ops : List (Op Args)) {c : Call Args}
    (hc : c.toolName ∉ mw.ignoredTools) : mw.CountsExactly ops c ↔
      mw.threshold c.toolName ≤ maxRecent ∨ ¬ LastSame (mw.threshold c.toolName) (mw.recorded ops c.taskId) c := by
  unfold CountsExactly
  rw [blocks_iff hinj ops hc]
  have hown : ∀ ops' : List (Op Args), ops'.filter (·.taskId = c.taskId) = ops.filter (·.taskId = c.taskId) →
      mw.blocks ops' c = mw.blocks ops c := fun ops' h => blocks_ownTask h hc
  simp only [and_iff_left hown]
  tauto

/-- A tool with a threshold. -/
def pollGuard (threshold : ℕ) : GuardrailsMiddleware ℕ (String × ℕ) where
  fingerprint := Prod.mk
  duplicateThresholds := some [("poll", threshold)]

def poll : Call ℕ := { taskId := "task", toolName := "poll", args := 7 }

theorem counts_exactly_poll : (pollGuard 3).CountsExactly (List.replicate 3 (.call poll)) poll :=
  (counts_exactly_iff (fun _ _ _ _ h => Prod.mk.inj h) _ (by decide)).mpr (.inl (by decide))

/-- With a threshold of 21 the same call is never blocked. -/
theorem poll_not_blocked :
    ∃ (mw : GuardrailsMiddleware ℕ (String × ℕ)) (ops : List (Op ℕ)) (c : Call ℕ),
      Function.Injective2 mw.fingerprint ∧ c.toolName ∉ mw.ignoredTools ∧ ¬ mw.CountsExactly ops c := by
  refine ⟨pollGuard 21, List.replicate 21 (.call poll), poll, fun _ _ _ _ h => Prod.mk.inj h, by decide, fun h => ?_⟩
  have hlast : LastSame ((pollGuard 21).threshold poll.toolName)
      ((pollGuard 21).recorded (List.replicate 21 (.call poll)) poll.taskId) poll := by decide +kernel
  have hblocks : (pollGuard 21).blocks (List.replicate 21 (.call poll)) poll = false := by decide +kernel
  rw [h.1.mpr hlast] at hblocks
  cases hblocks

end GuardrailsMiddleware

end AgentCore.Loop.Guardrails
