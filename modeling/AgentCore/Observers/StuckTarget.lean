/-
# Quarantine of targets that keep failing

`StuckTargetGuard` of `stuck_target_guard.py`, and the part of `_execute_tool_calls`
that calls it. The guard keeps, for the last network turns, the hosts that failed in
each; a host that succeeds is struck from all of them. A host that failed in enough of
the turns is blocked at the end of a turn, and calls that target it are skipped.

A blocked host is let go only where a result reads as a success for it. What the guard
answers itself does not, and what is executed does not target it. But an observer in
front of the guard may skip the call with another text, or rewrite a result, and then
the host is free again: so it stays blocked in the runs where such an answer does not
read as a success (`Undisturbed`).

The order in which a set of hosts is gone through is a parameter. No observer rewrites
the arguments of a call, and what is executed has the name and the arguments of its
call.

Key definitions: `Guard`, `onToolCall`, `onToolResult`, `onTurnEnd`, `Loop`, `step`,
`Earned`, `Undisturbed`.
Key theorems: `quarantine`, `skipped_by_other_unblocks`.
-/
import Mathlib.Data.Char
import Mathlib.Data.List.Lex
import Mathlib.Data.List.Sort
import Mathlib.Logic.Function.Basic
import AgentCore.Lib.Runs
import AgentCore.Lib.Window
import AgentCore.Observers.TargetVerdicts

namespace AgentCore.Observers.StuckTarget

open PyJson (Value)

/-! ### The guard -/

/-- The thresholds that the constructor settles on. -/
structure Thresholds where
  hintAfter : ℕ
  escalateAfter : ℕ
  window : ℕ
  two_le : 2 ≤ hintAfter
  hint_lt : hintAfter < escalateAfter
  escalate_le : escalateAfter ≤ window

/-- `StuckTargetGuard(hint_after=…, escalate_after=…, window=…)`. -/
def Thresholds.of (hintAfter escalateAfter window : ℤ) : Thresholds where
  hintAfter := max 2 hintAfter.toNat
  escalateAfter := max (max 2 hintAfter.toNat + 1) escalateAfter.toNat
  window := max (max (max 2 hintAfter.toNat + 1) escalateAfter.toNat) window.toNat
  two_le := Nat.le_max_left _ _
  hint_lt := Nat.le_max_left _ _
  escalate_le := Nat.le_max_left _ _

/-- The order in which a set of strings is gone through. -/
structure SetOrder where
  arrange : List Host → List Host
  perm : ∀ hs, (arrange hs).Perm hs

inductive Kind
  | hint
  | block
  deriving DecidableEq

/-- The hosts of a network turn that failed, hard and soft. -/
structure Slot where
  hard : List Host
  soft : List Host

structure Guard where
  recent : List Slot := []
  fired : List (Host × Kind) := []
  blockedHosts : List Host := []
  networkTurns : List ℕ := []
  failedByTurn : ℕ → List Host := fun _ => []
  softFailedByTurn : ℕ → List Host := fun _ => []
  succeededByTurn : ℕ → List Host := fun _ => []

section Hooks

variable (u : Unicode) {F : Type}

/-- `on_loop_start`. -/
def onLoopStart (_ : Guard) : Guard := {}

/-- `on_tool_call`: the text with which the call is skipped. -/
def onToolCall (g : Guard) (name : String) (args : Value F) : Option Chars :=
  let blocked := ((hostsForTool u name args).filter (· ∈ g.blockedHosts)).insertionSort (· ≤ ·)
  if blocked = [] then none else some (blockedText blocked)

/-- `target.setdefault(turn, set()).add(host)`. -/
def addTo (byTurn : ℕ → List Host) (turn : ℕ) (host : Host) : ℕ → List Host :=
  Function.update byTurn turn ((byTurn turn).insert host)

/-- A verdict is put down for its turn. -/
def Guard.note (turn : ℕ) (g : Guard) (e : Host × Verdict) : Guard :=
  match e.2 with
  | .neutral => g
  | .failed => { g with failedByTurn := addTo g.failedByTurn turn e.1 }
  | .softFailed => { g with softFailedByTurn := addTo g.softFailedByTurn turn e.1 }
  | .succeeded => { g with succeededByTurn := addTo g.succeededByTurn turn e.1 }

/-- `bash` without a host is local work, and other tools are no network tools. -/
def isNetworkResult (r : ToolResult F) : Bool :=
  isNetworkTool r.name && !(normalName r.name = "bash" && (r.hosts u).isEmpty)

/-- `on_tool_result`. -/
def onToolResult (turn : ℕ) (g : Guard) (r : ToolResult F) : Guard :=
  if !isNetworkResult u r then g
  else
    let g := { g with networkTurns := g.networkTurns.insert turn }
    (hostVerdicts u r (r.hosts u)).foldl (Guard.note turn) g

end Hooks

/-! ### The end of a turn -/

def hardCount (recent : List Slot) (host : Host) : ℕ := recent.countP fun slot => host ∈ slot.hard

def allCount (recent : List Slot) (host : Host) : ℕ := recent.countP fun slot => host ∈ slot.hard ∨ host ∈ slot.soft

/-- `_count_for`. -/
def countFor (recent : List Slot) : Kind → Host → ℕ
  | .block => hardCount recent
  | .hint => allCount recent

/-- `_threshold_for`. -/
def Thresholds.for (th : Thresholds) : Kind → ℕ
  | .block => th.escalateAfter
  | .hint => th.hintAfter

/-- The hosts that a `Counter` has got, the most counted first. -/
def mostCommon (order : SetOrder) (sets : List (List Host)) (count : Host → ℕ) : List Host :=
  (Text.fromKeys (sets.flatMap order.arrange)).insertionSort fun a b => count b ≤ count a

def Slot.without (host : Host) (slot : Slot) : Slot :=
  ⟨slot.hard.filter (· ≠ host), slot.soft.filter (· ≠ host)⟩

/-- `_reset_host`. -/
def Guard.resetHost (g : Guard) (host : Host) : Guard :=
  { g with
    recent := g.recent.map (Slot.without host)
    fired := g.fired.filter (·.1 ≠ host)
    blockedHosts := g.blockedHosts.filter (· ≠ host) }

/-- `_message`. -/
def message (span : ℕ) (host : Host) (seen : ℕ) : Kind → Chars
  | .block =>
    ("[guard] " ++ toString seen ++ " of your last " ++ toString span ++ " network steps targeting ").toList ++
      quoted host ++ (" produced confirmed failures. Further calls to this " ++
      "host are now blocked for this run. Use another source, or " ++
      "answer with what you have and state plainly which material " ++
      "could not be retrieved.").toList
  | .hint =>
    ("[guard] " ++ toString seen ++ " of your last " ++ toString span ++ " network steps targeting ").toList ++
      quoted host ++ (" failed. Change route now: use a different source, search " ++
      "for the page title, find an official PDF/API/archive, or accept " ++
      "that the material is unavailable and state the limitation. Do " ++
      "not keep retrying ").toList ++ quoted host ++ " with cosmetic variations.".toList

section TurnEnd

variable (th : Thresholds) (order : SetOrder)

/-- The turn is taken out of the books. -/
def Guard.closeTurn (g : Guard) (turn : ℕ) : Guard :=
  { g with
    networkTurns := g.networkTurns.filter (· ≠ turn)
    failedByTurn := Function.update g.failedByTurn turn []
    softFailedByTurn := Function.update g.softFailedByTurn turn []
    succeededByTurn := Function.update g.succeededByTurn turn [] }

/-- What is left of the failures of a turn: success wins, and then a hard failure. -/
def Guard.slot (g : Guard) (turn : ℕ) : Slot :=
  let hard := (g.failedByTurn turn).filter (· ∉ g.succeededByTurn turn)
  ⟨hard, (g.softFailedByTurn turn).filter fun h => h ∉ g.succeededByTurn turn ∧ h ∉ hard⟩

/-- The window with the slot of a turn, the hosts that succeeded in it being forgotten. -/
def Guard.slide (g : Guard) (turn : ℕ) : Guard :=
  let forgot := (g.succeededByTurn turn).foldl Guard.resetHost (g.closeTurn turn)
  let recent := Window.push th.window forgot.recent (g.slot turn)
  { forgot with
    recent := recent
    fired := forgot.fired.filter fun f => f.1 ∈ forgot.blockedHosts ∨ th.for f.2 ≤ countFor recent f.2 f.1 }

/-- The first host that has reached a threshold and that nothing has fired for. -/
def Guard.reached (g : Guard) (kind : Kind) (sets : List (List Host)) : Option Host :=
  (mostCommon order sets (countFor g.recent kind)).find? fun h =>
    th.for kind ≤ countFor g.recent kind h && (h, kind) ∉ g.fired

/-- The quarantine of a host, or else a hint. -/
def Guard.judge (g : Guard) : Guard × Option Chars :=
  match g.reached th order .block (g.recent.map Slot.hard) with
  | some h =>
    ({ g with fired := g.fired.insert (h, .block), blockedHosts := g.blockedHosts.insert h },
      some (message g.recent.length h (hardCount g.recent h) .block))
  | none =>
    match g.reached th order .hint (g.recent.map fun slot => slot.hard ∪ slot.soft) with
    | some h => ({ g with fired := g.fired.insert (h, .hint) },
        some (message g.recent.length h (allCount g.recent h) .hint))
    | none => (g, none)

/-- `on_turn_end`: the guard, and the message it injects. -/
def onTurnEnd (g : Guard) (turn : ℕ) : Guard × Option Chars :=
  if turn ∉ g.networkTurns then (g.closeTurn turn, none) else (g.slide th turn).judge th order

end TurnEnd

/-! ### The loop -/

/-- A call of a batch, and what becomes of it besides the guard. -/
structure Call (F : Type) where
  name : String
  args : Value F
  /-- The reason for which its arguments are refused. -/
  invalid : Option Chars := none
  /-- The text with which an observer in front of the guard skips it. -/
  skipBefore : Option Chars := none
  skipAfter : Option Chars := none
  /-- What running it gives, and whether that is an error. -/
  outcome : Chars × Bool
  /-- What the observers in front of the guard make of its result. -/
  rewrite : ToolResult F → ToolResult F := id

/-- The loop around the guard. The last two fields are a record for the statements:
the results of network tools in the turn, and in the network turns that have ended. -/
structure Loop (F : Type) where
  guard : Guard := {}
  turn : ℕ := 0
  pending : List (ToolResult F) := []
  log : List (List (ToolResult F)) := []

inductive Event (F : Type)
  | start
  | batch (calls : List (Call F))
  | turnEnd
  /-- The loop goes on to the next turn without the end of this one. -/
  | abandon

section Loop

variable (th : Thresholds) (order : SetOrder) (u : Unicode) {F : Type}

/-- `args if isinstance(args, dict) else {}`. -/
def dictOrEmpty : Value F → List (Chars × Value F)
  | .obj kvs => kvs
  | _ => []

/-- `notify_tool_call`: the first skip wins. -/
def skipText (g : Guard) (c : Call F) : Option Chars :=
  (c.skipBefore.or (onToolCall u g c.name c.args)).or c.skipAfter

/-- The call is run. -/
def Call.executes (g : Guard) (c : Call F) : Bool := c.invalid.isNone && (skipText u g c).isNone

/-- The result of a call. -/
def Call.result (g : Guard) (c : Call F) : ToolResult F :=
  match c.invalid with
  | some reason =>
    ⟨c.name, dictOrEmpty c.args,
      "[invalid tool call] ".toList ++ reason ++ "; re-issue the call with valid arguments.".toList, true⟩
  | none =>
    match skipText u g c with
    | some text => ⟨c.name, dictOrEmpty c.args, text, false⟩
    | none => ⟨c.name, dictOrEmpty c.args, c.outcome.1, c.outcome.2⟩

/-- The result of a call as it comes to the guard. -/
def Call.seen (g : Guard) (c : Call F) : ToolResult F := c.rewrite (c.result u g)

def step (s : Loop F) : Event F → Option (Loop F)
  | .start => some { guard := onLoopStart s.guard }
  | .batch calls =>
    let results := calls.map (Call.seen u s.guard)
    some { s with
      guard := results.foldl (onToolResult u s.turn) s.guard
      pending := s.pending ++ results.filter (isNetworkResult u) }
  | .turnEnd =>
    some { s with
      guard := (onTurnEnd th order s.guard s.turn).1
      turn := s.turn + 1
      pending := []
      log := if s.pending.isEmpty then s.log else s.log ++ [s.pending] }
  | .abandon => some { s with turn := s.turn + 1, pending := [] }

/-- Some result gives this verdict to the host. -/
def reads (v : Verdict) (h : Host) (rs : List (ToolResult F)) : Bool :=
  rs.any fun r => (h, v) ∈ hostVerdicts u r (r.hosts u)

/-- A quarantine is earned: among the last network turns, and since the last one in
which a result reads as a success for the host, it failed in enough of them, and in
each by a hard failure of its own. -/
structure Earned (h : Host) (log : List (List (ToolResult F))) : Prop where
  enough : th.escalateAfter ≤ Window.strikes (reads u .succeeded h) (reads u .failed h) th.window log
  hard : ∀ rs ∈ log, reads u .failed h rs = true → ∃ r ∈ rs, HardFailure u r h

/-- Someone else answers the call, or changes the answer before the guard sees it. -/
def Call.AnsweredByOther (g : Guard) (c : Call F) : Prop :=
  c.invalid.isSome ∨ c.skipBefore.isSome ∨ c.seen u g ≠ c.result u g

/-- No answer of someone else reads as a success for a blocked host. -/
def Undisturbed (_ : List (Event F)) (s : Loop F) : Event F → Prop
  | .batch calls => ∀ c ∈ calls, c.AnsweredByOther u s.guard →
      ∀ h ∈ s.guard.blockedHosts, reads u .succeeded h [c.seen u s.guard] = false
  | _ => True

end Loop

/-! ### What a batch puts down -/

variable {th : Thresholds} {order : SetOrder} {u : Unicode} {F : Type}

/-- The guard with these verdicts put down for a turn. -/
structure Noted (turn : ℕ) (es : List (Host × Verdict)) (g g' : Guard) : Prop where
  recent : g'.recent = g.recent
  blocked : g'.blockedHosts = g.blockedHosts
  failed : ∀ t h, h ∈ g'.failedByTurn t ↔ h ∈ g.failedByTurn t ∨ t = turn ∧ (h, .failed) ∈ es
  succeeded : ∀ t h, h ∈ g'.succeededByTurn t ↔ h ∈ g.succeededByTurn t ∨ t = turn ∧ (h, .succeeded) ∈ es

namespace Noted

variable {turn : ℕ} {es es' : List (Host × Verdict)} {g g' g'' : Guard}

theorem nil : Noted turn [] g g := ⟨rfl, rfl, fun _ _ => by simp, fun _ _ => by simp⟩

theorem append (h : Noted turn es g g') (h' : Noted turn es' g' g'') : Noted turn (es ++ es') g g'' where
  recent := h'.recent.trans h.recent
  blocked := h'.blocked.trans h.blocked
  failed t x := by rw [h'.failed, h.failed, or_assoc, ← and_or_left, List.mem_append]
  succeeded t x := by rw [h'.succeeded, h.succeeded, or_assoc, ← and_or_left, List.mem_append]

end Noted

theorem mem_addTo {byTurn : ℕ → List Host} {turn t : ℕ} {host h : Host} :
    h ∈ addTo byTurn turn host t ↔ h ∈ byTurn t ∨ t = turn ∧ h = host := by
  unfold addTo
  by_cases ht : t = turn
  · rw [ht, Function.update_self, List.mem_insert_iff]
    simp [or_comm]
  · rw [Function.update_of_ne ht]
    simp [ht]

theorem noted_note (turn : ℕ) (g : Guard) (e : Host × Verdict) : Noted turn [e] g (g.note turn e) := by
  obtain ⟨host, v⟩ := e
  cases v with
  | failed => exact ⟨rfl, rfl, fun t h => by simp [Guard.note, mem_addTo], fun t h => by simp [Guard.note]⟩
  | softFailed => exact ⟨rfl, rfl, fun t h => by simp [Guard.note], fun t h => by simp [Guard.note]⟩
  | succeeded => exact ⟨rfl, rfl, fun t h => by simp [Guard.note], fun t h => by simp [Guard.note, mem_addTo]⟩
  | neutral => exact ⟨rfl, rfl, fun t h => by simp [Guard.note], fun t h => by simp [Guard.note]⟩

theorem noted_notes (turn : ℕ) : ∀ (es : List (Host × Verdict)) (g : Guard), Noted turn es g (es.foldl (Guard.note turn) g)
  | [], _ => .nil
  | e :: es, g => (noted_note turn g e).append (noted_notes turn es (g.note turn e))

theorem networkTurns_notes (turn : ℕ) :
    ∀ (es : List (Host × Verdict)) (g : Guard), (es.foldl (Guard.note turn) g).networkTurns = g.networkTurns
  | [], _ => rfl
  | e :: es, g => by
    rw [List.foldl_cons, networkTurns_notes turn es]
    unfold Guard.note
    split <;> rfl

theorem hosts_of_not_network {r : ToolResult F} (hr : isNetworkResult u r = false) : r.hosts u = [] := by
  unfold isNetworkResult at hr
  cases htool : isNetworkTool r.name with
  | false =>
    unfold ToolResult.hosts hostsForTool
    rw [htool]
    rfl
  | true =>
    rw [htool, Bool.true_and, Bool.not_eq_false', Bool.and_eq_true] at hr
    exact List.isEmpty_iff.mp hr.2

theorem onToolResult_of_network {r : ToolResult F} (hr : isNetworkResult u r = true) (turn : ℕ) (g : Guard) :
    onToolResult u turn g r =
      (hostVerdicts u r (r.hosts u)).foldl (Guard.note turn) { g with networkTurns := g.networkTurns.insert turn } := by
  unfold onToolResult
  rw [hr]
  exact if_neg Bool.false_ne_true

theorem onToolResult_of_not_network {r : ToolResult F} (hr : isNetworkResult u r = false) (turn : ℕ) (g : Guard) :
    onToolResult u turn g r = g := by
  unfold onToolResult
  rw [hr]
  exact if_pos rfl

theorem noted_result (turn : ℕ) (g : Guard) (r : ToolResult F) :
    Noted turn (hostVerdicts u r (r.hosts u)) g (onToolResult u turn g r) := by
  cases hr : isNetworkResult u r with
  | false =>
    rw [onToolResult_of_not_network hr, hosts_of_not_network hr]
    exact .nil
  | true =>
    rw [onToolResult_of_network hr]
    generalize hostVerdicts u r (r.hosts u) = es
    have hnotes := noted_notes turn es { g with networkTurns := g.networkTurns.insert turn }
    exact ⟨hnotes.recent, hnotes.blocked, hnotes.failed, hnotes.succeeded⟩

theorem noted_results (turn : ℕ) (rs : List (ToolResult F)) (g : Guard) :
    Noted turn (rs.flatMap fun r => hostVerdicts u r (r.hosts u)) g (rs.foldl (onToolResult u turn) g) := by
  induction rs generalizing g with
  | nil => exact .nil
  | cons r rs ih =>
    rw [List.flatMap_cons, List.foldl_cons]
    exact (noted_result turn g r).append (ih (onToolResult u turn g r))

theorem mem_networkTurns_results (turn t : ℕ) (rs : List (ToolResult F)) (g : Guard) :
    t ∈ (rs.foldl (onToolResult u turn) g).networkTurns ↔
      t ∈ g.networkTurns ∨ t = turn ∧ rs.filter (isNetworkResult u) ≠ [] := by
  induction rs generalizing g with
  | nil => simp
  | cons r rs ih =>
    rw [List.foldl_cons, ih]
    cases hr : isNetworkResult u r with
    | false => rw [onToolResult_of_not_network hr, List.filter_cons_of_neg (by rw [hr]; exact Bool.false_ne_true)]
    | true =>
      rw [onToolResult_of_network hr, networkTurns_notes, List.mem_insert_iff, List.filter_cons_of_pos hr]
      generalize rs.filter (isNetworkResult u) = network
      constructor
      · rintro ((ht | hold) | ⟨ht, -⟩)
        · exact .inr ⟨ht, List.cons_ne_nil _ _⟩
        · exact .inl hold
        · exact .inr ⟨ht, List.cons_ne_nil _ _⟩
      · rintro (hold | ⟨ht, -⟩)
        · exact .inl (.inr hold)
        · exact .inl (.inl ht)

theorem reads_iff {v : Verdict} {h : Host} {rs : List (ToolResult F)} :
    reads u v h rs = true ↔ ∃ r ∈ rs, (h, v) ∈ hostVerdicts u r (r.hosts u) := by
  unfold reads
  rw [List.any_eq_true]
  simp only [decide_eq_true_eq]

theorem mem_verdicts {v : Verdict} {h : Host} {rs : List (ToolResult F)} :
    (h, v) ∈ rs.flatMap (fun r => hostVerdicts u r (r.hosts u)) ↔ reads u v h rs = true := by
  rw [List.mem_flatMap, reads_iff]

theorem reads_append {v : Verdict} {h : Host} {rs rs' : List (ToolResult F)} :
    reads u v h (rs ++ rs') = (reads u v h rs || reads u v h rs') := List.any_append

/-- Only the results of network tools have verdicts. -/
theorem reads_filter (v : Verdict) (h : Host) (rs : List (ToolResult F)) :
    reads u v h (rs.filter (isNetworkResult u)) = reads u v h rs := by
  rw [Bool.eq_iff_iff, reads_iff, reads_iff]
  constructor
  · rintro ⟨r, hr, hv⟩
    exact ⟨r, List.mem_of_mem_filter hr, hv⟩
  · rintro ⟨r, hr, hv⟩
    refine ⟨r, List.mem_filter.mpr ⟨hr, ?_⟩, hv⟩
    by_contra hnot
    rw [hosts_of_not_network (Bool.eq_false_iff.mpr hnot)] at hv
    exact absurd (mem_hosts_of_mem_verdicts hv) List.not_mem_nil

/-! ### The window -/

/-- In which turns of the window the host failed. -/
def failures (recent : List Slot) (h : Host) : List Bool := recent.map fun slot => decide (h ∈ slot.hard)

theorem hardCount_eq (recent : List Slot) (h : Host) : hardCount recent h = (failures recent h).count true := by
  unfold hardCount failures
  rw [List.count_eq_countP, List.countP_map]
  congr 1
  funext slot
  simp

theorem failures_resetHost (g : Guard) (host h : Host) : failures (g.resetHost host).recent h =
    if h = host then (failures g.recent h).map fun _ => false else failures g.recent h := by
  unfold failures Guard.resetHost Slot.without
  dsimp only
  rw [List.map_map]
  by_cases hh : h = host
  · rw [if_pos hh, List.map_map]
    refine List.map_congr_left fun slot _ => ?_
    simp [hh]
  · rw [if_neg hh]
    simp [hh]

theorem failures_forgot (hosts : List Host) (g : Guard) (h : Host) : failures (hosts.foldl Guard.resetHost g).recent h =
    if h ∈ hosts then (failures g.recent h).map fun _ => false else failures g.recent h := by
  induction hosts generalizing g with
  | nil => simp
  | cons host hosts ih =>
    rw [List.foldl_cons, ih, failures_resetHost]
    by_cases hh : h = host
    · rw [if_pos hh, if_pos (List.mem_cons.mpr (.inl hh)), List.map_map]
      split <;> rfl
    · rw [if_neg hh]
      simp [hh]

theorem blocked_forgot (hosts : List Host) (g : Guard) (h : Host) :
    h ∈ (hosts.foldl Guard.resetHost g).blockedHosts ↔ h ∈ g.blockedHosts ∧ h ∉ hosts := by
  induction hosts generalizing g with
  | nil => simp
  | cons host hosts ih =>
    rw [List.foldl_cons, ih]
    unfold Guard.resetHost
    simp [and_assoc]

theorem failures_slot (g : Guard) (turn : ℕ) (h : Host) :
    decide (h ∈ (g.slot turn).hard) =
      (decide (h ∈ g.failedByTurn turn) && !decide (h ∈ g.succeededByTurn turn)) := by
  unfold Guard.slot
  simp

/-- The slot of a turn is a mark in the window. -/
theorem failures_slide (g : Guard) (turn : ℕ) (h : Host) {rs : List (ToolResult F)}
    (hfailed : h ∈ g.failedByTurn turn ↔ reads u .failed h rs = true)
    (hsucceeded : h ∈ g.succeededByTurn turn ↔ reads u .succeeded h rs = true) :
    failures (g.slide th turn).recent h =
      Window.mark (reads u .succeeded h) (reads u .failed h) th.window (failures g.recent h) rs := by
  have hslide : failures (g.slide th turn).recent h = Window.push th.window
      (failures ((g.succeededByTurn turn).foldl Guard.resetHost (g.closeTurn turn)).recent h)
      (decide (h ∈ (g.slot turn).hard)) := by
    unfold failures Guard.slide Window.push
    rw [Window.map_rtake, List.map_append]
    rfl
  have hfailed : decide (h ∈ g.failedByTurn turn) = reads u .failed h rs := by
    rw [Bool.eq_iff_iff, decide_eq_true_iff, hfailed]
  have hsucceeded' : decide (h ∈ g.succeededByTurn turn) = reads u .succeeded h rs := by
    rw [Bool.eq_iff_iff, decide_eq_true_iff, hsucceeded]
  rw [hslide, failures_forgot, failures_slot, hfailed, hsucceeded']
  unfold Window.mark
  by_cases hs : h ∈ g.succeededByTurn turn
  · rw [if_pos hs, if_pos (hsucceeded.mp hs)]
    rfl
  · rw [if_neg hs, if_neg (fun hr => hs (hsucceeded.mpr hr))]
    rfl

theorem blocked_slide (g : Guard) (turn : ℕ) (h : Host) :
    h ∈ (g.slide th turn).blockedHosts ↔ h ∈ g.blockedHosts ∧ h ∉ g.succeededByTurn turn :=
  blocked_forgot (g.succeededByTurn turn) (g.closeTurn turn) h

/-- What the end of a turn does to the rest of the books. -/
structure Closed (turn : ℕ) (g g' : Guard) : Prop where
  networkTurns : g'.networkTurns = g.networkTurns.filter (· ≠ turn)
  failed : ∀ t, t ≠ turn → g'.failedByTurn t = g.failedByTurn t
  succeeded : ∀ t, t ≠ turn → g'.succeededByTurn t = g.succeededByTurn t

theorem closed_closeTurn (g : Guard) (turn : ℕ) : Closed turn g (g.closeTurn turn) where
  networkTurns := rfl
  failed _ ht := Function.update_of_ne ht _ _
  succeeded _ ht := Function.update_of_ne ht _ _

theorem Closed.forgot {turn : ℕ} {g g' : Guard} (h : Closed turn g g') (hosts : List Host) :
    Closed turn g (hosts.foldl Guard.resetHost g') := by
  induction hosts generalizing g' with
  | nil => exact h
  | cons host hosts ih => exact ih ⟨h.networkTurns, h.failed, h.succeeded⟩

theorem closed_slide (g : Guard) (turn : ℕ) : Closed turn g (g.slide th turn) :=
  have h := (closed_closeTurn g turn).forgot (g.succeededByTurn turn)
  ⟨h.networkTurns, h.failed, h.succeeded⟩

/-- What the judgement of a turn does: at most one host is blocked, which failed in
enough of the turns of the window. -/
theorem judge_cases (th : Thresholds) (order : SetOrder) (g : Guard) :
    ∃ fired blockedHosts, (g.judge th order).1 = { g with fired := fired, blockedHosts := blockedHosts } ∧
      (blockedHosts = g.blockedHosts ∨
        ∃ h, blockedHosts = g.blockedHosts.insert h ∧ th.escalateAfter ≤ hardCount g.recent h) := by
  unfold Guard.judge
  cases hblock : g.reached th order .block (g.recent.map Slot.hard) with
  | some h =>
    have hreached := List.find?_some hblock
    rw [Bool.and_eq_true] at hreached
    exact ⟨_, _, rfl, .inr ⟨h, rfl, of_decide_eq_true hreached.1⟩⟩
  | none =>
    cases g.reached th order .hint (g.recent.map fun slot => slot.hard ∪ slot.soft) with
    | some h => exact ⟨_, _, rfl, .inl rfl⟩
    | none => exact ⟨_, _, rfl, .inl rfl⟩

/-! ### The books along a run -/

/-- The books are those of the results of the turn, and the window is that of the
turns that have ended. -/
structure Kept (th : Thresholds) (u : Unicode) (s : Loop F) : Prop where
  network : s.turn ∈ s.guard.networkTurns ↔ s.pending ≠ []
  network_le : ∀ t ∈ s.guard.networkTurns, t ≤ s.turn
  failed : ∀ h, h ∈ s.guard.failedByTurn s.turn ↔ reads u .failed h s.pending = true
  succeeded : ∀ h, h ∈ s.guard.succeededByTurn s.turn ↔ reads u .succeeded h s.pending = true
  failed_later : ∀ t > s.turn, s.guard.failedByTurn t = []
  succeeded_later : ∀ t > s.turn, s.guard.succeededByTurn t = []
  window : ∀ h, failures s.guard.recent h =
    (Window.marks (reads u .succeeded h) (reads u .failed h) s.log).rtake th.window

theorem Kept.init : Kept th u ({} : Loop F) where
  network := ⟨nofun, fun h => absurd rfl h⟩
  network_le := nofun
  failed _ := ⟨nofun, nofun⟩
  succeeded _ := ⟨nofun, nofun⟩
  failed_later _ _ := rfl
  succeeded_later _ _ := rfl
  window _ := by simp [failures, Window.marks, List.rtake]

variable {s s' : Loop F}

theorem Kept.batch (hk : Kept th u s) (rs : List (ToolResult F)) :
    Kept th u { s with
      guard := rs.foldl (onToolResult u s.turn) s.guard
      pending := s.pending ++ rs.filter (isNetworkResult u) } where
  network := by
    rw [mem_networkTurns_results, hk.network]
    simp only [true_and, ne_eq, List.append_eq_nil_iff, not_and_or]
  network_le t ht := by
    rcases (mem_networkTurns_results s.turn t rs s.guard).mp ht with hold | ⟨hnow, -⟩
    · exact hk.network_le t hold
    · exact le_of_eq hnow
  failed h := by
    rw [(noted_results s.turn rs s.guard).failed, hk.failed, reads_append, reads_filter, Bool.or_eq_true, mem_verdicts]
    simp only [true_and]
  succeeded h := by
    rw [(noted_results s.turn rs s.guard).succeeded, hk.succeeded, reads_append, reads_filter, Bool.or_eq_true, mem_verdicts]
    simp only [true_and]
  failed_later t ht := by
    refine List.eq_nil_iff_forall_not_mem.mpr fun h hh => ?_
    rcases ((noted_results s.turn rs s.guard).failed t h).mp hh with hold | ⟨hnow, -⟩
    · rw [hk.failed_later t ht] at hold
      exact absurd hold List.not_mem_nil
    · exact absurd hnow (Nat.ne_of_gt ht)
  succeeded_later t ht := by
    refine List.eq_nil_iff_forall_not_mem.mpr fun h hh => ?_
    rcases ((noted_results s.turn rs s.guard).succeeded t h).mp hh with hold | ⟨hnow, -⟩
    · rw [hk.succeeded_later t ht] at hold
      exact absurd hold List.not_mem_nil
    · exact absurd hnow (Nat.ne_of_gt ht)
  window h := by
    rw [(noted_results s.turn rs s.guard).recent]
    exact hk.window h

/-- The next turn has nothing in the books yet. -/
theorem Kept.next (hk : Kept th u s) {g : Guard} {log : List (List (ToolResult F))}
    (hnetwork : ∀ t ∈ g.networkTurns, t ∈ s.guard.networkTurns)
    (hfailed : ∀ t, t ≠ s.turn → g.failedByTurn t = s.guard.failedByTurn t)
    (hsucceeded : ∀ t, t ≠ s.turn → g.succeededByTurn t = s.guard.succeededByTurn t)
    (hwindow : ∀ h, failures g.recent h = (Window.marks (reads u .succeeded h) (reads u .failed h) log).rtake th.window) :
    Kept th u { guard := g, turn := s.turn + 1, pending := [], log := log } where
  network := by
    constructor
    · exact fun hmem => absurd (hk.network_le _ (hnetwork _ hmem)) (Nat.not_succ_le_self s.turn)
    · exact fun h => absurd rfl h
  network_le t ht := Nat.le_succ_of_le (hk.network_le t (hnetwork t ht))
  failed h := by
    rw [hfailed _ (Nat.succ_ne_self _), hk.failed_later _ (Nat.lt_succ_self _)]
    exact ⟨nofun, nofun⟩
  succeeded h := by
    rw [hsucceeded _ (Nat.succ_ne_self _), hk.succeeded_later _ (Nat.lt_succ_self _)]
    exact ⟨nofun, nofun⟩
  failed_later t ht := by
    have hlt : s.turn < t := Nat.lt_of_succ_lt ht
    rw [hfailed t (Nat.ne_of_gt hlt), hk.failed_later t hlt]
  succeeded_later t ht := by
    have hlt : s.turn < t := Nat.lt_of_succ_lt ht
    rw [hsucceeded t (Nat.ne_of_gt hlt), hk.succeeded_later t hlt]
  window := hwindow

/-- A turn ends: without results of network tools it leaves the window and the blocked
hosts, and else it goes into the window, and one host may be blocked. -/
theorem onTurnEnd_cases (hk : Kept th u s) (order : SetOrder) :
    (s.pending = [] ∧ (onTurnEnd th order s.guard s.turn).1 = s.guard.closeTurn s.turn) ∨
    (s.pending ≠ [] ∧ ∃ fired blockedHosts,
      (onTurnEnd th order s.guard s.turn).1 =
        { s.guard.slide th s.turn with fired := fired, blockedHosts := blockedHosts } ∧
      (blockedHosts = (s.guard.slide th s.turn).blockedHosts ∨
        ∃ h, blockedHosts = (s.guard.slide th s.turn).blockedHosts.insert h ∧
          th.escalateAfter ≤ hardCount (s.guard.slide th s.turn).recent h)) := by
  unfold onTurnEnd
  by_cases hp : s.pending = []
  · have hturn : s.turn ∉ s.guard.networkTurns := fun hmem => hk.network.mp hmem hp
    rw [if_pos hturn]
    exact .inl ⟨hp, rfl⟩
  · have hturn : s.turn ∈ s.guard.networkTurns := hk.network.mpr hp
    rw [if_neg (not_not_intro hturn)]
    exact .inr ⟨hp, judge_cases th order (s.guard.slide th s.turn)⟩

theorem Kept.turnEnd (hk : Kept th u s) (order : SetOrder) :
    Kept th u { s with
      guard := (onTurnEnd th order s.guard s.turn).1
      turn := s.turn + 1
      pending := []
      log := if s.pending.isEmpty then s.log else s.log ++ [s.pending] } := by
  rcases onTurnEnd_cases hk order with ⟨hp, hend⟩ | ⟨hp, fired, blockedHosts, hend, -⟩
  · have hclosed := closed_closeTurn s.guard s.turn
    rw [hend, if_pos (List.isEmpty_iff.mpr hp)]
    exact hk.next (fun t ht => List.mem_of_mem_filter ht) hclosed.failed hclosed.succeeded hk.window
  · have hclosed : Closed s.turn s.guard (s.guard.slide th s.turn) := closed_slide s.guard s.turn
    rw [hend, if_neg (fun h => hp (List.isEmpty_iff.mp h))]
    refine hk.next ?_ hclosed.failed hclosed.succeeded ?_
    · intro t ht
      exact List.mem_of_mem_filter (hclosed.networkTurns ▸ ht)
    · intro h
      rw [← Window.mark_rtake, ← hk.window h]
      exact failures_slide s.guard s.turn h (hk.failed h) (hk.succeeded h)

theorem kept_step (hk : Kept th u s) {e : Event F} (hs : step th order u s e = some s') : Kept th u s' := by
  cases e with
  | start =>
    cases hs
    exact Kept.init
  | batch calls =>
    cases hs
    exact hk.batch (calls.map (Call.seen u s.guard))
  | turnEnd =>
    cases hs
    exact hk.turnEnd order
  | abandon =>
    cases hs
    exact hk.next (fun _ ht => ht) (fun _ _ => rfl) (fun _ _ => rfl) hk.window

variable {P : List (Event F) → Loop F → Event F → Prop} {past : List (Event F)}

theorem kept (h : Runs.Trace (step th order u) P {} past s) : Kept th u s :=
  h.invariant (I := fun _ s => Kept th u s) Kept.init fun _ _ _ _ hk _ hs => kept_step hk hs

/-! ### Quarantine is earned -/

theorem earned_of_hardCount (hk : Kept th u s') {h : Host} (hcount : th.escalateAfter ≤ hardCount s'.guard.recent h) :
    Earned th u h s'.log where
  enough := by rwa [hardCount_eq, hk.window, Window.count_marks] at hcount
  hard rs _ hreads := by
    obtain ⟨r, hr, hv⟩ := reads_iff.mp hreads
    exact ⟨r, hr, hardFailure_of_mem hv⟩

/-- **Earned**: a host becomes blocked at the end of a turn only, and has earned it. -/
theorem earned_step (hk : Kept th u s) {e : Event F} (hs : step th order u s e = some s') {h : Host}
    (hbefore : h ∉ s.guard.blockedHosts) (hafter : h ∈ s'.guard.blockedHosts) :
    e = .turnEnd ∧ Earned th u h s'.log := by
  have hk' := kept_step hk hs
  cases e with
  | start =>
    cases hs
    exact absurd hafter List.not_mem_nil
  | batch calls =>
    cases hs
    dsimp only at hafter
    rw [(noted_results s.turn (calls.map (Call.seen u s.guard)) s.guard).blocked] at hafter
    exact absurd hafter hbefore
  | turnEnd =>
    cases hs
    refine ⟨rfl, earned_of_hardCount hk' ?_⟩
    dsimp only at hafter ⊢
    rcases onTurnEnd_cases hk order with ⟨-, hend⟩ | ⟨-, fired, blockedHosts, hend, hblocked⟩
    · rw [hend] at hafter
      exact absurd hafter hbefore
    · rw [hend] at hafter ⊢
      have hslide : h ∉ (s.guard.slide th s.turn).blockedHosts := fun hmem =>
        hbefore ((blocked_slide s.guard s.turn h).mp hmem).1
      rcases hblocked with rfl | ⟨host, rfl, hcount⟩
      · exact absurd hafter hslide
      · rcases List.mem_insert_iff.mp hafter with rfl | hold
        · exact hcount
        · exact absurd hold hslide
  | abandon =>
    cases hs
    exact absurd hafter hbefore

/-! ### Quarantine is kept -/

theorem hosts_result (g : Guard) (c : Call F) : (c.result u g).hosts u ⊆ hostsForTool u c.name c.args := by
  have hargs : hostsForTool u c.name (.obj (dictOrEmpty c.args)) ⊆ hostsForTool u c.name c.args := by
    have hnone : hostsForTool u c.name (.obj ([] : List (Chars × Value F))) = [] := by
      unfold hostsForTool
      split
      · rfl
      · dsimp only
        cases Text.contains (Providers.lower c.name) "web_fetch" <;> rfl
    cases hc : c.args with
    | obj kvs => exact List.Subset.refl _
    | _ =>
      unfold dictOrEmpty
      rw [hnone]
      exact List.nil_subset _
  unfold Call.result
  split
  · exact hargs
  · split
    · exact hargs
    · exact hargs

/-- The guard skips every call that targets a blocked host. -/
theorem onToolCall_blocked {g : Guard} {name : String} {args : Value F} {h : Host}
    (htarget : h ∈ hostsForTool u name args) (hblocked : h ∈ g.blockedHosts) :
    ∃ hosts, onToolCall u g name args = some (blockedText hosts) ∧ h ∈ hosts := by
  have hmem : h ∈ ((hostsForTool u name args).filter (· ∈ g.blockedHosts)).insertionSort (· ≤ ·) := by
    rw [List.mem_insertionSort]
    exact List.mem_filter.mpr ⟨htarget, decide_eq_true hblocked⟩
  refine ⟨_, ?_, hmem⟩
  unfold onToolCall
  dsimp only
  rw [if_neg (List.ne_nil_of_mem hmem)]

/-- What the guard answers is about hosts of the call. -/
theorem onToolCall_some {g : Guard} {name : String} {args : Value F} {text : Chars}
    (hskip : onToolCall u g name args = some text) :
    ∃ hosts, text = blockedText hosts ∧ ∀ h ∈ hosts, OneLine h := by
  unfold onToolCall at hskip
  dsimp only at hskip
  split at hskip
  · cases hskip
  · refine ⟨_, (Option.some.inj hskip).symm, fun h hh => ?_⟩
    rw [List.mem_insertionSort] at hh
    exact hostsForTool_oneLine (List.mem_of_mem_filter hh)

/-- What is answered by no one else reads as no success for a blocked host: the guard
answers, or the call does not target the host. -/
theorem reads_own {g : Guard} {c : Call F} (hown : ¬ c.AnsweredByOther u g) {h : Host} (hblocked : h ∈ g.blockedHosts) :
    reads u .succeeded h [c.seen u g] = false := by
  unfold Call.AnsweredByOther at hown
  simp only [not_or, Bool.not_eq_true, Option.isSome_eq_false_iff, Option.isNone_iff_eq_none, not_not] at hown
  obtain ⟨hvalid, hbefore, hseen⟩ := hown
  refine Bool.eq_false_iff.mpr fun hreads => ?_
  obtain ⟨r, hr, hv⟩ := reads_iff.mp hreads
  rw [List.mem_singleton.mp hr, hseen] at hv
  by_cases htarget : h ∈ hostsForTool u c.name c.args
  · obtain ⟨hosts, hskip, -⟩ := onToolCall_blocked htarget hblocked
    obtain ⟨hosts', htext, hline⟩ := onToolCall_some hskip
    have hresult : (c.result u g).result = blockedText hosts' := by
      unfold Call.result skipText
      rw [hvalid, hbefore, hskip, htext]
      rfl
    exact blockedText_not_succeeded hresult hline _ hv rfl
  · exact htarget (hosts_result g c (mem_hosts_of_mem_verdicts hv))

/-- No result of the turn reads as a success for a blocked host. -/
def Quiet (u : Unicode) (s : Loop F) : Prop := ∀ h ∈ s.guard.blockedHosts, reads u .succeeded h s.pending = false

theorem reads_batch {calls : List (Call F)} (hundisturbed : Undisturbed u past s (.batch calls)) {h : Host}
    (hblocked : h ∈ s.guard.blockedHosts) : reads u .succeeded h (calls.map (Call.seen u s.guard)) = false := by
  refine Bool.eq_false_iff.mpr fun hreads => ?_
  obtain ⟨r, hr, hv⟩ := reads_iff.mp hreads
  obtain ⟨c, hc, rfl⟩ := List.mem_map.mp hr
  have hone : reads u .succeeded h [c.seen u s.guard] = false := by
    by_cases hother : c.AnsweredByOther u s.guard
    · exact hundisturbed c hc hother h hblocked
    · exact reads_own hother hblocked
  have hread : reads u .succeeded h [c.seen u s.guard] = true := reads_iff.mpr ⟨_, List.mem_singleton_self _, hv⟩
  rw [hone] at hread
  exact Bool.false_ne_true hread

theorem quiet_step (hq : Quiet u s) {e : Event F} (hundisturbed : Undisturbed u past s e)
    (hs : step th order u s e = some s') : Quiet u s' := by
  intro h hblocked
  cases e with
  | start =>
    cases hs
    exact absurd hblocked List.not_mem_nil
  | batch calls =>
    cases hs
    dsimp only at hblocked ⊢
    rw [(noted_results s.turn (calls.map (Call.seen u s.guard)) s.guard).blocked] at hblocked
    rw [reads_append, reads_filter, hq h hblocked, reads_batch hundisturbed hblocked]
    rfl
  | turnEnd =>
    cases hs
    rfl
  | abandon =>
    cases hs
    rfl

/-- **Kept**: a step other than a restart leaves the blocked hosts blocked. -/
theorem latched_step (hk : Kept th u s) (hq : Quiet u s) {e : Event F} (hstart : e ≠ .start)
    (hs : step th order u s e = some s') {h : Host} (hblocked : h ∈ s.guard.blockedHosts) :
    h ∈ s'.guard.blockedHosts := by
  cases e with
  | start => exact absurd rfl hstart
  | batch calls =>
    cases hs
    dsimp only
    rw [(noted_results s.turn (calls.map (Call.seen u s.guard)) s.guard).blocked]
    exact hblocked
  | turnEnd =>
    cases hs
    dsimp only
    rcases onTurnEnd_cases hk order with ⟨-, hend⟩ | ⟨-, fired, blockedHosts, hend, hcases⟩
    · rw [hend]
      exact hblocked
    · have hno : h ∉ s.guard.succeededByTurn s.turn := by
        rw [hk.succeeded, hq h hblocked]
        exact Bool.false_ne_true
      have hslide : h ∈ (s.guard.slide th s.turn).blockedHosts :=
        (blocked_slide s.guard s.turn h).mpr ⟨hblocked, hno⟩
      rw [hend]
      rcases hcases with rfl | ⟨host, rfl, -⟩
      · exact hslide
      · exact List.mem_insert_of_mem hslide
  | abandon =>
    cases hs
    exact hblocked

theorem executes_of_blocked {g : Guard} {c : Call F} {h : Host} (htarget : h ∈ hostsForTool u c.name c.args)
    (hblocked : h ∈ g.blockedHosts) : c.executes u g = false := by
  obtain ⟨hosts, hskip, -⟩ := onToolCall_blocked htarget hblocked
  unfold Call.executes skipText
  rw [hskip]
  cases c.skipBefore <;> simp

/-- The books are kept and no success is pending for a blocked host. -/
theorem kept_quiet {s₁ s₂ : Loop F} {later : List (Event F)} (hk : Kept th u s₁) (hq : Quiet u s₁)
    (h : Runs.Trace (step th order u) (Undisturbed u) s₁ later s₂) : Kept th u s₂ ∧ Quiet u s₂ :=
  h.invariant (I := fun _ s => Kept th u s ∧ Quiet u s) ⟨hk, hq⟩ fun _ _ _ _ hI hP hs =>
    ⟨kept_step hI.1 hs, quiet_step hI.2 hP hs⟩

/-- A run without a restart leaves the blocked hosts blocked. -/
theorem latched {s₁ s₂ : Loop F} {later : List (Event F)} (hk : Kept th u s₁) (hq : Quiet u s₁)
    (htrace : Runs.Trace (step th order u) (Undisturbed u) s₁ later s₂) {h : Host} (hblocked : h ∈ s₁.guard.blockedHosts)
    (hstart : .start ∉ later) : h ∈ s₂.guard.blockedHosts := by
  induction htrace with
  | init => exact hblocked
  | next hbefore _ hs ih =>
    obtain ⟨hk', hq'⟩ := kept_quiet hk hq hbefore
    rw [List.mem_append, not_or, List.mem_singleton] at hstart
    exact latched_step hk' hq' (fun he => hstart.2 he.symm) hs (ih hstart.1)

/-- **Quarantine is earned and kept** in a run where no answer of someone else reads as a
success for a blocked host: it becomes blocked only at the end of a turn and when it has
earned that, and stays blocked until a restart, and no call that targets it is run. -/
theorem quarantine {past later : List (Event F)} {s₁ s₂ : Loop F}
    (h₁ : Runs.Trace (step th order u) (Undisturbed u) {} past s₁)
    (h₂ : Runs.Trace (step th order u) (Undisturbed u) s₁ later s₂) :
    (∀ e s₃, step th order u s₂ e = some s₃ → ∀ h, h ∉ s₂.guard.blockedHosts → h ∈ s₃.guard.blockedHosts →
      e = .turnEnd ∧ Earned th u h s₃.log) ∧
    (.start ∉ later → ∀ h ∈ s₁.guard.blockedHosts, h ∈ s₂.guard.blockedHosts ∧
      ∀ c : Call F, h ∈ hostsForTool u c.name c.args → c.executes u s₂.guard = false ∧
        ∃ hosts, onToolCall u s₂.guard c.name c.args = some (blockedText hosts) ∧ h ∈ hosts) := by
  obtain ⟨hk₁, hq₁⟩ := kept_quiet Kept.init (fun _ hh => absurd hh List.not_mem_nil) h₁
  constructor
  · intro e s₃ hs h hbefore hafter
    exact earned_step (kept_quiet hk₁ hq₁ h₂).1 hs hbefore hafter
  · intro hstart h hblocked
    have hstill := latched hk₁ hq₁ h₂ hblocked hstart
    exact ⟨hstill, fun c htarget => ⟨executes_of_blocked htarget hstill, onToolCall_blocked htarget hstill⟩⟩

/-! ### Runs on one dead host -/

def deadHost : Host := "dead.example".toList

/-- A fetch that is refused, if nobody skips it. -/
def fetchDead (skipBefore : Option Chars) : Call Empty where
  name := "web_fetch"
  args := .obj [("url".toList, .str "https://dead.example/a".toList)]
  skipBefore := skipBefore
  outcome := ("refused".toList, true)

def deadTurn (skipBefore : Option Chars) : List (Event Empty) := [.batch [fetchDead skipBefore], .turnEnd]

def deadTurns : List (Event Empty) := deadTurn none ++ deadTurn none ++ deadTurn none

/-- No character beyond ASCII is a digit or a word character. -/
def asciiOnly : Unicode := ⟨fun _ => false, fun _ => false⟩

def deadStep : Loop Empty → Event Empty → Option (Loop Empty) := step (.of 2 3 3) ⟨id, fun _ => .refl _⟩ asciiOnly

theorem undisturbed_dead {e : Event Empty} (he : e ∈ deadTurn none) (past : List (Event Empty)) (s : Loop Empty) :
    Undisturbed asciiOnly past s e := by
  have hcases : e = .batch [fetchDead none] ∨ e = .turnEnd := by simpa [deadTurn] using he
  rcases hcases with rfl | rfl
  · intro c hc hother
    rw [List.mem_singleton.mp hc] at hother
    simp [Call.AnsweredByOther, Call.seen, fetchDead] at hother
  · trivial

theorem quarantine_of_refusals : ∃ s₁ s₂, Runs.run deadStep {} deadTurns = some s₁ ∧
    Runs.run deadStep s₁ (deadTurn none) = some s₂ ∧ deadHost ∈ s₂.guard.blockedHosts ∧
      (fetchDead none).executes asciiOnly s₂.guard = false := by
  obtain ⟨s₁, hrun₁⟩ : ∃ s₁, Runs.run deadStep {} deadTurns = some s₁ := ⟨_, rfl⟩
  obtain ⟨s₂, hrun₂⟩ : ∃ s₂, Runs.run deadStep s₁ (deadTurn none) = some s₂ := ⟨_, rfl⟩
  have hblocked : (Runs.run deadStep {} deadTurns).all (fun s => decide (deadHost ∈ s.guard.blockedHosts)) = true := by
    decide +kernel
  rw [hrun₁, Option.all_some, decide_eq_true_iff] at hblocked
  have htrace₁ : Runs.Trace deadStep (Undisturbed asciiOnly) {} deadTurns s₁ := by
    refine Runs.Trace.of_forall (fun e he => undisturbed_dead ?_) hrun₁
    simpa [deadTurns] using he
  have htrace₂ : Runs.Trace deadStep (Undisturbed asciiOnly) s₁ (deadTurn none) s₂ :=
    Runs.Trace.of_forall (fun e he => undisturbed_dead he) hrun₂
  obtain ⟨hstill, hcalls⟩ := (quarantine htrace₁ htrace₂).2 (by simp [deadTurn]) deadHost hblocked
  exact ⟨s₁, s₂, hrun₁, hrun₂, hstill, (hcalls (fetchDead none) (by decide +kernel)).1⟩

/-- An observer in front of the guard skips the fetch of a blocked host with a text of its
own. That reads as a success for the host, and it is free again. -/
theorem skipped_by_other_unblocks : ∃ s₁ s₂, Runs.run deadStep {} deadTurns = some s₁ ∧
    Runs.run deadStep s₁ (deadTurn (some "skipped by policy".toList)) = some s₂ ∧
      deadHost ∈ s₁.guard.blockedHosts ∧ deadHost ∉ s₂.guard.blockedHosts := by
  obtain ⟨s₁, hrun₁⟩ : ∃ s₁, Runs.run deadStep {} deadTurns = some s₁ := ⟨_, rfl⟩
  obtain ⟨s₂, hrun₂⟩ : ∃ s₂, Runs.run deadStep s₁ (deadTurn (some "skipped by policy".toList)) = some s₂ := ⟨_, rfl⟩
  have heval : (Runs.run deadStep {} deadTurns).all (fun s =>
      (Runs.run deadStep s (deadTurn (some "skipped by policy".toList))).all fun s' =>
        decide (deadHost ∈ s.guard.blockedHosts ∧ deadHost ∉ s'.guard.blockedHosts)) = true := by decide +kernel
  rw [hrun₁, Option.all_some, hrun₂, Option.all_some, decide_eq_true_iff] at heval
  exact ⟨s₁, s₂, hrun₁, hrun₂, heval.1, heval.2⟩

end AgentCore.Observers.StuckTarget
