/-
# Retries of leaked tool calls

`LeakedToolCallRetryObserver`: a response whose text looks like a tool call that
lost its form is answered with a nudge and replayed, up to a cap. The counter is
kept in the metadata of the loop; a structured call, a blocked call and a turn
without tools take it out again, so the cap holds between two of these and not for
the run (`nudges_le_iff`).

The characters that `\w` takes and those that `re.IGNORECASE` takes for each other
are parameters beyond ASCII. The log is left out.

Key definitions: `looksLikeLeak`, `onLlmResponse`, `nudges`.
Key theorem: `nudges_le_iff`.
-/
import AgentCore.Lib.Quota
import AgentCore.Loop.Turn
import AgentCore.Patterns
import AgentCore.Providers.Errors

namespace AgentCore.Observers.LeakedToolCallRetry

open Patterns Regex Text

abbrev Chars := List Char

def leakedToolCallNudge : String :=
  "Your previous response mentioned calling a tool in free text but no " ++
    "structured tool_call was emitted. Invoke the tool through the proper " ++
    "tool_calls interface now — do not describe the call in prose."

def maxIncidentalProseChars : ℕ := 120

/-- What Python knows of the characters beyond ASCII. -/
structure Unicode where
  wordBeyond : Char → Bool
  sameBeyond : Char → Char → Bool

variable (u : Unicode)

/-! ### The patterns -/

/-- `_LEAK_XML_RE`. -/
def leakXmlRe : Regex Char :=
  seq (text "<") (seq spaces (anyOf [
    seq (words "tool_call") (border u.wordBeyond),
    seq (words "function") (seq (many1 (one isSpace)) (seq (words "name") (seq spaces (text "=")))),
    seq (words "seed:tool_call") (border u.wordBeyond),
    seq (words "seedtool_call") (border u.wordBeyond),
    seq (words "seed:tool") (seq (one fun c => c = '-' || c = '_') (seq (words "name") (border u.wordBeyond)))]))

/-- A character of a name, with `re.IGNORECASE`. -/
def sameLetter (p c : Char) : Bool :=
  if p.toNat < 128 then Loop.LeakedReasoning.test p.toLower c else u.sameBeyond p c

/-- `_tool_name_re`. -/
def toolNameRe (names : List String) : Regex Char :=
  seq (border u.wordBeyond) (seq (anyOf (names.map fun n => tests (n.toList.map (sameLetter u)))) (border u.wordBeyond))

/-- A match of `_FENCED_BLOCK_RE`. -/
structure Fence where
  whole : Chars
  info : Chars
  body : Chars

def isBlank (c : Char) : Bool := c = ' ' || c = '\t'

/-- The fence that closes a block: white space, the fence and blanks up to the end of
a line. -/
def closes (fence t : Chars) : Option Chars :=
  let t := t.dropWhile isSpace
  if fence.isPrefixOf t then
    let r := (t.drop fence.length).dropWhile isBlank
    if r.head?.all (· = '\n') then some r else none
  else none

/-- The body of a block up to the first line that begins with what closes it. -/
def readBody (fence : Chars) : Bool → Chars → Option (Chars × Chars)
  | lineStart, t =>
    match (if lineStart then closes fence t else none), t with
    | some r, _ => some ([], r)
    | none, [] => none
    | none, c :: t => (readBody fence (c = '\n') t).map fun found => (c :: found.1, found.2)

def isInfoStart (c : Char) : Bool := c.isAlpha || c = '_'

def isInfoChar (c : Char) : Bool := c.isAlphanum || c = '_' || c = '.' || c = '-'

/-- The block that begins at a line. -/
def readFence (t : Chars) : Option (Fence × Chars) :=
  let t₁ := t.dropWhile isSpace
  let fence := t₁.takeWhile fun c => some c = t₁.head?
  let t₂ := (t₁.drop fence.length).dropWhile isBlank
  if (t₁.head?.any fun c => c = '\x60' || c = '~') ∧ 3 ≤ fence.length ∧ t₂.head?.any isInfoStart then
    match t₂.dropWhile (· ≠ '\n') with
    | [] => none
    | _ :: t₃ => (readBody fence true t₃).map fun found =>
      ({ whole := t.take (t.length - found.2.length), info := t₂.takeWhile isInfoChar, body := found.1 }, found.2)
  else none

/-- The text cut into its fenced blocks and what stands outside; `skip` characters of
a block are still to be passed. -/
def cutFences : ℕ → Bool → Chars → List (Char ⊕ Fence)
  | _, _, [] => []
  | skip + 1, _, c :: t => cutFences skip (c = '\n') t
  | 0, lineStart, c :: t =>
    match (if lineStart then readFence (c :: t) else none) with
    | some (f, r) => .inr f :: cutFences (t.length - r.length) (c = '\n') t
    | none => .inl c :: cutFences 0 (c = '\n') t

def fences (sample : Chars) : List (Char ⊕ Fence) := cutFences 0 true sample

/-- `_FENCED_BLOCK_RE.sub("", sample)`. -/
def withoutFences (sample : Chars) : Chars := (fences sample).filterMap Sum.getLeft?

def stripChars (t : Chars) : Chars := (strip (String.ofList t)).toList

/-! ### The observer -/

/-- What the observer is constructed with; `T` is the type of temperatures. -/
structure LeakedToolCallRetryObserver (T : Type) where
  toolNames : List String
  temperatures : List T
  enabled : Bool := true
  maxNudgesPerTask : Option ℤ := none
  treatAnyToolFenceAsLeak : Bool := false

variable {T C : Type}

namespace LeakedToolCallRetryObserver

variable (o : LeakedToolCallRetryObserver T)

/-- `_enabled`. -/
def isEnabled : Bool := o.enabled && !o.temperatures.isEmpty

/-- `_max_nudges`. -/
def maxNudges : ℤ := o.maxNudgesPerTask.getD o.temperatures.length

def namesTool (f : Fence) : Bool := o.toolNames.any fun n => Providers.lower n == Providers.lower (String.ofList f.info)

def fencedToolCallOnly (sample : Chars) : Bool :=
  let blocks := (fences sample).filterMap Sum.getRight?
  let full (f : Fence) : Bool := !(stripChars f.body).isEmpty
  let prose := (fences sample).flatMap
    (Sum.elim (fun c => [c]) fun f => if o.namesTool f ∧ full f then [] else f.whole)
  if !blocks.any fun f => o.namesTool f && full f then false
  else if o.treatAnyToolFenceAsLeak then true
  else if blocks.any fun f => !o.namesTool f && full f then false
  else (stripChars prose).length ≤ maxIncidentalProseChars

def callHints : List String := ["(", "\x7b", "args:", "arguments:", "parameter"]

def verbHints : List String :=
  ["i will", "let me", "i'll call", "now call", "i'm going to", "next, i", "calling "]

def looksLikeLeak (aiText : String) : Bool :=
  let sample := aiText.toList.take 4000
  if aiText.isEmpty then false
  else if (leakXmlRe u).search sample then true
  else if o.fencedToolCallOnly sample then true
  else if o.toolNames.isEmpty then false
  else
    let heuristicSample := withoutFences sample
    if !(toolNameRe u o.toolNames).search heuristicSample then false
    else
      let lowered := Providers.lower (String.ofList heuristicSample)
      callHints.any (contains lowered) || verbHints.any (contains lowered)

/-- The keys of the metadata that the observer reads and writes. -/
structure Metadata (T : Type) where
  leakRetryCount : Option ℕ := none
  llmTempOverride : Option T := none
  llmToolsStripped : Bool := false

/-- A response: its text, its tool calls, those that were blocked, and whether the
turn ran without tools. -/
structure Response (C : Type) where
  aiText : String
  toolCalls : List C := []
  blockedToolCalls : List C := []
  toolsStripped : Bool := false

def onLlmResponse (m : Metadata T) (ctx : Response C) : Option Loop.Intervention × Metadata T :=
  if !o.isEnabled then (none, m)
  else if !ctx.blockedToolCalls.isEmpty then (none, { m with leakRetryCount := none, llmTempOverride := none })
  else if m.llmToolsStripped then (none, { m with leakRetryCount := none, llmTempOverride := none })
  else if !ctx.toolCalls.isEmpty then (none, { m with leakRetryCount := none })
  else if !o.looksLikeLeak u ctx.aiText then (none, m)
  else
    let count := m.leakRetryCount.getD 0
    if o.maxNudges ≤ count then (none, m)
    else
      let nextTemp := o.temperatures[min count (o.temperatures.length - 1)]?
      (some { injectMessages := [leakedToolCallNudge], continueToNextTurn := true },
        { m with leakRetryCount := some (count + 1), llmTempOverride := nextTemp })

/-- What `_prepare_llm_request` does to the keys before the response. -/
def prepareLlmRequest (m : Metadata T) (stripTools : Bool) : Metadata T :=
  { m with llmTempOverride := none, llmToolsStripped := stripTools }

/-- One turn of the loop. -/
def step (m : Metadata T) (ctx : Response C) : Option Loop.Intervention × Metadata T :=
  o.onLlmResponse u (prepareLlmRequest m ctx.toolsStripped) ctx

/-- The nudges that are injected from some metadata on. -/
def nudgesFrom : Metadata T → List (Response C) → ℕ
  | _, [] => 0
  | m, ctx :: rs =>
    ((o.step u m ctx).1.elim [] Loop.Intervention.injectMessages).count leakedToolCallNudge +
      nudgesFrom (o.step u m ctx).2 rs

/-- The nudges of a run of the loop. -/
def nudges (rs : List (Response C)) : ℕ := o.nudgesFrom u {} rs

/-! ### The cap -/

open Quota

/-- A response after which the counter starts again. -/
def Response.resets (ctx : Response C) : Bool :=
  !ctx.blockedToolCalls.isEmpty || ctx.toolsStripped || !ctx.toolCalls.isEmpty

/-- What a response is to the counter. -/
def event (ctx : Response C) : Event :=
  if ctx.resets then .giveBack else if o.looksLikeLeak u ctx.aiText then .ask else .other

/-- A response that is taken for a leaked tool call. -/
def leaks (ctx : Response C) : Bool := o.event u ctx = .ask

/-- Between two leaks no response makes the counter start again. -/
def Unbroken (rs : List (Response C)) : Prop :=
  ∀ rs₁ ctx rs₂ ctx' rs₃, rs = rs₁ ++ ctx :: rs₂ ++ ctx' :: rs₃ → o.leaks u ctx = true → o.leaks u ctx' = true →
    ∀ r ∈ rs₂, r.resets = false

def count (m : Metadata T) : ℕ := m.leakRetryCount.getD 0

variable {o u}

theorem step_resets (ho : o.isEnabled = true) (m : Metadata T) {ctx : Response C} (h : ctx.resets = true) :
    (o.step u m ctx).1 = none ∧ count (o.step u m ctx).2 = 0 := by
  unfold Response.resets at h
  unfold step onLlmResponse count
  rw [if_neg (by simp [ho])]
  by_cases hb : (!ctx.blockedToolCalls.isEmpty) = true
  · rw [if_pos hb]
    exact ⟨rfl, rfl⟩
  · rw [if_neg hb]
    by_cases hs : (prepareLlmRequest m ctx.toolsStripped).llmToolsStripped = true
    · rw [if_pos hs]
      exact ⟨rfl, rfl⟩
    · have hs' : ctx.toolsStripped ≠ true := hs
      have hc : (!ctx.toolCalls.isEmpty) = true := by simpa [hb, hs'] using h
      rw [if_neg hs, if_pos hc]
      exact ⟨rfl, rfl⟩

theorem step_keeps (ho : o.isEnabled = true) (m : Metadata T) {ctx : Response C} (h : ctx.resets = false) :
    o.step u m ctx =
      if o.looksLikeLeak u ctx.aiText = false then (none, prepareLlmRequest m false)
      else if o.maxNudges ≤ count m then (none, prepareLlmRequest m false)
      else
        (some { injectMessages := [leakedToolCallNudge], continueToNextTurn := true },
          { leakRetryCount := some (count m + 1), llmToolsStripped := false,
            llmTempOverride := o.temperatures[min (count m) (o.temperatures.length - 1)]? }) := by
  unfold Response.resets at h
  simp only [Bool.or_eq_false_iff] at h
  obtain ⟨⟨hb, hs⟩, hc⟩ := h
  unfold step onLlmResponse count
  simp only [ho, hb, hs, hc, prepareLlmRequest, Bool.not_true, Bool.false_eq_true, if_false, Bool.not_eq_true']

/-- The nudges are the grants of a quota that the responses use up and give back. -/
theorem nudgesFrom_eq (ho : o.isEnabled = true) : ∀ (m : Metadata T) (rs : List (Response C)),
    o.nudgesFrom u m rs = granted o.maxNudges.toNat (count m) (rs.map (o.event u))
  | _, [] => rfl
  | m, ctx :: rs => by
    rw [nudgesFrom, List.map_cons, nudgesFrom_eq ho _ rs]
    unfold event
    by_cases hr : ctx.resets = true
    · obtain ⟨hnone, hcount⟩ := step_resets ho m hr (u := u)
      rw [if_pos hr, granted, hnone, hcount]
      exact Nat.zero_add _
    · have hkeeps := step_keeps ho m (by simpa using hr) (u := u)
      rw [if_neg hr, hkeeps]
      by_cases hl : o.looksLikeLeak u ctx.aiText = true
      · rw [if_neg (by simp [hl]), if_pos hl, granted]
        by_cases hcap : o.maxNudges ≤ count m
        · rw [if_pos hcap, if_neg (by omega)]
          exact Nat.zero_add _
        · have hone : [leakedToolCallNudge].count leakedToolCallNudge = 1 := List.count_singleton_self
          rw [if_neg hcap, if_pos (by omega), Nat.add_comm, Option.elim_some, hone]
          rfl
      · rw [if_pos (by simpa using hl), if_neg hl, granted]
        exact Nat.zero_add _

/-- An observer that is switched off injects nothing. -/
theorem nudgesFrom_disabled (ho : o.isEnabled = false) : ∀ (m : Metadata T) (rs : List (Response C)),
    o.nudgesFrom u m rs = 0
  | _, [] => rfl
  | m, ctx :: rs => by
    have hnone : (o.step u m ctx).1 = none := by
      unfold step onLlmResponse
      rw [ho]
      rfl
    rw [nudgesFrom, nudgesFrom_disabled ho, hnone]
    rfl

theorem event_resets {ctx : Response C} : o.event u ctx = .giveBack ↔ ctx.resets = true := by
  unfold event
  by_cases hr : ctx.resets = true
  · simp [hr]
  · rw [if_neg hr]
    by_cases hl : o.looksLikeLeak u ctx.aiText = true
    · simp [hl, hr]
    · simp [hl, hr]

theorem unbroken_iff {rs : List (Response C)} : Quota.Unbroken (rs.map (o.event u)) ↔ o.Unbroken u rs := by
  constructor
  · rintro h rs₁ ctx rs₂ ctx' rs₃ rfl hl hl' r hr
    have hmap : (rs₁ ++ ctx :: rs₂ ++ ctx' :: rs₃).map (o.event u) =
        rs₁.map (o.event u) ++ .ask :: rs₂.map (o.event u) ++ .ask :: rs₃.map (o.event u) := by
      simp [of_decide_eq_true hl, of_decide_eq_true hl']
    by_contra hres
    exact h _ _ _ hmap (List.mem_map.mpr ⟨r, hr, event_resets.mpr (by simpa using hres)⟩)
  · intro h es₁ es₂ es₃ heq hmem
    obtain ⟨front, rs₃', rfl, hfront, hrs₃⟩ := List.map_eq_append_iff.mp heq
    obtain ⟨ctx', rs₃, rfl, hl', -⟩ := List.map_eq_cons_iff.mp hrs₃
    obtain ⟨rs₁, rs₂', rfl, -, hrs₂⟩ := List.map_eq_append_iff.mp hfront
    obtain ⟨ctx, rs₂, rfl, hl, hmap⟩ := List.map_eq_cons_iff.mp hrs₂
    rw [← hmap] at hmem
    obtain ⟨r, hr, hres⟩ := List.mem_map.mp hmem
    have hkept := h rs₁ ctx rs₂ ctx' rs₃ rfl (decide_eq_true hl) (decide_eq_true hl') r hr
    rw [event_resets.mp hres] at hkept
    cases hkept

theorem asks_eq (rs : List (Response C)) : asks (rs.map (o.event u)) = rs.countP (o.leaks u) := by
  unfold asks leaks
  rw [List.count_eq_countP, List.countP_map]
  refine List.countP_congr fun ctx _ => ?_
  simp

variable (o u)

/-- **The cap holds for a run** iff it is not negative and the observer is switched off,
or the cap is zero, or there are no more leaks than the cap, or no structured call,
blocked call or turn without tools stands between two leaks. -/
theorem nudges_le_iff (rs : List (Response C)) : (o.nudges u rs : ℤ) ≤ o.maxNudges ↔
    0 ≤ o.maxNudges ∧ (o.isEnabled = false ∨ o.maxNudges = 0 ∨ (rs.countP (o.leaks u) : ℤ) ≤ o.maxNudges ∨
      o.Unbroken u rs) := by
  by_cases hneg : 0 ≤ o.maxNudges
  · obtain ⟨cap, hcap⟩ := Int.eq_ofNat_of_zero_le hneg
    cases ho : o.isEnabled with
    | false =>
      have hzero : o.nudges u rs = 0 := nudgesFrom_disabled ho {} rs
      rw [hzero]
      simp [hneg]
    | true =>
      have heq : o.nudges u rs = granted cap 0 (rs.map (o.event u)) := by
        have := nudgesFrom_eq ho {} rs (u := u)
        rwa [hcap] at this
      have hiff := granted_le_iff cap (rs.map (o.event u))
      rw [← heq, asks_eq, unbroken_iff] at hiff
      rw [hcap]
      simpa [Int.ofNat_le] using hiff
  · have : (0 : ℤ) ≤ o.nudges u rs := Int.natCast_nonneg _
    exact iff_of_false (by omega) fun h => hneg h.1

/-- The characters of ASCII. -/
def ascii : Unicode := ⟨fun _ => false, fun _ _ => false⟩

def retrier : LeakedToolCallRetryObserver ℕ := { toolNames := ["bash"], temperatures := [3, 6, 10] }

def leak : Response String := { aiText := "<tool_call>" }

def structured : Response String := { aiText := "", toolCalls := ["bash"] }

/-- After a structured call the three retries start again. -/
theorem nudges_exceed_cap : ¬ ∀ (u : Unicode) (o : LeakedToolCallRetryObserver ℕ) (rs : List (Response String)),
    (o.nudges u rs : ℤ) ≤ o.maxNudges := by
  intro h
  have hle := h ascii retrier [leak, leak, leak, structured, leak]
  have hfour : retrier.nudges ascii [leak, leak, leak, structured, leak] = 4 := by decide +kernel
  rw [hfour] at hle
  exact absurd hle (by decide)

end LeakedToolCallRetryObserver

end AgentCore.Observers.LeakedToolCallRetry
