/-
# Tiered compaction

`TieredCompactor` of `tiered_compact.py`: old tool bodies become mini cards
(tier 1); when that frees too little, the tool results of the original history
are condensed ever shorter; when that is still too much, the history is
summarized (tier 2). The smallest candidate wins, and one that is not tier 1
carries the handles of what it lost in a recovery index.

Whether `scale * tokens <= relief_target` holds for a token count is an
argument of a pass, `reliefMet`: scale and target are floating-point, and the
scale is the gauge's of that moment. `int(last * 1.1)` is `last * 11 / 10`,
which it equals below 10^14.

Key definitions: `Tiered.compact`, `Tiered.withSpillManifest`,
`Tiered.spillRefs`.
Key theorem: `Tiered.compact_cases`.
-/
import AgentCore.Compaction.Llm

namespace AgentCore
namespace Compaction

open Text

def fullTextHead : String := "[Full text] "

def spillManifestMinChars : ℕ := spillManifestHeader.length + "\n- x".length

/-- `TieredCompactor`, with what its constructor checks. `spillRecoverable` is
`_spill_can_recover` of the callback. -/
structure Tiered where
  tier1 : KeepLastN
  hasSummaryLlm : Bool
  spillRecoverable : Bool
  manifestMaxPaths : Option ℕ
  manifestMaxChars : Option ℕ
  maxPaths_pos : ∀ n ∈ manifestMaxPaths, 1 ≤ n
  maxChars_ge : ∀ n ∈ manifestMaxChars, spillManifestMinChars ≤ n
  recoverable_spill : spillRecoverable = true → tier1.spill.isSome = true

theorem paths_unlimited : ∀ n ∈ (none : Option ℕ), 1 ≤ n := by simp

theorem chars_unlimited : ∀ n ∈ (none : Option ℕ), spillManifestMinChars ≤ n := by simp

theorem twenty_paths : ∀ n ∈ some 20, 1 ≤ n := by simp

theorem keep_five : -1 ≤ (5 : ℤ) := by decide

theorem five_without_spill :
    false = true → (KeepLastN.mk 5 [] none defaultRecoveryFooter 1 keep_five).spill.isSome = true := by simp

/-- What the loop broadcasts about a pass (`turn` and `seq` are the loop's). -/
structure CompactionEvent where
  selected : String
  tokensBefore : ℕ
  tokensAfter : ℕ
  reliefMet : Bool
  spillRefs : ℕ
  attempts : ℕ
  summary : String
  rollbackReason : String
  deriving DecidableEq, Repr

/-- What a compactor keeps from pass to pass. -/
structure TieredState where
  lastNoReliefEstimate : ℕ
  lastEvent : Option CompactionEvent
  deriving DecidableEq, Repr

namespace Tiered

/-- A reference list with one more path, unless it is empty or there. -/
def addRef (refs : List String) (path : String) : List String :=
  if path ≠ "" ∧ path ∉ refs then refs ++ [path] else refs

/-- The paths one message carries: as data, or, on a tool message of an old
checkpoint, on lines of their own. -/
def carriedRefs (m : Message) : List String :=
  match m.spillRefs with
  | some carried => carried
  | none =>
    let content := textOf m.content
    if isToolMsg m = false ∨ contains content fullTextHead = false then []
    else ((splitlines content).filter fun line => startsWith line fullTextHead).map fun line =>
      strip (drop line fullTextHead.length)

def spillRefs (messages : History) : List String := (messages.flatMap carriedRefs).foldl addRef []

/-- Ids of the latest assistant message that records any. -/
def latestToolResultIds (messages : History) : List String :=
  match messages.reverse.find? fun m => isAssistantMsg m && m.toolCalls.any (·.id != "") with
  | some m => (m.toolCalls.map (·.id)).filter (· ≠ "")
  | none => []

variable (c : Tiered) (est : String → ℕ)

def spillBody (name body : String) : String :=
  (c.tier1.spill.bind (· name body)).getD ""

/-- The bodies of protected results, spilled before a summary replaces them. -/
def spillProtectedResults (messages : History) : List String :=
  if c.tier1.spill.isNone ∨ c.tier1.protectToolNames = [] then []
  else
    let idToName := toolNamesByCallId messages
    ((messages.filter isToolMsg).filter fun m =>
        (dictGet idToName m.toolCallId).getD "" ∈ c.tier1.protectToolNames).foldl
      (fun refs m =>
        addRef refs (c.spillBody ((dictGet idToName m.toolCallId).getD "") (textOf m.content))) []

/-- The bodies a candidate shortened, spilled before it becomes the history. -/
def spillChangedToolResults (source transformed : History) : List String :=
  if c.tier1.spill.isNone then []
  else
    let idToName := toolNamesByCallId source
    ((source.zip transformed).filter fun e =>
        isToolMsg e.1 && isToolMsg e.2 && textOf e.1.content != textOf e.2.content).foldl
      (fun refs e =>
        addRef refs (c.spillBody ((dictGet idToName e.1.toolCallId).getD "tool") (textOf e.1.content))) []

/-! ### The recovery index -/

/-- The newest handles that fit, given newest first; `used` characters and
`n` handles are taken. -/
def selectRefs (maxPaths maxChars : Option ℕ) : ℕ → ℕ → List String → List String
  | _, _, [] => []
  | n, used, path :: rest =>
    if maxPaths.any (· ≤ n) then []
    else if maxChars.any (· < used + (path.length + 3)) then []
    else path :: selectRefs maxPaths maxChars (n + 1) (used + (path.length + 3)) rest

def manifestRefs (refs : List String) : List String :=
  (selectRefs c.manifestMaxPaths c.manifestMaxChars 0 spillManifestHeader.length refs.reverse).reverse

def indexMsg (selected : List String) : Message :=
  { userMsg (spillManifestHeader ++ "\n" ++ join "\n" (selected.map ("- " ++ ·))) with
    spillRefs := some selected }

/-- A recovery index, by its field or by the header of an old checkpoint. -/
def isIndex (m : Message) : Bool :=
  isUserMsg m && (m.spillRefs.isSome || startsWith (textOf m.content) spillManifestHeader)

/-- The first index replaced by `index` (or dropped), the others dropped. -/
def replaceIndex (index : Option Message) : History → History
  | [] => []
  | m :: ms =>
    if isIndex m then index.toList ++ ms.filter (fun x => !isIndex x) else m :: replaceIndex index ms

/-- Where a new index goes: below the system messages and the task. -/
def indexPosition (messages : History) : ℕ :=
  let n := (messages.takeWhile isSystemMsg).length
  match messages[n]? with
  | some m =>
    if isUserMsg m && (m.spillRefs.getD []).isEmpty && !startsWith (textOf m.content) "[Compacted" then n + 1
    else n
  | none => n

def withSpillManifest (messages : History) (refs : List String) : History :=
  if refs = [] then messages
  else
    let selected := c.manifestRefs refs
    let index := if selected = [] then none else some (indexMsg selected)
    if messages.any isIndex then replaceIndex index messages
    else match index with
      | none => messages
      | some index => messages.take (indexPosition messages) ++ index :: messages.drop (indexPosition messages)

/-! ### One pass -/

/-- A labelled candidate with its estimate. -/
structure Candidate where
  label : String
  messages : History
  tokens : ℕ

/-- A width of tool compression joins the candidates only when it beats all of
them, so the last to join is the best. -/
def betterCandidate (messages : History) (preserve : List String) (best : Candidate) (width : ℕ) :
    Candidate :=
  let candidate := compressWith messages width c.tier1.protectToolNames none preserve
  let tokens := estimateTokens est candidate
  if tokens < best.tokens then ⟨"tool_compression_" ++ toString width, candidate, tokens⟩ else best

/-- A winner with its recovery index; tier 1 carries its handles on the cards. -/
def withCandidateRefs (messages : History) (refs : List String) (best : Candidate) : History × ℕ :=
  if best.label = "tier1" then (best.messages, refs.length)
  else
    let refs := fromKeys (refs ++ c.spillChangedToolResults messages best.messages)
    (c.withSpillManifest best.messages refs, refs.length)

/-- `_selected`: the event of the pass. -/
def selectedEvent (label : String) (out : History) (tokensBefore : ℕ) (reliefMet : ℕ → Bool)
    (spillRefs : ℕ) (tier2 : Option CompactionPayload) : CompactionEvent :=
  let after := estimateTokens est out
  let payload := if startsWith label "tier2" then tier2 else none
  { selected := label, tokensBefore := tokensBefore, tokensAfter := after, reliefMet := reliefMet after,
    spillRefs := spillRefs, attempts := (payload.map (·.attempts)).getD 0,
    summary := match payload with
      | some p => if p.rolledBack then "" else p.summary
      | none => "",
    rollbackReason := match payload with
      | some p => if p.rolledBack then (if p.rollbackReason = "" then "unknown" else p.rollbackReason) else ""
      | none => "" }

def tier2 : LlmSummary := ⟨c.hasSummaryLlm, .deterministic⟩

def compact (st : TieredState) (reliefMet : ℕ → Bool) (outcome : SummaryOutcome) (messages : History)
    (keepRecent : ℕ) : History × TieredState :=
  let sourceEstimate := estimateTokens est messages
  let tier1 := c.tier1.compact messages
  let refs := spillRefs tier1
  let tier1Tokens := estimateTokens est tier1
  if reliefMet tier1Tokens then
    (tier1, ⟨0, some (selectedEvent est "tier1" tier1 sourceEstimate reliefMet refs.length none)⟩)
  else
    let preserve := if c.spillRecoverable then [] else latestToolResultIds messages
    let best := [1200, 600, 300].foldl (c.betterCandidate est messages preserve) ⟨"tier1", tier1, tier1Tokens⟩
    if reliefMet best.tokens then
      let (out, n) := c.withCandidateRefs messages refs best
      (out, ⟨0, some (selectedEvent est best.label out sourceEstimate reliefMet n none)⟩)
    else if st.lastNoReliefEstimate ≠ 0 ∧ sourceEstimate ≤ st.lastNoReliefEstimate * 11 / 10 then
      -- the last summary freed nothing and the history has hardly grown
      let (out, n) := c.withCandidateRefs messages refs best
      (out, ⟨st.lastNoReliefEstimate,
        some (selectedEvent est (best.label ++ "_cached") out sourceEstimate reliefMet n none)⟩)
    else
      let input := compressWith messages toolResultCompactMaxChars c.tier1.protectToolNames none preserve
      let (summarized, payload) := c.tier2.compact est input keepRecent false outcome
      let tier2Tokens := estimateTokens est summarized
      let (label, out, tokens, n) :=
        if tier2Tokens < best.tokens then
          let all := fromKeys (refs ++ c.spillProtectedResults messages ++
            c.spillChangedToolResults messages input)
          ("tier2", c.withSpillManifest summarized all, tier2Tokens, all.length)
        else
          let (out, n) := c.withCandidateRefs messages refs best
          (best.label, out, best.tokens, n)
      (out, ⟨if tier1Tokens ≤ tokens then sourceEstimate else 0,
        some (selectedEvent est label out sourceEstimate reliefMet n payload)⟩)

/-! ### What a pass can return -/

/-- Ids whose results a pass must not shorten. -/
def preserved (messages : History) : List String :=
  if c.spillRecoverable then [] else latestToolResultIds messages

/-- Tool compression at one width, in a pass over the history. -/
def compressed (messages : History) (width : ℕ) : History :=
  compressWith messages width c.tier1.protectToolNames none (c.preserved messages)

/-- A candidate with its recovery index. -/
def indexed (messages candidate : History) : History :=
  c.withSpillManifest candidate
    (fromKeys (spillRefs (c.tier1.compact messages) ++ c.spillChangedToolResults messages candidate))

/-- A summary of the history with its recovery index. -/
def summarized (messages : History) (keepRecent : ℕ) (outcome : SummaryOutcome) : History :=
  let input := c.compressed messages toolResultCompactMaxChars
  c.withSpillManifest (c.tier2.compact est input keepRecent false outcome).1
    (fromKeys (spillRefs (c.tier1.compact messages) ++ c.spillProtectedResults messages ++
      c.spillChangedToolResults messages input))

/-- The best candidate is Tier 1's, or tool compression at one of the widths. -/
theorem bestCandidate_cases (h : History) : ∀ (widths : List ℕ) (best : Candidate),
    let won := widths.foldl (c.betterCandidate est h (c.preserved h)) best
    won = best ∨ ∃ w ∈ widths, won.label = "tool_compression_" ++ toString w ∧ won.messages = c.compressed h w
  | [], _ => .inl rfl
  | w :: ws, best => by
    rcases bestCandidate_cases h ws (c.betterCandidate est h (c.preserved h) best w) with heq | ⟨v, hv, hwon⟩
    · rw [List.foldl_cons, heq]
      unfold betterCandidate
      dsimp only
      split
      · exact .inr ⟨w, List.mem_cons_self, rfl, rfl⟩
      · exact .inl rfl
    · exact .inr ⟨v, List.mem_cons_of_mem _ hv, hwon⟩

theorem compressionLabel_ne : ∀ w ∈ [1200, 600, 300], ∀ tail ∈ ["", "_cached"], ∀ label ∈ ["tier1", "tier1_cached"],
    "tool_compression_" ++ toString w ++ tail ≠ label := by
  decide +kernel

theorem withCandidateRefs_cases (h : History) :
    let best := [1200, 600, 300].foldl (c.betterCandidate est h (c.preserved h))
      ⟨"tier1", c.tier1.compact h, estimateTokens est (c.tier1.compact h)⟩
    let out := (c.withCandidateRefs h (spillRefs (c.tier1.compact h)) best).1
    (best.label = "tier1" ∧ out = c.tier1.compact h) ∨
      ∃ w ∈ [1200, 600, 300], best.label = "tool_compression_" ++ toString w ∧ out = c.indexed h (c.compressed h w) := by
  intro best out
  rcases c.bestCandidate_cases est h [1200, 600, 300]
    ⟨"tier1", c.tier1.compact h, estimateTokens est (c.tier1.compact h)⟩ with heq | ⟨w, hw, hlabel, hmsgs⟩
  · refine .inl ⟨congrArg Candidate.label heq, ?_⟩
    have hbest : best = _ := heq
    show (c.withCandidateRefs h _ best).1 = _
    rw [hbest, withCandidateRefs, if_pos rfl]
  · refine .inr ⟨w, hw, hlabel, ?_⟩
    have hne : best.label ≠ "tier1" := by
      rw [show best.label = _ from hlabel]
      simpa using compressionLabel_ne w hw "" (by simp) "tier1" (by simp)
    show (c.withCandidateRefs h _ best).1 = _
    rw [withCandidateRefs, if_neg hne, show best.messages = _ from hmsgs]
    rfl

/-- **What a pass can return**: the history of Tier 1 (under a label of its
own), tool compression at one of the widths, or a summary. -/
theorem compact_cases (st : TieredState) (reliefMet : ℕ → Bool) (outcome : SummaryOutcome) (h : History)
    (keepRecent : ℕ) :
    let out := (c.compact est st reliefMet outcome h keepRecent).1
    let label := (c.compact est st reliefMet outcome h keepRecent).2.lastEvent.map (·.selected)
    (out = c.tier1.compact h ∧ (label = some "tier1" ∨ label = some "tier1_cached")) ∨
    (∃ w ∈ [1200, 600, 300], out = c.indexed h (c.compressed h w) ∧
      label ≠ some "tier1" ∧ label ≠ some "tier1_cached") ∨
    (out = c.summarized est h keepRecent outcome ∧ label = some "tier2") := by
  intro out label
  have hcand := c.withCandidateRefs_cases est h
  unfold out label compact
  rw [show (if c.spillRecoverable = true then [] else latestToolResultIds h) = c.preserved h from rfl]
  dsimp only at hcand ⊢
  generalize [1200, 600, 300].foldl (c.betterCandidate est h (c.preserved h))
    ⟨"tier1", c.tier1.compact h, estimateTokens est (c.tier1.compact h)⟩ = best at hcand ⊢
  -- a candidate wins under its own label, which the cached path marks
  have hwon : ∀ (e : CompactionEvent) (tail : String), tail ∈ ["", "_cached"] → e.selected = best.label ++ tail →
      ((c.withCandidateRefs h (spillRefs (c.tier1.compact h)) best).1 = c.tier1.compact h ∧
        (some e.selected = some "tier1" ∨ some e.selected = some "tier1_cached")) ∨
      (∃ w ∈ [1200, 600, 300], (c.withCandidateRefs h (spillRefs (c.tier1.compact h)) best).1 =
          c.indexed h (c.compressed h w) ∧
        some e.selected ≠ some "tier1" ∧ some e.selected ≠ some "tier1_cached") ∨
      ((c.withCandidateRefs h (spillRefs (c.tier1.compact h)) best).1 = c.summarized est h keepRecent outcome ∧
        some e.selected = some "tier2") := by
    intro e tail htail he
    rw [he]
    rcases hcand with ⟨hl, ho⟩ | ⟨w, hw, hl, ho⟩
    · refine .inl ⟨ho, ?_⟩
      rw [hl]
      rcases List.mem_cons.mp htail with rfl | htail
      · exact .inl rfl
      · rw [List.mem_singleton.mp htail]
        exact .inr rfl
    · rw [hl]
      refine .inr (.inl ⟨w, hw, ho, fun hsome => ?_, fun hsome => ?_⟩)
      · exact compressionLabel_ne w hw tail htail "tier1" (by simp) (Option.some.inj hsome)
      · exact compressionLabel_ne w hw tail htail "tier1_cached" (by simp) (Option.some.inj hsome)
  split
  · exact .inl ⟨rfl, .inl rfl⟩
  · split
    · exact hwon _ "" (by simp) (by simp [selectedEvent])
    · split
      · exact hwon _ "_cached" (by simp) rfl
      · split
        · exact .inr (.inr ⟨rfl, rfl⟩)
        · exact hwon _ "" (by simp) (by simp [selectedEvent])

end Tiered

end Compaction
end AgentCore
