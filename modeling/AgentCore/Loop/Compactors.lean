/-
# The compactors of the loop

A `Compactor` of the loop is one that keeps both pairing invariants. The four
of the repository do: that they keep a history well paired is `Keeps` and
`KeepsHead`; that they leave no call open is proved here for every history,
well paired or not. Messages that are neither an assistant's nor a tool's play
no part in it (`callsAnswered_exchange`), and a suffix of a history without
open calls has none.

Key definitions: `exchange`, `Compactor.tiered`.
Key theorems: `callsAnswered_exchange`, `tiered_callsAnswered`.
-/
import AgentCore.Compaction.Pairing
import AgentCore.Loop.Turn

namespace AgentCore
namespace Compaction

/-! ### The exchange -/

/-- What assistant and tools said to each other. -/
def exchange (h : History) : History := h.filter fun m => isAssistantMsg m || isToolMsg m

theorem exchange_append (h h' : History) : exchange (h ++ h') = exchange h ++ exchange h' :=
  List.filter_append ..

theorem exchange_cons_user {m : Message} (hm : isUserMsg m = true) (h : History) :
    exchange (m :: h) = exchange h := by
  simp [exchange, isAssistantMsg_of_user hm, isToolMsg_of_user hm]

theorem exchange_users {h : History} (hh : ∀ m ∈ h, isUserMsg m = true) : exchange h = [] :=
  List.filter_eq_nil_iff.mpr fun m hm => by
    simp [isAssistantMsg_of_user (hh m hm), isToolMsg_of_user (hh m hm)]

/-- Open calls are a matter between assistant and tools. -/
theorem callsAnswered_exchange {h : History} : CallsAnswered (exchange h) ↔ CallsAnswered h := by
  have hids : ∀ ms : History, toolIds (untilAssistant (exchange ms)) = toolIds (untilAssistant ms) := by
    intro ms
    induction ms with
    | nil => rfl
    | cons m ms ih =>
      unfold exchange untilAssistant toolIds at *
      by_cases ha : isAssistantMsg m = true
      · simp [ha]
      · by_cases ht : isToolMsg m = true
        · simp [ha, ht, ih]
        · simp [ha, ht, ih]
  induction h with
  | nil => exact Iff.rfl
  | cons m ms ih =>
    by_cases hm : (isAssistantMsg m || isToolMsg m) = true
    · have hcons : exchange (m :: ms) = m :: exchange ms := List.filter_cons_of_pos hm
      rw [hcons]
      unfold CallsAnswered
      rw [hids]
      exact and_congr_right fun _ => ih
    · have hcons : exchange (m :: ms) = exchange ms := List.filter_cons_of_neg hm
      have hnone : callIds m = [] := callIds_of_not_assistant (by simp_all)
      rw [hcons]
      exact ⟨fun h => ⟨by simp [hnone], ih.mp h⟩, fun h => ih.mpr h.2⟩

/-! ### Each compactor -/

theorem rewrites_callsAnswered {h h' : History} (hh : CallsAnswered h) (hr : List.Forall₂ Rewrites h h') :
    CallsAnswered h' :=
  hh.sameShape (hr.imp fun _ _ hxy => hxy.shape)

theorem callsAnswered_leading (h : History) : CallsAnswered (leading h) :=
  PlainMsg.callsAnswered fun _ hm => plainMsg_of_system (mem_leading hm)

/-- The system messages, user messages and a part at the end of the history. -/
theorem rebuild_callsAnswered (h : History) {users rest : History} (hu : ∀ m ∈ users, isUserMsg m = true)
    (hrest : CallsAnswered rest) : CallsAnswered (leading h ++ (users ++ rest)) :=
  (callsAnswered_leading h).append
    ((PlainMsg.callsAnswered fun m hm => plainMsg_of_user (hu m hm)).append hrest)

/-- What a partition keeps has no open calls. -/
theorem recent_callsAnswered {h pinned middle recent : History} (hh : CallsAnswered h)
    (happ : pinned ++ (middle ++ recent) = h.dropWhile isSystemMsg) : CallsAnswered recent := by
  rw [← leading_append_dropWhile h, ← happ] at hh
  exact hh.of_append_right.of_append_right.of_append_right

theorem mem_append_users {pinned : History} (hp : ∀ m ∈ pinned, isUserMsg m = true) {u : Message}
    (hu : isUserMsg u = true) : ∀ m ∈ pinned ++ [u], isUserMsg m = true := by
  intro m hm
  rcases List.mem_append.mp hm with hm | hm
  · exact hp m hm
  · rw [List.mem_singleton.mp hm]
    exact hu

theorem compactMessages_callsAnswered {h : History} (hh : CallsAnswered h) (keepRecent : ℕ) :
    CallsAnswered (compactMessages h keepRecent) := by
  obtain ⟨pinned, middle, recent, heq, happ, hpin, _⟩ := partition_cases h keepRecent
  unfold compactMessages
  simp only [heq]
  split
  · exact hh
  · have := rebuild_callsAnswered h (mem_append_users hpin (u := squash middle) rfl)
      (recent_callsAnswered hh happ)
    simpa using this

theorem rollback_callsAnswered (c : LlmSummary) {h : History} (hh : CallsAnswered h) {pinned : History}
    (hp : ∀ m ∈ pinned, isUserMsg m = true) (dropped keepRecent : ℕ) (reason : String) :
    CallsAnswered (c.rollback h (leading h ++ pinned) dropped keepRecent reason) := by
  unfold LlmSummary.rollback
  cases c.failureFallback with
  | deterministic => exact compactMessages_callsAnswered hh keepRecent
  | panic =>
    dsimp only
    have hrest : ∀ rest : History, (∀ m ∈ rest, isUserMsg m = true) → CallsAnswered
        (leading h ++ pinned ++ LlmSummary.failedMsg dropped reason :: rest) := by
      intro rest hr
      have := rebuild_callsAnswered h (mem_append_users hp (u := LlmSummary.failedMsg dropped reason) rfl)
        (PlainMsg.callsAnswered fun m hm => plainMsg_of_user (hr m hm))
      simpa using this
    refine hrest _ fun m hm => ?_
    cases hu : lastHumanMessage h with
    | none => simp [hu] at hm
    | some u =>
      rw [hu] at hm
      dsimp only at hm
      split at hm
      · simp at hm
      · rw [List.mem_singleton.mp hm]
        exact List.find?_some hu

theorem stringSlice_callsAnswered {h : History} (hh : CallsAnswered h) (keepRecent : ℕ) :
    CallsAnswered (LlmSummary.stringSlice h keepRecent) := by
  have hcompact := compactMessages_callsAnswered hh keepRecent
  unfold LlmSummary.stringSlice
  dsimp only
  split
  · exact hcompact
  · split
    · next task hf =>
      have htask : isUserMsg task = true := by
        have := List.find?_some hf
        simp only [isOriginalTask, Bool.and_eq_true] at this
        exact this.1
      unfold insertBelowSystem
      rw [← callsAnswered_exchange, exchange_append, exchange_cons_user htask, ← exchange_append,
        List.takeWhile_append_dropWhile, callsAnswered_exchange]
      exact hcompact
    · exact hcompact

theorem llmSummary_callsAnswered (c : LlmSummary) (est : String → ℕ) {h : History} (hh : CallsAnswered h)
    (keepRecent : ℕ) (compressAll : Bool) (outcome : SummaryOutcome) :
    CallsAnswered (c.compact est h keepRecent compressAll outcome).1 := by
  unfold LlmSummary.compact
  set source := if compressAll = true then compressWith h toolResultCompactMaxChars [] none [] else h
    with hsource
  have hs : CallsAnswered source := by
    rw [hsource]
    split
    · exact rewrites_callsAnswered hh (compressWith_rewrites h _ _ _ _)
    · exact hh
  obtain ⟨pinned, middle, recent, heq, happ, hpin, _⟩ := partition_cases source keepRecent
  simp only [heq]
  split
  · exact stringSlice_callsAnswered hs keepRecent
  · split
    · exact hs
    · split
      · exact rollback_callsAnswered c hs hpin _ _ _
      · have := rebuild_callsAnswered source (mem_append_users hpin (u := LlmSummary.summaryMsg outcome.text) rfl)
          (recent_callsAnswered hs happ)
        simpa using this

theorem exchange_replaceIndex {ms : History} (hany : ms.any Tiered.isIndex = true) {index : Option Message}
    (hindex : ∀ x ∈ index, isUserMsg x = true) : exchange (Tiered.replaceIndex index ms) = exchange ms := by
  obtain ⟨above, i, below, rfl, hi, hrep⟩ := Tiered.replaceIndex_split hany
  have hfilter : exchange (below.filter fun x => !Tiered.isIndex x) = exchange below := by
    unfold exchange
    rw [List.filter_filter]
    refine List.filter_congr fun m _ => ?_
    cases hm : Tiered.isIndex m with
    | false => simp
    | true =>
      have hu := Tiered.isUserMsg_of_isIndex hm
      simp [isAssistantMsg_of_user hu, isToolMsg_of_user hu]
  have hnew : exchange index.toList = [] :=
    exchange_users fun m hm => hindex m (Option.mem_toList.mp hm)
  rw [hrep, exchange_append, exchange_append, exchange_append, hnew, List.nil_append, hfilter,
    exchange_cons_user (Tiered.isUserMsg_of_isIndex hi)]

/-- The recovery index is no part of the exchange. -/
theorem exchange_withSpillManifest (c : Tiered) (ms : History) (refs : List String) :
    exchange (c.withSpillManifest ms refs) = exchange ms := by
  unfold Tiered.withSpillManifest
  split
  · rfl
  · dsimp only
    split
    · next hany =>
      refine exchange_replaceIndex hany fun x hx => ?_
      split at hx
      · simp at hx
      · rw [← Option.mem_some.mp hx]
        rfl
    · split
      · rfl
      · next index hindex =>
        have hu : isUserMsg index = true := by
          split at hindex
          · simp at hindex
          · rw [← Option.some.inj hindex]
            rfl
        rw [exchange_append, exchange_cons_user hu, ← exchange_append, List.take_append_drop]

theorem withSpillManifest_callsAnswered (c : Tiered) {ms : History} (hms : CallsAnswered ms)
    (refs : List String) : CallsAnswered (c.withSpillManifest ms refs) := by
  rw [← callsAnswered_exchange, exchange_withSpillManifest]
  exact callsAnswered_exchange.mpr hms

theorem tiered_callsAnswered (c : Tiered) (est : String → ℕ) (st : TieredState) (reliefMet : ℕ → Bool)
    (outcome : SummaryOutcome) {h : History} (hh : CallsAnswered h) (keepRecent : ℕ) :
    CallsAnswered (c.compact est st reliefMet outcome h keepRecent).1 := by
  rcases c.compact_cases est st reliefMet outcome h keepRecent with ⟨hout, -⟩ | ⟨w, -, hout, -⟩ | ⟨hout, -⟩
  all_goals rw [hout]
  · exact rewrites_callsAnswered hh (c.tier1.compact_rewrites h)
  · exact withSpillManifest_callsAnswered c (rewrites_callsAnswered hh (c.compressed_rewrites h w)) _
  · have hinput := rewrites_callsAnswered hh (c.compressed_rewrites h toolResultCompactMaxChars)
    exact withSpillManifest_callsAnswered c
      (llmSummary_callsAnswered c.tier2 est hinput keepRecent false outcome) _

end Compaction

namespace Loop
namespace Compactor

open Compaction

/-! ### The loop's compactors -/

def keepLastN (c : KeepLastN) : Compactor where
  compact := c.compact
  wellPaired hh := rewrites_wellPaired hh (c.compact_rewrites _)
  callsAnswered hh := rewrites_callsAnswered hh (c.compact_rewrites _)

def squash (keepRecent : ℕ) : Compactor where
  compact h := compactMessages h keepRecent
  wellPaired hh := (compactMessages_keeps hh keepRecent).paired
  callsAnswered hh := compactMessages_callsAnswered hh keepRecent

def llmSummary (c : LlmSummary) (est : String → ℕ) (keepRecent : ℕ) (compressAll : Bool)
    (outcome : SummaryOutcome) : Compactor where
  compact h := (c.compact est h keepRecent compressAll outcome).1
  wellPaired hh := (c.compact_keeps est hh keepRecent compressAll outcome).paired
  callsAnswered hh := llmSummary_callsAnswered c est hh keepRecent compressAll outcome

def tiered (c : Tiered) (est : String → ℕ) (st : TieredState) (reliefMet : ℕ → Bool)
    (outcome : SummaryOutcome) (keepRecent : ℕ) : Compactor where
  compact h := (c.compact est st reliefMet outcome h keepRecent).1
  wellPaired hh := (c.compact_keepsHead est st reliefMet outcome hh keepRecent).paired
  callsAnswered hh := tiered_callsAnswered c est st reliefMet outcome hh keepRecent

end Compactor
end Loop
end AgentCore
