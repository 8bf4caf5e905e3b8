/-
# Results the model has not seen

Compaction runs right behind the tool results of a turn, before the model has
read them. Without a spill store that can give a body back, a tiered pass keeps
the ids of the latest turn out of tool compression, and a summary keeps the
turn among the recent messages. Tier 1 is not told: it elides what stands
outside its window of `keep_tool_result` results, also in the latest turn.

So the results of the latest turn are safe exactly when those of them that
stand outside the window are ones Tier 1 leaves alone anyway (`Spares`).

Key definitions: `LastTurn`, `Survives`, `KeepLastN.Spares`.
Key theorem: `unseen_results_survive_iff`.
-/
import AgentCore.Compaction.Pairing

namespace AgentCore
namespace Compaction

open Text

/-- The history ends in an assistant message and the results of its calls. -/
structure LastTurn (h : History) (a : Message) (results : History) : Prop where
  split : ∃ before, h = before ++ a :: results
  assistant : isAssistantMsg a = true
  tools : ∀ m ∈ results, isToolMsg m = true
  answers : ∀ m ∈ results, m.toolCallId ∈ callIds a ∧ m.toolCallId ≠ ""

/-- The history ends in the results, with their ids and contents. -/
def Survives (results out : History) : Prop :=
  ∃ before after, out = before ++ after ∧
    List.Forall₂ (fun m m' => isToolMsg m' = true ∧ m'.toolCallId = m.toolCallId ∧ m'.content = m.content)
      results after

theorem Survives.of_suffix {results out : History} (ht : ∀ m ∈ results, isToolMsg m = true)
    (h : results <:+ out) : Survives results out := by
  obtain ⟨before, rfl⟩ := h
  exact ⟨before, results, rfl, List.forall₂_same.mpr fun m hm => ⟨ht m hm, rfl, rfl⟩⟩

/-- The text that stands in for a body that went nowhere. -/
def KeepLastN.bareCard (c : KeepLastN) (h : History) (m : Message) : String :=
  let card := elidedToolCard ((dictGet (toolNamesByCallId h) m.toolCallId).getD "")
    ((dictGet (toolArgsByCallId h) m.toolCallId).getD "")
    ((dictGet (toolArgUrlsByCallId h) m.toolCallId).getD "") (textOf m.content) c.maxCardUrls
  omittedToolResultPlaceholder ++ if card ≠ "" then "\n" ++ card else ""

/-- Tier 1 leaves the result alone wherever it stands: its tool is protected, it
is a placeholder already, or it has no handle and either a spill store was
configured (and declines) or its card would be no shorter. -/
def KeepLastN.Spares (c : KeepLastN) (h : History) (m : Message) : Prop :=
  namesOne (toolNamesByCallId h) c.protectToolNames m.toolCallId = true ∨
  startsWith (textOf m.content) omittedToolResultPlaceholder = true ∨
  legacyOmittedToolResultPlaceholders.any (startsWith (textOf m.content)) = true ∨
  messageRecoveryRef m = "" ∧
    (c.spill.isSome = true ∨ (textOf m.content).length ≤ (c.bareCard h m).length)

instance (c : KeepLastN) (h : History) (m : Message) : Decidable (c.Spares h m) := by
  unfold KeepLastN.Spares
  infer_instance

/-! ### Rewriting the first messages -/

section RewriteFirst

variable {q : Message → Bool} {f : Message → Message}

theorem rewriteFirst_nil (k : ℕ) : rewriteFirst q f k [] = [] := by cases k <;> rfl

theorem rewriteFirst_append : ∀ (xs ys : History) (k : ℕ),
    rewriteFirst q f k (xs ++ ys) = rewriteFirst q f k xs ++ rewriteFirst q f (k - xs.countP q) ys
  | [], ys, k => by
    rw [rewriteFirst_nil, List.nil_append, List.nil_append, List.countP_nil, Nat.sub_zero]
  | x :: xs, ys, 0 => by
    simp only [rewriteFirst, Nat.zero_sub]
  | x :: xs, ys, k + 1 => by
    by_cases hx : q x = true
    · rw [List.cons_append, rewriteFirst, if_pos hx, rewriteFirst_append xs ys k, rewriteFirst, if_pos hx,
        List.countP_cons_of_pos hx, Nat.add_sub_add_right]
      rfl
    · rw [List.cons_append, rewriteFirst, if_neg hx, rewriteFirst_append xs ys (k + 1), rewriteFirst, if_neg hx,
        List.countP_cons_of_neg hx]
      rfl

theorem rewriteFirst_of_none : ∀ (ys : History) (k : ℕ), (∀ y ∈ ys, q y = false) → rewriteFirst q f k ys = ys
  | [], k, _ => rewriteFirst_nil k
  | y :: ys, 0, _ => rfl
  | y :: ys, k + 1, h => by
    rw [rewriteFirst, if_neg (by simp [h y List.mem_cons_self]),
      rewriteFirst_of_none ys (k + 1) fun z hz => h z (List.mem_cons_of_mem _ hz)]

theorem rewriteFirst_of_all : ∀ (ys : History) (k : ℕ), (∀ y ∈ ys, q y = true) →
    rewriteFirst q f k ys = (ys.take k).map f ++ ys.drop k
  | [], k, _ => by simp [rewriteFirst_nil]
  | y :: ys, 0, _ => rfl
  | y :: ys, k + 1, h => by
    rw [rewriteFirst, if_pos (h y List.mem_cons_self),
      rewriteFirst_of_all ys k fun z hz => h z (List.mem_cons_of_mem _ hz)]
    rfl

/-- Messages behind those that are counted stay. -/
theorem suffix_rewriteFirst {h ys : History} (hs : ys <:+ h) (hy : ∀ y ∈ ys, q y = false) (k : ℕ) :
    ys <:+ rewriteFirst q f k h := by
  obtain ⟨xs, rfl⟩ := hs
  rw [rewriteFirst_append, rewriteFirst_of_none ys _ hy]
  exact List.suffix_append _ _

end RewriteFirst

theorem not_carriesReasoning_of_tool {m : Message} (hm : isToolMsg m = true) : carriesReasoning m = false := by
  simp [carriesReasoning, isAssistantMsg_of_tool hm]

theorem suffix_stripStaleReasoning {h results : History} (hs : results <:+ h)
    (ht : ∀ m ∈ results, isToolMsg m = true) (keepLast : ℤ) : results <:+ stripStaleReasoning h keepLast := by
  unfold stripStaleReasoning
  split
  · exact hs
  · exact suffix_rewriteFirst hs (fun m hm => not_carriesReasoning_of_tool (ht m hm)) _

/-- Tool compression leaves results whose ids are preserved. -/
theorem suffix_compressWith {h results : History} (hs : results <:+ h) (ht : ∀ m ∈ results, isToolMsg m = true)
    {preserve : List String} (hp : ∀ m ∈ results, m.toolCallId ∈ preserve) (n : ℕ) (names : List String)
    (o : Option ℕ) : results <:+ compressWith h n names o preserve := by
  unfold compressWith
  refine suffix_stripStaleReasoning ?_ ht 1
  obtain ⟨xs, rfl⟩ := hs
  rw [List.map_append]
  have hsame : ∀ d, results.map (compressOne d n names o preserve) = results := by
    intro d
    calc results.map (compressOne d n names o preserve) = results.map id :=
          List.map_congr_left fun m hm => if_pos (.inr (hp m hm))
      _ = results := List.map_id _
  rw [hsame]
  exact List.suffix_append _ _

/-! ### The recovery index and the summary leave the end of a history -/

theorem isIndex_of_tool {m : Message} (hm : isToolMsg m = true) : Tiered.isIndex m = false := by
  simp only [isToolMsg, beq_iff_eq] at hm
  simp [Tiered.isIndex, isUserMsg, hm]

theorem replaceIndex_append {results : History} (ht : ∀ m ∈ results, isToolMsg m = true) (index : Option Message) :
    ∀ xs : History, Tiered.replaceIndex index (xs ++ results) = Tiered.replaceIndex index xs ++ results
  | [] => by
    rw [List.nil_append, Tiered.replaceIndex, List.nil_append]
    induction results with
    | nil => rfl
    | cons m ms ih =>
      rw [Tiered.replaceIndex, if_neg (by simp [isIndex_of_tool (ht m List.mem_cons_self)]),
        ih fun x hx => ht x (List.mem_cons_of_mem _ hx)]
  | x :: xs => by
    have hfilter : results.filter (fun m => !Tiered.isIndex m) = results :=
      List.filter_eq_self.mpr fun m hm => by simp [isIndex_of_tool (ht m hm)]
    rw [List.cons_append, Tiered.replaceIndex, Tiered.replaceIndex]
    split
    · rw [List.filter_append, hfilter, List.append_assoc]
    · rw [replaceIndex_append ht index xs, List.cons_append]

theorem isSystemMsg_of_tool {m : Message} (hm : isToolMsg m = true) : isSystemMsg m = false := by
  simp only [isToolMsg, beq_iff_eq] at hm
  simp [isSystemMsg, hm]

/-- The leading system messages end above the results. -/
theorem dropWhile_system_append {results : History} (ht : ∀ m ∈ results, isToolMsg m = true) :
    ∀ xs : History, (xs ++ results).dropWhile isSystemMsg = xs.dropWhile isSystemMsg ++ results
  | [] => by
    cases results with
    | nil => rfl
    | cons m ms =>
      rw [List.nil_append, List.dropWhile_cons_of_neg (by simp [isSystemMsg_of_tool (ht m List.mem_cons_self)])]
      rfl
  | x :: xs => by
    by_cases hx : isSystemMsg x = true
    · rw [List.cons_append, List.dropWhile_cons_of_pos hx, List.dropWhile_cons_of_pos hx,
        dropWhile_system_append ht xs]
    · rw [List.cons_append, List.dropWhile_cons_of_neg hx, List.dropWhile_cons_of_neg hx, List.cons_append]

theorem indexPosition_append_le {results : History} (ht : ∀ m ∈ results, isToolMsg m = true) (xs : History) :
    Tiered.indexPosition (xs ++ results) ≤ xs.length := by
  have hdrop := dropWhile_system_append ht xs
  rcases Tiered.indexPosition_cases (xs ++ results) with hpos | ⟨u, rest, hd, hu, hpos⟩
  all_goals
    have hlen := congrArg List.length (leading_append_dropWhile (xs ++ results))
    rw [List.length_append, hdrop, List.length_append, List.length_append] at hlen
  · omega
  · -- the message below the system messages is a user's, so it is none of the results
    have hne : xs.dropWhile isSystemMsg ≠ [] := by
      intro hnil
      rw [hdrop, hnil, List.nil_append] at hd
      have htool := ht u (by rw [hd]; exact List.mem_cons_self)
      rw [isToolMsg_of_user hu] at htool
      cases htool
    have hpos' := List.length_pos_iff.mpr hne
    omega

theorem suffix_withSpillManifest {ms results : History} (hs : results <:+ ms)
    (ht : ∀ m ∈ results, isToolMsg m = true) (c : Tiered) (refs : List String) :
    results <:+ c.withSpillManifest ms refs := by
  obtain ⟨xs, rfl⟩ := hs
  unfold Tiered.withSpillManifest
  split
  · exact List.suffix_append _ _
  · dsimp only
    split
    · rw [replaceIndex_append ht]
      exact List.suffix_append _ _
    · split
      · exact List.suffix_append _ _
      · rw [List.drop_append_of_le_length (indexPosition_append_le ht xs), ← List.cons_append, ← List.append_assoc]
        exact List.suffix_append _ _

theorem suffix_insertBelowSystem {ms results : History} (hs : results <:+ ms)
    (ht : ∀ m ∈ results, isToolMsg m = true) (m : Message) : results <:+ insertBelowSystem m ms := by
  obtain ⟨xs, rfl⟩ := hs
  unfold insertBelowSystem
  rw [dropWhile_system_append ht, ← List.cons_append, ← List.append_assoc]
  exact List.suffix_append _ _

/-- Where the cut is not below the last turn, it is above the assistant
message of the turn. -/
theorem splitIndex_le {zs results : History} {a : Message} (ha : isToolMsg a = false) {keepRecent : ℕ}
    (hk : results.length + 1 ≤ keepRecent) : splitIndex (zs ++ a :: results) keepRecent ≤ zs.length := by
  unfold splitIndex
  dsimp only
  have hlen : (zs ++ a :: results).length = zs.length + (results.length + 1) := by
    rw [List.length_append, List.length_cons]
  set split := (zs ++ a :: results).length - keepRecent with hsplit
  have hle : split ≤ zs.length := by omega
  have hcut : ((zs ++ a :: results).drop split).takeWhile isToolMsg = (zs.drop split).takeWhile isToolMsg := by
    rw [List.drop_append_of_le_length hle]
    generalize zs.drop split = ys
    induction ys with
    | nil => rw [List.nil_append, List.takeWhile_cons_of_neg (by simp [ha])]; rfl
    | cons y ys ih =>
      by_cases hy : isToolMsg y = true
      · rw [List.cons_append, List.takeWhile_cons_of_pos hy, List.takeWhile_cons_of_pos hy, ih]
      · rw [List.cons_append, List.takeWhile_cons_of_neg hy, List.takeWhile_cons_of_neg hy]
  have hrun : ((zs.drop split).takeWhile isToolMsg).length ≤ zs.length - split := by
    rw [← List.length_drop]
    exact (List.takeWhile_sublist _).length_le
  rw [hcut, if_pos (by omega)]
  omega

/-- What is kept of a squashed history ends in the last turn. -/
theorem suffix_recent {h results : History} {a : Message} (hs : a :: results <:+ h) (ha : isToolMsg a = false)
    {keepRecent : ℕ} (hk : results.length + 1 ≤ keepRecent) {lead middle recent : History}
    (hp : partitionForCompaction h keepRecent = (lead, middle, recent)) (hm : middle ≠ []) :
    results <:+ recent := by
  have hrest : ∀ n, keepRecent < ((h.dropWhile isSystemMsg).drop n).length →
      a :: results <:+ (h.dropWhile isSystemMsg).drop n := by
    intro n hn
    have hdrop : (h.dropWhile isSystemMsg).drop n <:+ h := (List.drop_suffix _ _).trans (List.dropWhile_suffix _)
    refine List.suffix_of_suffix_length_le hs hdrop ?_
    rw [List.length_cons]
    omega
  unfold partitionForCompaction at hp
  dsimp only at hp
  split at hp
  · cases hp
    exact absurd rfl hm
  · generalize (if 0 < keepRecent ∧ pinsFirst (h.dropWhile isSystemMsg) = true then 1 else 0) = pinned at hp
    split at hp
    · cases hp
      exact absurd rfl hm
    · next hlen =>
      obtain ⟨zs, hzs⟩ := hrest _ (Nat.lt_of_not_le hlen)
      cases hp
      rw [← hzs, List.drop_append_of_le_length (splitIndex_le ha hk)]
      exact (List.suffix_cons a results).trans (List.suffix_append _ _)

theorem suffix_compactMessages {h results : History} {a : Message} (hs : a :: results <:+ h)
    (ha : isToolMsg a = false) {keepRecent : ℕ} (hk : results.length + 1 ≤ keepRecent) :
    results <:+ compactMessages h keepRecent := by
  unfold compactMessages
  obtain ⟨lead, middle, recent, hp⟩ : ∃ lead middle recent,
      partitionForCompaction h keepRecent = (lead, middle, recent) := ⟨_, _, _, rfl⟩
  rw [hp]
  dsimp only
  split
  · exact (List.suffix_cons a results).trans hs
  · next hm => exact (suffix_recent hs ha hk hp hm).trans (List.suffix_append_of_suffix (List.suffix_cons _ _))

theorem suffix_llmSummary {h results : History} {a : Message} (hs : a :: results <:+ h) (ha : isToolMsg a = false)
    (ht : ∀ m ∈ results, isToolMsg m = true) {keepRecent : ℕ} (hk : results.length + 1 ≤ keepRecent)
    (c : Tiered) (est : String → ℕ) (outcome : SummaryOutcome) :
    results <:+ (c.tier2.compact est h keepRecent false outcome).1 := by
  have hcompact := suffix_compactMessages hs ha hk
  unfold LlmSummary.compact LlmSummary.stringSlice LlmSummary.rollback Tiered.tier2
  obtain ⟨lead, middle, recent, hp⟩ : ∃ lead middle recent,
      partitionForCompaction h keepRecent = (lead, middle, recent) := ⟨_, _, _, rfl⟩
  simp only [Bool.false_eq_true, if_false, hp]
  split
  · split
    · exact hcompact
    · split
      · exact suffix_insertBelowSystem hcompact ht _
      · exact hcompact
  · split
    · exact (List.suffix_cons a results).trans hs
    · next hm =>
      split
      · exact hcompact
      · exact (suffix_recent hs ha hk hp hm).trans (List.suffix_append_of_suffix (List.suffix_cons _ _))

/-! ### Tier 1 -/

/-- What the readings of the calls of a history see of a message. -/
def SameCalls (m m' : Message) : Prop :=
  isAssistantMsg m' = isAssistantMsg m ∧ (isAssistantMsg m = true → m'.toolCalls = m.toolCalls)

theorem SameCalls.trans {a b c : Message} (h : SameCalls a b) (h' : SameCalls b c) : SameCalls a c :=
  ⟨h'.1.trans h.1, fun ha => (h'.2 (h.1.trans ha)).trans (h.2 ha)⟩

theorem SameCalls.of_tool {m m' : Message} (hm : isToolMsg m = true) (hm' : isToolMsg m' = true) : SameCalls m m' := by
  refine ⟨(isAssistantMsg_of_tool hm').trans (isAssistantMsg_of_tool hm).symm, fun ha => ?_⟩
  rw [isAssistantMsg_of_tool hm] at ha
  cases ha

/-- A reading of the calls of a history, message by message. -/
theorem flatMap_calls {α : Type} {g : Message → List α} (hg : ∀ m m', m'.toolCalls = m.toolCalls → g m' = g m)
    {h h' : History} (hr : List.Forall₂ SameCalls h h') :
    (h'.filter isAssistantMsg).flatMap g = (h.filter isAssistantMsg).flatMap g := by
  induction hr with
  | nil => rfl
  | @cons m m' ms ms' hm _ ih =>
    by_cases ha : isAssistantMsg m = true
    · rw [List.filter_cons_of_pos ha, List.filter_cons_of_pos (hm.1.trans ha), List.flatMap_cons, List.flatMap_cons,
        hg m m' (hm.2 ha), ih]
    · rw [List.filter_cons_of_neg ha, List.filter_cons_of_neg (by rwa [hm.1]), ih]

section SameCalls

variable {h h' : History} (hr : List.Forall₂ SameCalls h h')

include hr

theorem toolNamesByCallId_congr : toolNamesByCallId h' = toolNamesByCallId h :=
  flatMap_calls (fun m m' hm => by rw [hm]) hr

theorem toolArgsByCallId_congr : toolArgsByCallId h' = toolArgsByCallId h :=
  flatMap_calls (fun m m' hm => by rw [hm]) hr

theorem toolArgUrlsByCallId_congr : toolArgUrlsByCallId h' = toolArgUrlsByCallId h :=
  flatMap_calls (fun m m' hm => by rw [hm]) hr

end SameCalls

/-- Dropping reasoning leaves the calls. -/
theorem stripStaleReasoning_calls (h : History) (keepLast : ℤ) :
    List.Forall₂ SameCalls h (stripStaleReasoning h keepLast) := by
  unfold stripStaleReasoning
  split
  · exact List.forall₂_same.mpr fun _ _ => ⟨rfl, fun _ => rfl⟩
  · exact rewriteFirst_forall₂ (fun _ => ⟨rfl, fun _ => rfl⟩) (fun _ _ => ⟨rfl, fun _ => rfl⟩) _ _

theorem toolNamesByCallId_strip (h : History) (keepLast : ℤ) :
    toolNamesByCallId (stripStaleReasoning h keepLast) = toolNamesByCallId h :=
  toolNamesByCallId_congr (stripStaleReasoning_calls h keepLast)

theorem toolArgsByCallId_strip (h : History) (keepLast : ℤ) :
    toolArgsByCallId (stripStaleReasoning h keepLast) = toolArgsByCallId h :=
  toolArgsByCallId_congr (stripStaleReasoning_calls h keepLast)

theorem toolArgUrlsByCallId_strip (h : History) (keepLast : ℤ) :
    toolArgUrlsByCallId (stripStaleReasoning h keepLast) = toolArgUrlsByCallId h :=
  toolArgUrlsByCallId_congr (stripStaleReasoning_calls h keepLast)

namespace KeepLastN

variable (c : KeepLastN)

/-- What Tier 1 makes of an old result of this history. -/
def elideIn (h : History) : Message → Message :=
  c.elideOne (toolNamesByCallId h) (toolArgsByCallId h) (toolArgUrlsByCallId h)

variable {c}

/-- Without a store the handle of a body is the one it has. -/
theorem spillPath_of_declines (hspill : ∀ f, c.spill = some f → ∀ name body, f name body = none) (m : Message)
    (name body : String) :
    (if messageRecoveryRef m ≠ "" then messageRecoveryRef m else (c.spill.bind (· name body)).getD "") =
      messageRecoveryRef m := by
  split
  · rfl
  · next hne =>
    rw [not_not] at hne
    cases hf : c.spill with
    | none => rw [hne]; rfl
    | some f => rw [hne, Option.bind_some, hspill f hf]; rfl

theorem elideIn_of_spares (hspill : ∀ f, c.spill = some f → ∀ name body, f name body = none) {h : History}
    {m : Message} (hs : c.Spares h m) : c.elideIn h m = m := by
  unfold elideIn elideOne
  dsimp only
  rw [spillPath_of_declines hspill]
  rcases hs with hs | hs | hs | ⟨href, hs⟩
  · rw [if_pos hs]
  · split
    · rfl
    · rw [if_pos (by rw [hs, Bool.true_or])]
  · split
    · rfl
    · rw [if_pos (by rw [hs, Bool.or_true])]
  · rw [href]
    split
    · rfl
    · split
      · rfl
      · rcases hs with hs | hs
        · rw [if_pos ⟨hs, rfl⟩]
        · split
          · rfl
          · rw [if_pos]
            simpa [bareCard] using hs

theorem content_elideIn_ne (hspill : ∀ f, c.spill = some f → ∀ name body, f name body = none) {h : History}
    {m : Message} (hs : ¬c.Spares h m) : (c.elideIn h m).content ≠ m.content := by
  unfold Spares at hs
  simp only [not_or, not_and, Bool.not_eq_true] at hs
  obtain ⟨hname, hplace, hlegacy, hhandle⟩ := hs
  have hnew : ∃ rest, (c.elideIn h m).content = .text (omittedToolResultPlaceholder ++ rest) := by
    unfold elideIn elideOne
    dsimp only
    rw [spillPath_of_declines hspill, if_neg (by simp [hname]), if_neg (by simp [hplace, hlegacy]), if_neg, if_neg]
    · simp only [String.append_assoc]
      exact ⟨_, rfl⟩
    · rintro ⟨href, hlen⟩
      refine (hhandle href).2 ?_
      rw [href] at hlen
      simpa [bareCard] using hlen
    · rintro ⟨hsome, href⟩
      rw [(hhandle href).1] at hsome
      cases hsome
  obtain ⟨rest, hrest⟩ := hnew
  intro heq
  rw [hrest] at heq
  rw [← heq] at hplace
  simp only [textOf, startsWith, String.toList_append, Bool.eq_false_iff, ne_eq, List.isPrefixOf_iff_prefix] at hplace
  exact hplace (List.prefix_append _ _)

/-- Tier 1 on a history that ends in tool results: those outside the window are
elided. -/
theorem compact_append (hkeep : 0 ≤ c.keep) (before : History) {results : History} (ht : ∀ m ∈ results, isToolMsg m = true) :
    ∃ before', c.compact (before ++ results) = before' ++
      ((results.take (results.length - c.keep.toNat)).map (c.elideIn (before ++ results)) ++
        results.drop (results.length - c.keep.toNat)) := by
  unfold compact
  rw [if_neg (by omega)]
  dsimp only
  rw [toolNamesByCallId_strip, toolArgsByCallId_strip, toolArgUrlsByCallId_strip]
  obtain ⟨before', hb⟩ := suffix_stripStaleReasoning (List.suffix_append before results) ht (max c.keep 1)
  rw [← hb, List.countP_append, List.countP_eq_length.mpr ht, rewriteFirst_append, rewriteFirst_of_all results _ ht]
  rw [show before'.countP isToolMsg + results.length - c.keep.toNat - before'.countP isToolMsg =
    results.length - c.keep.toNat by omega]
  exact ⟨_, rfl⟩

/-- Tier 1 leaves the last results exactly when it spares those outside its
window. -/
theorem survives_compact_iff (hkeep : 0 ≤ c.keep)
    (hspill : ∀ f, c.spill = some f → ∀ name body, f name body = none) (before : History) {results : History}
    (ht : ∀ m ∈ results, isToolMsg m = true) :
    Survives results (c.compact (before ++ results)) ↔
      ∀ m ∈ results.take (results.length - c.keep.toNat), c.Spares (before ++ results) m := by
  obtain ⟨before', hc⟩ := c.compact_append hkeep before ht
  set n := results.length - c.keep.toNat with hn
  constructor
  · rintro ⟨front, after, hout, hsame⟩ m hm
    by_contra hbad
    rw [hc] at hout
    -- both ends are as long as the results, so they are one
    have hlen : after.length = results.length := hsame.length_eq.symm
    have hafter : after = (results.take n).map (c.elideIn (before ++ results)) ++ results.drop n := by
      refine (List.append_inj_right' hout ?_).symm
      rw [hlen, List.length_append, List.length_map, ← List.length_append, List.take_append_drop]
    rw [hafter] at hsame
    have hfirst := List.forall₂_take_append _ _ _ hsame
    rw [List.length_map, List.length_take, Nat.min_eq_left (Nat.sub_le _ _), List.forall₂_map_right_iff,
      List.forall₂_same] at hfirst
    exact content_elideIn_ne hspill hbad (hfirst m hm).2.2
  · intro hspare
    have hmap : (results.take n).map (c.elideIn (before ++ results)) = results.take n :=
      calc (results.take n).map (c.elideIn (before ++ results)) = (results.take n).map id :=
            List.map_congr_left fun m hm => elideIn_of_spares hspill (hspare m hm)
        _ = results.take n := List.map_id _
    rw [hc, hmap, List.take_append_drop]
    exact .of_suffix ht (List.suffix_append _ _)

end KeepLastN

/-! ### Whichever tier wins -/

/-- The ids kept out of tool compression are those of the latest turn. -/
theorem mem_latestToolResultIds {h results : History} {a : Message} (hl : LastTurn h a results) :
    ∀ m ∈ results, m.toolCallId ∈ Tiered.latestToolResultIds h := by
  intro m hm
  obtain ⟨before, rfl⟩ := hl.split
  obtain ⟨hid, hne⟩ := hl.answers m hm
  rw [callIds, if_pos hl.assistant] at hid
  have hcalls : a.toolCalls.any (·.id != "") = true := by
    obtain ⟨call, hcall, heq⟩ := List.mem_map.mp hid
    exact List.any_eq_true.mpr ⟨call, hcall, by simpa [heq] using hne⟩
  have hnone : ∀ x ∈ results.reverse, ¬(isAssistantMsg x && x.toolCalls.any (·.id != "")) = true := by
    intro x hx
    simp [isAssistantMsg_of_tool (hl.tools x (List.mem_reverse.mp hx))]
  have hfind : (before ++ a :: results).reverse.find?
      (fun m => isAssistantMsg m && m.toolCalls.any (·.id != "")) = some a := by
    rw [List.reverse_append, List.reverse_cons, List.append_assoc, List.find?_append,
      List.find?_eq_none.mpr hnone, Option.none_or, List.singleton_append, List.find?_cons_of_pos]
    rw [hl.assistant, hcalls]
    rfl
  unfold Tiered.latestToolResultIds
  rw [hfind]
  exact List.mem_filter.mpr ⟨hid, by simpa using hne⟩

theorem suffix_compressed {c : Tiered} (hrec : c.spillRecoverable = false) {h results : History} {a : Message}
    (hl : LastTurn h a results) (w : ℕ) : results <:+ c.compressed h w := by
  have hs : results <:+ h := by
    obtain ⟨before, rfl⟩ := hl.split
    exact (List.suffix_cons a results).trans (List.suffix_append _ _)
  refine suffix_compressWith hs hl.tools (fun m hm => ?_) _ _ _
  rw [Tiered.preserved, if_neg (by simp [hrec])]
  exact mem_latestToolResultIds hl m hm

theorem not_tool_of_assistant {m : Message} (hm : isAssistantMsg m = true) : isToolMsg m = false := by
  by_contra hne
  rw [isAssistantMsg_of_tool (by simpa using hne)] at hm
  cases hm

/-- Where the results are left, a rewritten history has the assistant message
of the turn above them. -/
theorem suffix_cons_of_rewrites {before results out : History} {a : Message} (ha : isToolMsg a = false)
    (hr : List.Forall₂ Rewrites (before ++ a :: results) out) (hs : results <:+ out) :
    ∃ a', isToolMsg a' = false ∧ a' :: results <:+ out := by
  have hturn := List.forall₂_drop before.length hr
  rw [List.drop_left] at hturn
  obtain ⟨a', rest, haa, hrest, hdrop⟩ := List.forall₂_cons_left_iff.mp hturn
  have hsuffix : a' :: rest <:+ out := hdrop ▸ List.drop_suffix _ _
  have hsame : rest = results := by
    have hlen : rest.length = results.length := hrest.length_eq.symm
    exact (List.suffix_of_suffix_length_le ((List.suffix_cons a' rest).trans hsuffix) hs hlen.le).eq_of_length hlen
  exact ⟨a', haa.shape.isToolMsg_eq.symm.trans ha, hsame ▸ hsuffix⟩

theorem suffix_summarized {c : Tiered} (hrec : c.spillRecoverable = false) {h results : History} {a : Message}
    (hl : LastTurn h a results) {keepRecent : ℕ} (hk : results.length + 1 ≤ keepRecent) (est : String → ℕ)
    (outcome : SummaryOutcome) : results <:+ c.summarized est h keepRecent outcome := by
  have hs := suffix_compressed hrec hl toolResultCompactMaxChars
  have hr := c.compressed_rewrites h toolResultCompactMaxChars
  obtain ⟨before, rfl⟩ := hl.split
  obtain ⟨a', ha', hs'⟩ := suffix_cons_of_rewrites (not_tool_of_assistant hl.assistant) hr hs
  exact suffix_withSpillManifest (suffix_llmSummary hs' ha' hl.tools hk c est outcome) hl.tools c _

/-- **Unseen results survive a pass that cannot give them back.** A compactor
without a recoverable store (`hspill`: a store without a visible root declines
every body) returns the results of the latest turn unchanged, for any relief
target, any summary and any window of recent messages that holds the turn,
exactly when Tier 1 spares those outside its own window. -/
theorem unseen_results_survive_iff (c : Tiered) (est : String → ℕ) (hrec : c.spillRecoverable = false)
    (hspill : ∀ f, c.tier1.spill = some f → ∀ name body, f name body = none) (hkeep : 0 ≤ c.tier1.keep)
    {h results : History} {a : Message} (hl : LastTurn h a results) :
    (∀ st reliefMet outcome keepRecent, results.length + 1 ≤ keepRecent →
      Survives results (c.compact est st reliefMet outcome h keepRecent).1) ↔
    ∀ m ∈ results.take (results.length - c.tier1.keep.toNat), c.tier1.Spares h m := by
  have htier1 : Survives results (c.tier1.compact h) ↔
      ∀ m ∈ results.take (results.length - c.tier1.keep.toNat), c.tier1.Spares h m := by
    obtain ⟨before, rfl⟩ := hl.split
    have hiff := KeepLastN.survives_compact_iff hkeep hspill (before ++ [a]) hl.tools
    rwa [List.append_assoc] at hiff
  constructor
  · intro hall
    have hpass := hall ⟨0, none⟩ (fun _ => true) ⟨"", 0, "", ""⟩ (results.length + 1) le_rfl
    exact htier1.mp hpass
  · intro hspare st reliefMet outcome keepRecent hk
    rcases c.compact_cases est st reliefMet outcome h keepRecent with ⟨hout, -⟩ | ⟨w, -, hout, -⟩ | ⟨hout, -⟩
    · rw [hout]
      exact htier1.mpr hspare
    · rw [hout]
      exact .of_suffix hl.tools (suffix_withSpillManifest (suffix_compressed hrec hl w) hl.tools c _)
    · rw [hout]
      exact .of_suffix hl.tools (suffix_summarized hrec hl hk est outcome)

/-! ### Fresh bodies

A body that begins with another letter than the placeholders is none of them,
and without a URL its card is the line of its call. -/

theorem startsWith_of_head {s p : String} {c : Char} {rest : List Char} (hp : p.toList = c :: rest)
    (h : s.toList.head? ≠ some c) : startsWith s p = false := by
  unfold startsWith
  rw [hp]
  cases hs : s.toList with
  | nil => rfl
  | cons d ds =>
    rw [hs, List.head?_cons] at h
    have hne : (c == d) = false := by
      rw [beq_eq_false_iff_ne]
      rintro rfl
      exact h rfl
    rw [List.isPrefixOf, hne, Bool.false_and]

theorem omitted_toList : ∃ rest, omittedToolResultPlaceholder.toList = 'T' :: rest := by
  unfold omittedToolResultPlaceholder
  rw [String.toList_append, String.toList_ofList]
  exact ⟨_, rfl⟩

theorem omitted_length : omittedToolResultPlaceholder.length = 141 := by
  have h₁ : "Tool result dropped to save tokens. You already read it; re-running the ".length = 72 :=
    String.length_ofList
  have h₂ : "same call will not restore it. Rely on your notes and later messages.".length = 69 :=
    String.length_ofList
  unfold omittedToolResultPlaceholder
  rw [String.length_append, h₁, h₂]

theorem not_omitted {s : String} (h : s.toList.head? ≠ some 'T') :
    startsWith s omittedToolResultPlaceholder = false ∧
      legacyOmittedToolResultPlaceholders.any (startsWith s) = false := by
  obtain ⟨rest, hrest⟩ := omitted_toList
  have hlegacy : startsWith s "Tool result is omitted to save tokens." = false :=
    startsWith_of_head String.toList_ofList h
  refine ⟨startsWith_of_head hrest h, ?_⟩
  rw [legacyOmittedToolResultPlaceholders, List.any_cons, hlegacy]
  rfl

theorem elidedToolCard_plain {toolName argsPreview content : String} {maxUrls : ℕ} (hurl : urls content = [])
    (hname : toolName ≠ "") :
    elidedToolCard toolName argsPreview "" content maxUrls = "[Called: " ++ toolName ++ "]" := by
  have hnone : firstUrl content = none := by rw [firstUrl, hurl, List.head?_nil]
  unfold elidedToolCard
  rw [hnone, if_pos ⟨rfl, rfl⟩, if_pos hname]

/-- The card of a body without a URL, of a call without one. -/
theorem KeepLastN.bareCard_plain {c : KeepLastN} {h : History} {m : Message} (name : String)
    (hname : dictGet (toolNamesByCallId h) m.toolCallId = some name) (hne : name ≠ "")
    (hargs : dictGet (toolArgUrlsByCallId h) m.toolCallId = none) (hurl : urls (textOf m.content) = []) :
    c.bareCard h m = omittedToolResultPlaceholder ++ ("\n" ++ ("[Called: " ++ name ++ "]")) := by
  have hcard : "[Called: " ++ name ++ "]" ≠ "" := by
    intro heq
    have hlen := congrArg String.length heq
    rw [String.length_append, String.length_append] at hlen
    have hpos : 0 < "[Called: ".length := by decide
    have hzero : "".length = 0 := rfl
    omega
  unfold bareCard
  dsimp only
  rw [hname, hargs, Option.getD_some, Option.getD_none, elidedToolCard_plain hurl hne, if_pos hcard]

/-- Two searches of one turn, the first with a long result. -/
def searchedTwice : History :=
  [systemMsg "s", userMsg "task",
    assistantMsg (.text "") [⟨"c1", "search", "{}"⟩, ⟨"c2", "search", "{}"⟩] "",
    toolMsg (join "" (List.replicate 17 "0123456789")) "c1", toolMsg "found" "c2"]

/-- A compactor that keeps the last `n` results and has no spill store. -/
def keepWithoutSpill (n : ℕ) : Tiered where
  tier1 := ⟨n, [], none, defaultRecoveryFooter, 1, by omega⟩
  hasSummaryLlm := true
  spillRecoverable := false
  manifestMaxPaths := none
  manifestMaxChars := none
  maxPaths_pos := paths_unlimited
  maxChars_ge := chars_unlimited
  recoverable_spill := by simp

theorem searchedTwice_lastTurn :
    LastTurn searchedTwice (assistantMsg (.text "") [⟨"c1", "search", "{}"⟩, ⟨"c2", "search", "{}"⟩] "")
      (searchedTwice.drop 3) :=
  ⟨⟨searchedTwice.take 2, rfl⟩, rfl, by decide +kernel, by decide +kernel⟩

/-- With a window of two both results survive every pass. -/
theorem unseen_results_survive_searchedTwice :
    (keepWithoutSpill 2).tier1.keep = 2 ∧
    ∀ st reliefMet outcome, Survives (searchedTwice.drop 3)
      ((keepWithoutSpill 2).compact (fun s => s.length / 4) st reliefMet outcome searchedTwice 3).1 := by
  refine ⟨rfl, ?_⟩
  intro st reliefMet outcome
  have hiff := unseen_results_survive_iff (keepWithoutSpill 2) (fun s => s.length / 4) rfl (by rintro f ⟨⟩)
    (by decide) searchedTwice_lastTurn
  exact hiff.mpr (by rintro m ⟨⟩) st reliefMet outcome 3 (by decide)

theorem nil_intercalate {α : Type} (l : List (List α)) : List.intercalate [] l = l.flatten := by
  induction l with
  | nil => rfl
  | cons x xs ih => cases xs <;> simp_all [List.intercalate]

theorem longBody_toList : (join "" (List.replicate 17 "0123456789")).toList =
    (List.replicate 17 ['0', '1', '2', '3', '4', '5', '6', '7', '8', '9']).flatten := by
  have hdigits : "0123456789".toList = ['0', '1', '2', '3', '4', '5', '6', '7', '8', '9'] := String.toList_ofList
  have hempty : "".toList = [] := String.toList_ofList
  unfold join
  rw [String.toList_intercalate, hempty, List.map_replicate, hdigits, nil_intercalate]

def longResult : Message := toolMsg (join "" (List.replicate 17 "0123456789")) "c1"

/-- Its card is shorter than it is. -/
theorem longResult_not_spared : ¬ (keepWithoutSpill 1).tier1.Spares searchedTwice longResult := by
  have hchars : (textOf longResult.content).toList = _ := longBody_toList
  obtain ⟨hplace, hlegacy⟩ := not_omitted (s := textOf longResult.content) (by rw [hchars]; decide)
  have hurl : urls (textOf longResult.content) = [] := by
    rw [urls, hchars]
    decide
  have hbare := KeepLastN.bareCard_plain (c := (keepWithoutSpill 1).tier1) (h := searchedTwice) (m := longResult)
    "search" (by decide +kernel) (by decide) (by decide +kernel) hurl
  have hlong : (textOf longResult.content).length = 170 := by
    rw [← String.length_toList, hchars]
    rfl
  have hshort : ((keepWithoutSpill 1).tier1.bareCard searchedTwice longResult).length = 158 := by
    rw [hbare, String.length_append, omitted_length]
    decide
  rintro (hs | hs | hs | ⟨_, hs | hs⟩)
  · exact absurd hs (by decide +kernel)
  · rw [hplace] at hs
    cases hs
  · rw [hlegacy] at hs
    cases hs
  · cases hs
  · omega

/-- With a window of one Tier 1 elides the first, which nobody has read, and
its body is nowhere. -/
theorem unseen_result_elided :
    LastTurn searchedTwice (assistantMsg (.text "") [⟨"c1", "search", "{}"⟩, ⟨"c2", "search", "{}"⟩] "")
      (searchedTwice.drop 3) ∧
    toolMsg (join "" (List.replicate 17 "0123456789")) "c1" ∈ searchedTwice.drop 3 ∧
    ∀ m ∈ ((keepWithoutSpill 1).compact (fun s => s.length / 4) ⟨0, none⟩ (fun _ => true)
        ⟨"", 0, "", ""⟩ searchedTwice 3).1,
      m.toolCallId = "c1" → m.content ≠ .text (join "" (List.replicate 17 "0123456789")) := by
  refine ⟨searchedTwice_lastTurn, List.mem_cons_self, ?_⟩
  intro m hm hid
  have hout : ((keepWithoutSpill 1).compact (fun s => s.length / 4) ⟨0, none⟩ (fun _ => true)
      ⟨"", 0, "", ""⟩ searchedTwice 3).1 =
        [systemMsg "s", userMsg "task",
          assistantMsg (.text "") [⟨"c1", "search", "{}"⟩, ⟨"c2", "search", "{}"⟩] "",
          (keepWithoutSpill 1).tier1.elideIn searchedTwice longResult, toolMsg "found" "c2"] := rfl
  rw [hout] at hm
  simp only [List.mem_cons, List.not_mem_nil, or_false] at hm
  rcases hm with rfl | rfl | rfl | hm | rfl
  · exact absurd hid (by decide)
  · exact absurd hid (by decide)
  · exact absurd hid (by decide)
  · rw [hm]
    exact KeepLastN.content_elideIn_ne (by rintro f ⟨⟩) longResult_not_spared
  · exact absurd hid (by decide)

end Compaction
end AgentCore
