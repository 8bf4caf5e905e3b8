/-
# Recovery handles

A body that compaction takes out of a history can be read again through a
handle: the path a spill callback returned for it, or one the message already
had. Handles are carried by tool messages (`spill_refs`, `result_store_ref`) and
by the recovery index. With no bound on the index, what a pass over a history
does to the tool bodies and to their handles is told message by message: the
tool messages of the result are those of the history, from some point on, each
left, condensed or turned into a card.

Key definitions: `Tiered.Recoverable`, `Tiered.Backed`, `Tiered.Stranded`.
Key theorems: `shortened_body_recoverable`, `backing_handles_conserved`.
-/
import AgentCore.Compaction.Unseen
import AgentCore.Lib.Runs

namespace AgentCore
namespace Compaction

open Text

/-- The tool messages of a history. -/
def tools (h : History) : History := h.filter isToolMsg

theorem tools_append (h h' : History) : tools (h ++ h') = tools h ++ tools h' := List.filter_append ..

theorem tools_cons_of_user {m : Message} (hm : isUserMsg m = true) (h : History) : tools (m :: h) = tools h :=
  List.filter_cons_of_neg (by simp [isToolMsg_of_user hm])

theorem tools_eq_nil {h : History} (hh : ∀ m ∈ h, isToolMsg m = false) : tools h = [] :=
  List.filter_eq_nil_iff.mpr fun m hm => by simp [hh m hm]

/-- A relation of two histories, message by message, on their tool messages. -/
theorem forall₂_tools {R : Message → Message → Prop} (hR : ∀ m m', R m m' → isToolMsg m' = isToolMsg m)
    {h h' : History} (hr : List.Forall₂ R h h') : List.Forall₂ R (tools h) (tools h') := by
  unfold tools
  induction hr with
  | nil => exact .nil
  | @cons m m' ms ms' hm _ ih =>
    by_cases ht : isToolMsg m = true
    · rw [List.filter_cons_of_pos ht, List.filter_cons_of_pos (by rwa [hR m m' hm])]
      exact .cons hm ih
    · rwa [List.filter_cons_of_neg ht, List.filter_cons_of_neg (by rwa [hR m m' hm])]

/-- Dropping reasoning leaves the tool messages. -/
theorem tools_stripStaleReasoning (h : History) (keepLast : ℤ) : tools (stripStaleReasoning h keepLast) = tools h := by
  unfold stripStaleReasoning
  split
  · rfl
  · generalize h.countP carriesReasoning - keepLast.toNat = k
    induction h generalizing k with
    | nil => rw [rewriteFirst_nil]
    | cons m ms ih =>
      cases k with
      | zero => rfl
      | succ k =>
        rw [rewriteFirst]
        split
        · next hm =>
          have ht : isToolMsg m = false := by
            simp only [carriesReasoning, isAssistantMsg, Bool.and_eq_true, beq_iff_eq] at hm
            simp [isToolMsg, hm.1]
          unfold tools at ih ⊢
          rw [List.filter_cons_of_neg (by simpa [isToolMsg] using ht), List.filter_cons_of_neg (by simp [ht]), ih]
        · by_cases ht : isToolMsg m = true
          · unfold tools at ih ⊢
            rw [List.filter_cons_of_pos ht, List.filter_cons_of_pos ht, ih]
          · unfold tools at ih ⊢
            rw [List.filter_cons_of_neg ht, List.filter_cons_of_neg ht, ih]

/-! ### Tier 1 -/

/-- The name a tool result is spilled under. -/
def spillName (h : History) (m : Message) : String := (dictGet (toolNamesByCallId h) m.toolCallId).getD "tool"

/-- A card in the place of a tool message: it carries the handle that backs the
body, else the one the spill callback returns for it. -/
structure KeepLastN.Card (c : KeepLastN) (h : History) (m m' : Message) (path : String) : Prop where
  refs : m'.spillRefs = if path ≠ "" then some [path] else none
  backed : messageRecoveryRef m ≠ "" → path = messageRecoveryRef m
  spilled : messageRecoveryRef m = "" → path = (c.spill.bind (· (spillName h m) (textOf m.content))).getD ""
  recoverable : c.spill.isSome = true → path ≠ ""

theorem KeepLastN.elideIn_cases (c : KeepLastN) (h : History) (m : Message) :
    c.elideIn h m = m ∨ ∃ path, c.Card h m (c.elideIn h m) path := by
  unfold elideIn elideOne
  dsimp only
  generalize hpath : (if messageRecoveryRef m ≠ "" then messageRecoveryRef m
    else (c.spill.bind (· ((dictGet (toolNamesByCallId h) m.toolCallId).getD "tool") (textOf m.content))).getD "") = path
  generalize omittedToolResultPlaceholder ++ _ ++ _ = placeholder
  split
  · exact .inl rfl
  · split
    · exact .inl rfl
    · split
      · exact .inl rfl
      · next hspill =>
        split
        · exact .inl rfl
        · refine .inr ⟨path, rfl, fun hm => ?_, fun hm => ?_, fun hsome hnil => hspill ⟨hsome, hnil⟩⟩
          · rw [← hpath, if_pos hm]
          · rw [← hpath, if_neg (not_not.mpr hm)]
            rfl

/-- The card of a fresh body with a handle. -/
theorem KeepLastN.elideIn_backed {c : KeepLastN} {h : History} {m : Message} (path : String)
    (hname : namesOne (toolNamesByCallId h) c.protectToolNames m.toolCallId = false)
    (hhead : (textOf m.content).toList.head? ≠ some 'T')
    (hpath : (if messageRecoveryRef m ≠ "" then messageRecoveryRef m
      else (c.spill.bind (· (spillName h m) (textOf m.content))).getD "") = path) (hne : path ≠ "") :
    c.elideIn h m = { toolMsg (c.bareCard h m ++ ("\n" ++ c.recoveryFooter path)) m.toolCallId with
      spillRefs := some [path] } := by
  obtain ⟨hplace, hlegacy⟩ := not_omitted hhead
  have hnot : ∀ P : Prop, ¬ (P ∧ path = "") := fun P h => hne h.2
  unfold elideIn elideOne
  unfold spillName at hpath
  dsimp only
  rw [hpath, hname, hplace, hlegacy, if_neg Bool.false_ne_true, if_neg (by decide), if_neg (hnot _),
    if_neg fun h => hne h.1, if_pos hne, if_pos hne]
  rfl

/-- Tier 1 leaves a tool message or turns it into a card. -/
theorem KeepLastN.compact_tools (c : KeepLastN) (h : History) :
    List.Forall₂ (fun m m' => m' = m ∨ ∃ path, c.Card h m m' path) (tools h) (tools (c.compact h)) := by
  unfold compact
  split
  · exact List.forall₂_same.mpr fun m _ => .inl rfl
  · dsimp only
    rw [toolNamesByCallId_strip, toolArgsByCallId_strip, toolArgUrlsByCallId_strip,
      ← tools_stripStaleReasoning h (max c.keep 1)]
    have hr := rewriteFirst_forall₂ (R := fun m m' => isToolMsg m' = isToolMsg m ∧
        (m' = m ∨ ∃ path, c.Card h m m' path)) (q := isToolMsg) (f := c.elideIn h) (fun m => ⟨rfl, .inl rfl⟩)
      (fun m hm => ⟨(c.elideOne_rewrites _ _ _ hm).shape.isToolMsg_eq.symm, c.elideIn_cases h m⟩)
    exact (forall₂_tools (fun m m' hmm => hmm.1) (hr _ _)).imp fun m m' hmm => hmm.2

/-! ### Tool compression and the summary -/

/-- A tool message whose content alone has changed. -/
def Condensed (m m' : Message) : Prop := ∃ content, m' = { m with content := content }

theorem compressOne_condensed (d : List (String × String)) (n : ℕ) (names : List String) (o : Option ℕ)
    (ids : List String) (m : Message) : Condensed m (compressOne d n names o ids m) := by
  unfold compressOne
  dsimp only
  split
  · exact ⟨_, rfl⟩
  · split
    · exact ⟨_, rfl⟩
    · generalize (if namesOne d names m.toolCallId = true then o.getD n else n) = budget
      split
      · exact ⟨_, rfl⟩
      · exact ⟨_, rfl⟩

theorem tools_compressed (c : Tiered) (h : History) (w : ℕ) :
    List.Forall₂ Condensed (tools h) (tools (c.compressed h w)) := by
  unfold Tiered.compressed compressWith
  rw [tools_stripStaleReasoning]
  have hr : List.Forall₂ (fun m m' => isToolMsg m' = isToolMsg m ∧ Condensed m m') h
      (h.map (compressOne (if c.tier1.protectToolNames = [] then [] else toolNamesByCallId h) w
        c.tier1.protectToolNames none (c.preserved h))) := by
    rw [List.forall₂_map_right_iff]
    refine List.forall₂_same.mpr fun m _ => ⟨?_, compressOne_condensed _ _ _ _ _ m⟩
    exact (compressOne_rewrites _ _ _ _ _ m).shape.isToolMsg_eq.symm
  exact (forall₂_tools (fun m m' hmm => hmm.1) hr).imp fun m m' hmm => hmm.2

theorem isUserMsg_squash (middle : History) : isUserMsg (squash middle) = true := rfl

/-- The part of a history that a summary keeps. -/
def recentPart (h : History) (keepRecent : ℕ) : History := (partitionForCompaction h keepRecent).2.2

theorem tools_partition (h : History) (keepRecent : ℕ) :
    tools (partitionForCompaction h keepRecent).1 = [] ∧
      tools h = tools (partitionForCompaction h keepRecent).2.1 ++ tools (recentPart h keepRecent) := by
  obtain ⟨pinned, middle, recent, heq, happ, hpin, -⟩ := partition_cases h keepRecent
  have hlead : tools (leading h ++ pinned) = [] := by
    refine tools_eq_nil fun m hm => ?_
    rcases List.mem_append.mp hm with hm | hm
    · have hs := mem_leading hm
      simp only [isSystemMsg, beq_iff_eq] at hs
      simp [isToolMsg, hs]
    · exact isToolMsg_of_user (hpin m hm)
  unfold recentPart
  rw [heq]
  refine ⟨hlead, ?_⟩
  dsimp only
  conv_lhs => rw [← leading_append_dropWhile h, ← happ, ← List.append_assoc]
  rw [tools_append, hlead, List.nil_append, tools_append]

theorem tools_compactMessages (h : History) (keepRecent : ℕ) :
    tools (compactMessages h keepRecent) = tools (recentPart h keepRecent) := by
  obtain ⟨hlead, hall⟩ := tools_partition h keepRecent
  unfold compactMessages
  unfold recentPart at hall ⊢
  generalize partitionForCompaction h keepRecent = p at hlead hall ⊢
  obtain ⟨lead, middle, recent⟩ := p
  dsimp only at hlead hall ⊢
  split
  · next hm =>
    rw [hall, hm]
    rfl
  · rw [tools_append, hlead, tools_cons_of_user (isUserMsg_squash middle)]
    rfl

theorem tools_insertBelowSystem {m : Message} (hm : isUserMsg m = true) (h : History) :
    tools (insertBelowSystem m h) = tools h := by
  unfold insertBelowSystem
  rw [tools_append, tools_cons_of_user hm, ← tools_append, List.takeWhile_append_dropWhile]

/-- A summary keeps the tool messages of the recent part. -/
theorem tools_summary (c : Tiered) (est : String → ℕ) (h : History) (keepRecent : ℕ) (outcome : SummaryOutcome) :
    tools (c.tier2.compact est h keepRecent false outcome).1 = tools (recentPart h keepRecent) := by
  have hcompact := tools_compactMessages h keepRecent
  obtain ⟨hlead, hall⟩ := tools_partition h keepRecent
  unfold LlmSummary.compact LlmSummary.stringSlice LlmSummary.rollback Tiered.tier2
  unfold recentPart at hall hcompact ⊢
  obtain ⟨lead, middle, recent, hp⟩ : ∃ lead middle recent,
      partitionForCompaction h keepRecent = (lead, middle, recent) := ⟨_, _, _, rfl⟩
  rw [hp] at hlead hall hcompact
  simp only [Bool.false_eq_true, if_false, hp]
  split
  · split
    · exact hcompact
    · split
      · next task htask =>
        have ho := List.find?_some htask
        rw [isOriginalTask, Bool.and_eq_true] at ho
        rw [tools_insertBelowSystem ho.1, hcompact]
      · exact hcompact
  · split
    · next hm =>
      rw [hall, hm]
      rfl
    · split
      · exact hcompact
      · rw [tools_append, hlead, tools_cons_of_user rfl]
        rfl

/-! ### Reference lists and the index -/

theorem mem_foldl_addRef {p : String} : ∀ (paths refs : List String),
    p ∈ paths.foldl Tiered.addRef refs ↔ p ∈ refs ∨ (p ≠ "" ∧ p ∈ paths)
  | [], refs => by simp
  | path :: paths, refs => by
    rw [List.foldl_cons, mem_foldl_addRef paths]
    have hadd : p ∈ Tiered.addRef refs path ↔ p ∈ refs ∨ (p ≠ "" ∧ p = path) := by
      unfold Tiered.addRef
      split
      · next h =>
        rw [List.mem_append, List.mem_singleton]
        refine or_congr_right ⟨fun hp => ⟨hp ▸ h.1, hp⟩, fun hp => hp.2⟩
      · next h =>
        refine ⟨.inl, fun hp => hp.elim id fun ⟨hne, heq⟩ => ?_⟩
        subst heq
        by_contra hmem
        exact h ⟨hne, hmem⟩
    rw [hadd, List.mem_cons, or_assoc, ← and_or_left]

theorem mem_spillRefs {p : String} {h : History} :
    p ∈ Tiered.spillRefs h ↔ p ≠ "" ∧ ∃ m ∈ h, p ∈ Tiered.carriedRefs m := by
  unfold Tiered.spillRefs
  rw [mem_foldl_addRef, List.mem_flatMap]
  simp

theorem mem_fromKeys {p : String} (paths : List String) : p ∈ fromKeys paths ↔ p ∈ paths := by
  have haux : ∀ (paths seen : List String),
      p ∈ paths.foldl (fun seen x => if x ∈ seen then seen else seen ++ [x]) seen ↔ p ∈ seen ∨ p ∈ paths := by
    intro paths
    induction paths with
    | nil => simp
    | cons x xs ih =>
      intro seen
      rw [List.foldl_cons, ih, List.mem_cons]
      split
      · next hx =>
        refine ⟨fun h => h.imp_right .inr, ?_⟩
        rintro (h | rfl | h)
        · exact .inl h
        · exact .inl hx
        · exact .inr h
      · rw [List.mem_append, List.mem_singleton, or_assoc]
  rw [fromKeys, haux]
  simp

theorem isUserMsg_indexMsg (selected : List String) : isUserMsg (Tiered.indexMsg selected) = true := rfl

theorem tools_replaceIndex {index : Option Message} (hi : ∀ m ∈ index, isUserMsg m = true) :
    ∀ ms : History, tools (Tiered.replaceIndex index ms) = tools ms
  | [] => rfl
  | m :: ms => by
    rw [Tiered.replaceIndex]
    split
    · next hm =>
      have hrest : tools (ms.filter fun x => !Tiered.isIndex x) = tools ms := by
        unfold tools
        rw [List.filter_filter]
        refine List.filter_congr fun x _ => ?_
        cases ht : isToolMsg x with
        | false => rfl
        | true => simp [isIndex_of_tool ht]
      have hindex : tools index.toList = [] :=
        tools_eq_nil fun x hx => isToolMsg_of_user (hi x (Option.mem_toList.mp hx))
      rw [tools_append, hindex, hrest, tools_cons_of_user (Tiered.isUserMsg_of_isIndex hm)]
      rfl
    · by_cases ht : isToolMsg m = true
      · have ih := tools_replaceIndex hi ms
        unfold tools at ih ⊢
        rw [List.filter_cons_of_pos ht, List.filter_cons_of_pos ht, ih]
      · have ih := tools_replaceIndex hi ms
        unfold tools at ih ⊢
        rw [List.filter_cons_of_neg ht, List.filter_cons_of_neg ht, ih]

/-- The index leaves the tool messages. -/
theorem tools_withSpillManifest (c : Tiered) (ms : History) (refs : List String) :
    tools (c.withSpillManifest ms refs) = tools ms := by
  unfold Tiered.withSpillManifest
  split
  · rfl
  · dsimp only
    split
    · refine tools_replaceIndex (fun m hm => ?_) ms
      split at hm
      · cases hm
      · cases hm
        exact isUserMsg_indexMsg _
    · split
      · rfl
      · next index hindex =>
        have hu : isUserMsg index = true := by
          split at hindex
          · cases hindex
          · cases hindex
            exact isUserMsg_indexMsg _
        rw [tools_append, tools_cons_of_user hu, ← tools_append, List.take_append_drop]

section Unbounded

variable {c : Tiered} (hpaths : c.manifestMaxPaths = none) (hchars : c.manifestMaxChars = none)

include hpaths hchars

theorem manifestRefs_unbounded (refs : List String) : c.manifestRefs refs = refs := by
  have hselect : ∀ (refs : List String) (n used : ℕ), Tiered.selectRefs none none n used refs = refs := by
    intro refs
    induction refs with
    | nil => exact fun _ _ => rfl
    | cons path rest ih =>
      intro n used
      rw [Tiered.selectRefs, if_neg (by simp), if_neg (by simp), ih]
  rw [Tiered.manifestRefs, hpaths, hchars, hselect, List.reverse_reverse]

/-- Without bounds the index carries every handle it is given. -/
theorem indexMsg_mem_withSpillManifest (ms : History) {refs : List String} (hrefs : refs ≠ []) :
    Tiered.indexMsg refs ∈ c.withSpillManifest ms refs := by
  have hreplace : ∀ ms : History, ms.any Tiered.isIndex = true →
      Tiered.indexMsg refs ∈ Tiered.replaceIndex (some (Tiered.indexMsg refs)) ms := by
    intro ms
    induction ms with
    | nil => exact fun h => by cases h
    | cons m ms ih =>
      intro hany
      rw [Tiered.replaceIndex]
      split
      · exact List.mem_append_left _ List.mem_cons_self
      · next hm =>
        rw [List.any_cons, Bool.or_eq_true] at hany
        exact List.mem_cons_of_mem _ (ih (hany.resolve_left hm))
  unfold Tiered.withSpillManifest
  rw [if_neg hrefs, manifestRefs_unbounded hpaths hchars]
  dsimp only
  rw [if_neg hrefs]
  split
  · next hany => exact hreplace ms hany
  · exact List.mem_append_right _ List.mem_cons_self

theorem handle_indexed (ms : History) {refs : List String} {p : String} (hp : p ∈ refs) :
    ∃ x ∈ c.withSpillManifest ms refs, Tiered.isIndex x = true ∧ p ∈ x.spillRefs.getD [] := by
  have hrefs : refs ≠ [] := List.ne_nil_of_mem hp
  exact ⟨_, indexMsg_mem_withSpillManifest hpaths hchars ms hrefs, rfl, hp⟩

end Unbounded

/-! ### Bodies that a pass shortens -/

theorem forall₂_imp_mem {R S : Message → Message → Prop} {l l' : History} (hr : List.Forall₂ R l l')
    (hRS : ∀ m ∈ l, ∀ m' ∈ l', R m m' → S m m') : List.Forall₂ S l l' := by
  obtain ⟨hlen, hzip⟩ := List.forall₂_iff_zip.mp hr
  refine List.forall₂_iff_zip.mpr ⟨hlen, fun hmem => ?_⟩
  exact hRS _ (List.of_mem_zip hmem).1 _ (List.of_mem_zip hmem).2 (hzip hmem)

theorem mem_tools {m : Message} {h : History} : m ∈ tools h ↔ m ∈ h ∧ isToolMsg m = true := List.mem_filter

namespace Tiered

variable (c : Tiered)

/-- The spill callback takes the body of the message. -/
def Accepts (h : History) (m : Message) : Prop := c.spillBody (spillName h m) (textOf m.content) ≠ ""

/-- The history carries a handle for the body: one its message had, or the one
the spill callback returns for it. -/
def Recoverable (h : History) (m : Message) (out : History) : Prop :=
  ∃ ref, ref ≠ "" ∧ (ref = messageRecoveryRef m ∨ ref = c.spillBody (spillName h m) (textOf m.content)) ∧
    ∃ x ∈ out, ref ∈ x.spillRefs.getD []

variable {c}

/-- The tool messages of two histories related in place, with their places. -/
theorem tools_in_place {h h' : History} (hr : List.Forall₂ Rewrites h h') :
    List.Forall₂ (fun m m' => (m, m') ∈ h.zip h') (tools h) (tools h') := by
  obtain ⟨hlen, hzip⟩ := List.forall₂_iff_zip.mp hr
  have hplaces : List.Forall₂ (fun m m' => (m, m') ∈ h.zip h' ∧ isToolMsg m' = isToolMsg m) h h' :=
    List.forall₂_iff_zip.mpr ⟨hlen, fun hmem => ⟨hmem, (hzip hmem).shape.isToolMsg_eq.symm⟩⟩
  exact (forall₂_tools (fun m m' hmm => hmm.2) hplaces).imp fun m m' hmm => hmm.1

/-- The handle of a body that was changed, if the callback takes it, is among
those for the index. -/
theorem mem_spillChanged (hspill : c.tier1.spill.isSome = true) {h h' : History} {m m' : Message}
    (hmem : (m, m') ∈ h.zip h') (hm : isToolMsg m = true) (hm' : isToolMsg m' = true)
    (hne : textOf m'.content ≠ textOf m.content) (ha : c.Accepts h m) :
    c.spillBody (spillName h m) (textOf m.content) ∈ c.spillChangedToolResults h h' := by
  unfold spillChangedToolResults
  rw [if_neg (by simpa using Option.isSome_iff_ne_none.mp hspill)]
  dsimp only
  rw [← List.foldl_map, mem_foldl_addRef]
  refine .inr ⟨ha, List.mem_map.mpr ⟨(m, m'), List.mem_filter.mpr ⟨hmem, ?_⟩, rfl⟩⟩
  simpa [hm, hm'] using Ne.symm hne

theorem recoverable_tier1 (hspill : c.tier1.spill.isSome = true) (h : History) :
    List.Forall₂ (fun m m' => textOf m'.content ≠ textOf m.content → c.Recoverable h m (c.tier1.compact h)) (tools h)
      (tools (c.tier1.compact h)) := by
  refine forall₂_imp_mem (c.tier1.compact_tools h) fun m _ m' hm' hcase hne => ?_
  rcases hcase with rfl | ⟨path, hcard⟩
  · exact absurd rfl hne
  · have hpath := hcard.recoverable hspill
    refine ⟨path, hpath, ?_, m', (mem_tools.mp hm').1, ?_⟩
    · by_cases href : messageRecoveryRef m = ""
      · exact .inr (hcard.spilled href)
      · exact .inl (hcard.backed href)
    · rw [hcard.refs, if_pos hpath]
      exact List.mem_singleton_self path

/-- A candidate whose changed bodies are indexed. -/
theorem recoverable_indexed (hspill : c.tier1.spill.isSome = true) {h h' : History}
    (hr : List.Forall₂ Rewrites h h') (out : History)
    (hout : ∀ p ∈ c.spillChangedToolResults h h', ∃ x ∈ out, p ∈ x.spillRefs.getD []) :
    List.Forall₂ (fun m m' => textOf m'.content ≠ textOf m.content → c.Accepts h m → c.Recoverable h m out) (tools h)
      (tools h') := by
  refine forall₂_imp_mem (tools_in_place hr) fun m hm m' hm' hmem hne ha => ?_
  exact ⟨_, ha, .inr rfl, hout _ (mem_spillChanged hspill hmem (mem_tools.mp hm).2 (mem_tools.mp hm').2 hne ha)⟩

end Tiered

open Tiered in
/-- **A shortened body can be read again.** With a spill callback that counts as
recoverable and no bound on the index, the tool messages of the history a pass
returns are those of its input from some point on, and each whose text has
changed is backed by a handle that some message of the returned history
carries: one the message already had, or the one the spill callback returned.
Where Tier 1's history won that holds of every body; where a condensed history
or a summary won, of every body that the callback takes. -/
theorem shortened_body_recoverable (c : Tiered) (est : String → ℕ) (hrec : c.spillRecoverable = true)
    (hpaths : c.manifestMaxPaths = none) (hchars : c.manifestMaxChars = none) (st : TieredState)
    (reliefMet : ℕ → Bool) (outcome : SummaryOutcome) (h : History) (keepRecent : ℕ) :
    let r := c.compact est st reliefMet outcome h keepRecent
    let selected := r.2.lastEvent.map (·.selected)
    ∃ kept, kept <:+ tools h ∧
      List.Forall₂ (fun m m' => textOf m'.content ≠ textOf m.content →
        (selected = some "tier1" ∨ selected = some "tier1_cached" ∨ c.Accepts h m) → c.Recoverable h m r.1)
        kept (tools r.1) := by
  intro r selected
  have hspill := c.recoverable_spill hrec
  have hindexed : ∀ (ms : History) (refs : List String) {p : String}, p ∈ refs →
      ∃ x ∈ c.withSpillManifest ms refs, p ∈ x.spillRefs.getD [] := by
    intro ms refs p hp
    obtain ⟨x, hx, -, hmem⟩ := handle_indexed hpaths hchars ms hp
    exact ⟨x, hx, hmem⟩
  rcases c.compact_cases est st reliefMet outcome h keepRecent with ⟨hout, -⟩ | ⟨w, -, hout, hne, hne'⟩ | ⟨hout, hl⟩
  · refine ⟨tools h, List.suffix_rfl, ?_⟩
    rw [show r.1 = _ from hout]
    exact (recoverable_tier1 hspill h).imp fun m m' hmm hchanged _ => hmm hchanged
  · refine ⟨tools h, List.suffix_rfl, ?_⟩
    rw [show r.1 = _ from hout, indexed, tools_withSpillManifest]
    have hrc := recoverable_indexed hspill (c.compressed_rewrites h w) (c.indexed h (c.compressed h w))
      (fun p hp => hindexed _ _ ((mem_fromKeys _).mpr (List.mem_append_right _ hp)))
    refine hrc.imp fun m m' hmm hchanged hcase => hmm hchanged ?_
    exact hcase.elim (absurd · hne) (·.elim (absurd · hne') id)
  · have hrc := recoverable_indexed hspill (c.compressed_rewrites h toolResultCompactMaxChars)
      (c.summarized est h keepRecent outcome)
      (fun p hp => hindexed _ _ ((mem_fromKeys _).mpr (List.mem_append_right _ hp)))
    obtain ⟨-, hall⟩ := tools_partition (c.compressed h toolResultCompactMaxChars) keepRecent
    -- the summary keeps the tool messages of the recent part, which are the last ones
    obtain ⟨n, hn⟩ : ∃ n, (tools (c.compressed h toolResultCompactMaxChars)).drop n =
        tools (recentPart (c.compressed h toolResultCompactMaxChars) keepRecent) := ⟨_, by rw [hall, List.drop_left]⟩
    have hrecent := List.forall₂_drop n hrc
    rw [hn] at hrecent
    refine ⟨(tools h).drop n, List.drop_suffix _ _, ?_⟩
    rw [show r.1 = _ from hout, summarized, tools_withSpillManifest, tools_summary]
    refine hrecent.imp fun m m' hmm hchanged hcase => hmm hchanged ?_
    have hsel : selected = some "tier2" := hl
    rw [hsel] at hcase
    simpa using hcase

/-- A compactor that keeps the last result and stores bodies with `spill`. -/
def keepLastWith (spill : Spill) : Tiered where
  tier1 := ⟨1, [], some spill, defaultRecoveryFooter, 1, by omega⟩
  hasSummaryLlm := true
  spillRecoverable := true
  manifestMaxPaths := none
  manifestMaxChars := none
  maxPaths_pos := paths_unlimited
  maxChars_ge := chars_unlimited
  recoverable_spill := by simp

/-- Two searches of one turn, with `m` as the result of the first. -/
def searchedWith (m : Message) : History :=
  [systemMsg "s", userMsg "task",
    assistantMsg (.text "") [⟨"c1", "search", "{}"⟩, ⟨"c2", "search", "{}"⟩] "", m, toolMsg "found" "c2"]

theorem searchedWith_compact {spill : Spill} {m : Message} (hm : m.role = .tool) :
    ((keepLastWith spill).compact (fun _ => 1) ⟨0, none⟩ (fun _ => true) ⟨"", 0, "", ""⟩ (searchedWith m) 3).1 =
      [systemMsg "s", userMsg "task",
        assistantMsg (.text "") [⟨"c1", "search", "{}"⟩, ⟨"c2", "search", "{}"⟩] "",
        (keepLastWith spill).tier1.elideIn (searchedWith m) m, toolMsg "found" "c2"] := by
  cases m
  subst hm
  rfl

theorem omitted_append_ne {s t : String} (h : s.length < 141) : omittedToolResultPlaceholder ++ t ≠ s := by
  intro heq
  have hlen := congrArg String.length heq
  rw [String.length_append, omitted_length] at hlen
  omega

/-- The first result turns into the card of its call and its handle. -/
theorem searchedWith_card (spill : Spill) {m : Message} (hm : m.role = .tool) (hid : m.toolCallId = "c1")
    (hhead : (textOf m.content).toList.head? ≠ some 'T') (hurl : urls (textOf m.content) = []) (path : String)
    (hpath : (if messageRecoveryRef m ≠ "" then messageRecoveryRef m
      else (spill "search" (textOf m.content)).getD "") = path) (hne : path ≠ "") :
    (keepLastWith spill).tier1.elideIn (searchedWith m) m =
      { toolMsg (omittedToolResultPlaceholder ++ ("\n[Called: search]\n[Full text] " ++ path)) "c1" with
        spillRefs := some [path] } := by
  have hcalls : (searchedWith m).filter isAssistantMsg =
      [assistantMsg (.text "") [⟨"c1", "search", "{}"⟩, ⟨"c2", "search", "{}"⟩] ""] := by
    cases m
    subst hm
    rfl
  have hname : dictGet (toolNamesByCallId (searchedWith m)) m.toolCallId = some "search" := by
    unfold toolNamesByCallId
    rw [hcalls, hid]
    decide +kernel
  have hargs : dictGet (toolArgUrlsByCallId (searchedWith m)) m.toolCallId = none := by
    unfold toolArgUrlsByCallId
    rw [hcalls, hid]
    decide +kernel
  have hspill : spillName (searchedWith m) m = "search" := by rw [spillName, hname, Option.getD_some]
  rw [KeepLastN.elideIn_backed path (by rw [namesOne, hname]; rfl) hhead (by rw [hspill]; exact hpath) hne,
    KeepLastN.bareCard_plain "search" hname (by decide) hargs hurl, hid, String.append_assoc]
  have htext : "\n" ++ ("[Called: " ++ "search" ++ "]") ++ ("\n" ++ defaultRecoveryFooter path) =
      "\n[Called: search]\n[Full text] " ++ path := by
    rw [defaultRecoveryFooter, ← String.append_assoc, ← String.append_assoc]
    rfl
  exact congrArg (fun t => { toolMsg (omittedToolResultPlaceholder ++ t) "c1" with spillRefs := some [path] }) htext

/-- The first body goes to the store, and its card carries the path. -/
theorem shortened_body_recoverable_searchedWith :
    let c := keepLastWith fun name _ => some ("spill/" ++ name)
    let h := searchedWith (toolMsg "first" "c1")
    let r := c.compact (fun _ => 1) ⟨0, none⟩ (fun _ => true) ⟨"", 0, "", ""⟩ h 3
    c.Recoverable h (toolMsg "first" "c1") r.1 := by
  intro c h r
  obtain ⟨kept, hsuf, hall⟩ := shortened_body_recoverable c (fun _ => 1) rfl rfl rfl ⟨0, none⟩
    (fun _ => true) ⟨"", 0, "", ""⟩ h 3
  have hcard := searchedWith_card (fun name _ => some ("spill/" ++ name)) (m := toolMsg "first" "c1") rfl rfl
    (by decide +kernel) (by decide +kernel) "spill/search" (by decide +kernel) (by decide)
  have hout : tools r.1 = [c.tier1.elideIn h (toolMsg "first" "c1"), toolMsg "found" "c2"] := by
    rw [show r.1 = _ from searchedWith_compact rfl, show c.tier1.elideIn h (toolMsg "first" "c1") = _ from hcard]
    rfl
  have htools : tools h = [toolMsg "first" "c1", toolMsg "found" "c2"] := rfl
  have hall' : List.Forall₂ _ kept [c.tier1.elideIn h (toolMsg "first" "c1"), toolMsg "found" "c2"] := hout ▸ hall
  have hkept : kept = tools h := by
    refine hsuf.eq_of_length ?_
    rw [hall'.length_eq, htools, List.length_cons, List.length_cons]
    rfl
  rw [hkept, htools] at hall'
  obtain ⟨hfirst, -⟩ := List.forall₂_cons.mp hall'
  refine hfirst ?_ (.inl rfl)
  rw [show c.tier1.elideIn h (toolMsg "first" "c1") = _ from hcard]
  exact omitted_append_ne (by decide)

/-- A result that has a handle of the result store already. -/
def stored (body : String) : Message := { toolMsg body "c1" with resultStoreRef := "store/1" }

/-- A callback that takes nothing: the body with a handle of its own is still
shortened, under that handle. -/
theorem body_shortened_without_spilling :
    let c := keepLastWith fun _ _ => none
    let body := String.ofList (List.replicate 190 'x')
    let out := (c.compact (fun _ => 1) ⟨0, none⟩ (fun _ => true) ⟨"", 0, "", ""⟩ (searchedWith (stored body)) 3).1
    (∃ m' ∈ tools out, m'.toolCallId = "c1" ∧ (textOf m'.content).length < body.length ∧
      m'.spillRefs = some ["store/1"]) ∧
    ∀ name body, c.spillBody name body = "" := by
  intro c body out
  have hchars : body.toList = List.replicate 190 'x' := String.toList_ofList
  have hcard := searchedWith_card (fun _ _ => none) (m := stored body) rfl rfl
    (by rw [show textOf (stored body).content = body from rfl, hchars]; decide)
    (by rw [urls, show textOf (stored body).content = body from rfl, hchars]; decide) "store/1" rfl (by decide)
  refine ⟨⟨c.tier1.elideIn (searchedWith (stored body)) (stored body), ?_, ?_⟩, fun _ _ => rfl⟩
  · rw [show out = _ from searchedWith_compact rfl, show c.tier1.elideIn _ (stored body) = _ from hcard]
    exact List.mem_cons_self
  · rw [show c.tier1.elideIn _ (stored body) = _ from hcard]
    refine ⟨rfl, ?_, rfl⟩
    rw [show body.length = 190 from String.length_ofList.trans List.length_replicate]
    dsimp only [textOf, toolMsg]
    rw [String.length_append, String.length_append, omitted_length]
    decide

/-! ### Handles over a run of passes -/

namespace Tiered

/-- The history carries the handle: in an index, or as the one that backs the
body of a tool message. -/
def Backed (h : History) (p : String) : Prop :=
  p ≠ "" ∧ ∃ m ∈ h, (isIndex m = true ∧ p ∈ m.spillRefs.getD []) ∨ (isToolMsg m = true ∧ messageRecoveryRef m = p)

/-- A summary of the history would leave the handle behind: Tier 1 lists it in
no `spill_refs`, and it backs no tool message of the part that is kept. -/
def Stranded (c : Tiered) (h : History) (keepRecent : ℕ) (p : String) : Prop :=
  p ∉ spillRefs (c.tier1.compact h) ∧
    ∀ m ∈ tools (recentPart (c.compressed h toolResultCompactMaxChars) keepRecent), messageRecoveryRef m ≠ p

/-- A history grows, or a pass rewrites it. -/
inductive Event
  | append (messages : History)
  | pass (reliefMet : ℕ → Bool) (outcome : SummaryOutcome) (keepRecent : ℕ)

variable (c : Tiered) (est : String → ℕ)

def step (s : History × TieredState) : Event → Option (History × TieredState)
  | .append messages => some (s.1 ++ messages, s.2)
  | .pass reliefMet outcome keepRecent => some (c.compact est s.2 reliefMet outcome s.1 keepRecent)

/-- The event is no summary that leaves the handle behind. -/
def Spares (p : String) (s : History × TieredState) : Event → Prop
  | .append _ => True
  | .pass reliefMet outcome keepRecent =>
    (c.compact est s.2 reliefMet outcome s.1 keepRecent).2.lastEvent.map (·.selected) = some "tier2" →
      ¬c.Stranded s.1 keepRecent p

variable {c est} {h : History} {p : String}

/-- The first of its `spill_refs` backs the body of a message. -/
theorem messageRecoveryRef_of_spillRefs {m : Message} (hp : p ≠ "") (hm : m.spillRefs = some [p]) :
    messageRecoveryRef m = p := by
  have hrefs : (m.spillRefs.getD []).filter (· ≠ "") = [p] := by simp [hm, hp]
  unfold messageRecoveryRef
  dsimp only
  rw [hrefs]
  split <;> rfl

theorem mem_carriedRefs {m : Message} (hp : p ∈ m.spillRefs.getD []) : p ∈ carriedRefs m := by
  unfold carriedRefs
  cases hm : m.spillRefs with
  | none =>
    rw [hm] at hp
    cases hp
  | some refs => rwa [hm] at hp

/-- A message that Tier 1 leaves: a user's, or a tool's it does not turn into a
card. -/
theorem mem_tier1_of_user {m : Message} (hm : m ∈ h) (hu : isUserMsg m = true) : m ∈ c.tier1.compact h := by
  obtain ⟨m', hm', hr⟩ := Groups.exists_of_forall₂_left (c.tier1.compact_rewrites h) hm
  rwa [hr.same (.inl hu)] at hm'

theorem mem_spillRefs_of_index {m : Message} (hp : p ≠ "") (hm : m ∈ h) (hi : isIndex m = true)
    (hmem : p ∈ m.spillRefs.getD []) : p ∈ spillRefs (c.tier1.compact h) :=
  mem_spillRefs.mpr ⟨hp, m, mem_tier1_of_user hm (isUserMsg_of_isIndex hi), mem_carriedRefs hmem⟩

/-- What is stranded is in no `spill_refs` that counts: it backs tool messages
through their `result_store_ref` alone. -/
theorem Stranded.stored {keepRecent : ℕ} (hs : c.Stranded h keepRecent p) (hp : p ≠ "") {m : Message} (hm : m ∈ h)
    (hb : (isIndex m = true ∧ p ∈ m.spillRefs.getD []) ∨ (isToolMsg m = true ∧ messageRecoveryRef m = p)) :
    isToolMsg m = true ∧ m.resultStoreRef = p ∧ p ∉ m.spillRefs.getD [] := by
  rcases hb with ⟨hi, hmem⟩ | ⟨ht, href⟩
  · exact absurd (mem_spillRefs_of_index hp hm hi hmem) hs.1
  · have hnot : p ∉ m.spillRefs.getD [] := by
      intro hmem
      obtain ⟨m', hm', hcase⟩ := Groups.exists_of_forall₂_left (c.tier1.compact_tools h) (mem_tools.mpr ⟨hm, ht⟩)
      refine hs.1 (mem_spillRefs.mpr ⟨hp, m', (mem_tools.mp hm').1, mem_carriedRefs ?_⟩)
      rcases hcase with rfl | ⟨path, hcard⟩
      · exact hmem
      · rw [hcard.refs, hcard.backed (by rwa [href]), href, if_pos hp]
        exact List.mem_singleton_self p
    refine ⟨ht, ?_, hnot⟩
    unfold messageRecoveryRef at href
    dsimp only at href
    generalize hrefs : (m.spillRefs.getD []).filter (· ≠ "") = refs at href
    have hsub : ∀ r ∈ refs, r ∈ m.spillRefs.getD [] := by
      intro r hr
      rw [← hrefs] at hr
      exact (List.mem_filter.mp hr).1
    cases refs with
    | nil =>
      split at href
      · exact href
      · exact absurd href (Ne.symm hp)
    | cons r rs =>
      have hr : r = p := by
        split at href
        · exact href
        · exact href
      exact absurd (hr ▸ hsub r List.mem_cons_self) hnot

theorem backed_tier1 (hb : Backed h p) : Backed (c.tier1.compact h) p := by
  obtain ⟨hp, m, hm, ⟨hi, hmem⟩ | ⟨ht, href⟩⟩ := hb
  · exact ⟨hp, m, mem_tier1_of_user hm (isUserMsg_of_isIndex hi), .inl ⟨hi, hmem⟩⟩
  · obtain ⟨m', hm', hcase⟩ := Groups.exists_of_forall₂_left (c.tier1.compact_tools h) (mem_tools.mpr ⟨hm, ht⟩)
    refine ⟨hp, m', (mem_tools.mp hm').1, .inr ⟨(mem_tools.mp hm').2, ?_⟩⟩
    rcases hcase with rfl | ⟨path, hcard⟩
    · exact href
    · refine messageRecoveryRef_of_spillRefs hp ?_
      rw [hcard.refs, hcard.backed (by rwa [href]), href, if_pos hp]

section Unbounded

variable (hpaths : c.manifestMaxPaths = none) (hchars : c.manifestMaxChars = none)

include hpaths hchars

theorem backed_of_mem_refs (hp : p ≠ "") (ms : History) {refs : List String} (hmem : p ∈ refs) :
    Backed (c.withSpillManifest ms refs) p := by
  obtain ⟨x, hx, hi, hpx⟩ := handle_indexed hpaths hchars ms hmem
  exact ⟨hp, x, hx, .inl ⟨hi, hpx⟩⟩

theorem backed_compressed (hb : Backed h p) (w : ℕ) : Backed (c.indexed h (c.compressed h w)) p := by
  obtain ⟨hp, m, hm, ⟨hi, hmem⟩ | ⟨ht, href⟩⟩ := hb
  · refine backed_of_mem_refs hpaths hchars hp _ ((mem_fromKeys _).mpr (List.mem_append_left _ ?_))
    exact mem_spillRefs_of_index hp hm hi hmem
  · obtain ⟨m', hm', content, rfl⟩ := Groups.exists_of_forall₂_left (tools_compressed c h w) (mem_tools.mpr ⟨hm, ht⟩)
    rw [← tools_withSpillManifest c] at hm'
    exact ⟨hp, _, (mem_tools.mp hm').1, .inr ⟨(mem_tools.mp hm').2, href⟩⟩

theorem backed_summarized (hp : p ≠ "") {keepRecent : ℕ} (hs : ¬c.Stranded h keepRecent p) (outcome : SummaryOutcome) :
    Backed (c.summarized est h keepRecent outcome) p := by
  rcases Classical.not_and_iff_not_or_not.mp hs with hlisted | hkept
  · refine backed_of_mem_refs hpaths hchars hp _ ((mem_fromKeys _).mpr ?_)
    exact List.mem_append_left _ (List.mem_append_left _ (not_not.mp hlisted))
  · push Not at hkept
    obtain ⟨m, hm, href⟩ := hkept
    rw [← tools_summary c est _ _ outcome, ← tools_withSpillManifest c] at hm
    exact ⟨hp, m, (mem_tools.mp hm).1, .inr ⟨(mem_tools.mp hm).2, href⟩⟩

/-- **One event** keeps the handle. -/
theorem backed_step {s s' : History × TieredState} {e : Event} (hb : Backed s.1 p) (hs : c.Spares est p s e)
    (hstep : c.step est s e = some s') : Backed s'.1 p := by
  cases e with
  | append messages =>
    cases hstep
    obtain ⟨hp, m, hm, hcase⟩ := hb
    exact ⟨hp, m, List.mem_append_left _ hm, hcase⟩
  | pass reliefMet outcome keepRecent =>
    cases hstep
    rcases c.compact_cases est s.2 reliefMet outcome s.1 keepRecent with ⟨hout, -⟩ | ⟨w, -, hout, -⟩ | ⟨hout, hl⟩
    · rw [hout]
      exact backed_tier1 hb
    · rw [hout]
      exact backed_compressed hpaths hchars hb w
    · rw [hout]
      exact backed_summarized hpaths hchars hb.1 (hs hl) outcome

end Unbounded

end Tiered

open Tiered Runs in
/-- **Backing handles are conserved.** In every run of appended messages and
passes of a compactor with no bound on its index, whichever tier wins and
whatever the summarizer brings: a handle that an index carries, or that backs
the body of a tool message, is carried so by every later history, as long as no
summary wins over a history in which it is stranded. -/
theorem backing_handles_conserved (c : Tiered) (est : String → ℕ) (hpaths : c.manifestMaxPaths = none)
    (hchars : c.manifestMaxChars = none) {p : String} {s₀ s : History × TieredState} {es : List Event}
    (hb : Backed s₀.1 p) (hrun : Trace (c.step est) (fun _ s e => c.Spares est p s e) s₀ es s) : Backed s.1 p := by
  refine Trace.invariant (I := fun _ s => Backed s.1 p) hb ?_ hrun
  intro past s e s' hb hs hstep
  exact backed_step hpaths hchars hb hs hstep

open Tiered Runs in
/-- Tier 1 wins twice, with another turn between: the handle of the result
store is on the card. -/
theorem backing_handles_conserved_stored :
    let c := keepLastWith fun _ _ => none
    let pass : Event := .pass (fun _ => true) ⟨"", 0, "", ""⟩ 3
    ∃ s, run (c.step fun _ => 1) (searchedWith (stored "first"), ⟨0, none⟩) [pass, .append [userMsg "go on"], pass] = some s ∧
      Backed s.1 "store/1" := by
  intro c pass
  obtain ⟨s, hr⟩ : ∃ s, run (c.step fun _ => 1) (searchedWith (stored "first"), ⟨0, none⟩)
      [pass, .append [userMsg "go on"], pass] = some s := ⟨_, rfl⟩
  have hrun : Trace (c.step fun _ => 1) (fun _ s e => c.Spares (fun _ => 1) "store/1" s e)
      (searchedWith (stored "first"), ⟨0, none⟩) [pass, .append [userMsg "go on"], pass] s := by
    refine Trace.of_run (p := fun _ s e => match e with
      | .append _ => true
      | .pass reliefMet outcome keepRecent =>
        (c.compact (fun _ => 1) s.2 reliefMet outcome s.1 keepRecent).2.lastEvent.map (·.selected) !=
          some "tier2") ?_ (by decide +kernel) hr
    intro es s e he
    cases e with
    | append _ => trivial
    | pass reliefMet outcome keepRecent =>
      intro hl
      dsimp only at he
      rw [hl] at he
      exact absurd he (by decide)
  refine ⟨s, hr, backing_handles_conserved c (fun _ => 1) rfl rfl ?_ hrun⟩
  exact ⟨by decide, _, List.mem_of_getElem? (i := 3) rfl, .inr ⟨rfl, by decide +kernel⟩⟩

/-- A result with two handles, of an earlier spill and of the result store. -/
def spilledAndStored : Message := { stored "first" with spillRefs := some ["spill/1"] }

/-- Tier 1's card keeps the first of the two. -/
theorem second_handle_dropped :
    let c := keepLastWith fun _ _ => none
    let out := (c.compact (fun _ => 1) ⟨0, none⟩ (fun _ => true) ⟨"", 0, "", ""⟩ (searchedWith spilledAndStored) 3).1
    (∃ m ∈ searchedWith spilledAndStored, isToolMsg m = true ∧ m.resultStoreRef = "store/1") ∧
      ∀ m ∈ out, "store/1" ∉ m.spillRefs.getD [] ∧ m.resultStoreRef ≠ "store/1" := by
  intro c out
  refine ⟨⟨spilledAndStored, by simp [searchedWith], rfl, rfl⟩, fun m hm => ?_⟩
  have hcard := searchedWith_card (fun _ _ => none) (m := spilledAndStored) rfl rfl (by decide +kernel)
    (by decide +kernel) "spill/1" rfl (by decide)
  rw [show out = _ from searchedWith_compact rfl, show c.tier1.elideIn _ spilledAndStored = _ from hcard] at hm
  simp only [List.mem_cons, List.not_mem_nil, or_false] at hm
  rcases hm with rfl | rfl | rfl | rfl | rfl <;> exact ⟨by decide, by decide⟩

end Compaction
end AgentCore
