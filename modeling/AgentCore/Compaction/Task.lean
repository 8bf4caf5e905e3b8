/-
# The original task stays

What the user asked for is the first message below the system messages. Every
compactor recognises it there by its role and its text, and leaves it where it
is: the partition pins it, tool compression rewrites no user message, and a
recovery index is put in below it. So it survives any number of passes.

A message that begins with the header of a recovery index is taken for the
index of an old checkpoint, whatever else it says, and a tiered pass replaces
it.

Key definitions: `TaskAt`, `Pass`.
Key theorem: `original_task_pinned`.
-/
import AgentCore.Compaction.Pairing
import Mathlib.Logic.Relation

namespace AgentCore
namespace Compaction

/-- The message directly below the leading system messages. -/
def TaskAt (task : Message) (h : History) : Prop := (h.dropWhile isSystemMsg).head? = some task

instance (task : Message) (h : History) : Decidable (TaskAt task h) := by
  unfold TaskAt
  infer_instance

/-- A history grows at its end or is compacted. -/
inductive Pass : History → History → Prop
  | append (h ms : History) : Pass h (h ++ ms)
  | stringSlice (h : History) {keepRecent : ℕ} (hk : 0 < keepRecent) : Pass h (compactMessages h keepRecent)
  | llmSummary (c : LlmSummary) (est : String → ℕ) (h : History) {keepRecent : ℕ} (hk : 0 < keepRecent)
      (compressAll : Bool) (outcome : SummaryOutcome) : Pass h (c.compact est h keepRecent compressAll outcome).1
  | tiered (c : Tiered) (est : String → ℕ) (st : TieredState) (reliefMet : ℕ → Bool) (outcome : SummaryOutcome)
      (h : History) {keepRecent : ℕ} (hk : 0 < keepRecent) :
      Pass h (c.compact est st reliefMet outcome h keepRecent).1

namespace TaskAt

variable {task : Message} {h : History}

theorem of_append {lead : History} (hlead : ∀ m ∈ lead, isSystemMsg m = true) (hu : isUserMsg task = true)
    (rest : History) : TaskAt task (lead ++ task :: rest) := by
  have hs : isSystemMsg task = false := by
    simp only [isUserMsg, beq_iff_eq] at hu
    simp [isSystemMsg, hu]
  unfold TaskAt
  rw [List.dropWhile_append_of_pos hlead, List.dropWhile_cons_of_neg (by simp [hs]), List.head?_cons]

theorem split (ht : TaskAt task h) : ∃ rest, h = leading h ++ task :: rest := by
  obtain ⟨rest, hrest⟩ := List.head?_eq_some_iff.mp ht
  refine ⟨rest, ?_⟩
  rw [← hrest, leading_append_dropWhile]

theorem append (ht : TaskAt task h) (hu : isUserMsg task = true) (ms : History) : TaskAt task (h ++ ms) := by
  obtain ⟨rest, hrest⟩ := ht.split
  rw [hrest, List.append_assoc, List.cons_append]
  exact of_append (fun m hm => mem_leading hm) hu (rest ++ ms)

/-- User messages are not rewritten. -/
theorem rewrites {h' : History} (ht : TaskAt task h) (hu : isUserMsg task = true)
    (hr : List.Forall₂ Rewrites h h') : TaskAt task h' := by
  have hd := dropWhile_rewrites (q := isSystemMsg) (fun _ _ hxy => hxy.shape.isSystemMsg_eq.symm) hr
  obtain ⟨rest, hrest⟩ := List.head?_eq_some_iff.mp ht
  rw [hrest] at hd
  obtain ⟨task', rest', hsame, -, hd'⟩ := List.forall₂_cons_left_iff.mp hd
  unfold TaskAt
  rw [hd', hsame.same (.inl hu), List.head?_cons]

/-- The task is pinned, or nothing is squashed. -/
theorem partition (ht : TaskAt task h) (ho : isOriginalTask task = true) {keepRecent : ℕ} (hk : 0 < keepRecent) :
    ∃ lead middle recent, partitionForCompaction h keepRecent = (lead, middle, recent) ∧
      (middle = [] ∨ lead = leading h ++ [task]) := by
  obtain ⟨rest, hrest⟩ := List.head?_eq_some_iff.mp ht
  have hpins : (if 0 < keepRecent ∧ pinsFirst (task :: rest) = true then 1 else 0) = 1 := if_pos ⟨hk, ho⟩
  unfold partitionForCompaction
  rw [hrest]
  dsimp only
  split
  · exact ⟨_, _, _, rfl, .inl rfl⟩
  · rw [hpins]
    split
    · exact ⟨_, _, _, rfl, .inl rfl⟩
    · exact ⟨_, _, _, rfl, .inr rfl⟩

theorem of_pinned {lead : History} (hl : lead = leading h ++ [task]) (hu : isUserMsg task = true)
    (rest : History) : TaskAt task (lead ++ rest) := by
  rw [hl, List.append_assoc, List.singleton_append]
  exact of_append (fun m hm => mem_leading hm) hu rest

theorem isUserMsg_of_isOriginalTask (ho : isOriginalTask task = true) : isUserMsg task = true := by
  simp only [isOriginalTask, Bool.and_eq_true] at ho
  exact ho.1

theorem compactMessages (ht : TaskAt task h) (ho : isOriginalTask task = true) {keepRecent : ℕ}
    (hk : 0 < keepRecent) : TaskAt task (compactMessages h keepRecent) := by
  obtain ⟨lead, middle, recent, heq, hcase⟩ := ht.partition ho hk
  unfold Compaction.compactMessages
  rw [heq]
  dsimp only
  split
  · exact ht
  · next hne => exact of_pinned (hcase.resolve_left hne) (isUserMsg_of_isOriginalTask ho) _

theorem stringSlice (ht : TaskAt task h) (ho : isOriginalTask task = true) {keepRecent : ℕ}
    (hk : 0 < keepRecent) : TaskAt task (LlmSummary.stringSlice h keepRecent) := by
  have hcompact := ht.compactMessages ho hk
  obtain ⟨lead, middle, recent, heq, hcase⟩ := ht.partition ho hk
  unfold LlmSummary.stringSlice
  rw [heq]
  dsimp only
  split
  · exact hcompact
  · next hno =>
    -- nothing is put back: the task is pinned, or nothing was squashed
    rcases hcase with rfl | rfl
    · exact hcompact
    · simp [ho] at hno

theorem rollback (ht : TaskAt task h) (ho : isOriginalTask task = true) (c : LlmSummary) {lead : History}
    (hl : lead = leading h ++ [task]) {keepRecent : ℕ} (hk : 0 < keepRecent) (dropped : ℕ) (reason : String) :
    TaskAt task (c.rollback h lead dropped keepRecent reason) := by
  unfold LlmSummary.rollback
  cases c.failureFallback with
  | deterministic => exact ht.compactMessages ho hk
  | panic => exact of_pinned hl (isUserMsg_of_isOriginalTask ho) _

theorem llmSummary (ht : TaskAt task h) (ho : isOriginalTask task = true) (c : LlmSummary) (est : String → ℕ)
    {keepRecent : ℕ} (hk : 0 < keepRecent) (compressAll : Bool) (outcome : SummaryOutcome) :
    TaskAt task (c.compact est h keepRecent compressAll outcome).1 := by
  have hu := isUserMsg_of_isOriginalTask ho
  unfold LlmSummary.compact
  set source := if compressAll = true then compressWith h toolResultCompactMaxChars [] none [] else h
    with hsource
  have hs : TaskAt task source := by
    rw [hsource]
    split
    · exact ht.rewrites hu (compressWith_rewrites h _ _ _ _)
    · exact ht
  obtain ⟨lead, middle, recent, heq, hcase⟩ := hs.partition ho hk
  simp only [heq]
  split
  · exact hs.stringSlice ho hk
  · split
    · exact hs
    · next hne =>
      have hl := hcase.resolve_left hne
      split
      · exact hs.rollback ho c hl hk _ _
      · exact of_pinned hl hu _

/-! ### The recovery index -/

theorem replaceIndex (ht : TaskAt task h) (hu : isUserMsg task = true) (hi : Tiered.isIndex task = false)
    (index : Option Message) : TaskAt task (Tiered.replaceIndex index h) := by
  obtain ⟨rest, hrest⟩ := ht.split
  have hskip : ∀ lead : History, (∀ m ∈ lead, isSystemMsg m = true) →
      Tiered.replaceIndex index (lead ++ task :: rest) = lead ++ task :: Tiered.replaceIndex index rest := by
    intro lead hlead
    induction lead with
    | nil => simp [Tiered.replaceIndex, hi]
    | cons m ms ih =>
      have hm : Tiered.isIndex m = false := by
        have hsys := hlead m List.mem_cons_self
        simp only [isSystemMsg, beq_iff_eq] at hsys
        simp [Tiered.isIndex, isUserMsg, hsys]
      rw [List.cons_append, Tiered.replaceIndex, if_neg (by simp [hm]),
        ih fun x hx => hlead x (List.mem_cons_of_mem _ hx), List.cons_append]
  rw [hrest, hskip _ fun m hm => mem_leading hm]
  exact of_append (fun m hm => mem_leading hm) hu _

theorem insertIndex (ht : TaskAt task h) (ho : isOriginalTask task = true) (hs : task.spillRefs = none)
    (index : Message) :
    TaskAt task (h.take (Tiered.indexPosition h) ++ index :: h.drop (Tiered.indexPosition h)) := by
  have hu := isUserMsg_of_isOriginalTask ho
  obtain ⟨rest, hrest⟩ := ht.split
  have hget : h[(leading h).length]? = some task := by
    rw [hrest, List.getElem?_append_right (by rw [← hrest])]
    rw [← hrest, Nat.sub_self]
    rfl
  have hpos : Tiered.indexPosition h = (leading h).length + 1 := by
    unfold Tiered.indexPosition
    rw [show (h.takeWhile isSystemMsg).length = (leading h).length from rfl]
    dsimp only
    rw [hget]
    simp only [isOriginalTask, Bool.and_eq_true, Bool.not_eq_true'] at ho
    simp [hs, ho.1, ho.2]
  have htake : h.take ((leading h).length + 1) = leading h ++ [task] := by
    have hsplit : h = leading h ++ [task] ++ rest := by rwa [List.append_assoc, List.singleton_append]
    rw [hsplit, List.take_left' (by rw [← hsplit, List.length_append, List.length_singleton]), ← hsplit]
  rw [hpos, htake]
  exact of_pinned rfl hu _

theorem withSpillManifest (ht : TaskAt task h) (ho : isOriginalTask task = true) (hs : task.spillRefs = none)
    (hi : Tiered.isIndex task = false) (c : Tiered) (refs : List String) :
    TaskAt task (c.withSpillManifest h refs) := by
  unfold Tiered.withSpillManifest
  split
  · exact ht
  · dsimp only
    split
    · exact ht.replaceIndex (isUserMsg_of_isOriginalTask ho) hi _
    · split
      · exact ht
      · exact ht.insertIndex ho hs _

theorem tiered (ht : TaskAt task h) (ho : isOriginalTask task = true) (hs : task.spillRefs = none)
    (hi : Tiered.isIndex task = false) (c : Tiered) (est : String → ℕ) (st : TieredState) (reliefMet : ℕ → Bool)
    (outcome : SummaryOutcome) {keepRecent : ℕ} (hk : 0 < keepRecent) :
    TaskAt task (c.compact est st reliefMet outcome h keepRecent).1 := by
  have hu := isUserMsg_of_isOriginalTask ho
  rcases c.compact_cases est st reliefMet outcome h keepRecent with ⟨hout, -⟩ | ⟨w, -, hout, -⟩ | ⟨hout, -⟩
  all_goals rw [hout]
  · exact ht.rewrites hu (c.tier1.compact_rewrites h)
  · exact (ht.rewrites hu (c.compressed_rewrites h w)).withSpillManifest ho hs hi c _
  · have hinput := ht.rewrites hu (c.compressed_rewrites h toolResultCompactMaxChars)
    exact (hinput.llmSummary ho c.tier2 est hk false outcome).withSpillManifest ho hs hi c _

end TaskAt

/-- **The original task is never compacted away.** Where the message below the
leading system messages is a user message that is neither a rollup nor taken
for a recovery index, it is so after any sequence of appends and passes. -/
theorem original_task_pinned {task : Message} {h h' : History} (hu : isUserMsg task = true)
    (hrollup : Text.startsWith (textOf task.content) "[Compacted" = false) (hs : task.spillRefs = none)
    (hheader : Text.startsWith (textOf task.content) spillManifestHeader = false) (ht : TaskAt task h)
    (hrun : Relation.ReflTransGen Pass h h') : TaskAt task h' := by
  have ho : isOriginalTask task = true := by simp [isOriginalTask, hu, hrollup]
  have hi : Tiered.isIndex task = false := by simp [Tiered.isIndex, hs, hheader]
  induction hrun with
  | refl => exact ht
  | tail _ hpass ih =>
    cases hpass with
    | append _ ms => exact ih.append hu ms
    | stringSlice _ hk => exact ih.compactMessages ho hk
    | llmSummary c est _ hk compressAll outcome => exact ih.llmSummary ho c est hk compressAll outcome
    | tiered c est st reliefMet outcome _ hk => exact ih.tiered ho hs hi c est st reliefMet outcome hk

theorem original_task_pinned_calledOnce :
    TaskAt (userMsg "task") calledOnce ∧
      TaskAt (userMsg "task") (compactMessages (compactMessages calledOnce 2 ++ [userMsg "go on"]) 1) := by
  have hstart : TaskAt (userMsg "task") calledOnce := by decide
  refine ⟨hstart, original_task_pinned rfl (by decide) rfl (by decide) hstart ?_⟩
  exact .tail (.tail (.tail .refl (.stringSlice _ (by decide))) (.append _ _)) (.stringSlice _ (by decide))

/-- A task that quotes the header of a recovery index. -/
def quotingTask : Message := userMsg (spillManifestHeader ++ " Why?")

/-- Behind the task stand a result that went to a file and two lines of
reasoning. -/
def quotedHeader : History :=
  [quotingTask, assistantMsg (.text "") [⟨"c1", "search", "{}"⟩] "a long line of reasoning",
    { toolMsg "found" "c1" with spillRefs := some ["/spill/a.txt"] }, assistantMsg (.text "two") [] "more"]

/-- A compactor that keeps the last five results, with the default bounds of
its index. -/
def keepFive : Tiered where
  tier1 := ⟨5, [], none, defaultRecoveryFooter, 1, keep_five⟩
  hasSummaryLlm := true
  spillRecoverable := false
  manifestMaxPaths := some 20
  manifestMaxChars := some 3000
  maxPaths_pos := twenty_paths
  maxChars_ge := by decide
  recoverable_spill := five_without_spill

/-- The task is taken for an index, and the new index stands in its place. -/
theorem task_taken_for_index :
    (isUserMsg quotingTask = true ∧ Text.startsWith (textOf quotingTask.content) "[Compacted" = false ∧
      quotingTask.spillRefs = none ∧ TaskAt quotingTask quotedHeader) ∧
    ¬TaskAt quotingTask (keepFive.compact (fun s => s.utf8ByteSize / 4) ⟨0, none⟩ (fun n => decide (n ≤ 42))
      ⟨"", 0, "", ""⟩ quotedHeader 2).1 := by
  decide +kernel

end Compaction
end AgentCore
