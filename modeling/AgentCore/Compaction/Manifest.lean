/-
# The recovery index

A pass that was not won by Tier 1 leaves one recovery index in the history: the
newest handles that fit its bounds, in the place of the first old index or, where
there was none, below the task. With no handle to list the history is left as it
is, old indices and all.

Key definitions: `Tiered.Fits`, `Tiered.indices`.
Key theorem: `spill_manifest_unique`.
-/
import AgentCore.Compaction.Pairing

namespace AgentCore
namespace Compaction
namespace Tiered

/-- The recovery indices of a history. -/
def indices (h : History) : History := h.filter isIndex

/-- Its other messages. -/
def nonIndices (h : History) : History := h.filter fun m => !isIndex m

/-- An index that lists these handles is within both bounds. -/
def Fits (c : Tiered) (listed : List String) : Prop :=
  (∀ n ∈ c.manifestMaxPaths, listed.length ≤ n) ∧
    ∀ n ∈ c.manifestMaxChars, (textOf (indexMsg listed).content).length ≤ n

/-! ### The handles that are listed -/

/-- What a list of handles adds to the text. -/
def cost (refs : List String) : ℕ := (refs.map fun path => path.length + 3).sum

theorem cost_cons (path : String) (refs : List String) : cost (path :: refs) = path.length + 3 + cost refs := rfl

theorem cost_reverse (refs : List String) : cost refs.reverse = cost refs := by
  unfold cost
  rw [List.map_reverse, List.sum_reverse]

theorem length_join_bullets : ∀ (path : String) (refs : List String),
    (Text.join "\n" ((path :: refs).map ("- " ++ ·))).length + 1 = cost (path :: refs)
  | path, [] => by
    have hjoin : Text.join "\n" ["- " ++ path] = "- " ++ path := String.intercalate_singleton
    have hlen : "- ".length = 2 := by decide
    rw [List.map_singleton, hjoin, String.length_append, hlen, cost_cons]
    show 2 + path.length + 1 = path.length + 3 + 0
    omega
  | path, next :: rest => by
    have hjoin : Text.join "\n" ((path :: next :: rest).map ("- " ++ ·)) =
        "- " ++ path ++ "\n" ++ Text.join "\n" ((next :: rest).map ("- " ++ ·)) := String.intercalate_cons_cons
    have ih := length_join_bullets next rest
    have hlen : "- ".length = 2 := by decide
    have hline : "\n".length = 1 := by decide
    rw [hjoin, String.length_append, String.length_append, String.length_append, hlen, hline, cost_cons, ← ih]
    omega

theorem length_indexMsg {refs : List String} (h : refs ≠ []) :
    (textOf (indexMsg refs).content).length = spillManifestHeader.length + cost refs := by
  cases refs with
  | nil => exact absurd rfl h
  | cons path rest =>
    have hjoin := length_join_bullets path rest
    have hline : "\n".length = 1 := by decide
    show (spillManifestHeader ++ "\n" ++ Text.join "\n" ((path :: rest).map ("- " ++ ·))).length = _
    rw [String.length_append, String.length_append, hline]
    omega

/-- There is room for `n` handles and `used` characters. -/
def Room (maxPaths maxChars : Option ℕ) (n used : ℕ) : Prop :=
  (∀ k ∈ maxPaths, n ≤ k) ∧ ∀ k ∈ maxChars, used ≤ k

section Select

variable {maxPaths maxChars : Option ℕ}

theorem selectRefs_prefix : ∀ (n used : ℕ) (refs : List String), selectRefs maxPaths maxChars n used refs <+: refs
  | _, _, [] => List.prefix_rfl
  | n, used, path :: rest => by
    rw [selectRefs]
    split
    · exact List.nil_prefix
    · split
      · exact List.nil_prefix
      · exact List.cons_prefix_cons.mpr ⟨rfl, selectRefs_prefix (n + 1) (used + (path.length + 3)) rest⟩

theorem selectRefs_room : ∀ {n used : ℕ} (refs : List String), Room maxPaths maxChars n used →
    Room maxPaths maxChars (n + (selectRefs maxPaths maxChars n used refs).length)
      (used + cost (selectRefs maxPaths maxChars n used refs))
  | _, _, [], hroom => hroom
  | n, used, path :: rest, hroom => by
    rw [selectRefs]
    split
    · exact hroom
    · next hpaths =>
      split
      · exact hroom
      · next hchars =>
        have hnext : Room maxPaths maxChars (n + 1) (used + (path.length + 3)) := by
          refine ⟨fun k hk => ?_, fun k hk => ?_⟩
          · rw [hk, Option.any_some, decide_eq_true_eq] at hpaths
            omega
          · rw [hk, Option.any_some, decide_eq_true_eq] at hchars
            omega
        have ih := selectRefs_room rest hnext
        rw [Nat.add_right_comm, Nat.add_assoc n, Nat.add_assoc used] at ih
        rw [List.length_cons, cost_cons]
        exact ih

/-- No longer list of the handles, newest first, has room. -/
theorem selectRefs_longest : ∀ {n used : ℕ} {refs listed : List String}, listed <+: refs →
    Room maxPaths maxChars (n + listed.length) (used + cost listed) →
    listed.length ≤ (selectRefs maxPaths maxChars n used refs).length
  | _, _, _, [], _, _ => Nat.zero_le _
  | n, used, [], path :: rest, hpre, _ => absurd (List.prefix_nil.mp hpre) (List.cons_ne_nil _ _)
  | n, used, p :: refs, path :: rest, hpre, hroom => by
    obtain ⟨rfl, hrest⟩ := List.cons_prefix_cons.mp hpre
    obtain ⟨hpaths, hchars⟩ := hroom
    rw [List.length_cons] at hpaths
    rw [cost_cons] at hchars
    rw [selectRefs, if_neg, if_neg]
    · rw [List.length_cons, List.length_cons]
      refine Nat.succ_le_succ (selectRefs_longest hrest ⟨fun k hk => ?_, fun k hk => ?_⟩)
      · have := hpaths k hk
        omega
      · have := hchars k hk
        omega
    · rw [Option.any_eq_true]
      rintro ⟨k, hk, hlt⟩
      have hle := hchars k hk
      rw [decide_eq_true_eq] at hlt
      omega
    · rw [Option.any_eq_true]
      rintro ⟨k, hk, hlt⟩
      have hle := hpaths k hk
      rw [decide_eq_true_eq] at hlt
      omega

end Select

variable (c : Tiered)

theorem fits_nil : c.Fits [] := by
  have hempty : (textOf (indexMsg []).content).length = spillManifestHeader.length + 1 := by decide +kernel
  have hmin : spillManifestMinChars = spillManifestHeader.length + 4 := by decide +kernel
  refine ⟨fun k _ => Nat.zero_le k, fun k hk => ?_⟩
  have hge := c.maxChars_ge k hk
  omega

theorem room_nil : Room c.manifestMaxPaths c.manifestMaxChars 0 spillManifestHeader.length := by
  have hmin : spillManifestMinChars = spillManifestHeader.length + 4 := by decide +kernel
  refine ⟨fun k _ => Nat.zero_le k, fun k hk => ?_⟩
  have hge := c.maxChars_ge k hk
  omega

/-- A list of handles fits when there is room for it beside the header. -/
theorem fits_iff (listed : List String) : c.Fits listed ↔
    Room c.manifestMaxPaths c.manifestMaxChars listed.length (spillManifestHeader.length + cost listed) := by
  by_cases hnil : listed = []
  · subst hnil
    exact iff_of_true c.fits_nil c.room_nil
  · unfold Fits Room
    rw [length_indexMsg hnil]

theorem manifestRefs_suffix (refs : List String) : c.manifestRefs refs <:+ refs := by
  have hpre : (c.manifestRefs refs).reverse <+: refs.reverse := by
    rw [manifestRefs, List.reverse_reverse]
    exact selectRefs_prefix 0 spillManifestHeader.length refs.reverse
  exact List.reverse_prefix.mp hpre

theorem manifestRefs_fits (refs : List String) : c.Fits (c.manifestRefs refs) := by
  have hroom := selectRefs_room refs.reverse c.room_nil
  rw [Nat.zero_add] at hroom
  rw [fits_iff, manifestRefs, List.length_reverse, cost_reverse]
  exact hroom

theorem manifestRefs_longest {refs listed : List String} (hsuffix : listed <:+ refs) (hfits : c.Fits listed) :
    listed.length ≤ (c.manifestRefs refs).length := by
  have hpre : listed.reverse <+: refs.reverse := List.reverse_prefix.mpr hsuffix
  have hroom : Room c.manifestMaxPaths c.manifestMaxChars (0 + listed.reverse.length)
      (spillManifestHeader.length + cost listed.reverse) := by
    rw [List.length_reverse, cost_reverse, Nat.zero_add]
    exact (c.fits_iff listed).mp hfits
  have hle := selectRefs_longest hpre hroom
  rw [manifestRefs, List.length_reverse]
  rwa [List.length_reverse] at hle

/-! ### The history with its index -/

theorem isIndex_indexMsg (refs : List String) : isIndex (indexMsg refs) = true := rfl

theorem indices_append (xs ys : History) : indices (xs ++ ys) = indices xs ++ indices ys := List.filter_append ..

theorem nonIndices_append (xs ys : History) : nonIndices (xs ++ ys) = nonIndices xs ++ nonIndices ys :=
  List.filter_append ..

theorem indices_nonIndices (h : History) : indices (nonIndices h) = [] := by
  refine List.filter_eq_nil_iff.mpr fun m hm => ?_
  simpa [nonIndices] using (List.mem_filter.mp hm).2

theorem nonIndices_nonIndices (h : History) : nonIndices (nonIndices h) = nonIndices h :=
  List.filter_eq_self.mpr fun _ hm => (List.mem_filter.mp hm).2

/-- The old indices go, and `index` comes in the place of the first. -/
theorem replaceIndex_parts {index : Option Message} (hindex : ∀ m ∈ index, isIndex m = true) : ∀ {ms : History},
    ms.any isIndex = true → indices (replaceIndex index ms) = index.toList ∧
      nonIndices (replaceIndex index ms) = nonIndices ms
  | [], h => by cases h
  | m :: ms, h => by
    rw [replaceIndex]
    by_cases hm : isIndex m = true
    · have hindices : indices index.toList = index.toList :=
        List.filter_eq_self.mpr fun x hx => hindex x (Option.mem_toList.mp hx)
      have hnon : nonIndices index.toList = [] :=
        List.filter_eq_nil_iff.mpr fun x hx => by simp [hindex x (Option.mem_toList.mp hx)]
      have hrest : ms.filter (fun x => !isIndex x) = nonIndices ms := rfl
      rw [if_pos hm, hrest, indices_append, nonIndices_append, hindices, hnon, indices_nonIndices,
        nonIndices_nonIndices, List.append_nil, List.nil_append]
      refine ⟨rfl, ?_⟩
      rw [nonIndices, nonIndices, List.filter_cons_of_neg (by simp [hm])]
    · have hrest : ms.any isIndex = true := by simpa [hm] using h
      have ih := replaceIndex_parts hindex hrest
      rw [if_neg hm]
      unfold indices nonIndices at ih ⊢
      rw [List.filter_cons_of_neg hm, List.filter_cons_of_pos (by simp [hm]), List.filter_cons_of_pos (by simp [hm]),
        ih.2]
      exact ⟨ih.1, rfl⟩

theorem nonIndices_of_none {ms : History} (h : ¬ms.any isIndex = true) : indices ms = [] ∧ nonIndices ms = ms := by
  have hall : ∀ m ∈ ms, isIndex m = false := by simpa using h
  exact ⟨List.filter_eq_nil_iff.mpr fun m hm => by simp [hall m hm],
    List.filter_eq_self.mpr fun m hm => by simp [hall m hm]⟩

theorem withSpillManifest_parts (messages : History) {refs : List String} (hrefs : refs ≠ []) :
    indices (c.withSpillManifest messages refs) =
        (if c.manifestRefs refs = [] then [] else [indexMsg (c.manifestRefs refs)]) ∧
      nonIndices (c.withSpillManifest messages refs) = nonIndices messages := by
  unfold withSpillManifest
  rw [if_neg hrefs]
  dsimp only
  by_cases hnil : c.manifestRefs refs = []
  · rw [if_pos hnil, if_pos hnil]
    split
    · next hany => exact replaceIndex_parts (fun m hm => by cases hm) hany
    · next hany => exact ⟨(nonIndices_of_none hany).1, rfl⟩
  · rw [if_neg hnil, if_neg hnil]
    split
    · next hany =>
      refine replaceIndex_parts (fun m hm => ?_) hany
      cases hm
      rfl
    · next hany =>
      have hnone := (nonIndices_of_none hany).1
      generalize indexPosition messages = p
      rw [← List.take_append_drop p messages, indices_append, List.append_eq_nil_iff] at hnone
      refine ⟨?_, ?_⟩
      · rw [indices_append, hnone.1, List.nil_append]
        show (indexMsg (c.manifestRefs refs) :: messages.drop p).filter isIndex = _
        rw [List.filter_cons_of_pos (isIndex_indexMsg _)]
        exact congrArg _ hnone.2
      · have hsplit : nonIndices messages = nonIndices (messages.take p) ++ nonIndices (messages.drop p) := by
          rw [← nonIndices_append, List.take_append_drop]
        rw [nonIndices_append, hsplit]
        refine congrArg _ ?_
        unfold nonIndices
        rw [List.filter_cons_of_neg (by simp [isIndex_indexMsg])]

/-- **The recovery index is unique and bounded.** When there are handles to list,
the only index of the history that is left lists the longest run of the newest
ones that fits, within both bounds, or there is none where none fits; and the
other messages are those of the history. -/
theorem spill_manifest_unique (messages : History) {refs : List String} (hrefs : refs ≠ []) :
    indices (c.withSpillManifest messages refs) =
        (if c.manifestRefs refs = [] then [] else [indexMsg (c.manifestRefs refs)]) ∧
      (∀ m ∈ indices (c.withSpillManifest messages refs),
        (∀ n ∈ c.manifestMaxChars, (textOf m.content).length ≤ n) ∧
        ∀ n ∈ c.manifestMaxPaths, (m.spillRefs.getD []).length ≤ n) ∧
      (c.manifestRefs refs <:+ refs ∧ c.Fits (c.manifestRefs refs) ∧
        ∀ listed, listed <:+ refs → c.Fits listed → listed.length ≤ (c.manifestRefs refs).length) ∧
      nonIndices (c.withSpillManifest messages refs) = nonIndices messages := by
  obtain ⟨hindices, hnon⟩ := c.withSpillManifest_parts messages hrefs
  have hfits := c.manifestRefs_fits refs
  refine ⟨hindices, fun m hm => ?_, ⟨c.manifestRefs_suffix refs, hfits, fun _ => c.manifestRefs_longest⟩, hnon⟩
  rw [hindices] at hm
  split at hm
  · cases hm
  · rw [List.mem_singleton.mp hm]
    exact ⟨hfits.2, hfits.1⟩

/-- At most twenty handles, and sixteen characters beside the header. -/
def bounded : Tiered where
  tier1 := ⟨5, [], none, defaultRecoveryFooter, 1, keep_five⟩
  hasSummaryLlm := false
  spillRecoverable := false
  manifestMaxPaths := some 20
  manifestMaxChars := some (spillManifestHeader.length + 16)
  maxPaths_pos := twenty_paths
  maxChars_ge := by
    intro n hn
    cases hn
    decide +kernel
  recoverable_spill := five_without_spill

/-- Of three handles the two newest fit. -/
theorem two_newest_fit :
    bounded.manifestRefs ["/a/1", "/a/2", "/a/3"] = ["/a/2", "/a/3"] ∧
    indices (bounded.withSpillManifest [systemMsg "s", userMsg "go", indexMsg ["/a/1"], indexMsg ["/a/2"]]
      ["/a/1", "/a/2", "/a/3"]) = [indexMsg ["/a/2", "/a/3"]] := by
  have hlisted : bounded.manifestRefs ["/a/1", "/a/2", "/a/3"] = ["/a/2", "/a/3"] := by decide +kernel
  have hunique := (bounded.spill_manifest_unique
    [systemMsg "s", userMsg "go", indexMsg ["/a/1"], indexMsg ["/a/2"]]
    (List.cons_ne_nil "/a/1" ["/a/2", "/a/3"])).1
  rw [hlisted, if_neg (List.cons_ne_nil _ _)] at hunique
  exact ⟨hlisted, hunique⟩

/-- Without a handle to list, two indices stay two. -/
theorem no_refs_keep_indices :
    bounded.withSpillManifest [userMsg "go", indexMsg ["/a/1"], indexMsg ["/a/2"]] [] =
      [userMsg "go", indexMsg ["/a/1"], indexMsg ["/a/2"]] ∧
    ¬(indices (bounded.withSpillManifest [userMsg "go", indexMsg ["/a/1"], indexMsg ["/a/2"]] [])).length ≤ 1 :=
  ⟨rfl, by decide +kernel⟩

end Tiered
end Compaction
end AgentCore
