/-
# Compaction as a projection

The two rewritings of tool results, each on its own: the mini cards of Tier 1 and
tool compression. Done twice they do what they do once, and they change the bodies
of the tool messages they are meant for and nothing else of a message's part in
the conversation.

Key definitions: `KeepLastN.Edit`.
Key theorems: `keep_last_n_projection`, `compress_tool_results_projection`.
-/
import AgentCore.Compaction.Recovery

namespace AgentCore
namespace Compaction

/-! ### Rewriting the first messages -/

section RewriteFirst

variable {q : Message → Bool} {f : Message → Message}

theorem rewriteFirst_zero (h : History) : rewriteFirst q f 0 h = h := by cases h <;> rfl

/-- A message is rewritten where fewer than `k` of those before it count. -/
theorem getElem?_rewriteFirst : ∀ (k i : ℕ) (h : History), (rewriteFirst q f k h)[i]? =
    h[i]?.map fun m => if q m = true ∧ (h.take i).countP q < k then f m else m
  | 0, i, h => by simp [rewriteFirst]
  | k + 1, i, [] => by simp [rewriteFirst]
  | k + 1, 0, m :: ms => by
    rw [rewriteFirst]
    split
    · next hm => simp [hm]
    · next hm => simp [hm]
  | k + 1, i + 1, m :: ms => by
    rw [rewriteFirst]
    split
    · next hm =>
      rw [List.getElem?_cons_succ, List.getElem?_cons_succ, getElem?_rewriteFirst k i ms, List.take_succ_cons,
        List.countP_cons_of_pos hm]
      simp only [Nat.add_lt_add_iff_right]
    · next hm =>
      rw [List.getElem?_cons_succ, List.getElem?_cons_succ, getElem?_rewriteFirst (k + 1) i ms, List.take_succ_cons,
        List.countP_cons_of_neg hm]

/-- Rewritten messages that count and stay as they are. -/
theorem rewriteFirst_twice (hq : ∀ m, q m = true → q (f m) = true) (hf : ∀ m, q m = true → f (f m) = f m) :
    ∀ (k : ℕ) (h : History), rewriteFirst q f k (rewriteFirst q f k h) = rewriteFirst q f k h
  | 0, h => by rw [rewriteFirst_zero, rewriteFirst_zero]
  | k + 1, [] => rfl
  | k + 1, m :: ms => by
    by_cases hm : q m = true
    · have hstep : rewriteFirst q f (k + 1) (m :: ms) = f m :: rewriteFirst q f k ms := by rw [rewriteFirst, if_pos hm]
      rw [hstep, rewriteFirst, if_pos (hq m hm), hf m hm, rewriteFirst_twice hq hf k ms]
    · have hstep : rewriteFirst q f (k + 1) (m :: ms) = m :: rewriteFirst q f (k + 1) ms := by
        rw [rewriteFirst, if_neg hm]
      rw [hstep, rewriteFirst, if_neg hm, rewriteFirst_twice hq hf (k + 1) ms]

/-- Rewritten messages that no longer count. -/
theorem countP_rewriteFirst (hq : ∀ m, q (f m) = false) : ∀ (k : ℕ) (h : History),
    (rewriteFirst q f k h).countP q = h.countP q - k
  | 0, h => by rw [rewriteFirst_zero, Nat.sub_zero]
  | k + 1, [] => by simp [rewriteFirst]
  | k + 1, m :: ms => by
    rw [rewriteFirst]
    split
    · next hm =>
      rw [List.countP_cons_of_neg (by simp [hq m]), countP_rewriteFirst hq k ms, List.countP_cons_of_pos hm]
      omega
    · next hm =>
      rw [List.countP_cons_of_neg hm, countP_rewriteFirst hq (k + 1) ms, List.countP_cons_of_neg hm]

end RewriteFirst

theorem countP_forall₂ {p : Message → Bool} {h h' : History} (hr : List.Forall₂ (fun m m' => p m' = p m) h h') :
    h'.countP p = h.countP p := by
  induction hr with
  | nil => rfl
  | cons hm _ ih => rw [List.countP_cons, List.countP_cons, hm, ih]

/-! ### Reasoning -/

theorem stripStaleReasoning_of_le {h : History} {keepLast : ℤ} (hle : h.countP carriesReasoning ≤ keepLast.toNat) :
    stripStaleReasoning h keepLast = h := by
  unfold stripStaleReasoning
  split
  · rfl
  · rw [Nat.sub_eq_zero_of_le hle, rewriteFirst_zero]

theorem countP_stripStaleReasoning {h : History} {keepLast : ℤ} (hkeep : 0 ≤ keepLast) :
    (stripStaleReasoning h keepLast).countP carriesReasoning ≤ keepLast.toNat := by
  unfold stripStaleReasoning
  rw [if_neg (by omega), countP_rewriteFirst fun m => by simp [carriesReasoning]]
  omega

/-- All that dropping reasoning can do to a message. -/
theorem getElem?_strip {h : History} {i : ℕ} {m : Message} (keepLast : ℤ) (hm : h[i]? = some m) :
    ∃ reasoning, (stripStaleReasoning h keepLast)[i]? = some { m with reasoningContent := reasoning } ∧
      (isToolMsg m = true → reasoning = m.reasoningContent) := by
  unfold stripStaleReasoning
  split
  · exact ⟨m.reasoningContent, hm, fun _ => rfl⟩
  · rw [getElem?_rewriteFirst, hm, Option.map_some]
    split
    · next hcarries =>
      refine ⟨"", rfl, fun ht => ?_⟩
      rw [not_carriesReasoning_of_tool ht] at hcarries
      cases hcarries.1
    · exact ⟨m.reasoningContent, rfl, fun _ => rfl⟩

theorem length_stripStaleReasoning (h : History) (keepLast : ℤ) : (stripStaleReasoning h keepLast).length = h.length :=
  (stripStaleReasoning_rewrites h keepLast).length_eq.symm

theorem map_isToolMsg_strip (h : History) (keepLast : ℤ) :
    (stripStaleReasoning h keepLast).map isToolMsg = h.map isToolMsg := by
  refine List.ext_getElem? fun i => ?_
  rw [List.getElem?_map, List.getElem?_map]
  cases hm : h[i]? with
  | none =>
    have hlen := List.getElem?_eq_none_iff.mp hm
    rw [List.getElem?_eq_none (by rw [length_stripStaleReasoning]; exact hlen)]
  | some m =>
    obtain ⟨reasoning, hstrip, -⟩ := getElem?_strip keepLast hm
    rw [hstrip]
    rfl

theorem countP_tools_strip (h : History) (keepLast : ℤ) (i : ℕ) :
    ((stripStaleReasoning h keepLast).take i).countP isToolMsg = (h.take i).countP isToolMsg := by
  have hcount : ∀ l : History, l.countP isToolMsg = (l.map isToolMsg).countP id := fun l => by
    rw [List.countP_map]
    rfl
  rw [hcount, hcount, List.map_take, List.map_take, map_isToolMsg_strip]

/-! ### The cards of Tier 1 -/

namespace KeepLastN

variable (c : KeepLastN)

/-- What Tier 1 may do to a message of a history that `later` tool messages
follow. -/
structure Edit (h : History) (later : ℕ) (m m' : Message) : Prop where
  role : m'.role = m.role
  id : m'.toolCallId = m.toolCallId
  touched : m'.content ≠ m.content → isToolMsg m = true ∧ c.keep ≤ later ∧
    namesOne (toolNamesByCallId h) c.protectToolNames m.toolCallId = false
  shorter : m'.content ≠ m.content → c.spill = none → messageRecoveryRef m = "" →
    (textOf m'.content).length < (textOf m.content).length
  declined : ∀ spill, c.spill = some spill → messageRecoveryRef m = "" →
    (spill (spillName h m) (textOf m.content)).getD "" = "" → m'.content = m.content

variable {c} {h : History} {m : Message}

theorem Edit.of_content {later : ℕ} {m' : Message} (hrole : m'.role = m.role) (hid : m'.toolCallId = m.toolCallId)
    (hcontent : m'.content = m.content) : c.Edit h later m m' :=
  ⟨hrole, hid, fun hne => absurd hcontent hne, fun hne => absurd hcontent hne, fun _ _ _ _ => hcontent⟩

/-- An old tool result stays, or becomes a card that says what it replaces. -/
theorem elideIn_edit {later : ℕ} (ht : isToolMsg m = true) (hlater : c.keep ≤ later) :
    c.Edit h later m (c.elideIn h m) ∧
      (c.elideIn h m = m ∨ Text.startsWith (textOf (c.elideIn h m).content) omittedToolResultPlaceholder = true) := by
  have hstay : c.Edit h later m m := .of_content rfl rfl rfl
  unfold elideIn elideOne
  dsimp only
  split
  · exact ⟨hstay, .inl rfl⟩
  · next hname =>
    split
    · exact ⟨hstay, .inl rfl⟩
    · generalize hpath : (if messageRecoveryRef m ≠ "" then messageRecoveryRef m
        else (c.spill.bind (· ((dictGet (toolNamesByCallId h) m.toolCallId).getD "tool") (textOf m.content))).getD "") =
          path
      generalize hplace : omittedToolResultPlaceholder ++ _ ++ _ = placeholder
      split
      · exact ⟨hstay, .inl rfl⟩
      · next hspill =>
        split
        · exact ⟨hstay, .inl rfl⟩
        · next hlen =>
          refine ⟨⟨?_, rfl, fun _ => ⟨ht, hlater, by simpa using hname⟩, fun _ hnone href => ?_, ?_⟩, .inr ?_⟩
          · rw [isToolMsg, beq_iff_eq] at ht
            rw [ht]
            rfl
          · rw [if_neg (not_not.mpr href), hnone] at hpath
            have hempty : path = "" := hpath.symm
            exact Nat.lt_of_not_le fun hle => hlen ⟨hempty, hle⟩
          · intro spill hsome href hdecline
            rw [if_neg (not_not.mpr href), hsome, Option.bind_some] at hpath
            have hempty : path = "" := hpath.symm.trans hdecline
            exact absurd ⟨by rw [hsome]; rfl, hempty⟩ hspill
          · simp only [toolMsg, textOf, Text.startsWith, ← hplace, String.toList_append, List.isPrefixOf_iff_prefix,
              List.append_assoc]
            exact List.prefix_append _ _

/-- A card is recognized. -/
theorem elideIn_twice (ht : isToolMsg m = true) : c.elideIn h (c.elideIn h m) = c.elideIn h m := by
  obtain ⟨hedit, hsame | hcard⟩ := elideIn_edit (c := c) (h := h) ht (Int.self_le_toNat c.keep)
  · rw [hsame, hsame]
  · have hstay : ∀ x : Message, Text.startsWith (textOf x.content) omittedToolResultPlaceholder = true →
        c.elideIn h x = x := by
      intro x hx
      unfold elideIn elideOne
      dsimp only
      split
      · rfl
      · rw [if_pos (by rw [hx, Bool.true_or])]
    exact hstay _ hcard

theorem isToolMsg_elideIn (ht : isToolMsg m = true) : isToolMsg (c.elideIn h m) = true := by
  rw [isToolMsg, (elideIn_edit ht (Int.self_le_toNat c.keep)).1.role]
  exact ht

theorem compact_eq (hkeep : 0 ≤ c.keep) (h : History) : c.compact h =
    rewriteFirst isToolMsg (c.elideIn h) (h.countP isToolMsg - c.keep.toNat)
      (stripStaleReasoning h (max c.keep 1)) := by
  have hcount := countP_tools_strip h (max c.keep 1) h.length
  rw [List.take_length, List.take_of_length_le (by rw [length_stripStaleReasoning])] at hcount
  unfold compact
  rw [if_neg (by omega)]
  dsimp only
  rw [toolNamesByCallId_strip, toolArgsByCallId_strip, toolArgUrlsByCallId_strip, hcount]
  rfl

theorem compact_calls (hkeep : 0 ≤ c.keep) (h : History) : List.Forall₂ SameCalls h (c.compact h) := by
  have hstrip := stripStaleReasoning_calls h (max c.keep 1)
  have hcards : List.Forall₂ SameCalls (stripStaleReasoning h (max c.keep 1)) (c.compact h) := by
    rw [compact_eq hkeep]
    exact rewriteFirst_forall₂ (fun _ => ⟨rfl, fun _ => rfl⟩) (fun m ht => .of_tool ht (isToolMsg_elideIn ht)) _ _
  exact Groups.forall₂_trans (fun _ _ _ => .trans) hstrip hcards

/-- **Twice is once.** The cards of the first pass are recognized, the bodies it
kept are kept for the same reasons, and the reasoning it left is recent. -/
theorem compact_twice (hkeep : 0 ≤ c.keep) (h : History) : c.compact (c.compact h) = c.compact h := by
  have hcalls := compact_calls (c := c) hkeep h
  have helide : c.elideIn (c.compact h) = c.elideIn h := by
    unfold elideIn
    rw [toolNamesByCallId_congr hcalls, toolArgsByCallId_congr hcalls, toolArgUrlsByCallId_congr hcalls]
  have htools : (c.compact h).countP isToolMsg = h.countP isToolMsg :=
    countP_forall₂ ((c.compact_rewrites h).imp fun _ _ hm => hm.shape.isToolMsg_eq.symm)
  have hreasoning : (c.compact h).countP carriesReasoning =
      (stripStaleReasoning h (max c.keep 1)).countP carriesReasoning := by
    have hcards : List.Forall₂ (fun m m' => carriesReasoning m' = carriesReasoning m)
        (stripStaleReasoning h (max c.keep 1)) (c.compact h) := by
      rw [compact_eq hkeep]
      refine rewriteFirst_forall₂ (R := fun m m' => carriesReasoning m' = carriesReasoning m) (fun _ => rfl)
        (fun m ht => ?_) _ _
      rw [not_carriesReasoning_of_tool ht, not_carriesReasoning_of_tool (isToolMsg_elideIn ht)]
    exact countP_forall₂ hcards
  have hstrip : stripStaleReasoning (c.compact h) (max c.keep 1) = c.compact h := by
    refine stripStaleReasoning_of_le ?_
    rw [hreasoning]
    exact countP_stripStaleReasoning (by omega)
  rw [compact_eq hkeep (c.compact h), helide, htools, hstrip, compact_eq hkeep h]
  exact rewriteFirst_twice (fun _ ht => isToolMsg_elideIn ht) (fun _ ht => elideIn_twice ht) _ _

/-- What becomes of each message, by the tool messages behind it. -/
theorem compact_edit (hkeep : 0 ≤ c.keep) {h : History} {i : ℕ} {m m' : Message} (hm : h[i]? = some m)
    (hm' : (c.compact h)[i]? = some m') : c.Edit h ((h.drop (i + 1)).countP isToolMsg) m m' := by
  obtain ⟨reasoning, hstrip, hsame⟩ := getElem?_strip (max c.keep 1) hm
  rw [compact_eq hkeep, getElem?_rewriteFirst, hstrip, Option.map_some, countP_tools_strip] at hm'
  split at hm'
  · next hcond =>
    obtain ⟨ht, hlt⟩ := hcond
    have ht' : isToolMsg m = true := ht
    rw [hsame ht', Option.some.injEq] at hm'
    rw [← hm']
    refine (elideIn_edit ht' ?_).1
    have hcount : h.countP isToolMsg = (h.take i).countP isToolMsg + (1 + (h.drop (i + 1)).countP isToolMsg) := by
      obtain ⟨hi, hget⟩ := List.getElem?_eq_some_iff.mp hm
      conv_lhs => rw [← List.take_append_drop i h, List.drop_eq_getElem_cons hi, hget]
      rw [List.countP_append, List.countP_cons_of_pos ht', Nat.add_comm 1]
    omega
  · rw [Option.some.injEq] at hm'
    rw [← hm']
    exact .of_content rfl rfl rfl

end KeepLastN

/-- **Keep-last-N is a projection.** Twice is once; the messages are as many as
before, with their roles and ids; and each is edited as `KeepLastN.Edit` says:
only old results of tools that are not protected change their content, to less
where there is nothing to recover them by, and not where a store declined the
body. -/
theorem keep_last_n_projection (c : KeepLastN) (hkeep : 0 ≤ c.keep) (h : History) :
    c.compact (c.compact h) = c.compact h ∧ (c.compact h).length = h.length ∧
    ∀ i m m', h[i]? = some m → (c.compact h)[i]? = some m' →
      c.Edit h ((h.drop (i + 1)).countP isToolMsg) m m' :=
  ⟨KeepLastN.compact_twice hkeep h, (c.compact_rewrites h).length_eq.symm,
    fun _ _ _ hm hm' => KeepLastN.compact_edit hkeep hm hm'⟩

/-- The first of two results becomes a card, once. -/
theorem keep_last_n_searchedTwice :
    ((keepWithoutSpill 1).tier1.compact searchedTwice)[3]?.map (·.content) ≠ some longResult.content ∧
    (keepWithoutSpill 1).tier1.compact ((keepWithoutSpill 1).tier1.compact searchedTwice) =
      (keepWithoutSpill 1).tier1.compact searchedTwice := by
  refine ⟨fun h => ?_, (keep_last_n_projection (keepWithoutSpill 1).tier1 (by decide) searchedTwice).1⟩
  have hne := KeepLastN.content_elideIn_ne (c := (keepWithoutSpill 1).tier1) (by rintro f ⟨⟩) longResult_not_spared
  exact hne (Option.some.inj h)

/-! ### Condensing -/

theorem length_groupDigits_le : ∀ (k : ℕ) (cs : List Char), (Text.groupDigits k cs).length ≤ 2 * cs.length
  | k, [] => by
    rw [Text.groupDigits]
    exact Nat.zero_le _
  | k, c :: cs => by
    by_cases hk : k = 3
    · have ih := length_groupDigits_le 1 cs
      rw [hk, Text.groupDigits, List.length_cons, List.length_cons, List.length_cons]
      omega
    · have ih := length_groupDigits_le (k + 1) cs
      rw [Text.groupDigits, List.length_cons, List.length_cons]
      · omega
      · exact hk

/-- The number a condensed result names is at most nineteen digits long. -/
theorem length_thousands_le {n : ℕ} (hn : n < 2 ^ 63) : (Text.thousands n).length ≤ 38 := by
  have hdigits : (toString n).length ≤ 19 := Nat.length_repr_le_iff (by decide) |>.mpr (by omega)
  have hgroups := length_groupDigits_le 0 (toString n).toList.reverse
  rw [List.length_reverse, String.length_toList] at hgroups
  rw [Text.thousands, String.length_ofList, List.length_reverse]
  omega

theorem length_take_le (s : String) (n : ℕ) : (Text.take s n).length ≤ n := by
  rw [Text.take, String.length_ofList, List.length_take]
  omega

theorem length_takeEnd_le (s : String) (n : ℕ) : (Text.takeEnd s n).length ≤ n := by
  rw [Text.takeEnd, String.length_ofList, List.length_drop, String.length_toList]
  omega

/-- What is written of the URLs. -/
def urlSection (lines : List String) : String :=
  if lines = [] then "" else "\n[Source URLs]\n" ++ Text.join "\n" lines

theorem length_urlSection_le {budget : ℕ} : ∀ {rest taken : List String}, (urlSection taken).length ≤ budget →
    (urlSection (condenseUrls budget taken rest)).length ≤ budget
  | [], taken, h => h
  | url :: rest, taken, h => by
    rw [condenseUrls]
    split
    · exact h
    · next hfits =>
      refine length_urlSection_le ?_
      rw [urlSection, if_neg (by simp)]
      omega

theorem headSize_le {remaining : ℤ} (h : 0 ≤ remaining) : (headSize remaining : ℤ) ≤ remaining := by
  unfold headSize
  split
  · exact h
  · have hle : Double.truncMul 6305039478318694 53 remaining.toNat ≤ remaining.toNat :=
      Double.truncMul_le (by decide) remaining.toNat
    omega

theorem length_shorter_le (summary content : String) :
    (if summary.length < content.length then summary else content).length ≤ content.length := by
  split <;> omega

theorem length_condense_le (content : String) (maxChars : ℕ) : (condense content maxChars).length ≤ content.length :=
  length_shorter_le _ content

/-- Head and tail share what the other parts leave. -/
theorem length_summary_le (pre marker section' content : String) {maxChars : ℕ}
    (hroom : pre.length + marker.length + section'.length ≤ maxChars) :
    let remaining : ℤ := (maxChars : ℤ) - pre.length - marker.length - section'.length
    (pre ++ Text.take content (headSize remaining) ++ marker ++
      Text.takeEnd content (remaining - headSize remaining).toNat ++ section').length ≤ maxChars := by
  intro remaining
  have hremaining : remaining = (maxChars : ℤ) - pre.length - marker.length - section'.length := rfl
  have hpos : 0 ≤ remaining := by omega
  have hhead := headSize_le hpos
  have htake := length_take_le content (headSize remaining)
  have hend := length_takeEnd_le content (remaining - headSize remaining).toNat
  rw [String.length_append, String.length_append, String.length_append, String.length_append]
  omega

/-- **The cap is met.** The prefix and the marker take less than a hundred
characters and the URLs half of the budget. -/
theorem length_condense_le_max {content : String} {maxChars : ℕ} (hmax : 200 ≤ maxChars)
    (hlong : maxChars < content.length) (hcontent : content.length < 2 ^ 63) :
    (condense content maxChars).length ≤ maxChars := by
  have hurls : (urlSection (condenseUrls (maxChars / 2) [] (Text.fromKeys (Text.urls content)))).length ≤ maxChars / 2 :=
    length_urlSection_le (Nat.zero_le _)
  have hpre : ("[Compressed tool result: " ++ Text.thousands content.length ++ " characters]\n").length ≤ 76 := by
    have hnumber := length_thousands_le hcontent
    have hopen : "[Compressed tool result: ".length = 25 := by decide
    have hclose : " characters]\n".length = 13 := by decide
    rw [String.length_append, String.length_append, hopen, hclose]
    omega
  have hmarker : "\n… [middle omitted] …\n".length = 22 := by decide
  have hroom : ("[Compressed tool result: " ++ Text.thousands content.length ++ " characters]\n").length +
      "\n… [middle omitted] …\n".length +
      (urlSection (condenseUrls (maxChars / 2) [] (Text.fromKeys (Text.urls content)))).length ≤ maxChars := by
    omega
  have hfits := length_summary_le _ _ _ content hroom
  have hshorter : ∀ summary : String, summary.length ≤ maxChars →
      (if summary.length < content.length then summary else content).length ≤ maxChars := by
    intro summary hle
    split <;> omega
  exact hshorter _ hfits

/-! ### Tool compression -/

section Compress

variable {maxChars : ℕ} (idToName : List (String × String)) (protect preserve : List String) {m : Message}

/-- A message is left, or is a long tool message that is neither protected nor
preserved, and is condensed. -/
theorem compressOne_cases (maxChars : ℕ) :
    (compressOne idToName maxChars protect none preserve m = m ∧ (isToolMsg m = true → m.toolCallId ∉ preserve →
      namesOne idToName protect m.toolCallId = false → (textOf m.content).length ≤ maxChars)) ∨
    (isToolMsg m = true ∧ m.toolCallId ∉ preserve ∧ namesOne idToName protect m.toolCallId = false ∧
      maxChars < (textOf m.content).length ∧ compressOne idToName maxChars protect none preserve m =
        { m with content := .text (condense (textOf m.content) maxChars) }) := by
  unfold compressOne
  split
  · next hpreserve =>
    refine .inl ⟨rfl, fun ht hid _ => ?_⟩
    rcases hpreserve with hno | hmem
    · rw [ht] at hno
      cases hno
    · exact absurd hmem hid
  · next hpreserve =>
    obtain ⟨ht, hid⟩ := not_or.mp hpreserve
    cases hname : namesOne idToName protect m.toolCallId with
    | true => exact .inl ⟨rfl, fun _ _ h => by cases h⟩
    | false =>
      simp only [Bool.false_eq_true, false_and, if_false]
      split
      · next hle => exact .inl ⟨rfl, fun _ _ _ => hle⟩
      · next hlen => exact .inr ⟨by simpa using ht, hid, trivial, Nat.lt_of_not_le hlen, rfl⟩

theorem isToolMsg_compressOne : isToolMsg (compressOne idToName maxChars protect none preserve m) = isToolMsg m :=
  (compressOne_rewrites idToName maxChars protect none preserve m).shape.isToolMsg_eq.symm

theorem compressOne_of_le (hle : (textOf m.content).length ≤ maxChars) :
    compressOne idToName maxChars protect none preserve m = m := by
  rcases compressOne_cases idToName protect preserve (m := m) maxChars with ⟨heq, -⟩ | ⟨-, -, -, hlong, -⟩
  · exact heq
  · omega

/-- A condensed text is no longer than the cap, and is left the next time. -/
theorem compressOne_spec (hmax : 200 ≤ maxChars) (hbody : (textOf m.content).length < 2 ^ 63) :
    let m' := compressOne idToName maxChars protect none preserve m
    (textOf m'.content).length ≤ (textOf m.content).length ∧
    (isToolMsg m = true → m.toolCallId ∉ preserve → namesOne idToName protect m.toolCallId = false →
      (textOf m'.content).length ≤ maxChars) ∧
    compressOne idToName maxChars protect none preserve m' = m' := by
  intro m'
  rcases compressOne_cases idToName protect preserve (m := m) maxChars with ⟨heq, hshort⟩ | ⟨-, -, -, hlong, heq⟩
  · have hm' : m' = m := heq
    rw [hm']
    exact ⟨Nat.le_refl _, hshort, heq⟩
  · have hm' : m' = { m with content := .text (condense (textOf m.content) maxChars) } := heq
    have hle : (textOf m'.content).length ≤ maxChars := by
      rw [hm']
      exact length_condense_le_max hmax hlong hbody
    refine ⟨?_, fun _ _ _ => hle, compressOne_of_le idToName protect preserve hle⟩
    rw [hm']
    exact length_condense_le _ _

end Compress

/-- The names that `compress_tool_results` looks up. -/
def protectNames (h : History) (protect : List String) : List (String × String) :=
  if protect = [] then [] else toolNamesByCallId h

theorem namesOne_protectNames (h : History) (protect : List String) (id : String) :
    namesOne (protectNames h protect) protect id = namesOne (toolNamesByCallId h) protect id := by
  unfold protectNames
  split
  · next hnil =>
    rw [hnil]
    simp [namesOne]
  · rfl

section CompressWith

variable (maxChars : ℕ) (protect preserve : List String) (h : History)

/-- What becomes of each message: dropping reasoning adds nothing to what
compression does to a tool message. -/
theorem getElem?_compressWith {i : ℕ} {m : Message} (hm : h[i]? = some m) :
    ∃ m', (compressWith h maxChars protect none preserve)[i]? = some m' ∧
      (isToolMsg m = true → m' = compressOne (protectNames h protect) maxChars protect none preserve m) ∧
      (isToolMsg m = false → ∃ reasoning, m' = { m with reasoningContent := reasoning }) := by
  have hmap : (h.map (compressOne (protectNames h protect) maxChars protect none preserve))[i]? =
      some (compressOne (protectNames h protect) maxChars protect none preserve m) := by
    rw [List.getElem?_map, hm]
    rfl
  obtain ⟨reasoning, hstrip, hsame⟩ := getElem?_strip 1 hmap
  refine ⟨_, hstrip, fun ht => ?_, fun ht => ⟨reasoning, ?_⟩⟩
  · rw [hsame ((isToolMsg_compressOne _ _ _).trans ht)]
  · rw [compressOne, if_pos (.inl ht)]

theorem length_compressWith : (compressWith h maxChars protect none preserve).length = h.length :=
  (compressWith_rewrites h maxChars protect none preserve).length_eq.symm

theorem compressWith_calls : List.Forall₂ SameCalls h (compressWith h maxChars protect none preserve) := by
  refine Groups.forall₂_trans (fun _ _ _ => .trans) ?_ (stripStaleReasoning_calls _ 1)
  rw [List.forall₂_map_right_iff]
  refine List.forall₂_same.mpr fun m _ => ?_
  rcases compressOne_cases (if protect = [] then [] else toolNamesByCallId h) protect preserve (m := m) maxChars with
    ⟨heq, -⟩ | ⟨-, -, -, -, heq⟩
  · rw [heq]
    exact ⟨rfl, fun _ => rfl⟩
  · rw [heq]
    exact ⟨rfl, fun _ => rfl⟩

theorem compressWith_twice (hmax : 200 ≤ maxChars) (hbodies : ∀ m ∈ h, (textOf m.content).length < 2 ^ 63) :
    compressWith (compressWith h maxChars protect none preserve) maxChars protect none preserve =
      compressWith h maxChars protect none preserve := by
  have hnames : protectNames (compressWith h maxChars protect none preserve) protect = protectNames h protect := by
    unfold protectNames
    rw [toolNamesByCallId_congr (compressWith_calls maxChars protect preserve h)]
  have hstay : (compressWith h maxChars protect none preserve).map
      (compressOne (protectNames h protect) maxChars protect none preserve) =
        compressWith h maxChars protect none preserve := by
    refine (List.map_congr_left fun m' hm' => ?_).trans (List.map_id _)
    obtain ⟨i, hi⟩ := List.mem_iff_getElem?.mp hm'
    have hlt : i < h.length := by
      rw [← length_compressWith maxChars protect preserve h]
      exact (List.getElem?_eq_some_iff.mp hi).1
    obtain ⟨m'', hget, htool, hother⟩ := getElem?_compressWith maxChars protect preserve h (List.getElem?_eq_getElem hlt)
    rw [hget, Option.some.injEq] at hi
    subst hi
    cases ht : isToolMsg h[i] with
    | true =>
      rw [htool ht]
      exact (compressOne_spec _ protect preserve hmax (hbodies _ (List.getElem_mem hlt))).2.2
    | false =>
      obtain ⟨reasoning, rfl⟩ := hother ht
      exact if_pos (.inl ht)
  have hagain : compressWith (compressWith h maxChars protect none preserve) maxChars protect none preserve =
      stripStaleReasoning ((compressWith h maxChars protect none preserve).map (compressOne
        (protectNames (compressWith h maxChars protect none preserve) protect) maxChars protect none preserve)) 1 := rfl
  rw [hagain, hnames, hstay]
  exact stripStaleReasoning_of_le (countP_stripStaleReasoning (by decide))

end CompressWith

/-- **Tool compression is a bounded projection.** With a cap of at least two
hundred characters it succeeds, and done again it changes nothing; the messages
are as many as before, with their roles and ids; no text gets longer; a protected
or preserved result is left, and any other ends within the cap. A Python text is
shorter than `2 ^ 63`. -/
theorem compress_tool_results_projection {maxChars : ℕ} (hmax : 200 ≤ maxChars) (protect preserve : List String)
    {h : History} (hbodies : ∀ m ∈ h, (textOf m.content).length < 2 ^ 63) :
    ∃ out, compressToolResults h maxChars protect none preserve = .ok out ∧
      compressToolResults out maxChars protect none preserve = .ok out ∧ out.length = h.length ∧
      ∀ (i : ℕ) (m : Message), h[i]? = some m → ∃ m', out[i]? = some m' ∧ m'.role = m.role ∧ m'.toolCallId = m.toolCallId ∧
        (textOf m'.content).length ≤ (textOf m.content).length ∧
        (isToolMsg m = true → m.toolCallId ∈ preserve ∨ namesOne (toolNamesByCallId h) protect m.toolCallId = true →
          m' = m) ∧
        (isToolMsg m = true → m.toolCallId ∉ preserve → namesOne (toolNamesByCallId h) protect m.toolCallId = false →
          (textOf m'.content).length ≤ maxChars) := by
  have hok : ∀ ms, compressToolResults ms maxChars protect none preserve =
      .ok (compressWith ms maxChars protect none preserve) := by
    intro ms
    rw [compressToolResults, if_neg (by omega), if_neg (by simp)]
  refine ⟨compressWith h maxChars protect none preserve, hok h, ?_, length_compressWith maxChars protect preserve h, ?_⟩
  · rw [hok, compressWith_twice maxChars protect preserve h hmax hbodies]
  · intro i m hm
    obtain ⟨m', hget, htool, hother⟩ := getElem?_compressWith maxChars protect preserve h hm
    refine ⟨m', hget, ?_⟩
    cases ht : isToolMsg m with
    | true =>
      have hspec := compressOne_spec (protectNames h protect) protect preserve hmax
        (hbodies m (List.mem_of_getElem? hm))
      have hshape := (compressOne_rewrites (protectNames h protect) maxChars protect none preserve m).shape
      rw [htool ht]
      refine ⟨hshape.1.symm, hshape.2.2.symm, hspec.1, fun _ hkept => ?_, fun _ hid hname => ?_⟩
      · rcases compressOne_cases (protectNames h protect) protect preserve (m := m) maxChars with
          ⟨heq, -⟩ | ⟨-, hid, hname, -, -⟩
        · exact heq
        · rw [namesOne_protectNames] at hname
          rcases hkept with hmem | hnamed
          · exact absurd hmem hid
          · rw [hname] at hnamed
            cases hnamed
      · rw [← namesOne_protectNames] at hname
        exact hspec.2.1 ht hid hname
    | false =>
      obtain ⟨reasoning, rfl⟩ := hother ht
      exact ⟨rfl, rfl, Nat.le_refl _, (fun hno => by cases hno), fun hno => by cases hno⟩

/-- Five hundred characters. -/
def longReport : String := String.ofList (List.replicate 500 'x')

theorem length_longReport : longReport.length = 500 := by
  unfold longReport
  exact (String.length_ofList ..).trans List.length_replicate

/-- Under a cap of two hundred they are condensed, once. -/
theorem compress_tool_results_longReport :
    ∃ out, compressToolResults [toolMsg longReport "c1"] 200 [] none [] = .ok out ∧
      compressToolResults out 200 [] none [] = .ok out ∧ ∃ m', out[0]? = some m' ∧ (textOf m'.content).length ≤ 200 := by
  have hbodies : ∀ m ∈ [toolMsg longReport "c1"], (textOf m.content).length < 2 ^ 63 := by
    intro m hm
    rw [List.mem_singleton.mp hm]
    have hlong : (textOf (toolMsg longReport "c1").content).length = 500 := length_longReport
    omega
  obtain ⟨out, hout, hagain, -, hall⟩ := compress_tool_results_projection (Nat.le_refl 200) [] [] hbodies
  obtain ⟨m', hm', -, -, -, -, hcap⟩ := hall 0 (toolMsg longReport "c1") rfl
  exact ⟨out, hout, hagain, m', hm', hcap rfl List.not_mem_nil rfl⟩

end Compaction
end AgentCore
