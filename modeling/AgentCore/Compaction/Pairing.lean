/-
# Compaction keeps a history well paired

The three compactors rebuild a history in different ways, but out of few
pieces: messages rewritten one by one without their part in the pairing
(`Rewrites`), a cut above a message that is no tool message
(`partition_parts`), and user messages put in or taken out between blocks
(`withSpillManifest_wellPaired`). Each piece keeps the pairing and the leading
system messages, and so does every pass.

One thing can be seen at the head of a tiered pass: a recovery index that
stands right below the leading system messages and is dropped with no index in
its place (no handle fits `manifest_max_chars`). A system message below it then
follows the leading ones (`IndexHidesSystem`).

Key theorems: `partition_parts`, `compactMessages_keeps`, `LlmSummary.compact_keeps`,
`Tiered.compact_keeps`.
-/
import AgentCore.Pairing
import AgentCore.Compaction.Tiered

namespace AgentCore
namespace Compaction

/-- The leading system messages of a history. -/
def leading (h : History) : History := h.takeWhile isSystemMsg

theorem leading_append_dropWhile (h : History) : leading h ++ h.dropWhile isSystemMsg = h :=
  List.takeWhile_append_dropWhile

theorem mem_leading {h : History} {m : Message} (hm : m ∈ leading h) : isSystemMsg m = true :=
  List.mem_takeWhile_imp hm

/-- Nothing is added to the leading messages by what starts otherwise. -/
theorem leading_leading_append (h : History) {x : History} (hx : leading x = []) :
    leading (leading h ++ x) = leading h := by
  unfold leading at *
  rw [List.takeWhile_append_of_pos (fun m hm => List.mem_takeWhile_imp hm), hx, List.append_nil]

theorem leading_user_cons {m : Message} (hm : isUserMsg m = true) (h : History) :
    leading (m :: h) = [] := by
  have hs : isSystemMsg m = false := by
    simp only [isUserMsg, beq_iff_eq] at hm
    simp [isSystemMsg, hm]
  simp [leading, hs]

theorem wellPaired_leading (h : History) : WellPaired (leading h) :=
  wellPaired_plain fun _ hm => plainMsg_of_system (mem_leading hm)

/-! ### Rewriting messages in place -/

/-- The message keeps its part in the pairing, and user and system messages
are left as they are. -/
structure Rewrites (m m' : Message) : Prop where
  shape : SameShape m m'
  same : isUserMsg m = true ∨ isSystemMsg m = true → m' = m

theorem Rewrites.refl (m : Message) : Rewrites m m := ⟨.refl m, fun _ => rfl⟩

theorem Rewrites.trans {a b c : Message} (h : Rewrites a b) (h' : Rewrites b c) : Rewrites a c := by
  refine ⟨h.shape.trans h'.shape, fun ha => ?_⟩
  have hb := h.same ha
  subst hb
  exact h'.same ha

theorem forall₂_rewrites_refl (h : History) : List.Forall₂ Rewrites h h :=
  List.forall₂_same.mpr fun m _ => .refl m

theorem forall₂_rewrites_trans {a b c : History} (h : List.Forall₂ Rewrites a b)
    (h' : List.Forall₂ Rewrites b c) : List.Forall₂ Rewrites a c :=
  Groups.forall₂_trans (fun _ _ _ => .trans) h h'

theorem rewrites_wellPaired {h h' : History} (hh : WellPaired h) (hr : List.Forall₂ Rewrites h h') :
    WellPaired h' :=
  hh.sameShape (hr.imp fun _ _ hxy => hxy.shape)

/-- Rewriting keeps every maximal run of user or system messages in front. -/
theorem takeWhile_rewrites {q : Message → Bool}
    (hq : ∀ m, q m = true → isUserMsg m = true ∨ isSystemMsg m = true)
    (hq' : ∀ m m', Rewrites m m' → q m' = q m) {h h' : History} (hr : List.Forall₂ Rewrites h h') :
    h'.takeWhile q = h.takeWhile q := by
  induction hr with
  | nil => rfl
  | @cons x y xs ys hxy _ ih =>
    by_cases hx : q x = true
    · have hy := hxy.same (hq x hx)
      subst hy
      rw [List.takeWhile_cons_of_pos hx, List.takeWhile_cons_of_pos hx, ih]
    · rw [List.takeWhile_cons_of_neg hx, List.takeWhile_cons_of_neg (by rwa [hq' x y hxy])]

theorem dropWhile_rewrites {q : Message → Bool} (hq' : ∀ m m', Rewrites m m' → q m' = q m)
    {h h' : History} (hr : List.Forall₂ Rewrites h h') :
    List.Forall₂ Rewrites (h.dropWhile q) (h'.dropWhile q) := by
  induction hr with
  | nil => exact .nil
  | @cons x y xs ys hxy ht ih =>
    by_cases hx : q x = true
    · rwa [List.dropWhile_cons_of_pos hx, List.dropWhile_cons_of_pos (by rwa [hq' x y hxy])]
    · rw [List.dropWhile_cons_of_neg hx, List.dropWhile_cons_of_neg (by rwa [hq' x y hxy])]
      exact .cons hxy ht

theorem leading_rewrites {h h' : History} (hr : List.Forall₂ Rewrites h h') : leading h' = leading h :=
  takeWhile_rewrites (fun _ hm => .inr hm) (fun _ _ hxy => hxy.shape.isSystemMsg_eq.symm) hr

theorem rewriteFirst_forall₂ {R : Message → Message → Prop} (hrefl : ∀ m, R m m) {q : Message → Bool}
    {f : Message → Message} (hf : ∀ m, q m = true → R m (f m)) : ∀ (k : ℕ) (h : History),
    List.Forall₂ R h (rewriteFirst q f k h)
  | 0, h => by
    unfold rewriteFirst
    exact List.forall₂_same.mpr fun m _ => hrefl m
  | _ + 1, [] => .nil
  | k + 1, m :: ms => by
    unfold rewriteFirst
    split
    · next hm => exact .cons (hf m hm) (rewriteFirst_forall₂ hrefl hf k ms)
    · exact .cons (hrefl m) (rewriteFirst_forall₂ hrefl hf (k + 1) ms)

theorem rewriteFirst_rewrites {q : Message → Bool} {f : Message → Message}
    (hf : ∀ m, q m = true → Rewrites m (f m)) (k : ℕ) (h : History) :
    List.Forall₂ Rewrites h (rewriteFirst q f k h) :=
  rewriteFirst_forall₂ .refl hf k h

theorem stripStaleReasoning_rewrites (h : History) (keepLast : ℤ) :
    List.Forall₂ Rewrites h (stripStaleReasoning h keepLast) := by
  unfold stripStaleReasoning
  split
  · exact forall₂_rewrites_refl h
  · apply rewriteFirst_rewrites
    intro m hm
    refine ⟨⟨rfl, rfl, rfl⟩, fun hrole => ?_⟩
    -- only assistant messages carry reasoning
    simp only [carriesReasoning, isAssistantMsg, Bool.and_eq_true, beq_iff_eq] at hm
    simp [isUserMsg, isSystemMsg, hm.1] at hrole

/-- A change to a tool message that keeps its role, calls and id. -/
theorem rewrites_tool {m m' : Message} (hm : isToolMsg m = true) (h : SameShape m m') : Rewrites m m' := by
  refine ⟨h, fun hrole => ?_⟩
  simp only [isToolMsg, beq_iff_eq] at hm
  simp [isUserMsg, isSystemMsg, hm] at hrole

theorem compressOne_rewrites (d : List (String × String)) (n : ℕ) (names : List String) (o : Option ℕ)
    (ids : List String) (m : Message) : Rewrites m (compressOne d n names o ids m) := by
  unfold compressOne
  split
  · exact .refl m
  · next hm =>
    apply rewrites_tool (by simpa using (not_or.mp hm).1)
    dsimp only
    split_ifs
    all_goals exact ⟨rfl, rfl, rfl⟩

theorem compressWith_rewrites (h : History) (n : ℕ) (names : List String) (o : Option ℕ)
    (ids : List String) : List.Forall₂ Rewrites h (compressWith h n names o ids) := by
  unfold compressWith
  refine forall₂_rewrites_trans ?_ (stripStaleReasoning_rewrites _ 1)
  rw [List.forall₂_map_right_iff]
  exact List.forall₂_same.mpr fun m _ => compressOne_rewrites _ _ _ _ _ m

theorem rewrites_ite {p : Prop} [Decidable p] {m a b : Message} (ha : Rewrites m a) (hb : Rewrites m b) :
    Rewrites m (if p then a else b) := by
  split
  · exact ha
  · exact hb

theorem KeepLastN.elideOne_rewrites (c : KeepLastN) (d e f : List (String × String)) {m : Message}
    (hm : isToolMsg m = true) : Rewrites m (c.elideOne d e f m) := by
  have hcard : ∀ text refs, Rewrites m { toolMsg text m.toolCallId with spillRefs := refs } := by
    intro text refs
    refine rewrites_tool hm ⟨by simpa [isToolMsg, toolMsg] using hm, ?_, rfl⟩
    exact callIds_of_not_assistant (isAssistantMsg_of_tool hm)
  have hsame := Rewrites.refl m
  exact rewrites_ite hsame (rewrites_ite hsame (rewrites_ite hsame (rewrites_ite hsame (hcard _ _))))

theorem KeepLastN.compact_rewrites (c : KeepLastN) (h : History) :
    List.Forall₂ Rewrites h (c.compact h) := by
  unfold compact
  split
  · exact forall₂_rewrites_refl h
  · exact forall₂_rewrites_trans (stripStaleReasoning_rewrites h _)
      (rewriteFirst_rewrites (fun m hm => c.elideOne_rewrites _ _ _ hm) _ _)

/-! ### The cut -/

theorem drop_length_takeWhile {α : Type} (q : α → Bool) (l : List α) :
    l.drop (l.takeWhile q).length = l.dropWhile q := by
  induction l with
  | nil => rfl
  | cons x xs ih =>
    by_cases hx : q x = true
    · simp [hx, ih]
    · simp [hx]

/-- The walk back stops above no tool message. -/
theorem walkBack_cut {rest : History} (hr : rest.takeWhile isToolMsg = []) : ∀ i : ℕ,
    (rest.drop (walkBack rest i)).takeWhile isToolMsg = []
  | 0 => hr
  | i + 1 => by
    unfold walkBack
    split
    · exact walkBack_cut hr i
    · next hi =>
      cases hd : rest.drop (i + 1) with
      | nil => rfl
      | cons m ms =>
        have hget : rest[i + 1]? = some m := by
          rw [← List.head?_drop, hd, List.head?_cons]
        have hm : isToolMsg m = false := by simpa [hget] using hi
        simp [hm]

/-- No tool message stands right below the cut. -/
theorem splitIndex_cut {rest : History} (hr : rest.takeWhile isToolMsg = []) (keepRecent : ℕ) :
    (rest.drop (splitIndex rest keepRecent)).takeWhile isToolMsg = [] := by
  unfold splitIndex
  dsimp only
  split
  · rw [← List.drop_drop, drop_length_takeWhile]
    exact Groups.takeWhile_dropWhile _ _
  · split
    · exact walkBack_cut hr _
    · rw [List.drop_eq_nil_of_le (by omega)]
      rfl

/-- What a partition is made of: the system messages and at most the task,
then two parts of the rest; in a well-paired history the cut is at no tool
message. -/
theorem partition_cases (h : History) (keepRecent : ℕ) :
    ∃ pinned middle recent, partitionForCompaction h keepRecent = (leading h ++ pinned, middle, recent) ∧
      pinned ++ (middle ++ recent) = h.dropWhile isSystemMsg ∧
      (∀ m ∈ pinned, isUserMsg m = true) ∧
      (WellPaired h → recent.takeWhile isToolMsg = []) := by
  have hrest (hh : WellPaired h) : WellPaired (h.dropWhile isSystemMsg) :=
    WellPaired.dropWhile_plain (fun _ hm => plainMsg_of_system hm) hh
  generalize hr : h.dropWhile isSystemMsg = rest at hrest
  unfold partitionForCompaction
  rw [hr]
  dsimp only
  split
  · exact ⟨[], [], rest, by simp [leading], rfl, by simp, fun hh => (hrest hh).takeWhile_tool⟩
  · -- the pinned message is the first of the rest, and a user's
    set n := if 0 < keepRecent ∧ pinsFirst rest = true then 1 else 0 with hn
    have hpin : ∀ m ∈ rest.take n, isUserMsg m = true := by
      intro m hm
      by_cases hc : 0 < keepRecent ∧ pinsFirst rest = true
      · rw [hn, if_pos hc] at hm
        cases rest with
        | nil => simp at hm
        | cons x xs =>
          simp only [List.take_succ_cons, List.take_zero, List.mem_singleton] at hm
          subst hm
          have := hc.2
          simp only [pinsFirst, Bool.and_eq_true] at this
          exact this.1
      · rw [hn, if_neg hc] at hm
        simp at hm
    have hdrop (hh : WellPaired h) : WellPaired (rest.drop n) := by
      have hr := hrest hh
      rw [← List.take_append_drop n rest] at hr
      exact hr.of_plain_append fun m hm => plainMsg_of_user (hpin m hm)
    split
    · exact ⟨rest.take n, [], rest.drop n, rfl, by simp, hpin, fun hh => (hdrop hh).takeWhile_tool⟩
    · refine ⟨rest.take n, _, _, rfl, ?_, hpin, fun hh => splitIndex_cut (hdrop hh).takeWhile_tool _⟩
      rw [List.take_append_drop, List.take_append_drop]

/-- **The partition.** The three parts put together are the history, and none
of them starts inside a block: each is well paired on its own. -/
theorem partition_parts {h : History} (hh : WellPaired h) (keepRecent : ℕ) :
    let (lead, middle, recent) := partitionForCompaction h keepRecent
    lead ++ middle ++ recent = h ∧ WellPaired lead ∧ WellPaired middle ∧ WellPaired recent := by
  obtain ⟨pinned, middle, recent, heq, happ, hpin, hcut⟩ := partition_cases h keepRecent
  rw [heq]
  have hrest := WellPaired.dropWhile_plain (fun _ hm => plainMsg_of_system hm) hh
  rw [← happ] at hrest
  have hparts := (wellPaired_append (hcut hh)).mp
    (hrest.of_plain_append fun m hm => plainMsg_of_user (hpin m hm))
  refine ⟨?_, ?_, hparts.1, hparts.2⟩
  · rw [List.append_assoc, List.append_assoc, happ, leading_append_dropWhile]
  · exact (wellPaired_leading h).append_plain fun m hm => plainMsg_of_user (hpin m hm)

/-! ### Rebuilding a history -/

/-- A system message stands below the leading ones, with nothing but recovery
indices between. -/
def IndexHidesSystem (h : History) : Prop :=
  leading ((h.dropWhile isSystemMsg).dropWhile Tiered.isIndex) ≠ []

instance (h : History) : Decidable (IndexHidesSystem h) := by
  unfold IndexHidesSystem
  infer_instance

/-- What a compaction owes: a well-paired history with the leading system
messages, and no system message newly hidden by indices. -/
structure Keeps (h out : History) : Prop where
  paired : WellPaired out
  leading_eq : leading out = leading h
  hides : IndexHidesSystem out → IndexHidesSystem h

theorem Keeps.refl {h : History} (hh : WellPaired h) : Keeps h h := ⟨hh, rfl, id⟩

theorem Keeps.trans {a b c : History} (h : Keeps a b) (h' : Keeps b c) : Keeps a c :=
  ⟨h'.paired, h'.leading_eq.trans h.leading_eq, fun hc => h.hides (h'.hides hc)⟩

theorem isIndex_rewrites {m m' : Message} (h : Rewrites m m') : Tiered.isIndex m' = Tiered.isIndex m := by
  by_cases hu : isUserMsg m = true
  · rw [h.same (.inl hu)]
  · have hu' : isUserMsg m' = false := by
      simp only [isUserMsg, ← h.shape.1]
      simpa [isUserMsg] using hu
    simp [Tiered.isIndex, hu, hu']

theorem rewrites_keeps {h h' : History} (hh : WellPaired h) (hr : List.Forall₂ Rewrites h h') :
    Keeps h h' := by
  refine ⟨rewrites_wellPaired hh hr, leading_rewrites hr, fun hhid => ?_⟩
  have hd := dropWhile_rewrites (q := isSystemMsg) (fun _ _ hxy => hxy.shape.isSystemMsg_eq.symm) hr
  have hd' := dropWhile_rewrites (q := Tiered.isIndex) (fun _ _ hxy => isIndex_rewrites hxy) hd
  unfold IndexHidesSystem at *
  rwa [leading_rewrites hd'] at hhid

theorem leading_dropWhile_index {pinned : History} (hp : ∀ m ∈ pinned, isUserMsg m = true) {m : Message}
    (hm : isUserMsg m = true) (hi : Tiered.isIndex m = false) (rest : History) :
    leading ((pinned ++ m :: rest).dropWhile Tiered.isIndex) = [] := by
  induction pinned with
  | nil =>
    rw [List.nil_append, List.dropWhile_cons_of_neg (by simp [hi])]
    exact leading_user_cons hm rest
  | cons x xs ih =>
    by_cases hx : Tiered.isIndex x = true
    · rw [List.cons_append, List.dropWhile_cons_of_pos hx]
      exact ih fun y hy => hp y (by simp [hy])
    · rw [List.cons_append, List.dropWhile_cons_of_neg hx]
      exact leading_user_cons (hp x (by simp)) _

theorem leading_users_cons {pinned : History} (hp : ∀ m ∈ pinned, isUserMsg m = true) {m : Message}
    (hm : isUserMsg m = true) (rest : History) : leading (pinned ++ m :: rest) = [] := by
  cases pinned with
  | nil => exact leading_user_cons hm rest
  | cons x xs => exact leading_user_cons (hp x (by simp)) _

theorem dropWhile_leading_append (h : History) {x : History} (hx : leading x = []) :
    (leading h ++ x).dropWhile isSystemMsg = x := by
  unfold leading at *
  rw [List.dropWhile_append_of_pos fun m hm => List.mem_takeWhile_imp hm]
  cases x with
  | nil => rfl
  | cons m ms =>
    by_cases hm : isSystemMsg m = true
    · simp [hm] at hx
    · simp [hm]

/-- The leading system messages, some user messages, a rollup and a well-paired
rest. -/
theorem rebuild_keeps (h : History) {pinned : History} (hp : ∀ m ∈ pinned, isUserMsg m = true)
    {m : Message} (hm : isUserMsg m = true) (hi : Tiered.isIndex m = false) {rest : History}
    (hrest : WellPaired rest) : Keeps h (leading h ++ (pinned ++ m :: rest)) := by
  have hlead := leading_users_cons hp hm rest
  refine ⟨?_, leading_leading_append h hlead, fun hhid => ?_⟩
  · refine (wellPaired_leading h).append ?_
    have hmid : WellPaired (pinned ++ [m]) := by
      refine wellPaired_plain fun x hx => plainMsg_of_user ?_
      rcases List.mem_append.mp hx with hx | hx
      · exact hp x hx
      · rw [List.mem_singleton.mp hx]
        exact hm
    have := hmid.append hrest
    rwa [List.append_assoc] at this
  · unfold IndexHidesSystem at hhid
    rw [dropWhile_leading_append h hlead, leading_dropWhile_index hp hm hi] at hhid
    exact absurd rfl hhid

theorem startsWith_compacted (s : String) :
    Text.startsWith ("[Compact" ++ s) spillManifestHeader = false := by
  simp only [Text.startsWith, String.toList_append]
  rfl

theorem isIndex_userMsg_compacted (s : String) : Tiered.isIndex (userMsg ("[Compact" ++ s)) = false := by
  simp [Tiered.isIndex, userMsg, textOf, startsWith_compacted]

theorem isIndex_squash (middle : History) : Tiered.isIndex (squash middle) = false := by
  unfold squash
  dsimp only
  rw [show "[Compacted " = "[Compact" ++ "ed " from rfl]
  split
  · simp only [String.append_assoc]
    exact isIndex_userMsg_compacted _
  · simp only [String.append_assoc]
    exact isIndex_userMsg_compacted _

/-- The deterministic squash keeps pairing and leading system messages. -/
theorem compactMessages_keeps {h : History} (hh : WellPaired h) (keepRecent : ℕ) :
    Keeps h (compactMessages h keepRecent) := by
  obtain ⟨pinned, middle, recent, heq, _, hpin, _⟩ := partition_cases h keepRecent
  have hparts := partition_parts hh keepRecent
  unfold compactMessages
  simp only [heq] at hparts ⊢
  split
  · exact .refl hh
  · rw [List.append_assoc]
    exact rebuild_keeps h hpin rfl (isIndex_squash middle) hparts.2.2.2

/-! ### The summarizer -/

namespace LlmSummary

theorem isIndex_summaryMsg (text : String) : Tiered.isIndex (summaryMsg text) = false := by
  unfold summaryMsg
  rw [show "[Compacted summary of earlier turns — older raw messages " =
    "[Compact" ++ "ed summary of earlier turns — older raw messages " from rfl]
  simp only [String.append_assoc]
  exact isIndex_userMsg_compacted _

theorem isIndex_failedMsg (n : ℕ) (reason : String) : Tiered.isIndex (failedMsg n reason) = false := by
  unfold failedMsg
  rw [show "[Compaction failed — " = "[Compact" ++ "ion failed — " from rfl]
  simp only [String.append_assoc]
  exact isIndex_userMsg_compacted _

theorem rollback_keeps (c : LlmSummary) {h : History} (hh : WellPaired h) {pinned : History}
    (hp : ∀ m ∈ pinned, isUserMsg m = true) (dropped keepRecent : ℕ) (reason : String) :
    Keeps h (c.rollback h (leading h ++ pinned) dropped keepRecent reason) := by
  unfold rollback
  cases c.failureFallback with
  | deterministic => exact compactMessages_keeps hh keepRecent
  | panic =>
    dsimp only
    rw [List.append_assoc]
    refine rebuild_keeps h hp rfl (isIndex_failedMsg dropped reason) (wellPaired_plain fun m hm => ?_)
    cases hu : lastHumanMessage h with
    | none => simp [hu] at hm
    | some u =>
      -- the latest user message is a user message, in the list or not
      have huser : isUserMsg u = true := List.find?_some hu
      rw [hu] at hm
      dsimp only at hm
      split at hm
      · simp at hm
      · rw [List.mem_singleton.mp hm]
        exact plainMsg_of_user huser

theorem stringSlice_keeps {h : History} (hh : WellPaired h) (keepRecent : ℕ) :
    Keeps h (stringSlice h keepRecent) := by
  obtain ⟨pinned, middle, recent, heq, _, hpin, _⟩ := partition_cases h keepRecent
  have hparts := partition_parts hh keepRecent
  have hcompact := compactMessages_keeps hh keepRecent
  unfold stringSlice
  simp only [heq] at hparts ⊢
  split
  · exact hcompact
  · cases hf : middle.find? isOriginalTask with
    | none => exact hcompact
    | some task =>
      have htask : isUserMsg task = true := by
        have := List.find?_some hf
        simp only [isOriginalTask, Bool.and_eq_true] at this
        exact this.1
      have hmid : middle ≠ [] := by
        rintro rfl
        simp at hf
      -- the squash is put together again with the task among the pinned messages
      unfold compactMessages insertBelowSystem
      simp only [heq, if_neg hmid, List.append_assoc]
      have hlead := leading_users_cons hpin (m := squash middle) rfl recent
      rw [dropWhile_leading_append h hlead]
      have htake : List.takeWhile isSystemMsg (leading h ++ (pinned ++ squash middle :: recent)) = leading h :=
        leading_leading_append h hlead
      rw [htake]
      have hpin' : ∀ m ∈ task :: pinned, isUserMsg m = true := by
        simpa [htask] using hpin
      exact rebuild_keeps h hpin' rfl (isIndex_squash middle) hparts.2.2.2

/-- Whatever the summarizer comes back with. -/
theorem compact_keeps (c : LlmSummary) (est : String → ℕ) {h : History} (hh : WellPaired h)
    (keepRecent : ℕ) (compressAll : Bool) (outcome : SummaryOutcome) :
    Keeps h (c.compact est h keepRecent compressAll outcome).1 := by
  unfold compact
  set source := if compressAll = true then compressWith h toolResultCompactMaxChars [] none [] else h
    with hsource
  have hs : Keeps h source := by
    rw [hsource]
    split
    · exact rewrites_keeps hh (compressWith_rewrites h _ _ _ _)
    · exact .refl hh
  refine hs.trans ?_
  obtain ⟨pinned, middle, recent, heq, _, hpin, _⟩ := partition_cases source keepRecent
  have hparts := partition_parts hs.paired keepRecent
  simp only [heq] at hparts ⊢
  split
  · exact stringSlice_keeps hs.paired keepRecent
  · split
    · exact .refl hs.paired
    · split
      · exact rollback_keeps c hs.paired hpin _ _ _
      · dsimp only
        rw [List.append_assoc]
        exact rebuild_keeps source hpin rfl (isIndex_summaryMsg _) hparts.2.2.2

end LlmSummary

/-! ### The recovery index -/

namespace Tiered

/-- What a tiered pass owes: the leading system messages stay in front, and
are all there is in front unless an index was hiding another. -/
structure KeepsHead (h out : History) : Prop where
  paired : WellPaired out
  head : leading h <+: out
  leading_eq : ¬ IndexHidesSystem h → leading out = leading h

theorem KeepsHead.of_keeps {h out : History} (hk : Keeps h out) : KeepsHead h out :=
  ⟨hk.paired, hk.leading_eq ▸ List.takeWhile_prefix _, fun _ => hk.leading_eq⟩

theorem KeepsHead.of_trans {a b c : History} (h : Keeps a b) (h' : KeepsHead b c) : KeepsHead a c :=
  ⟨h'.paired, h.leading_eq ▸ h'.head, fun ha =>
    (h'.leading_eq fun hb => ha (h.hides hb)).trans h.leading_eq⟩

theorem isUserMsg_of_isIndex {m : Message} (h : isIndex m = true) : isUserMsg m = true := by
  simp only [isIndex, Bool.and_eq_true] at h
  exact h.1

/-- The index replaced stands in front of what is left of the messages below
it, without their indices. -/
theorem replaceIndex_split : ∀ {ms : History}, ms.any isIndex = true →
    ∃ above i below, ms = above ++ i :: below ∧ isIndex i = true ∧
      ∀ index, replaceIndex index ms = above ++ (index.toList ++ below.filter fun x => !isIndex x)
  | [], h => by simp at h
  | m :: ms, h => by
    by_cases hm : isIndex m = true
    · exact ⟨[], m, ms, rfl, hm, fun index => by simp [replaceIndex, hm]⟩
    · obtain ⟨above, i, below, rfl, hi, hrep⟩ := replaceIndex_split (by simpa [hm] using h : ms.any isIndex = true)
      exact ⟨m :: above, i, below, rfl, hi, fun index => by simp [replaceIndex, hm, hrep]⟩

theorem leading_filter_index : ∀ {below : History}, leading (below.dropWhile isIndex) = [] →
    leading (below.filter fun x => !isIndex x) = []
  | [], _ => rfl
  | m :: ms, h => by
    by_cases hm : isIndex m = true
    · rw [List.dropWhile_cons_of_pos hm] at h
      rw [List.filter_cons_of_neg (by simp [hm])]
      exact leading_filter_index h
    · rw [List.dropWhile_cons_of_neg hm] at h
      rw [List.filter_cons_of_pos (by simp [hm])]
      by_cases hs : isSystemMsg m = true
      · simp [leading, hs] at h
      · simp [leading, hs]

theorem leading_append_user {i : Message} (hi : isUserMsg i = true) (below : History) :
    ∀ above : History, leading (above ++ i :: below) = leading above
  | [] => leading_user_cons hi below
  | m :: ms => by
    have ih := leading_append_user hi below ms
    unfold leading at *
    by_cases hm : isSystemMsg m = true
    · simp [hm, ih]
    · simp [hm]

theorem replaceIndex_keepsHead {ms : History} (hms : WellPaired ms) (hany : ms.any isIndex = true)
    {index : Option Message} (hindex : ∀ x ∈ index, isUserMsg x = true) :
    KeepsHead ms (replaceIndex index ms) := by
  obtain ⟨above, i, below, rfl, hi, hrep⟩ := replaceIndex_split hany
  have hiu := isUserMsg_of_isIndex hi
  have hcut : (i :: below).takeWhile isToolMsg = [] := by simp [isToolMsg_of_user hiu]
  obtain ⟨habove, hi_below⟩ := (wellPaired_append hcut).mp hms
  have hbelow := hi_below.of_plain_cons (plainMsg_of_user hiu)
  have hfilter : WellPaired (below.filter fun x => !isIndex x) :=
    hbelow.filter_plain fun m _ hm => plainMsg_of_user (isUserMsg_of_isIndex (by simpa using hm))
  rw [hrep]
  refine ⟨?_, ?_, fun hhid => ?_⟩
  · refine habove.append ((wellPaired_plain fun m hm => plainMsg_of_user ?_).append hfilter)
    exact hindex m (by simpa using hm)
  · rw [leading_append_user hiu]
    exact (List.takeWhile_prefix _).trans (List.prefix_append _ _)
  · rw [leading_append_user hiu]
    cases index with
    | some x => exact leading_append_user (hindex x rfl) _ above
    | none =>
      by_cases hall : ∀ m ∈ above, isSystemMsg m = true
      · -- nothing but system messages above: what comes up next is no system message
        have hself : leading above = above := List.takeWhile_eq_self_iff.mpr hall
        have hdrop : (above ++ i :: below).dropWhile isSystemMsg = i :: below := by
          have := dropWhile_leading_append above (leading_user_cons hiu below)
          rwa [hself] at this
        have hnil : leading (below.dropWhile isIndex) = [] := by
          by_contra hne
          refine hhid ?_
          unfold IndexHidesSystem
          rwa [hdrop, List.dropWhile_cons_of_pos hi]
        have := leading_leading_append above (leading_filter_index hnil)
        rw [hself] at this ⊢
        exact this
      · unfold leading
        rw [List.takeWhile_append, if_neg]
        intro hlen
        refine hall fun m hm => ?_
        have hself := (List.takeWhile_prefix isSystemMsg (l := above)).eq_of_length hlen
        exact List.takeWhile_eq_self_iff.mp hself m hm

theorem indexPosition_cases (ms : History) : indexPosition ms = (leading ms).length ∨
    ∃ u rest, ms.dropWhile isSystemMsg = u :: rest ∧ isUserMsg u = true ∧
      indexPosition ms = (leading ms).length + 1 := by
  unfold indexPosition leading
  dsimp only
  split
  · next u hu =>
    split
    · next hc =>
      simp only [Bool.and_eq_true] at hc
      refine .inr ⟨u, (ms.dropWhile isSystemMsg).tail, ?_, hc.1.1, rfl⟩
      rw [← List.head?_drop, drop_length_takeWhile] at hu
      exact List.eq_cons_of_mem_head? hu
    · exact .inl rfl
  · exact .inl rfl

/-- A new index goes below the leading system messages and at most a user
message. -/
theorem indexPosition_split (ms : History) : ∃ task rest, ms.dropWhile isSystemMsg = task ++ rest ∧
    (∀ m ∈ task, isUserMsg m = true) ∧ ms.take (indexPosition ms) = leading ms ++ task ∧
    ms.drop (indexPosition ms) = rest := by
  have htake : ∀ k, ms.take ((leading ms).length + k) = leading ms ++ (ms.dropWhile isSystemMsg).take k := by
    intro k
    rw [← List.take_length_add_append, leading_append_dropWhile]
  have hdrop : ∀ k, ms.drop ((leading ms).length + k) = (ms.dropWhile isSystemMsg).drop k := by
    intro k
    rw [← List.drop_drop]
    exact congrArg _ (drop_length_takeWhile _ _)
  rcases indexPosition_cases ms with hpos | ⟨u, rest, hd, hu, hpos⟩
  · refine ⟨[], ms.dropWhile isSystemMsg, rfl, by simp, ?_, ?_⟩
    · simpa [hpos] using htake 0
    · simpa [hpos] using hdrop 0
  · refine ⟨[u], rest, hd, by simp [hu], ?_, ?_⟩
    · rw [hpos, htake, hd, List.take_succ_cons, List.take_zero]
    · rw [hpos, hdrop, hd, List.drop_succ_cons, List.drop_zero]

theorem insertIndex_keeps {ms : History} (hms : WellPaired ms) {index : Message}
    (hu : isUserMsg index = true) :
    WellPaired (ms.take (indexPosition ms) ++ index :: ms.drop (indexPosition ms)) ∧
      leading (ms.take (indexPosition ms) ++ index :: ms.drop (indexPosition ms)) = leading ms := by
  obtain ⟨task, rest, hd, htask, htake, hdrop⟩ := indexPosition_split ms
  have hrest : WellPaired rest := by
    have := WellPaired.dropWhile_plain (fun _ hm => plainMsg_of_system hm) hms
    rw [hd] at this
    exact this.of_plain_append fun m hm => plainMsg_of_user (htask m hm)
  rw [htake, hdrop, List.append_assoc]
  refine ⟨?_, leading_leading_append ms (leading_users_cons htask hu rest)⟩
  rw [← List.append_assoc]
  refine ((wellPaired_leading ms).append_plain fun m hm => plainMsg_of_user (htask m hm)).append ?_
  exact (wellPaired_plain (by simpa using plainMsg_of_user hu : ∀ m ∈ [index], PlainMsg m)).append hrest

theorem withSpillManifest_keepsHead (c : Tiered) {ms : History} (hms : WellPaired ms)
    (refs : List String) : KeepsHead ms (c.withSpillManifest ms refs) := by
  unfold withSpillManifest
  split
  · exact .of_keeps (.refl hms)
  · dsimp only
    split
    · next hany =>
      refine replaceIndex_keepsHead hms hany fun x hx => ?_
      split at hx
      · simp at hx
      · rw [← Option.mem_some.mp hx]
        rfl
    · split
      · exact .of_keeps (.refl hms)
      · next index hindex =>
        have hu : isUserMsg index = true := by
          split at hindex
          · simp at hindex
          · rw [← Option.some.inj hindex]
            rfl
        obtain ⟨hp, hl⟩ := insertIndex_keeps hms hu
        exact ⟨hp, hl ▸ List.takeWhile_prefix _, fun _ => hl⟩

/-! ### A tiered pass -/

/-- Tool compression at any width leaves every block in place. -/
theorem compressed_rewrites (c : Tiered) (h : History) (width : ℕ) : List.Forall₂ Rewrites h (c.compressed h width) :=
  compressWith_rewrites h width c.tier1.protectToolNames none (c.preserved h)

/-- Whichever tier wins, with any summarizer outcome. -/
theorem compact_keepsHead (c : Tiered) (est : String → ℕ) (st : TieredState) (reliefMet : ℕ → Bool)
    (outcome : SummaryOutcome) {h : History} (hh : WellPaired h) (keepRecent : ℕ) :
    KeepsHead h (c.compact est st reliefMet outcome h keepRecent).1 := by
  rcases c.compact_cases est st reliefMet outcome h keepRecent with ⟨hout, -⟩ | ⟨w, -, hout, -⟩ | ⟨hout, -⟩
  all_goals rw [hout]
  · exact .of_keeps (rewrites_keeps hh (c.tier1.compact_rewrites h))
  · have hk := rewrites_keeps hh (c.compressed_rewrites h w)
    exact .of_trans hk (c.withSpillManifest_keepsHead hk.paired _)
  · have hinput := rewrites_keeps hh (c.compressed_rewrites h toolResultCompactMaxChars)
    have hsum := hinput.trans (c.tier2.compact_keeps est hinput.paired keepRecent false outcome)
    exact .of_trans hsum (c.withSpillManifest_keepsHead hsum.paired _)

end Tiered

/-! ### All compactors -/

/-- **Compaction keeps a history well paired.** The partition cuts no block,
and what each compactor returns is well paired and begins with the leading
system messages: with exactly these, but for a tiered pass over a history in
which a recovery index hides a further system message. -/
theorem compaction_keeps_pairing {h : History} (hh : WellPaired h) (keepRecent : ℕ) :
    (let (lead, middle, recent) := partitionForCompaction h keepRecent
     lead ++ middle ++ recent = h ∧ WellPaired lead ∧ WellPaired middle ∧ WellPaired recent) ∧
    (WellPaired (compactMessages h keepRecent) ∧ leading (compactMessages h keepRecent) = leading h) ∧
    (∀ (c : LlmSummary) (est : String → ℕ) (compressAll : Bool) (outcome : SummaryOutcome),
      let out := (c.compact est h keepRecent compressAll outcome).1
      WellPaired out ∧ leading out = leading h) ∧
    (∀ (c : Tiered) (est : String → ℕ) (st : TieredState) (reliefMet : ℕ → Bool) (outcome : SummaryOutcome),
      let out := (c.compact est st reliefMet outcome h keepRecent).1
      WellPaired out ∧ leading h <+: out ∧ (¬ IndexHidesSystem h → leading out = leading h)) := by
  refine ⟨partition_parts hh keepRecent, ?_, fun c est compressAll outcome => ?_,
    fun c est st reliefMet outcome => ?_⟩
  · have hk := compactMessages_keeps hh keepRecent
    exact ⟨hk.paired, hk.leading_eq⟩
  · have hk := c.compact_keeps est hh keepRecent compressAll outcome
    exact ⟨hk.paired, hk.leading_eq⟩
  · have hk := c.compact_keepsHead est st reliefMet outcome hh keepRecent
    exact ⟨hk.paired, hk.head, hk.leading_eq⟩

/-- A history of one answered call. -/
def calledOnce : History :=
  [systemMsg "s", userMsg "task", assistantMsg (.text "") [⟨"c1", "search", "{}"⟩] "",
    toolMsg "found" "c1", assistantMsg (.text "done") [] ""]

theorem compaction_keeps_pairing_calledOnce :
    WellPaired calledOnce ∧ WellPaired (compactMessages calledOnce 2) ∧
      (compactMessages calledOnce 2).length = 4 :=
  ⟨by decide, (compaction_keeps_pairing (by decide : WellPaired calledOnce) 2).2.1.1, by decide⟩

/-- A system message below a recovery index, and two assistant messages that
carry their reasoning. -/
def hiddenSystem : History :=
  [systemMsg "s", { userMsg "index" with spillRefs := some ["/spill/a.txt"] }, systemMsg "t",
    assistantMsg (.text "one") [] "a long line of reasoning", assistantMsg (.text "two") [] "more"]

/-- A compactor whose recovery index has room for its header and one short
handle. -/
def smallManifest : Tiered where
  tier1 := ⟨5, [], none, defaultRecoveryFooter, 1, keep_five⟩
  hasSummaryLlm := true
  spillRecoverable := false
  manifestMaxPaths := some 20
  manifestMaxChars := some 90
  maxPaths_pos := twenty_paths
  maxChars_ge := by decide
  recoverable_spill := five_without_spill

/-- The handle does not fit, the index goes, and the second system message
joins the leading ones. -/
theorem tiered_leading_grows :
    WellPaired hiddenSystem ∧ leading hiddenSystem = [systemMsg "s"] ∧
      leading (smallManifest.compact (fun s => s.length / 4) ⟨0, none⟩ (fun n => decide (n ≤ 25))
        ⟨"", 0, "", ""⟩ hiddenSystem 2).1 = [systemMsg "s", systemMsg "t"] := by
  decide +kernel

end Compaction
end AgentCore
