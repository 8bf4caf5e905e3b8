/-
# Trimming and remapping

`message_trimmer.py` trims a history twice over: `TaskBoundaryTrimmer.trim`
returns the messages that seed the next run, and `trim_and_remap_boundaries`
the messages kept together with the boundaries that go with them. The indices
are Python's integers, so a boundary may start before the first message or end
anywhere.

Both loops keep one block of messages for each boundary (`blockOf`), and the
remapped boundaries are the places of the blocks (`placesFrom`); what is said
of trimming is said of these.

Key definitions: `Span`, `TaskBoundaryTrimmer.trim`, `trimAndRemapSpans`,
`InOrder`, `ValidFor`, `Remapped`.
Key theorems: `trimAndRemapSpans_cast`, `trim_and_remap_agree`.
-/
import AgentCore.Lib.Groups
import AgentCore.AgentBus.Boundaries
import Mathlib.Data.Int.Order.Basic
import Mathlib.Data.List.Forall2

namespace AgentCore
namespace AgentBus

/-- `(start_index, end_index_or_None)`, of any integers. -/
abbrev Span := ℤ × Option ℤ

/-- `find_final_assistant` from a `start` that is not negative: the range is
empty for an end before it. -/
def findFinalBetween (ms : History) (start stop : ℤ) : Option Message :=
  if stop < start then none else findFinalAssistant ms start.toNat stop.toNat

/-- One round of the loop in `TaskBoundaryTrimmer.trim`. -/
def trimSpan (ms : History) (trimmed : History) (b : Span) : History :=
  let (start, stop) := b
  if start < 0 ∨ ms.length ≤ start then trimmed
  else
    match stop with
    | none => trimmed ++ ms.drop start.toNat
    | some stop =>
      let trimmed := trimmed ++ ms[start.toNat]?.toList
      match findFinalBetween ms (start + 1) stop with
      | some final => trimmed ++ [final]
      | none => trimmed

/-- `TaskBoundaryTrimmer.trim`. -/
def TaskBoundaryTrimmer.trim (ms : History) (boundaries : Option (List Span)) : History :=
  match boundaries with
  | none => ms
  | some bs =>
    if bs.isEmpty || ms.isEmpty then ms
    else
      let completed := bs.filter (·.2.isSome)
      if completed.isEmpty then ms else bs.foldl (trimSpan ms) []

/-- One round of the loop in `trim_and_remap_boundaries`. -/
def remapSpan (ms : History) (kept : History × List Span) (b : Span) : History × List Span :=
  let (newMessages, newBoundaries) := kept
  let (start, stop) := b
  if start < 0 ∨ ms.length ≤ start then kept
  else
    let newStart : ℤ := newMessages.length
    match stop with
    | none => (newMessages ++ ms.drop start.toNat, newBoundaries ++ [(newStart, none)])
    | some stop =>
      let newMessages := newMessages ++ ms[start.toNat]?.toList
      match findFinalBetween ms (start + 1) stop with
      | some final => (newMessages ++ [final], newBoundaries ++ [(newStart, some (newStart + 1))])
      | none => (newMessages, newBoundaries ++ [(newStart, some newStart)])

/-- `trim_and_remap_boundaries`. -/
def trimAndRemapSpans (ms : History) (bs : List Span) : History × List Span :=
  if bs.isEmpty || ms.isEmpty then (ms, bs)
  else if bs.any (·.2.isSome) then bs.foldl (remapSpan ms) ([], [])
  else (ms, bs)

/-! ### Blocks and their places -/

/-- The boundary starts at one of the messages. -/
def starts (ms : History) (b : Span) : Bool := 0 ≤ b.1 && b.1 < ms.length

/-- What is kept of the messages of a boundary. -/
def blockOf (ms : History) (b : Span) : History :=
  if starts ms b then
    match b.2 with
    | none => ms.drop b.1.toNat
    | some stop => ms[b.1.toNat]?.toList ++ (findFinalBetween ms (b.1 + 1) stop).toList
  else []

/-- Where a boundary ends whose block begins at `place`. -/
def endOf (ms : History) (place : ℕ) (b : Span) : Option ℤ :=
  b.2.map fun stop => if (findFinalBetween ms (b.1 + 1) stop).isSome then (place : ℤ) + 1 else place

/-- The boundaries of the blocks, laid out from `place` on. -/
def placesFrom (ms : History) : ℕ → List Span → List Span
  | _, [] => []
  | place, b :: bs =>
    if starts ms b then ((place : ℤ), endOf ms place b) :: placesFrom ms (place + (blockOf ms b).length) bs
    else placesFrom ms place bs

theorem starts_iff {ms : History} {b : Span} : starts ms b = true ↔ 0 ≤ b.1 ∧ b.1 < ms.length := by
  simp [starts]

theorem trimSpan_eq (ms trimmed : History) (b : Span) : trimSpan ms trimmed b = trimmed ++ blockOf ms b := by
  obtain ⟨start, stop⟩ := b
  unfold trimSpan blockOf
  by_cases hs : starts ms (start, stop) = true
  · obtain ⟨h0, h1⟩ := starts_iff.mp hs
    dsimp only at h0 h1 ⊢
    rw [if_neg (by omega), if_pos hs]
    cases stop with
    | none => rfl
    | some stop =>
      dsimp only
      cases findFinalBetween ms (start + 1) stop with
      | none => rw [Option.toList_none, List.append_nil]
      | some final => rw [Option.toList_some, ← List.append_assoc]
  · have hout : start < 0 ∨ (ms.length : ℤ) ≤ start := by
      rw [starts_iff] at hs
      dsimp only at hs
      omega
    dsimp only
    rw [if_pos hout, if_neg hs, List.append_nil]

theorem remapSpan_eq (ms nm : History) (nb : List Span) (b : Span) :
    remapSpan ms (nm, nb) b = (nm ++ blockOf ms b, nb ++ placesFrom ms nm.length [b]) := by
  obtain ⟨start, stop⟩ := b
  unfold remapSpan blockOf placesFrom placesFrom
  by_cases hs : starts ms (start, stop) = true
  · obtain ⟨h0, h1⟩ := starts_iff.mp hs
    dsimp only at h0 h1 ⊢
    rw [if_neg (by omega), if_pos hs, if_pos hs]
    cases stop with
    | none => rfl
    | some stop =>
      dsimp only [endOf, Option.map_some]
      cases findFinalBetween ms (start + 1) stop with
      | none =>
        rw [Option.toList_none, List.append_nil]
        rfl
      | some final =>
        rw [Option.toList_some, ← List.append_assoc]
        rfl
  · have hout : start < 0 ∨ (ms.length : ℤ) ≤ start := by
      rw [starts_iff] at hs
      dsimp only at hs
      omega
    dsimp only
    rw [if_pos hout, if_neg hs, if_neg hs, List.append_nil, List.append_nil]

theorem trimSpan_fold (ms : History) : ∀ (bs : List Span) (trimmed : History),
    bs.foldl (trimSpan ms) trimmed = trimmed ++ bs.flatMap (blockOf ms)
  | [], trimmed => by simp
  | b :: bs, trimmed => by
    rw [List.foldl_cons, trimSpan_eq, trimSpan_fold ms bs, List.flatMap_cons, List.append_assoc]

theorem remapSpan_fold (ms : History) : ∀ (bs : List Span) (nm : History) (nb : List Span),
    bs.foldl (remapSpan ms) (nm, nb) = (nm ++ bs.flatMap (blockOf ms), nb ++ placesFrom ms nm.length bs)
  | [], nm, nb => by simp [placesFrom]
  | b :: bs, nm, nb => by
    rw [List.foldl_cons, remapSpan_eq, remapSpan_fold ms bs, List.flatMap_cons, List.append_assoc, List.append_assoc]
    congr 2
    rw [List.length_append]
    by_cases hs : starts ms b = true
    · simp only [placesFrom, if_pos hs]
      rfl
    · simp only [placesFrom, if_neg hs, blockOf]
      rfl

/-- **Both loops keep the same messages.** -/
theorem trimAndRemapSpans_eq (ms : History) (bs : List Span) :
    trimAndRemapSpans ms bs = (ms, bs) ∧ TaskBoundaryTrimmer.trim ms (some bs) = ms ∧
        (ms = [] ∨ ∀ b ∈ bs, b.2 = none) ∨
      trimAndRemapSpans ms bs = (bs.flatMap (blockOf ms), placesFrom ms 0 bs) ∧
        TaskBoundaryTrimmer.trim ms (some bs) = bs.flatMap (blockOf ms) ∧ ms ≠ [] ∧ ∃ b ∈ bs, b.2.isSome := by
  unfold trimAndRemapSpans TaskBoundaryTrimmer.trim
  dsimp only
  by_cases hempty : (bs.isEmpty || ms.isEmpty) = true
  · rw [if_pos hempty, if_pos hempty]
    refine .inl ⟨rfl, rfl, ?_⟩
    rcases Bool.or_eq_true_iff.mp hempty with hb | hm
    · exact .inr (by simp [List.isEmpty_iff.mp hb])
    · exact .inl (List.isEmpty_iff.mp hm)
  · rw [if_neg hempty, if_neg hempty]
    have hms : ms ≠ [] := by
      rintro rfl
      simp at hempty
    by_cases hany : bs.any (·.2.isSome) = true
    · have hcompleted : ¬ (bs.filter (·.2.isSome)).isEmpty = true := by
        rw [List.isEmpty_iff, List.filter_eq_nil_iff]
        intro hall
        obtain ⟨b, hb, hsome⟩ := List.any_eq_true.mp hany
        exact hall b hb hsome
      rw [if_pos hany, if_neg hcompleted, remapSpan_fold, trimSpan_fold, List.nil_append, List.nil_append]
      exact .inr ⟨rfl, rfl, hms, List.any_eq_true.mp hany⟩
    · have hall : ∀ b ∈ bs, b.2 = none := by
        intro b hb
        rw [List.any_eq_true, not_exists] at hany
        exact Option.not_isSome_iff_eq_none.mp fun hsome => hany b ⟨hb, hsome⟩
      have hcompleted : (bs.filter (·.2.isSome)).isEmpty = true := by
        rw [List.isEmpty_iff, List.filter_eq_nil_iff]
        intro b hb
        simp [hall b hb]
      rw [if_neg hany, if_pos hcompleted]
      exact .inl ⟨rfl, rfl, .inr hall⟩

/-! ### What is kept of a boundary -/

/-- The boundaries stand one behind the other, each with its end behind its
start, and only the last may be open. -/
structure InOrder (bs : List Span) : Prop where
  ordered : bs.Pairwise fun x y => ∃ stop, x.2 = some stop ∧ stop < y.1
  closed_le : ∀ b ∈ bs, ∀ stop, b.2 = some stop → b.1 ≤ stop

/-- The boundaries are in order and within the messages. -/
structure ValidFor (ms : History) (bs : List Span) : Prop where
  inOrder : InOrder bs
  within : ∀ b ∈ bs, starts ms b = true
  stops : ∀ b ∈ bs, ∀ stop, b.2 = some stop → stop < ms.length

/-- What the boundary `b` of `ms` has become in `nm`: it begins at the same
prompt; an open one has all its messages behind it; a closed one ends at its
final assistant message, and at its prompt if there is none. -/
structure Remapped (ms nm : History) (b b' : Span) : Prop where
  within : starts nm b' = true
  prompt : nm[b'.1.toNat]? = ms[b.1.toNat]?
  isOpen : b.2 = none → b'.2 = none ∧ nm.drop b'.1.toNat = ms.drop b.1.toNat
  isClosed : ∀ stop, b.2 = some stop → ∃ stop', b'.2 = some stop' ∧
    ∀ final, findFinalBetween ms (b.1 + 1) stop = some final → nm[stop'.toNat]? = some final ∧ isFinal final = true
  noFinal : ∀ stop, b.2 = some stop → findFinalBetween ms (b.1 + 1) stop = none → b'.2 = some b'.1

theorem InOrder.tail {b : Span} {bs : List Span} (h : InOrder (b :: bs)) : InOrder bs :=
  ⟨(List.pairwise_cons.mp h.ordered).2, fun x hx => h.closed_le x (List.mem_cons_of_mem _ hx)⟩

/-- Nothing stands behind an open boundary. -/
theorem InOrder.nil_of_open {b : Span} {bs : List Span} (h : InOrder (b :: bs)) (hb : b.2 = none) : bs = [] := by
  rcases bs with _ | ⟨c, cs⟩
  · rfl
  · obtain ⟨stop, hstop, -⟩ := (List.pairwise_cons.mp h.ordered).1 c List.mem_cons_self
    rw [hb] at hstop
    cases hstop

theorem isFinal_of_findFinalBetween {ms : History} {start stop : ℤ} {m : Message}
    (h : findFinalBetween ms start stop = some m) : isFinal m = true := by
  unfold findFinalBetween at h
  split at h
  · cases h
  · exact isFinal_of_findFinalAssistant h

/-- A block begins with the prompt. -/
theorem blockOf_eq_cons {ms : History} {b : Span} (hs : starts ms b = true) :
    ∃ prompt rest, ms[b.1.toNat]? = some prompt ∧ blockOf ms b = prompt :: rest ∧
      (b.2 = none → blockOf ms b = ms.drop b.1.toNat) ∧
      ∀ stop, b.2 = some stop → rest = (findFinalBetween ms (b.1 + 1) stop).toList := by
  obtain ⟨h0, h1⟩ := starts_iff.mp hs
  have hlt : b.1.toNat < ms.length := by omega
  have hprompt : ms[b.1.toNat]? = some ms[b.1.toNat] := List.getElem?_eq_getElem hlt
  rw [blockOf, if_pos hs]
  cases hstop : b.2 with
  | none => exact ⟨ms[b.1.toNat], _, hprompt, List.drop_eq_getElem_cons hlt, fun _ => rfl, by simp⟩
  | some stop =>
    refine ⟨ms[b.1.toNat], (findFinalBetween ms (b.1 + 1) stop).toList, hprompt, ?_, by simp, ?_⟩
    · dsimp only
      rw [hprompt, Option.toList_some, List.singleton_append]
    · intro stop' hstop'
      rw [Option.some.inj hstop']

/-- The block of a boundary, laid out behind `pre`. -/
theorem Remapped.of_block {ms post : History} (pre : History) {b : Span} (hs : starts ms b = true)
    (hopen : b.2 = none → post = []) :
    Remapped ms (pre ++ (blockOf ms b ++ post)) b ((pre.length : ℤ), endOf ms pre.length b) := by
  obtain ⟨prompt, rest, hprompt, hblock, hopenBlock, hrest⟩ := blockOf_eq_cons hs
  have hlen : (pre ++ (blockOf ms b ++ post)).length = pre.length + (blockOf ms b).length + post.length := by
    rw [List.length_append, List.length_append, Nat.add_assoc]
  have hpos : 0 < (blockOf ms b).length := by
    rw [hblock]
    exact Nat.succ_pos _
  constructor
  · rw [starts_iff, hlen]
    dsimp only
    omega
  · dsimp only
    rw [Int.toNat_natCast, List.getElem?_append_right (Nat.le_refl _), Nat.sub_self, hblock, hprompt]
    rfl
  · intro hb
    refine ⟨by simp [endOf, hb], ?_⟩
    dsimp only
    rw [Int.toNat_natCast, List.drop_left, hopen hb, List.append_nil, hopenBlock hb]
  · intro stop hb
    refine ⟨_, by rw [endOf, hb, Option.map_some], fun final hfinal => ⟨?_, isFinal_of_findFinalBetween hfinal⟩⟩
    rw [hfinal, Option.isSome_some, if_pos rfl]
    have hto : ((pre.length : ℤ) + 1).toNat = pre.length + 1 := by omega
    rw [hto, List.getElem?_append_right (by omega), Nat.add_sub_cancel_left, hblock, hrest stop hb, hfinal]
    rfl
  · intro stop hb hnone
    rw [endOf, hb, Option.map_some, hnone]
    rfl

/-- **Each boundary is remapped** to the place of its block. -/
theorem remapped_placesFrom (ms : History) : ∀ (bs : List Span) (pre : History), InOrder bs →
    List.Forall₂ (Remapped ms (pre ++ bs.flatMap (blockOf ms))) (bs.filter (starts ms))
      (placesFrom ms pre.length bs)
  | [], pre, _ => List.Forall₂.nil
  | b :: bs, pre, h => by
    rw [List.flatMap_cons, placesFrom]
    by_cases hs : starts ms b = true
    · rw [List.filter_cons_of_pos hs, if_pos hs]
      refine List.Forall₂.cons (Remapped.of_block pre hs fun hb => by rw [h.nil_of_open hb, List.flatMap_nil]) ?_
      have ih := remapped_placesFrom ms bs (pre ++ blockOf ms b) h.tail
      rw [List.length_append, List.append_assoc] at ih
      exact ih
    · rw [List.filter_cons_of_neg hs, if_neg hs]
      have hblock : blockOf ms b = [] := if_neg hs
      rw [hblock, List.nil_append]
      exact remapped_placesFrom ms bs pre h.tail

theorem le_of_mem_placesFrom {ms : History} : ∀ {bs : List Span} {place : ℕ} {b' : Span},
    b' ∈ placesFrom ms place bs → (place : ℤ) ≤ b'.1
  | [], _, _, h => by simp [placesFrom] at h
  | b :: bs, place, b', h => by
    rw [placesFrom] at h
    split at h
    · rcases List.mem_cons.mp h with rfl | h
      · exact le_refl _
      · have := le_of_mem_placesFrom h
        omega
    · exact le_of_mem_placesFrom h

/-- The end of a closed boundary is within its block. -/
theorem endOf_lt {ms : History} {b : Span} (hs : starts ms b = true) {place : ℕ} {stop : ℤ}
    (h : endOf ms place b = some stop) : (place : ℤ) ≤ stop ∧ stop < place + (blockOf ms b).length := by
  obtain ⟨prompt, rest, -, hblock, -, hrest⟩ := blockOf_eq_cons hs
  obtain ⟨stop₀, hstop₀, hstop⟩ := Option.map_eq_some_iff.mp h
  rw [hblock, hrest stop₀ hstop₀, List.length_cons, ← hstop]
  cases findFinalBetween ms (b.1 + 1) stop₀ with
  | none =>
    rw [Option.isSome_none, if_neg Bool.false_ne_true, Option.toList_none, List.length_nil]
    omega
  | some final =>
    rw [Option.isSome_some, if_pos rfl, Option.toList_some, List.length_singleton]
    omega

theorem InOrder.placesFrom (ms : History) : ∀ {bs : List Span} (place : ℕ), InOrder bs →
    InOrder (placesFrom ms place bs)
  | [], _, _ => ⟨List.Pairwise.nil, by simp [AgentBus.placesFrom]⟩
  | b :: bs, place, h => by
    rw [AgentBus.placesFrom]
    by_cases hs : starts ms b = true
    · rw [if_pos hs]
      have ih := InOrder.placesFrom ms (place + (blockOf ms b).length) h.tail
      refine ⟨List.pairwise_cons.mpr ⟨fun b' hb' => ?_, ih.ordered⟩, fun b' hb' stop hstop => ?_⟩
      · cases hb : b.2 with
        | none =>
          rw [h.nil_of_open hb] at hb'
          simp [AgentBus.placesFrom] at hb'
        | some stop =>
          have hend : endOf ms place b =
              some (if (findFinalBetween ms (b.1 + 1) stop).isSome then (place : ℤ) + 1 else place) := by
            rw [endOf, hb, Option.map_some]
          have hle := le_of_mem_placesFrom hb'
          have hlt := (endOf_lt hs hend).2
          exact ⟨_, hend, by omega⟩
      · rcases List.mem_cons.mp hb' with rfl | hb'
        · exact (endOf_lt hs hstop).1
        · exact ih.closed_le b' hb' stop hstop
    · rw [if_neg hs]
      exact InOrder.placesFrom ms place h.tail

/-- What is remapped is within the messages kept. -/
theorem Remapped.stop_lt {ms nm : History} {b b' : Span} (h : Remapped ms nm b b') {stop : ℤ}
    (hstop : b'.2 = some stop) : stop < nm.length := by
  obtain ⟨h0, h1⟩ := starts_iff.mp h.within
  cases hb : b.2 with
  | none =>
    rw [(h.isOpen hb).1] at hstop
    cases hstop
  | some stop₀ =>
    cases hfinal : findFinalBetween ms (b.1 + 1) stop₀ with
    | none =>
      rw [h.noFinal stop₀ hb hfinal, Option.some.injEq] at hstop
      omega
    | some final =>
      obtain ⟨stop', hstop', hat⟩ := h.isClosed stop₀ hb
      rw [hstop', Option.some.injEq] at hstop
      obtain ⟨hlt, -⟩ := List.getElem?_eq_some_iff.mp (hat final hfinal).1
      omega

theorem ValidFor.of_remapped {ms nm : History} {bs nb : List Span} (hord : InOrder nb)
    (h : List.Forall₂ (Remapped ms nm) bs nb) : ValidFor nm nb := by
  have hall : ∀ b' ∈ nb, ∃ b, Remapped ms nm b b' := fun b' hb' => by
    obtain ⟨b, -, hb⟩ := Groups.exists_of_forall₂_right h hb'
    exact ⟨b, hb⟩
  refine ⟨hord, fun b' hb' => ?_, fun b' hb' stop hstop => ?_⟩
  · obtain ⟨b, hb⟩ := hall b' hb'
    exact hb.within
  · obtain ⟨b, hb⟩ := hall b' hb'
    exact hb.stop_lt hstop

/-! ### Trimming again -/

theorem findFinalAssistant_self {ms : History} {i : ℕ} {m : Message} (hm : ms[i]? = some m) (hf : isFinal m = true) :
    findFinalAssistant ms i i = some m := by
  obtain ⟨hlt, hget⟩ := List.getElem?_eq_some_iff.mp hm
  rw [findFinalAssistant, List.drop_take, Nat.add_sub_cancel_left, List.drop_eq_getElem_cons hlt, hget]
  simp [hf]

/-- The block of a remapped boundary is the block it had. -/
theorem blockOf_remapped {ms post : History} (pre : History) {b : Span} (hs : starts ms b = true)
    (hopen : b.2 = none → post = []) :
    blockOf (pre ++ (blockOf ms b ++ post)) ((pre.length : ℤ), endOf ms pre.length b) = blockOf ms b ∧
      endOf (pre ++ (blockOf ms b ++ post)) pre.length ((pre.length : ℤ), endOf ms pre.length b) =
        endOf ms pre.length b := by
  have hremapped := Remapped.of_block pre hs hopen
  obtain ⟨prompt, rest, hprompt, hblock, hopenBlock, hrest⟩ := blockOf_eq_cons hs
  have hfirst := hremapped.prompt
  rw [hprompt] at hfirst
  dsimp only at hfirst
  cases hb : b.2 with
  | none =>
    have hend : endOf ms pre.length b = none := by rw [endOf, hb, Option.map_none]
    have hdrop := (hremapped.isOpen hb).2
    rw [hend] at hremapped ⊢
    refine ⟨?_, rfl⟩
    rw [blockOf, if_pos hremapped.within, hopenBlock hb]
    exact hopenBlock hb ▸ hdrop
  | some stop =>
    obtain ⟨stop', hstop', hat⟩ := hremapped.isClosed stop hb
    cases hfinal : findFinalBetween ms (b.1 + 1) stop with
    | none =>
      have hend : endOf ms pre.length b = some (pre.length : ℤ) := hremapped.noFinal stop hb hfinal
      have hnone : findFinalBetween (pre ++ (blockOf ms b ++ post)) ((pre.length : ℤ) + 1) pre.length = none :=
        if_pos (by omega)
      rw [hend] at hremapped ⊢
      refine ⟨?_, ?_⟩
      · rw [blockOf, if_pos hremapped.within]
        dsimp only
        rw [hfirst, hnone, hblock, hrest stop hb, hfinal]
        rfl
      · rw [endOf, Option.map_some]
        dsimp only
        rw [hnone]
        rfl
    | some final =>
      have hend : endOf ms pre.length b = some ((pre.length : ℤ) + 1) := by
        rw [endOf, hb, Option.map_some, hfinal]
        rfl
      have hto : ((pre.length : ℤ) + 1).toNat = pre.length + 1 := by omega
      have hsome : findFinalBetween (pre ++ (blockOf ms b ++ post)) ((pre.length : ℤ) + 1) (pre.length + 1) =
          some final := by
        rw [hend, Option.some.injEq] at hstop'
        obtain ⟨hget, hf⟩ := hat final hfinal
        rw [← hstop'] at hget
        rw [findFinalBetween, if_neg (by omega)]
        exact findFinalAssistant_self hget hf
      rw [hend] at hremapped ⊢
      refine ⟨?_, ?_⟩
      · rw [blockOf, if_pos hremapped.within]
        dsimp only
        rw [hfirst, hsome, hblock, hrest stop hb, hfinal]
        rfl
      · rw [endOf, Option.map_some]
        dsimp only
        rw [hsome]
        rfl

/-- **Trimming what was trimmed** keeps every block and every place. -/
theorem placesFrom_again (ms : History) : ∀ (bs : List Span) (pre : History), InOrder bs →
    (placesFrom ms pre.length bs).flatMap (blockOf (pre ++ bs.flatMap (blockOf ms))) = bs.flatMap (blockOf ms) ∧
      placesFrom (pre ++ bs.flatMap (blockOf ms)) pre.length (placesFrom ms pre.length bs) =
        placesFrom ms pre.length bs
  | [], pre, _ => ⟨rfl, rfl⟩
  | b :: bs, pre, h => by
    by_cases hs : starts ms b = true
    · have hopen : b.2 = none → bs.flatMap (blockOf ms) = [] := fun hb => by rw [h.nil_of_open hb, List.flatMap_nil]
      obtain ⟨hblock, hend⟩ := blockOf_remapped pre hs hopen
      have hwithin := (Remapped.of_block pre hs hopen).within
      obtain ⟨ih₁, ih₂⟩ := placesFrom_again ms bs (pre ++ blockOf ms b) h.tail
      rw [List.length_append, List.append_assoc] at ih₁ ih₂
      rw [placesFrom, if_pos hs, List.flatMap_cons, List.flatMap_cons, placesFrom, if_pos hwithin, hblock, hend, ih₁,
        ih₂]
      exact ⟨rfl, rfl⟩
    · have hblock : blockOf ms b = [] := if_neg hs
      rw [placesFrom, if_neg hs, List.flatMap_cons, hblock, List.nil_append]
      exact placesFrom_again ms bs pre h.tail

theorem Remapped.self {ms : History} {b : Span} (hs : starts ms b = true) (hb : b.2 = none) : Remapped ms ms b b :=
  ⟨hs, rfl, fun _ => ⟨hb, rfl⟩, by simp [hb], by simp [hb]⟩

/-- **Trimming and remapping agree.** Both functions keep the same messages, for
any boundaries at all. Where the boundaries are in order, each one that starts
in the messages is remapped, to its prompt and its final assistant message or
to all its messages if it is open; the boundaries returned are valid for the
messages returned as soon as one is closed, or if they were valid before; and
trimming again changes nothing. -/
theorem trim_and_remap_agree (ms : History) (bs : List Span) :
    (trimAndRemapSpans ms bs).1 = TaskBoundaryTrimmer.trim ms (some bs) ∧
    (InOrder bs → ∀ nm nb, trimAndRemapSpans ms bs = (nm, nb) →
      List.Forall₂ (Remapped ms nm) (bs.filter (starts ms)) (nb.filter (starts nm)) ∧
      ((ms ≠ [] ∧ ∃ b ∈ bs, b.2.isSome) ∨ ValidFor ms bs → ValidFor nm nb) ∧
      trimAndRemapSpans nm nb = (nm, nb) ∧ TaskBoundaryTrimmer.trim nm (some nb) = nm) := by
  constructor
  · rcases trimAndRemapSpans_eq ms bs with ⟨hremap, htrim, -⟩ | ⟨hremap, htrim, -⟩
    · rw [hremap, htrim]
    · rw [hremap, htrim]
  · intro hord nm nb hr
    rcases trimAndRemapSpans_eq ms bs with ⟨hremap, htrim, hnone⟩ | ⟨hremap, htrim, -⟩
    · rw [hremap, Prod.mk.injEq] at hr
      obtain ⟨rfl, rfl⟩ := hr
      refine ⟨List.forall₂_same.mpr fun b hb => ?_, fun h => ?_, hremap, htrim⟩
      · obtain ⟨hb, hs⟩ := List.mem_filter.mp hb
        rcases hnone with rfl | hnone
        · obtain ⟨h0, h1⟩ := starts_iff.mp hs
          rw [List.length_nil] at h1
          omega
        · exact Remapped.self hs (hnone b hb)
      · rcases h with ⟨hne, b, hb, hsome⟩ | h
        · rcases hnone with rfl | hnone
          · exact absurd rfl hne
          · rw [hnone b hb] at hsome
            cases hsome
        · exact h
    · rw [hremap, Prod.mk.injEq] at hr
      obtain ⟨rfl, rfl⟩ := hr
      have hremapped := remapped_placesFrom ms bs [] hord
      obtain ⟨hblocks, hplaces⟩ := placesFrom_again ms bs [] hord
      rw [List.nil_append, List.length_nil] at hremapped hblocks hplaces
      have hvalid := ValidFor.of_remapped (hord.placesFrom ms 0) hremapped
      refine ⟨?_, fun _ => hvalid, ?_⟩
      · rw [List.filter_eq_self.mpr hvalid.within]
        exact hremapped
      · rcases trimAndRemapSpans_eq (bs.flatMap (blockOf ms)) (placesFrom ms 0 bs) with ⟨h₁, h₂, -⟩ | ⟨h₁, h₂, -⟩
        · exact ⟨h₁, h₂⟩
        · rw [hblocks, hplaces] at h₁
          rw [hblocks] at h₂
          exact ⟨h₁, h₂⟩

/-- A task of four messages that is over, and one that has begun. -/
def overAndBegun : History :=
  [userMsg "a", assistantMsg (.text "") [⟨"c", "ls", ""⟩] "", toolMsg "r" "c", assistantMsg (.text "done") [] "",
    userMsg "b"]

theorem trim_and_remap_agree_overAndBegun :
    trimAndRemapSpans overAndBegun [(0, some 3), (4, none)] =
        ([userMsg "a", assistantMsg (.text "done") [] "", userMsg "b"], [(0, some 1), (2, none)]) ∧
      ValidFor [userMsg "a", assistantMsg (.text "done") [] "", userMsg "b"] [(0, some 1), (2, none)] := by
  have hremap : trimAndRemapSpans overAndBegun [(0, some 3), (4, none)] =
      ([userMsg "a", assistantMsg (.text "done") [] "", userMsg "b"], [(0, some 1), (2, none)]) := by decide +kernel
  have hord : InOrder [(0, some 3), (4, none)] := ⟨by simp, by simp⟩
  refine ⟨hremap, ((trim_and_remap_agree overAndBegun _).2 hord _ _ hremap).2.1 (.inl ⟨by decide, ?_⟩)⟩
  exact ⟨(0, some 3), by simp, rfl⟩

/-! ### Boundaries of a session -/

/-- A boundary of a session, whose indices are natural numbers. -/
def TaskBoundary.span (b : TaskBoundary) : Span := ((b.1 : ℤ), b.2.map (↑))

theorem findFinalBetween_cast (ms : History) (start stop : ℕ) :
    findFinalBetween ms ((start : ℤ) + 1) stop = findFinalAssistant ms (start + 1) stop := by
  have hto : ((start : ℤ) + 1).toNat = start + 1 := by omega
  unfold findFinalBetween
  split
  · next hlt =>
    have hdrop : (ms.take (stop + 1)).drop (start + 1) = [] := by
      rw [List.drop_eq_nil_iff, List.length_take]
      omega
    rw [findFinalAssistant, hdrop]
    rfl
  · rw [hto, Int.toNat_natCast]

theorem remapSpan_span (ms nm : History) (nb : List TaskBoundary) (b : TaskBoundary) :
    remapSpan ms (nm, nb.map TaskBoundary.span) b.span =
      ((trimBoundary ms (nm, nb) b).1, (trimBoundary ms (nm, nb) b).2.map TaskBoundary.span) := by
  obtain ⟨start, stop⟩ := b
  unfold remapSpan trimBoundary TaskBoundary.span
  dsimp only
  rw [Int.toNat_natCast]
  by_cases hlt : start < ms.length
  · have hprompt : ms[start]? = some ms[start] := List.getElem?_eq_getElem hlt
    rw [if_neg (by omega), hprompt]
    cases stop with
    | none =>
      dsimp only [Option.map_none]
      rw [List.map_append]
      rfl
    | some stop =>
      dsimp only [Option.map_some]
      rw [findFinalBetween_cast]
      cases findFinalAssistant ms (start + 1) stop with
      | none =>
        dsimp only
        rw [List.map_append]
        rfl
      | some final =>
        dsimp only
        rw [List.map_append, Option.toList_some, List.append_assoc, List.singleton_append]
        rfl
  · rw [if_pos (by omega), List.getElem?_eq_none (by omega)]

/-- **The sessions' trimming** is the same function at their boundaries. -/
theorem trimAndRemapSpans_cast (ms : History) (bs : List TaskBoundary) :
    trimAndRemapSpans ms (bs.map TaskBoundary.span) =
      (((trimAndRemapBoundaries ms bs).getD (ms, bs)).1,
        ((trimAndRemapBoundaries ms bs).getD (ms, bs)).2.map TaskBoundary.span) := by
  have hfold : ∀ (bs : List TaskBoundary) (nm : History) (nb : List TaskBoundary),
      (bs.map TaskBoundary.span).foldl (remapSpan ms) (nm, nb.map TaskBoundary.span) =
        ((bs.foldl (trimBoundary ms) (nm, nb)).1, (bs.foldl (trimBoundary ms) (nm, nb)).2.map TaskBoundary.span) := by
    intro bs
    induction bs with
    | nil => intro nm nb; rfl
    | cons b bs ih =>
      intro nm nb
      rw [List.map_cons, List.foldl_cons, List.foldl_cons, remapSpan_span, ih]
  have hany : (bs.map TaskBoundary.span).any (·.2.isSome) = bs.any (·.2.isSome) := by
    rw [List.any_map]
    congr 1
    funext b
    simp [TaskBoundary.span]
  unfold trimAndRemapSpans trimAndRemapBoundaries
  rw [List.isEmpty_map, hany]
  split
  · rfl
  · split
    · exact hfold bs [] []
    · rfl

end AgentBus
end AgentCore
