/-
# Cutting a text at a separator

`afterFirst sep text` is what stands behind the first occurrence of `sep`,
`beforeFirst sep text` what stands in front of it, `afterLast sep text` what stands
behind the last one. A front in which no
separator begins is passed (`afterFirst_of_clear`), and whether one begins in a
front is decided piece by piece: `Clear sep front rest` says that none begins in
`front` when `rest` follows it.
-/
import Mathlib.Data.List.Basic
import Mathlib.Data.List.Infix

namespace Cut

variable {α : Type} [DecidableEq α]

/-- What stands behind the first separator. -/
def afterFirst (sep : List α) : List α → Option (List α)
  | [] => if sep = [] then some [] else none
  | c :: cs => if sep <+: c :: cs then some ((c :: cs).drop sep.length) else afterFirst sep cs

/-- What stands in front of the first separator. -/
def beforeFirst (sep : List α) : List α → Option (List α)
  | [] => if sep = [] then some [] else none
  | c :: cs => if sep <+: c :: cs then some [] else (beforeFirst sep cs).map (c :: ·)

/-- What stands behind the last separator. -/
def afterLast (sep : List α) : List α → Option (List α)
  | [] => none
  | c :: cs =>
    match afterLast sep cs with
    | some rest => some rest
    | none => if sep <+: c :: cs then some ((c :: cs).drop sep.length) else none

omit [DecidableEq α] in
/-- No separator begins in `front`, with `rest` behind it. -/
def Clear (sep front rest : List α) : Prop := ∀ i < front.length, ¬ sep <+: (front ++ rest).drop i

variable {sep front rest : List α}

theorem afterFirst_self (h : sep ≠ []) (rest : List α) : afterFirst sep (sep ++ rest) = some rest := by
  obtain ⟨c, cs, rfl⟩ := List.exists_cons_of_ne_nil h
  rw [List.cons_append, afterFirst, if_pos (by exact ⟨rest, rfl⟩), ← List.cons_append, List.drop_left]

/-- A clear front is passed. -/
theorem afterFirst_of_clear : ∀ {front : List α}, Clear sep front rest →
    afterFirst sep (front ++ rest) = afterFirst sep rest
  | [], _ => rfl
  | c :: cs, h => by
    have hhead : ¬ sep <+: c :: (cs ++ rest) := h 0 (Nat.succ_pos _)
    have htail : Clear sep cs rest := fun i hi => h (i + 1) (Nat.succ_lt_succ hi)
    rw [List.cons_append, afterFirst, if_neg hhead, afterFirst_of_clear htail]

theorem beforeFirst_of_clear (h : sep ≠ []) : ∀ {front : List α}, Clear sep front (sep ++ rest) →
    beforeFirst sep (front ++ (sep ++ rest)) = some front
  | [], _ => by
    obtain ⟨c, cs, rfl⟩ := List.exists_cons_of_ne_nil h
    rw [List.nil_append, List.cons_append, beforeFirst, if_pos (by exact ⟨rest, rfl⟩)]
  | c :: cs, hclear => by
    have hhead : ¬ sep <+: c :: (cs ++ (sep ++ rest)) := hclear 0 (Nat.succ_pos _)
    have htail : Clear sep cs (sep ++ rest) := fun i hi => hclear (i + 1) (Nat.succ_lt_succ hi)
    rw [List.cons_append, beforeFirst, if_neg hhead, beforeFirst_of_clear h htail, Option.map_some]

/-- The first separator stands where it is found, no later than any other. -/
theorem beforeFirst_prefix (hsep : sep ≠ []) : ∀ (front rest : List α),
    ∃ found back, beforeFirst sep (front ++ (sep ++ rest)) = some found ∧ found <+: front ∧
      front ++ (sep ++ rest) = found ++ (sep ++ back)
  | [], rest => by
    refine ⟨[], rest, ?_, List.prefix_rfl, rfl⟩
    obtain ⟨c, cs, rfl⟩ := List.exists_cons_of_ne_nil hsep
    rw [List.nil_append, List.cons_append, beforeFirst, if_pos (by exact ⟨rest, rfl⟩)]
  | c :: cs, rest => by
    rw [List.cons_append, beforeFirst]
    by_cases hhead : sep <+: c :: (cs ++ (sep ++ rest))
    · obtain ⟨back, hback⟩ := hhead
      rw [if_pos ⟨back, hback⟩]
      exact ⟨[], back, rfl, List.nil_prefix, hback.symm⟩
    · obtain ⟨found, back, hfound, hpre, hsplit⟩ := beforeFirst_prefix hsep cs rest
      rw [if_neg hhead, hfound]
      exact ⟨c :: found, back, rfl, List.cons_prefix_cons.mpr ⟨rfl, hpre⟩, by rw [hsplit]; rfl⟩

theorem beforeFirst_eq_some : ∀ {text front : List α}, beforeFirst sep text = some front →
    ∃ back, text = front ++ (sep ++ back)
  | [], front, h => by
    obtain ⟨hsep, h⟩ := Option.ite_none_right_eq_some.mp h
    rw [← Option.some.inj h, hsep]
    exact ⟨[], rfl⟩
  | c :: cs, front, h => by
    unfold beforeFirst at h
    by_cases hhead : sep <+: c :: cs
    · rw [if_pos hhead] at h
      obtain ⟨back, hback⟩ := hhead
      rw [← Option.some.inj h]
      exact ⟨back, hback.symm⟩
    · rw [if_neg hhead] at h
      obtain ⟨found, hfound, rfl⟩ := Option.map_eq_some_iff.mp h
      obtain ⟨back, hback⟩ := beforeFirst_eq_some hfound
      exact ⟨back, by rw [hback]; rfl⟩

theorem afterFirst_eq_some : ∀ {text found : List α}, afterFirst sep text = some found →
    ∃ front, text = front ++ (sep ++ found)
  | [], found, h => by
    obtain ⟨hsep, h⟩ := Option.ite_none_right_eq_some.mp h
    rw [← Option.some.inj h, hsep]
    exact ⟨[], rfl⟩
  | c :: cs, found, h => by
    unfold afterFirst at h
    by_cases hhead : sep <+: c :: cs
    · rw [if_pos hhead] at h
      obtain ⟨back, hback⟩ := hhead
      have hfound : found = back := by rw [← Option.some.inj h, ← hback, List.drop_left]
      exact ⟨[], by rw [hfound, hback]; rfl⟩
    · rw [if_neg hhead] at h
      obtain ⟨front, hfront⟩ := afterFirst_eq_some h
      exact ⟨c :: front, by rw [hfront]; rfl⟩

/-- The first separator stands no later than any other. -/
theorem afterFirst_suffix (hsep : sep ≠ []) : ∀ (front rest : List α),
    ∃ found, afterFirst sep (front ++ (sep ++ rest)) = some found ∧ rest <:+ found ∧
      found <:+ front ++ (sep ++ rest)
  | [], rest => ⟨rest, afterFirst_self hsep rest, List.suffix_rfl, List.suffix_append _ _⟩
  | c :: cs, rest => by
    rw [List.cons_append, afterFirst]
    split
    · have hle : sep.length ≤ (c :: cs).length + sep.length := Nat.le_add_left _ _
      refine ⟨_, rfl, ?_, List.drop_suffix _ _⟩
      have hdrop : (c :: (cs ++ (sep ++ rest))).drop sep.length =
          ((c :: cs) ++ sep).drop sep.length ++ rest := by
        rw [← List.drop_append_of_le_length (by rw [List.length_append]; exact hle), List.append_assoc]
        rfl
      rw [hdrop]
      exact List.suffix_append _ _
    · obtain ⟨found, hfound, hrest, hsuffix⟩ := afterFirst_suffix hsep cs rest
      exact ⟨found, hfound, hrest, hsuffix.trans (List.suffix_cons _ _)⟩

theorem afterLast_eq_none (hsep : sep ≠ []) : ∀ {text : List α}, afterLast sep text = none → ¬sep <:+: text
  | [], _ => fun h => hsep (List.infix_nil.mp h)
  | c :: cs, h => by
    unfold afterLast at h
    cases hcs : afterLast sep cs with
    | some rest =>
      rw [hcs] at h
      cases h
    | none =>
      simp only [hcs, ite_eq_right_iff, reduceCtorEq, imp_false] at h
      intro hin
      rcases List.infix_cons_iff.mp hin with hpre | hin
      · exact h hpre
      · exact afterLast_eq_none hsep hcs hin

/-- No separator stands behind the last one. -/
theorem afterLast_eq_some (hsep : sep ≠ []) : ∀ {text rest : List α}, afterLast sep text = some rest →
    rest <:+ text ∧ ¬sep <:+: rest
  | [], _, h => by cases h
  | c :: cs, rest, h => by
    unfold afterLast at h
    cases hcs : afterLast sep cs with
    | some rest' =>
      rw [hcs] at h
      cases h
      obtain ⟨hsuffix, hnot⟩ := afterLast_eq_some hsep hcs
      exact ⟨hsuffix.trans (List.suffix_cons c cs), hnot⟩
    | none =>
      rw [hcs] at h
      have hpos : 0 < sep.length := List.length_pos_iff.mpr hsep
      by_cases hpre : sep <+: c :: cs
      · rw [if_pos hpre] at h
        cases h
        refine ⟨List.drop_suffix _ _, fun hin => afterLast_eq_none hsep hcs (hin.trans ?_)⟩
        obtain ⟨n, hn⟩ := Nat.exists_eq_succ_of_ne_zero (Nat.pos_iff_ne_zero.mp hpos)
        rw [hn, List.drop_succ_cons]
        exact (List.drop_suffix _ _).isInfix
      · rw [if_neg hpre] at h
        cases h

theorem afterLast_isInfix : ∀ {text rest : List α}, afterLast sep text = some rest → sep <:+: text
  | [], _, h => by cases h
  | c :: cs, rest, h => by
    unfold afterLast at h
    cases hcs : afterLast sep cs with
    | some rest' => exact (afterLast_isInfix hcs).trans (List.suffix_cons c cs).isInfix
    | none =>
      rw [hcs] at h
      by_cases hpre : sep <+: c :: cs
      · exact hpre.isInfix
      · rw [if_neg hpre] at h
        cases h

omit [DecidableEq α]

theorem Clear.append {front' : List α} (h : Clear sep front (front' ++ rest)) (h' : Clear sep front' rest) :
    Clear sep (front ++ front') rest := by
  intro i hi
  rw [List.length_append] at hi
  rw [List.append_assoc]
  by_cases hlt : i < front.length
  · exact h i hlt
  · have hdrop : (front ++ (front' ++ rest)).drop i = (front' ++ rest).drop (i - front.length) := by
      rw [List.drop_append, List.drop_eq_nil_of_le (by omega), List.nil_append]
    rw [hdrop]
    exact h' _ (by omega)

/-- A front without the first symbol of the separator is clear. -/
theorem Clear.of_notMem {x : α} {xs : List α} (h : x ∉ front) : Clear (x :: xs) front rest := by
  rintro i hi ⟨t, ht⟩
  rw [List.drop_append_of_le_length (Nat.le_of_lt hi), List.drop_eq_getElem_cons hi] at ht
  have hx : x = front[i] := (List.cons.inj ht).1
  exact h (hx ▸ List.getElem_mem hi)

theorem Clear.cons {x : α} (h : ¬ sep <+: x :: (front ++ rest)) (h' : Clear sep front rest) :
    Clear sep (x :: front) rest := by
  rintro (_ | i) hi
  · exact h
  · exact h' i (Nat.lt_of_succ_lt_succ hi)

/-- A front that holds no separator is clear before a symbol that stands in a
separator at its head only. -/
theorem Clear.of_not_infix_tail {x : α} (h : ¬ sep <:+: front) (hx : x ∉ sep.tail) : Clear sep front (x :: rest) := by
  rintro i hi ⟨t, ht⟩
  rw [List.drop_append_of_le_length (Nat.le_of_lt hi)] at ht
  rcases List.append_eq_append_iff.mp ht with ⟨y, hy, -⟩ | ⟨y, hy, hrest⟩
  · -- the separator ends in the front
    refine h ⟨front.take i, y, ?_⟩
    rw [List.append_assoc, ← hy, List.take_append_drop]
  · -- or runs over its end
    rcases y with _ | ⟨z, ys⟩
    · refine h ⟨front.take i, [], ?_⟩
      rw [List.append_nil] at hy ⊢
      rw [hy, List.take_append_drop]
    · rw [List.cons_append, List.cons.injEq] at hrest
      refine hx ?_
      rw [hy, hrest.1, List.drop_eq_getElem_cons hi]
      exact List.mem_append_right _ List.mem_cons_self

/-- A front that holds no separator is clear before a symbol that stands in no
separator. -/
theorem Clear.of_not_infix {x : α} (h : ¬ sep <:+: front) (hx : x ∉ sep) : Clear sep front (x :: rest) :=
  Clear.of_not_infix_tail h fun hmem => hx (List.mem_of_mem_tail hmem)

/-- A front that holds no separator is clear before a separator that no end of it
begins. -/
theorem Clear.of_unbordered (h : ¬ sep <:+: front) (hsep : ∀ i < sep.length, 0 < i → ¬ sep.drop i <+: sep) :
    Clear sep front (sep ++ rest) := by
  rintro i hi ⟨t, ht⟩
  rw [List.drop_append_of_le_length (Nat.le_of_lt hi)] at ht
  rcases List.append_eq_append_iff.mp ht with ⟨y, hy, -⟩ | ⟨y, hy, hrest⟩
  · refine h ⟨front.take i, y, ?_⟩
    rw [List.append_assoc, ← hy, List.take_append_drop]
  · -- what runs over the end of the front would begin the next separator
    have hlen : (front.drop i).length < sep.length ∨ y = [] := by
      rw [hy, List.length_append]
      by_cases hy' : y = []
      · exact .inr hy'
      · have := List.length_pos_iff.mpr hy'
        omega
    rcases hlen with hlen | rfl
    · have hpos : 0 < (front.drop i).length := by
        rw [List.length_drop]
        omega
      have hdrop : sep.drop (front.drop i).length = y := by rw [hy, List.drop_left]
      refine hsep _ hlen hpos ?_
      rw [hdrop]
      refine List.prefix_of_prefix_length_le ⟨t, hrest.symm⟩ (List.prefix_append sep rest) ?_
      have hle := congrArg List.length hy
      rw [List.length_append] at hle
      omega
    · refine h ⟨front.take i, [], ?_⟩
      rw [List.append_nil] at hy ⊢
      rw [hy, List.take_append_drop]

/-- What stands across a symbol that is not in it stands on one side of it. -/
theorem infix_append_cons {s : List α} {x : α} (hx : x ∉ s) : ∀ {front rest : List α}, s <:+: front ++ x :: rest →
    s <:+: front ∨ s <:+: rest
  | [], rest, h => by
    rcases List.infix_cons_iff.mp h with hpre | hin
    · rcases s with _ | ⟨y, ys⟩
      · exact .inl List.infix_rfl
      · exact absurd ((List.cons_prefix_cons.mp hpre).1 ▸ List.mem_cons_self) hx
    · exact .inr hin
  | c :: front, rest, h => by
    rcases List.infix_cons_iff.mp h with hpre | hin
    · by_cases hs : s <:+: c :: front
      · exact .inl hs
      · exact absurd hpre (Clear.of_not_infix hs hx 0 (Nat.succ_pos _))
    · rcases infix_append_cons hx hin with hin | hin
      · exact .inl (hin.trans (List.suffix_cons c front).isInfix)
      · exact .inr hin

end Cut
