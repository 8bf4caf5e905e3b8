/-
# Texts cut at two delimiters in turn

A text is cut at the first opening delimiter, then at the first closing one
after it, and so on: what stands between an opening and a closing delimiter
goes to one channel, the rest to another, and the delimiters to none. The two
delimiters start with one symbol, the mark, that stands nowhere else in them.

Where no delimiter begins in the first part of a text, that part goes to the
channel it stands in, whatever follows; one may also straddle the border of the
two parts. Reading a text as outside gives the outer channel no less than
reading it as inside.

What a cut is can be said without the scan: the text is made of runs on the one
side and on the other in turn, each up to the first delimiter that ends it, and
each run is on its channel (`Delimiters.Cut`). The scan finds it, and there is
no other (`Delimiters.cut_iff`).

Key definitions: `Delimiters`, `Channels`, `Delimiters.split`,
`Delimiters.Cut`, `Delimiters.Straddles`.
Key theorems: `Delimiters.split_plain`, `Delimiters.split_delim`,
`Delimiters.cut_iff`, `Delimiters.split_straddle`, `Delimiters.split_outside_le`.
-/
import Mathlib.Data.List.Basic
import Mathlib.Data.List.Infix

namespace AgentCore

structure Delimiters (α : Type) where
  mark : α
  rest : Bool → List α
  mark_notMem : ∀ inside, mark ∉ rest inside
  apart : ∀ inside, ¬rest inside <+: rest (!inside)

structure Channels (α : Type) where
  outside : List α
  inside : List α
  deriving DecidableEq, Repr

namespace Channels

variable {α : Type}

def empty : Channels α := ⟨[], []⟩

instance : Append (Channels α) := ⟨fun a b => ⟨a.outside ++ b.outside, a.inside ++ b.inside⟩⟩

@[simp] theorem append_outside (a b : Channels α) : (a ++ b).outside = a.outside ++ b.outside := rfl

@[simp] theorem append_inside (a b : Channels α) : (a ++ b).inside = a.inside ++ b.inside := rfl

theorem ext {a b : Channels α} (ho : a.outside = b.outside) (hi : a.inside = b.inside) : a = b := by
  cases a
  cases b
  exact congr (congrArg mk ho) hi

@[simp] theorem empty_append (a : Channels α) : empty ++ a = a := rfl

@[simp] theorem append_empty (a : Channels α) : a ++ empty = a :=
  ext (List.append_nil _) (List.append_nil _)

theorem append_assoc (a b c : Channels α) : a ++ b ++ c = a ++ (b ++ c) :=
  ext (List.append_assoc ..) (List.append_assoc ..)

/-- A text on one of the channels. -/
def emit (inside : Bool) (text : List α) : Channels α := if inside then ⟨[], text⟩ else ⟨text, []⟩

@[simp] theorem emit_nil (inside : Bool) : emit inside ([] : List α) = empty := by
  cases inside <;> rfl

theorem emit_append (inside : Bool) (a b : List α) : emit inside (a ++ b) = emit inside a ++ emit inside b := by
  cases inside <;> rfl

end Channels

namespace Delimiters

open Channels

variable {α : Type} [DecidableEq α] (D : Delimiters α)

/-- The delimiter that ends the part one is in: the closing one inside, the
opening one outside. -/
def delim (inside : Bool) : List α := D.mark :: D.rest inside

/-- The cut of a text, `skip` symbols of a delimiter being still to be passed. -/
def split : Bool → ℕ → List α → Channels α
  | _, _, [] => empty
  | inside, skip + 1, _ :: cs => split inside skip cs
  | inside, 0, c :: cs =>
    if D.delim inside <+: c :: cs then split (!inside) (D.rest inside).length cs
    else emit inside [c] ++ split inside 0 cs

variable {D} {inside : Bool}

theorem split_skip : ∀ (front text : List α), D.split inside front.length (front ++ text) = D.split inside 0 text
  | [], _ => rfl
  | _ :: front, text => split_skip front text

/-- A delimiter that ends the part one is in is passed. -/
theorem split_delim (text : List α) : D.split inside 0 (D.delim inside ++ text) = D.split (!inside) 0 text := by
  rw [delim, List.cons_append, split, if_pos (by exact ⟨text, rfl⟩), split_skip]

/-- Where no delimiter begins in a first part, it goes to the channel it stands
in. -/
theorem split_plain : ∀ (front text : List α), (∀ i < front.length, ¬D.delim inside <+: (front ++ text).drop i) →
    D.split inside 0 (front ++ text) = emit inside front ++ D.split inside 0 text
  | [], text, _ => by rw [List.nil_append, emit_nil, empty_append]
  | c :: front, text, h => by
    have hhead : ¬D.delim inside <+: c :: (front ++ text) := h 0 (Nat.succ_pos _)
    have htail : ∀ i < front.length, ¬D.delim inside <+: (front ++ text).drop i :=
      fun i hi => h (i + 1) (Nat.succ_lt_succ hi)
    rw [List.cons_append, split, if_neg hhead, split_plain front text htail, ← append_assoc, ← emit_append]
    rfl

omit [DecidableEq α] in
theorem not_delim_of_notMem {front text : List α} (h : D.mark ∉ front) :
    ∀ i < front.length, ¬D.delim inside <+: (front ++ text).drop i := by
  rintro i hi ⟨t, ht⟩
  rw [List.drop_append_of_le_length (Nat.le_of_lt hi), List.drop_eq_getElem_cons hi] at ht
  have hmark : D.mark = front[i] := (List.cons.inj ht).1
  exact h (hmark ▸ List.getElem_mem hi)

/-- A part without the mark goes to the channel it stands in. -/
theorem split_of_notMem {front : List α} (h : D.mark ∉ front) (text : List α) :
    D.split inside 0 (front ++ text) = emit inside front ++ D.split inside 0 text :=
  split_plain front text (not_delim_of_notMem h)

/-- The other delimiter does not end the part one is in. -/
theorem split_other (text : List α) :
    D.split inside 0 (D.delim (!inside) ++ text) = emit inside (D.delim (!inside)) ++ D.split inside 0 text := by
  have hhead : ¬D.delim inside <+: D.delim (!inside) ++ text := by
    intro hpre
    rcases List.prefix_or_prefix_of_prefix hpre (List.prefix_append _ text) with h | h
    · exact D.apart inside ((List.prefix_cons_inj _).mp h)
    · have := D.apart (!inside)
      rw [Bool.not_not] at this
      exact this ((List.prefix_cons_inj _).mp h)
  have hcons : D.delim (!inside) ++ text = D.mark :: (D.rest (!inside) ++ text) := rfl
  rw [hcons] at hhead ⊢
  rw [split, if_neg hhead, split_of_notMem (D.mark_notMem _), ← append_assoc, ← emit_append]
  rfl

/-- Reading a text as outside gives the outer channel no less than reading it as
inside: from the first delimiter on the two readings agree. -/
theorem split_outside_le (text : List α) :
    (D.split true 0 text).outside.length ≤ (D.split false 0 text).outside.length := by
  induction hn : text.length using Nat.strong_induction_on generalizing text with
  | _ n ih =>
    cases text with
    | nil => exact Nat.le_refl _
    | cons c cs =>
      by_cases hclose : D.delim true <+: c :: cs
      · obtain ⟨after, hafter⟩ := hclose
        rw [← hafter, split_delim, show D.delim true = D.delim (!false) from rfl, split_other]
        simp
      · by_cases hopen : D.delim false <+: c :: cs
        · obtain ⟨after, hafter⟩ := hopen
          rw [← hafter, split_delim, show D.delim false = D.delim (!true) from rfl, split_other]
          simp [emit]
        · have hcs := ih cs.length (by rw [← hn]; exact Nat.lt_succ_self _) cs rfl
          rw [split, if_neg hclose, split, if_neg hopen]
          simp only [append_outside, List.length_append, emit, if_true, Bool.false_eq_true, if_false, List.length_nil,
            List.length_singleton]
          omega

/-! ### What is cut -/

variable (D) in
/-- A text and its channels: a run up to the first delimiter that ends it, and
the rest from the other side on, or a last run that none ends. -/
inductive Cut : Bool → List α → Channels α → Prop
  | last {inside : Bool} {run : List α} (hnone : ¬D.delim inside <:+: run) : Cut inside run (emit inside run)
  | delim {inside : Bool} {run rest : List α} {out : Channels α}
      (hfirst : ∀ i < run.length, ¬D.delim inside <+: (run ++ (D.delim inside ++ rest)).drop i)
      (hrest : Cut (!inside) rest out) : Cut inside (run ++ (D.delim inside ++ rest)) (emit inside run ++ out)

theorem split_undelimited {text : List α} (h : ¬D.delim inside <:+: text) : D.split inside 0 text = emit inside text := by
  have hnot : ∀ i < text.length, ¬D.delim inside <+: (text ++ []).drop i := by
    intro i _ hpre
    rw [List.append_nil] at hpre
    exact h (hpre.isInfix.trans (List.drop_suffix i text).isInfix)
  have hplain := split_plain text [] hnot
  rw [List.append_nil] at hplain
  rw [hplain]
  exact append_empty _

/-- A text shorter than the delimiter is not cut. -/
theorem split_of_short {text : List α} (h : text.length < (D.delim inside).length) :
    D.split inside 0 text = emit inside text := by
  apply split_undelimited
  intro hin
  have hlen := hin.length_le
  omega

/-- A text with a delimiter in it is a run up to the first one, and a rest. -/
theorem exists_first : ∀ {text : List α}, D.delim inside <:+: text → ∃ run rest,
    text = run ++ (D.delim inside ++ rest) ∧ ∀ i < run.length, ¬D.delim inside <+: text.drop i
  | [], h => absurd (List.eq_nil_of_infix_nil h) (List.cons_ne_nil _ _)
  | c :: cs, h => by
    by_cases hhead : D.delim inside <+: c :: cs
    · obtain ⟨rest, hrest⟩ := hhead
      exact ⟨[], rest, hrest.symm, fun i hi => absurd hi (Nat.not_lt_zero i)⟩
    · have htail : D.delim inside <:+: cs := (List.infix_cons_iff.mp h).resolve_left hhead
      obtain ⟨run, rest, hsplit, hfirst⟩ := exists_first htail
      refine ⟨c :: run, rest, congrArg (c :: ·) hsplit, ?_⟩
      intro i hi
      cases i with
      | zero => exact hhead
      | succ i => exact hfirst i (Nat.lt_of_succ_lt_succ hi)

/-- The scan finds the cut of a text. -/
theorem cut_split (inside : Bool) (text : List α) : D.Cut inside text (D.split inside 0 text) := by
  induction hn : text.length using Nat.strong_induction_on generalizing inside text with
  | _ n ih =>
    by_cases hin : D.delim inside <:+: text
    · obtain ⟨run, rest, rfl, hfirst⟩ := exists_first hin
      have hshort : rest.length < n := by
        rw [← hn, List.length_append, List.length_append, delim, List.length_cons]
        omega
      rw [split_plain _ _ hfirst, split_delim]
      exact .delim hfirst (ih rest.length hshort (!inside) rest rfl)
    · rw [split_undelimited hin]
      exact .last hin

/-- **The cut of a text** is what the scan makes of it, and nothing else. -/
theorem cut_iff {text : List α} {out : Channels α} : D.Cut inside text out ↔ out = D.split inside 0 text := by
  constructor
  · intro h
    induction h with
    | last hnone => exact (split_undelimited hnone).symm
    | delim hfirst _ ih => rw [split_plain _ _ hfirst, split_delim, ih]
  · rintro rfl
    exact cut_split inside text

/-! ### Borders -/

variable (D) in
/-- A delimiter begins in the one part and ends in the other. -/
def Straddles (inside : Bool) (front text : List α) : Prop :=
  ∃ begun left, begun ≠ [] ∧ left ≠ [] ∧ D.delim inside = begun ++ left ∧ begun <:+ front ∧ left <+: text

omit [DecidableEq α] in
/-- A delimiter that begins in the first part lies in it, or runs from the rest
of it into the second. -/
theorem delim_begins {front text : List α} {i : ℕ} (hi : i < front.length)
    (h : D.delim inside <+: (front ++ text).drop i) :
    D.delim inside <:+: front ∨
      ∃ left, left ≠ [] ∧ D.delim inside = front.drop i ++ left ∧ left <+: text := by
  obtain ⟨t, ht⟩ := h
  rw [List.drop_append_of_le_length (Nat.le_of_lt hi)] at ht
  rcases List.append_eq_append_iff.mp ht with ⟨a, ha, -⟩ | ⟨left, hd, htext⟩
  · exact .inl (List.IsInfix.trans ⟨[], a, ha.symm⟩ (List.drop_suffix i front).isInfix)
  · by_cases hl : left = []
    · rw [hl, List.append_nil] at hd
      exact .inl (hd ▸ (List.drop_suffix i front).isInfix)
    · exact .inr ⟨left, hl, hd, t, htext.symm⟩

omit [DecidableEq α] in
theorem straddles_of_begins {front text : List α} (hin : ¬D.delim inside <:+: front) {i : ℕ} (hi : i < front.length)
    (h : D.delim inside <+: (front ++ text).drop i) : D.Straddles inside front text := by
  rcases delim_begins hi h with hlies | ⟨left, hl, hd, hpre⟩
  · exact absurd hlies hin
  · refine ⟨front.drop i, left, ?_, hl, hd, List.drop_suffix i front, hpre⟩
    exact fun hnil => absurd (List.drop_eq_nil_iff.mp hnil) (by omega)

/-- Where a delimiter straddles the border, the part before it goes to the
channel it stands in, and what follows is read from the other side on. -/
theorem split_straddle {front text : List α} (hin : ¬D.delim inside <:+: front) (h : D.Straddles inside front text) :
    ∃ before begun left after, front = before ++ begun ∧ text = left ++ after ∧ D.delim inside = begun ++ left ∧
      begun ≠ [] ∧ D.mark ∉ left ∧
      D.split inside 0 (front ++ text) = emit inside before ++ D.split (!inside) 0 after := by
  obtain ⟨begun, left, hb, -, hd, ⟨before, rfl⟩, after, rfl⟩ := h
  obtain ⟨c, cs, rfl⟩ := List.exists_cons_of_ne_nil hb
  obtain ⟨rfl, hrest⟩ := List.cons.inj hd
  have hnot : D.mark ∉ cs ++ left := by
    rw [show cs ++ left = D.rest inside from hrest.symm]
    exact D.mark_notMem inside
  refine ⟨before, D.mark :: cs, left, after, rfl, rfl, hd, hb, fun hm => hnot (List.mem_append_right _ hm), ?_⟩
  have htext : before ++ D.mark :: cs ++ (left ++ after) = before ++ (D.delim inside ++ after) := by
    rw [hd]
    simp
  rw [htext, split_plain, split_delim]
  intro i hi hpre
  rw [← htext] at hpre
  rcases delim_begins (by rw [List.length_append]; omega) hpre with hlies | ⟨left', -, hd', -⟩
  · exact hin hlies
  · -- the mark of the delimiter at the border would stand within another one
    rw [List.drop_append_of_le_length (Nat.le_of_lt hi), List.drop_eq_getElem_cons hi] at hd'
    have hmem : D.mark ∈ before.drop (i + 1) ++ D.mark :: cs ++ left' := by simp
    exact D.mark_notMem inside ((List.cons.inj hd').2 ▸ hmem)

end Delimiters

end AgentCore
