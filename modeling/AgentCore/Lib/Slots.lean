/-
# Pre-allocated slots

A batch is split in two, each element keeping its index; both halves are
worked on separately, and the results are written back into slots allocated
beforehand, one for each element. Whatever the order of the writes, the slots
hold the results in the order of the batch (`fill_weave`, `fill_split`).

Key definitions: `Slots.lefts`, `Slots.rights`, `Slots.fill`, `Slots.weave`.
-/
import Mathlib.Data.List.Basic

namespace Slots

variable {α β : Type*}

/-- The elements of the first kind, from index `i` on, with their indices. -/
def lefts : ℕ → List (α ⊕ β) → List (ℕ × α)
  | _, [] => []
  | i, .inl a :: l => (i, a) :: lefts (i + 1) l
  | i, .inr _ :: l => lefts (i + 1) l

/-- The elements of the second kind, from index `i` on, with their indices. -/
def rights : ℕ → List (α ⊕ β) → List (ℕ × β)
  | _, [] => []
  | i, .inl _ :: l => rights (i + 1) l
  | i, .inr b :: l => (i, b) :: rights (i + 1) l

/-- The entries written into their slots, a later write to a slot winning. -/
def fill (slots : List (Option β)) (entries : List (ℕ × β)) : List (Option β) :=
  entries.foldl (fun s e => s.set e.1 (some e.2)) slots

theorem fill_cons (slots : List (Option β)) (e : ℕ × β) (es : List (ℕ × β)) :
    fill slots (e :: es) = fill (slots.set e.1 (some e.2)) es := rfl

/-- Writes behind the first slot leave it alone. -/
theorem fill_cons_slots (x : Option β) (slots : List (Option β)) : ∀ es : List (ℕ × β),
    fill (x :: slots) (es.map fun e => (e.1 + 1, e.2)) = x :: fill slots es
  | [] => rfl
  | e :: es => by
    rw [List.map_cons, fill_cons, fill_cons, List.set_cons_succ]
    exact fill_cons_slots x _ es

theorem lefts_succ (i : ℕ) : ∀ l : List (α ⊕ β),
    lefts (i + 1) l = (lefts i l).map fun e => (e.1 + 1, e.2) := by
  intro l
  induction l generalizing i with
  | nil => rfl
  | cons x l ih => cases x <;> simp [lefts, ih]

theorem rights_succ (i : ℕ) : ∀ l : List (α ⊕ β),
    rights (i + 1) l = (rights i l).map fun e => (e.1 + 1, e.2) := by
  intro l
  induction l generalizing i with
  | nil => rfl
  | cons x l ih => cases x <;> simp [rights, ih]

theorem inl_mem_of_mem_lefts {e : ℕ × α} {i : ℕ} : ∀ {l : List (α ⊕ β)}, e ∈ lefts i l → .inl e.2 ∈ l := by
  intro l he
  induction l generalizing i with
  | nil => simp [lefts] at he
  | cons x l ih =>
    cases x with
    | inl a =>
      rcases List.mem_cons.mp he with rfl | he
      · exact List.mem_cons_self
      · exact List.mem_cons_of_mem _ (ih he)
    | inr b => exact List.mem_cons_of_mem _ (ih he)

/-- The batch with results put for its first half, one after the other, as
long as there are any. -/
def weave : List (α ⊕ β) → List β → List (Option β)
  | [], _ => []
  | .inl _ :: l, [] => none :: weave l []
  | .inl _ :: l, r :: rs => some r :: weave l rs
  | .inr b :: l, rs => some b :: weave l rs

/-- Writing both halves into slots allocated beforehand weaves them together,
also when there are results for a part of the first half only. -/
theorem fill_weave : ∀ (l : List (α ⊕ β)) (rs : List β),
    fill (fill (List.replicate l.length none) (((lefts 0 l).zip rs).map fun e => (e.1.1, e.2))) (rights 0 l) =
      weave l rs
  | [], _ => rfl
  | .inl a :: l, [] => by
    have h := fill_weave l []
    rw [List.zip_nil_right, List.map_nil] at h ⊢
    rw [rights, rights_succ, List.length_cons, List.replicate_succ, weave]
    show fill (none :: List.replicate l.length none) ((rights 0 l).map fun e => (e.1 + 1, e.2)) = _
    rw [fill_cons_slots]
    exact congrArg (none :: ·) h
  | .inl a :: l, r :: rs => by
    have hmap : (((lefts 0 l).map fun e => (e.1 + 1, e.2)).zip rs).map (fun e => (e.1.1, e.2)) =
        (((lefts 0 l).zip rs).map fun e => (e.1.1, e.2)).map fun e => (e.1 + 1, e.2) := by
      simp [List.zip_map_left, Function.comp_def]
    simp only [lefts, rights, lefts_succ 0, rights_succ 0, List.zip_cons_cons, List.map_cons,
      List.length_cons, List.replicate_succ, fill_cons, List.set_cons_zero, hmap]
    rw [fill_cons_slots, fill_cons_slots, fill_weave l rs, weave]
  | .inr b :: l, rs => by
    have hmap : (((lefts 0 l).map fun e => (e.1 + 1, e.2)).zip rs).map (fun e => (e.1.1, e.2)) =
        (((lefts 0 l).zip rs).map fun e => (e.1.1, e.2)).map fun e => (e.1 + 1, e.2) := by
      simp [List.zip_map_left, Function.comp_def]
    simp only [lefts, rights, lefts_succ 0, rights_succ 0, List.length_cons, List.replicate_succ, hmap]
    rw [fill_cons_slots, fill_cons, List.set_cons_zero, fill_cons_slots, fill_weave l rs, weave]

/-- With a result for each element of the first half, the batch comes back
complete and in order. -/
theorem weave_complete {γ : Type*} (f : α → γ) (g : β → γ) : ∀ (l : List (α ⊕ β)) {rs : List β},
    rs.map g = (lefts 0 l).map (fun e => f e.2) →
      ((weave l rs).filterMap id).map g = l.map fun x => x.elim f g
  | [], _, _ => rfl
  | .inl a :: l, rs, h => by
    rw [lefts, lefts_succ, List.map_cons, List.map_map] at h
    cases rs with
    | nil => simp at h
    | cons r rs =>
      obtain ⟨hr, hrs⟩ := List.cons.inj h
      have ih := weave_complete f g l hrs
      simp only [weave, List.filterMap_cons_some (id_eq (some r)), List.map_cons, ih, hr, Sum.elim_inl]
  | .inr b :: l, rs, h => by
    rw [lefts, lefts_succ, List.map_map] at h
    have ih := weave_complete f g l h
    simp only [weave, List.filterMap_cons_some (id_eq (some b)), List.map_cons, ih, Sum.elim_inr]

/-- The results come back in the order of the batch. -/
theorem fill_split (f : α → β) (l : List (α ⊕ β)) :
    fill (fill (List.replicate l.length none) ((lefts 0 l).map fun e => (e.1, f e.2))) (rights 0 l) =
      l.map fun x => some (x.elim f id) := by
  have hzip : ((lefts 0 l).map fun e => (e.1, f e.2)) =
      ((lefts 0 l).zip ((lefts 0 l).map fun e => f e.2)).map fun e => (e.1.1, e.2) := by
    simp [List.zip, List.zipWith_map_right]
  have hweave : ∀ l : List (α ⊕ β), weave l ((lefts 0 l).map fun e => f e.2) =
      l.map fun x => some (x.elim f id) := by
    intro l
    induction l with
    | nil => rfl
    | cons x l ih => cases x <;> simpa [lefts, lefts_succ 0, weave, Function.comp_def] using ih
  rw [hzip, fill_weave, hweave]

end Slots
