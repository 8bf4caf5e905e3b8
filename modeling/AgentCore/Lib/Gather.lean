/-
# A batch run concurrently

Children run at once and a batch waits for them all. The first to end in an
error ends the batch with it; when none does, the results come in the order of
the batch, unless the batch was cancelled meanwhile. The order of completion is
given; children it does not name complete after the others, in the order of the
batch.

An error is harmless or it is not. A batch ends in no harmful error exactly
when a harmless one comes before each (`gather_harmless_iff`).

Key definitions: `Gather.firstError`, `Gather.gather`.
-/
import Mathlib.Data.List.Basic

namespace Gather

variable {ε α : Type*}

/-- The error a child ends in. -/
def errorOf : Except ε α → Option ε
  | .error e => some e
  | .ok _ => none

def result : Except ε α → Option α
  | .error _ => none
  | .ok a => some a

/-- The children in the order in which they complete. -/
def completion (children : List (Except ε α)) (order : List ℕ) : List ℕ :=
  order ++ List.range children.length

def firstError (children : List (Except ε α)) (order : List ℕ) : Option ε :=
  (completion children order).findSome? fun i => children[i]?.bind errorOf

/-- The batch; `cancelled` is the error of a batch that was cancelled. -/
def gather (children : List (Except ε α)) (order : List ℕ) (cancelled : Option ε) : Except ε (List α) :=
  match (firstError children order).or cancelled with
  | some e => .error e
  | none => .ok (children.filterMap result)

theorem bind_errorOf_eq_some {children : List (Except ε α)} {i : ℕ} {e : ε} :
    children[i]?.bind errorOf = some e ↔ children[i]? = some (.error e) := by
  cases children[i]? with
  | none => simp
  | some child => cases child <;> simp [errorOf]

/-- Without a first error every child has a result. -/
theorem eq_map_ok {children : List (Except ε α)} {order : List ℕ} (h : firstError children order = none) :
    children = (children.filterMap result).map .ok := by
  have hok : ∀ child ∈ children, errorOf child = none := by
    intro child hchild
    obtain ⟨i, hi, rfl⟩ := List.mem_iff_getElem.mp hchild
    have hmem : i ∈ completion children order := List.mem_append_right _ (List.mem_range.mpr hi)
    have hnone := List.findSome?_eq_none_iff.mp h i hmem
    simpa [List.getElem?_eq_getElem hi] using hnone
  clear h
  induction children with
  | nil => rfl
  | cons child children ih =>
    have htail := ih fun c hc => hok c (List.mem_cons_of_mem _ hc)
    cases child with
    | error e => exact absurd (hok _ List.mem_cons_self) (by simp [errorOf])
    | ok a =>
      show .ok a :: children = .ok a :: (children.filterMap result).map .ok
      rw [← htail]

/-- A batch that comes to an end has one result for each child, in order. -/
theorem gather_ok {children : List (Except ε α)} {order : List ℕ} {cancelled : Option ε} {rs : List α}
    (h : gather children order cancelled = .ok rs) : children = rs.map .ok := by
  unfold gather at h
  cases hfirst : (firstError children order).or cancelled with
  | some e => simp [hfirst] at h
  | none =>
    have hnone : firstError children order = none := (Option.or_eq_none_iff.mp hfirst).1
    rw [hfirst] at h
    rw [← Except.ok.inj h]
    exact eq_map_ok hnone

/-! ### Harmless errors -/

/-- The first value along a list is harmless when a harmless one comes before
each that is not. -/
theorem findSome?_harmless_iff {ι : Type*} (f : ι → Option ε) (harmless : ε → Prop) (l : List ι) :
    (∀ e, l.findSome? f = some e → harmless e) ↔
      ∀ pre i post, l = pre ++ i :: post → (∃ e, f i = some e ∧ ¬ harmless e) →
        ∃ j ∈ pre, ∃ e, f j = some e ∧ harmless e := by
  constructor
  · intro h pre i post hl hi
    obtain ⟨e, he, hbad⟩ := hi
    subst hl
    cases hpre : pre.findSome? f with
    | some e' =>
      obtain ⟨j, hj, hje⟩ := List.exists_of_findSome?_eq_some hpre
      exact ⟨j, hj, e', hje, h e' (by simp [List.findSome?_append, hpre])⟩
    | none => exact absurd (h e (by simp [List.findSome?_append, hpre, he])) hbad
  · intro h e he
    obtain ⟨pre, i, post, hl, hi, hpre⟩ := List.findSome?_eq_some_iff.mp he
    by_contra hbad
    obtain ⟨j, hj, e', hje, -⟩ := h pre i post hl ⟨e, hi, hbad⟩
    rw [hpre j hj] at hje
    simp at hje

theorem gather_harmless_iff {harmless : ε → Prop} {cancelled : Option ε}
    (hcancelled : ∀ e, cancelled = some e → harmless e) (children : List (Except ε α)) (order : List ℕ) :
    (∀ e, gather children order cancelled = .error e → harmless e) ↔
      ∀ pre i post, completion children order = pre ++ i :: post →
        (∃ e, children[i]? = some (.error e) ∧ ¬ harmless e) →
          ∃ j ∈ pre, ∃ e, children[j]? = some (.error e) ∧ harmless e := by
  have hgather : (∀ e, gather children order cancelled = .error e → harmless e) ↔
      ∀ e, firstError children order = some e → harmless e := by
    unfold gather
    cases hfirst : firstError children order with
    | some e => simp
    | none =>
      cases cancelled with
      | none => simp
      | some e => simpa using hcancelled e rfl
  rw [hgather, firstError, findSome?_harmless_iff]
  simp only [bind_errorOf_eq_some]

end Gather
