/-
# A file of records and its index

A file holds records one after the other. An index has an entry for each of them,
with a digest of the record and the offset at which it ends. `Recorded` says that
an index describes a list of records from an offset on; the file can be cut at the
end of any of them, and further records appended.

`ε` is the type of the entries, with `mark` and `stop` for their digests and their
offsets; a record is a list of `α`.
-/
import Mathlib.Data.List.Basic

namespace Spans

variable {α ε D : Type} (mark : ε → D) (stop : ε → ℕ) (digest : List α → D)

/-- The entries describe the records, from an offset on. -/
def Recorded : ℕ → List ε → List (List α) → Prop
  | _, [], [] => True
  | start, e :: es, l :: ls => mark e = digest l ∧ stop e = start + l.length ∧ Recorded (start + l.length) es ls
  | _, _, _ => False

/-- Where the last record ends. -/
def lastStop (es : List ε) : ℕ := (es.getLast?.map stop).getD 0

/-- The file cut at an offset, or filled up to it. -/
def truncate (zero : α) (bytes : List α) (offset : ℕ) : List α :=
  bytes.take offset ++ List.replicate (offset - bytes.length) zero

section Lemmas

variable {mark stop digest}

theorem Recorded.append : ∀ {start : ℕ} {es es' : List ε} {ls ls' : List (List α)},
    Recorded mark stop digest start es ls → Recorded mark stop digest (start + ls.flatten.length) es' ls' →
      Recorded mark stop digest start (es ++ es') (ls ++ ls')
  | _, [], _, [], _, _, h' => h'
  | start, e :: es, es', l :: ls, ls', ⟨hd, ho, h⟩, h' => by
    refine ⟨hd, ho, Recorded.append h ?_⟩
    rwa [List.flatten_cons, List.length_append, ← Nat.add_assoc] at h'

theorem Recorded.take : ∀ {start : ℕ} {es : List ε} {ls : List (List α)} (k : ℕ),
    Recorded mark stop digest start es ls → Recorded mark stop digest start (es.take k) (ls.take k)
  | _, _, _, 0, _ => trivial
  | _, [], [], _ + 1, h => h
  | _, _ :: _, _ :: _, k + 1, ⟨hd, ho, h⟩ => ⟨hd, ho, h.take k⟩

theorem Recorded.getLast : ∀ {start : ℕ} {es : List ε} {ls : List (List α)},
    Recorded mark stop digest start es ls → (es.getLast?.map stop).getD start = start + ls.flatten.length
  | _, [], [], _ => rfl
  | start, [e], [l], ⟨_, ho, _⟩ => by simp [ho]
  | start, e :: e' :: es, l :: l' :: ls, ⟨_, _, h⟩ => by
    have hlast := Recorded.getLast h
    rw [List.getLast?_cons_cons, List.flatten_cons, List.length_append, ← Nat.add_assoc, ← hlast]
    cases hget : (e' :: es).getLast? with
    | none => simp at hget
    | some e => rfl

theorem Recorded.lastStop {es : List ε} {ls : List (List α)} (h : Recorded mark stop digest 0 es ls) :
    Spans.lastStop stop es = ls.flatten.length := by
  rw [Spans.lastStop, h.getLast, Nat.zero_add]

/-- Cut at the end of a record, the file holds the records up to it. -/
theorem Recorded.truncate {es : List ε} {ls : List (List α)} (h : Recorded mark stop digest 0 es ls) (zero : α)
    (k : ℕ) : Spans.truncate zero ls.flatten (Spans.lastStop stop (es.take k)) = (ls.take k).flatten := by
  have hsplit : ls.flatten = (ls.take k).flatten ++ (ls.drop k).flatten := by
    rw [← List.flatten_append, List.take_append_drop]
  have hle : (ls.take k).flatten.length ≤ ls.flatten.length := by
    rw [hsplit, List.length_append]
    exact Nat.le_add_right _ _
  rw [Spans.truncate, (h.take k).lastStop, Nat.sub_eq_zero_of_le hle, List.replicate_zero, List.append_nil, hsplit,
    List.take_left]

end Lemmas

end Spans
