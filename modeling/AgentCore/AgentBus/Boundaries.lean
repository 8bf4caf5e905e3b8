/-
# Task boundaries

A session keeps one list of messages for all its tasks and a boundary for each
task: where its prompt stands and, once the task is over, where it ends.
Closing a boundary makes sure that it contains an assistant message without
tool calls, by adding one if there is none; `trim_and_remap_boundaries` then
keeps of each closed task only its prompt and that message.

`Bounded` is what holds of messages and boundaries throughout: the boundaries
stand one behind the other, only the last may be open, and a closed one has
its final assistant message. Opening, closing and trimming keep it.

Key definitions: `findFinalAssistant`, `closeSessionBoundaryAborted`,
`closeBoundary`, `trimAndRemapBoundaries`, `Bounded`.
Key theorems: `Bounded.open`, `Bounded.close`, `Bounded.trim`.
-/
import AgentCore.Messages

namespace AgentCore
namespace AgentBus

/-- `(start_index, end_index_or_None)`. -/
abbrev TaskBoundary := ℕ × Option ℕ

/-- An assistant message without tool calls. -/
def isFinal (m : Message) : Bool := isAssistantMsg m && m.toolCalls.isEmpty

/-- The last message from `start` to `stop`, both included, that is final. -/
def findFinalAssistant (ms : History) (start stop : ℕ) : Option Message :=
  ((ms.take (stop + 1)).drop start).reverse.find? isFinal

def abortedStub : Message := assistantMsg (.text "[task aborted before producing a final answer]") [] ""

/-- Closing the last boundary, if it is open, for a task that did not end by
itself. -/
def closeSessionBoundaryAborted (ms : History) (bs : List TaskBoundary) : History × List TaskBoundary :=
  match bs.getLast? with
  | some (start, none) =>
    let ms := if (findFinalAssistant ms (start + 1) (ms.length - 1)).isSome then ms else ms ++ [abortedStub]
    (ms, bs.dropLast ++ [(start, some (max start (ms.length - 1)))])
  | _ => (ms, bs)

/-- What stands in for the answer of a loop that ended without one. -/
def stubText (finalText stoppedBy : String) : String :=
  if finalText ≠ "" then finalText
  else "[task ended without a clean final answer (stopped_by=" ++
    (if stoppedBy ≠ "" then stoppedBy else "unknown") ++ ")]"

/-- Closing the last boundary behind the turns of a loop that returned; none
when there is no boundary. -/
def closeBoundary (ms : History) (bs : List TaskBoundary) (finalText stoppedBy : String) :
    Option (History × List TaskBoundary) :=
  match bs.getLast? with
  | none => none
  | some (start, _) =>
    let ms := if (findFinalAssistant ms (start + 1) (ms.length - 1)).isSome then ms
      else ms ++ [assistantMsg (.text (stubText finalText stoppedBy)) [] ""]
    some (ms, bs.dropLast ++ [(start, some (ms.length - 1))])

/-- One round of the loop in `trim_and_remap_boundaries`. -/
def trimBoundary (ms : History) (kept : History × List TaskBoundary) (b : TaskBoundary) :
    History × List TaskBoundary :=
  let (newMessages, newBoundaries) := kept
  match ms[b.1]? with
  | none => kept
  | some prompt =>
    match b.2 with
    | none => (newMessages ++ ms.drop b.1, newBoundaries ++ [(newMessages.length, none)])
    | some stop =>
      match findFinalAssistant ms (b.1 + 1) stop with
      | some final =>
        (newMessages ++ [prompt, final], newBoundaries ++ [(newMessages.length, some (newMessages.length + 1))])
      | none => (newMessages ++ [prompt], newBoundaries ++ [(newMessages.length, some newMessages.length)])

/-- The trimmed messages and boundaries; none where the code returns the lists
it was given. -/
def trimAndRemapBoundaries (ms : History) (bs : List TaskBoundary) : Option (History × List TaskBoundary) :=
  if bs.isEmpty || ms.isEmpty then none
  else if bs.any (·.2.isSome) then some (bs.foldl (trimBoundary ms) ([], []))
  else none

/-! ### Final messages -/

@[simp] theorem isFinal_assistantMsg (c : Content) (s : String) : isFinal (assistantMsg c [] s) = true := rfl

@[simp] theorem isFinal_abortedStub : isFinal abortedStub = true := rfl

theorem findFinalAssistant_isSome {ms : History} {start stop : ℕ} :
    (findFinalAssistant ms start stop).isSome = true ↔
      ∃ i m, start ≤ i ∧ i ≤ stop ∧ ms[i]? = some m ∧ isFinal m = true := by
  unfold findFinalAssistant
  rw [List.find?_isSome]
  constructor
  · rintro ⟨m, hm, hf⟩
    obtain ⟨k, hk⟩ := List.mem_iff_getElem?.mp (List.mem_reverse.mp hm)
    rw [List.getElem?_drop, List.getElem?_take] at hk
    split at hk
    · exact ⟨start + k, m, by omega, by omega, hk, hf⟩
    · cases hk
  · rintro ⟨i, m, hi, hle, hm, hf⟩
    refine ⟨m, List.mem_reverse.mpr (List.mem_iff_getElem?.mpr ⟨i - start, ?_⟩), hf⟩
    rw [List.getElem?_drop, List.getElem?_take, if_pos (by omega), Nat.add_sub_cancel' hi]
    exact hm

theorem isFinal_of_findFinalAssistant {ms : History} {start stop : ℕ} {m : Message}
    (h : findFinalAssistant ms start stop = some m) : isFinal m = true :=
  List.find?_some h

/-! ### Boundaries in order -/

/-- A boundary closed with its final message, or open. -/
def Covers (ms : History) (b : TaskBoundary) : Prop :=
  match b.2 with
  | none => b.1 < ms.length
  | some stop => b.1 < stop ∧ stop < ms.length ∧
      ∃ i m, b.1 < i ∧ i ≤ stop ∧ ms[i]? = some m ∧ isFinal m = true

/-- The boundaries of a session stand one behind the other, and only the last
may be open. -/
structure Bounded (ms : History) (bs : List TaskBoundary) : Prop where
  ordered : bs.Pairwise fun x y => ∃ stop, x.2 = some stop ∧ stop < y.1
  covers : ∀ b ∈ bs, Covers ms b

theorem Bounded.nil (ms : History) : Bounded ms [] := ⟨.nil, by simp⟩

theorem Covers.start_lt {ms : History} {b : TaskBoundary} (h : Covers ms b) : b.1 < ms.length := by
  obtain ⟨start, stop⟩ := b
  cases stop with
  | none => exact h
  | some stop => exact Nat.lt_trans h.1 h.2.1

theorem Covers.append {ms : History} {b : TaskBoundary} (h : Covers ms b) (new : History) :
    Covers (ms ++ new) b := by
  obtain ⟨start, stop⟩ := b
  cases stop with
  | none =>
    have : start < ms.length := h
    simp only [Covers, List.length_append]
    omega
  | some stop =>
    obtain ⟨h1, h2, i, m, h3, h4, hm, hf⟩ := h
    refine ⟨h1, ?_, i, m, h3, h4, ?_, hf⟩
    · rw [List.length_append]
      omega
    · rw [List.getElem?_append_left (by omega)]
      exact hm

theorem Bounded.append {ms : History} {bs : List TaskBoundary} (h : Bounded ms bs) (new : History) :
    Bounded (ms ++ new) bs :=
  ⟨h.ordered, fun b hb => (h.covers b hb).append new⟩

/-- A task begins behind closed ones. -/
theorem Bounded.open {ms : History} {bs : List TaskBoundary} (h : Bounded ms bs)
    (hclosed : ∀ b ∈ bs, b.2 ≠ none) (prompt : Message) :
    Bounded (ms ++ [prompt]) (bs ++ [(ms.length, none)]) := by
  refine ⟨List.pairwise_append.mpr ⟨h.ordered, List.pairwise_singleton _ _, fun x hx y hy => ?_⟩, fun b hb => ?_⟩
  · rw [List.mem_singleton.mp hy]
    obtain ⟨stop, hstop⟩ := Option.ne_none_iff_exists'.mp (hclosed x hx)
    have hx' := h.covers x hx
    rw [Covers, hstop] at hx'
    exact ⟨stop, hstop, hx'.2.1⟩
  · rcases List.mem_append.mp hb with hb | hb
    · exact (h.covers b hb).append _
    · rw [List.mem_singleton.mp hb]
      simp [Covers]

/-- Only the last boundary can be open. -/
theorem Bounded.closed_of_mem_dropLast {ms : History} {bs : List TaskBoundary} (h : Bounded ms bs)
    {b : TaskBoundary} (hb : b ∈ bs.dropLast) : b.2 ≠ none := by
  rcases List.eq_nil_or_concat bs with rfl | ⟨init, last, rfl⟩
  · simp at hb
  · rw [List.concat_eq_append, List.dropLast_concat] at hb
    have hord := h.ordered
    rw [List.concat_eq_append] at hord
    obtain ⟨stop, hstop, -⟩ := (List.pairwise_append.mp hord).2.2 b hb last (List.mem_singleton_self _)
    rw [hstop]
    exact Option.some_ne_none _

/-- The last boundary is closed at the last message, which leaves a final
message behind its start. -/
theorem Bounded.close {ms : History} {bs : List TaskBoundary} {start : ℕ} {stop : Option ℕ}
    (h : Bounded ms bs) (hlast : bs.getLast? = some (start, stop))
    (hfinal : ∃ i m, start < i ∧ ms[i]? = some m ∧ isFinal m = true) :
    Bounded ms (bs.dropLast ++ [(start, some (ms.length - 1))]) := by
  obtain ⟨init, rfl⟩ := List.getLast?_eq_some_iff.mp hlast
  rw [List.dropLast_concat]
  have hord := List.pairwise_append.mp h.ordered
  refine ⟨List.pairwise_append.mpr ⟨hord.1, List.pairwise_singleton _ _, fun x hx y hy => ?_⟩, fun b hb => ?_⟩
  · rw [List.mem_singleton.mp hy]
    exact hord.2.2 x hx (start, stop) (List.mem_singleton_self _)
  · rcases List.mem_append.mp hb with hb | hb
    · exact h.covers b (List.mem_append_left _ hb)
    · rw [List.mem_singleton.mp hb]
      obtain ⟨i, m, hi, hm, hf⟩ := hfinal
      obtain ⟨hlen, -⟩ := List.getElem?_eq_some_iff.mp hm
      exact ⟨by omega, by omega, i, m, hi, by omega, hm, hf⟩

/-- The messages with a final one at the end where there is none from `start`
on. -/
theorem exists_final_of_stub {ms : History} {start : ℕ} {stub : Message} (hstub : isFinal stub = true)
    (hstart : start < ms.length) :
    ∃ i m, start < i ∧
      (if (findFinalAssistant ms (start + 1) (ms.length - 1)).isSome then ms else ms ++ [stub])[i]? = some m ∧
      isFinal m = true := by
  split
  · next h =>
    obtain ⟨i, m, hi, -, hm, hf⟩ := findFinalAssistant_isSome.mp h
    exact ⟨i, m, hi, hm, hf⟩
  · exact ⟨ms.length, stub, hstart, by simp, hstub⟩

theorem Bounded.stub {ms : History} {bs : List TaskBoundary} (h : Bounded ms bs) (c : Bool) (stub : Message) :
    Bounded (if c then ms else ms ++ [stub]) bs := by
  split
  · exact h
  · exact h.append _

theorem Bounded.closeSessionBoundaryAborted {ms : History} {bs : List TaskBoundary} (h : Bounded ms bs) :
    Bounded (closeSessionBoundaryAborted ms bs).1 (closeSessionBoundaryAborted ms bs).2 := by
  unfold AgentBus.closeSessionBoundaryAborted
  split
  · next start hlast =>
    have hstart := (h.covers _ (List.mem_of_getLast? hlast)).start_lt
    have hfinal := exists_final_of_stub isFinal_abortedStub hstart
    obtain ⟨i, m, hi, hm, -⟩ := hfinal
    obtain ⟨hlen, -⟩ := List.getElem?_eq_some_iff.mp hm
    dsimp only at *
    rw [Nat.max_eq_right (by omega)]
    exact (h.stub _ _).close hlast (exists_final_of_stub isFinal_abortedStub hstart)
  · exact h

theorem Bounded.closeBoundary {ms ms' : History} {bs bs' : List TaskBoundary} {finalText stoppedBy : String}
    (h : Bounded ms bs) (hc : closeBoundary ms bs finalText stoppedBy = some (ms', bs')) : Bounded ms' bs' := by
  unfold AgentBus.closeBoundary at hc
  split at hc
  · cases hc
  · next start stop hlast =>
    cases hc
    have hstart := (h.covers _ (List.mem_of_getLast? hlast)).start_lt
    exact (h.stub _ _).close hlast (exists_final_of_stub (isFinal_assistantMsg _ _) hstart)

/-- There is nothing to close when every boundary is closed. -/
theorem closeSessionBoundaryAborted_of_closed {ms : History} {bs : List TaskBoundary}
    (h : ∀ b ∈ bs, b.2 ≠ none) : closeSessionBoundaryAborted ms bs = (ms, bs) := by
  unfold closeSessionBoundaryAborted
  split
  · next start hlast => exact absurd rfl (h _ (List.mem_of_getLast? hlast))
  · rfl

/-- Closing leaves no boundary open. -/
theorem Bounded.closed_of_closeSessionBoundaryAborted {ms : History} {bs : List TaskBoundary}
    (h : Bounded ms bs) : ∀ b ∈ (AgentBus.closeSessionBoundaryAborted ms bs).2, b.2 ≠ none := by
  intro b hb
  unfold AgentBus.closeSessionBoundaryAborted at hb
  split at hb
  · rcases List.mem_append.mp hb with hb | hb
    · exact h.closed_of_mem_dropLast hb
    · rw [List.mem_singleton.mp hb]
      exact Option.some_ne_none _
  · next hnot =>
    rcases List.eq_nil_or_concat bs with rfl | ⟨init, last, rfl⟩
    · simp at hb
    · rw [List.concat_eq_append] at hb hnot h
      rcases List.mem_append.mp hb with hb | hb
      · refine h.closed_of_mem_dropLast ?_
        rwa [List.dropLast_concat]
      · intro hnone
        rw [List.mem_singleton.mp hb] at hnone
        refine hnot last.1 ?_
        rw [List.getLast?_concat, ← hnone]

theorem Bounded.closed_of_closeBoundary {ms ms' : History} {bs bs' : List TaskBoundary}
    {finalText stoppedBy : String} (h : Bounded ms bs)
    (hc : AgentBus.closeBoundary ms bs finalText stoppedBy = some (ms', bs')) : ∀ b ∈ bs', b.2 ≠ none := by
  intro b hb
  unfold AgentBus.closeBoundary at hc
  split at hc
  · cases hc
  · cases hc
    rcases List.mem_append.mp hb with hb | hb
    · exact h.closed_of_mem_dropLast hb
    · rw [List.mem_singleton.mp hb]
      exact Option.some_ne_none _

/-! ### Trimming -/

/-- Keeping one more boundary behind those kept. -/
theorem Bounded.trimBoundary {ms nm : History} {nb : List TaskBoundary} {b : TaskBoundary}
    (h : Bounded nm nb) (hclosed : ∀ x ∈ nb, x.2 ≠ none) (hb : Covers ms b) :
    Bounded (trimBoundary ms (nm, nb) b).1 (trimBoundary ms (nm, nb) b).2 ∧
      (b.2 ≠ none → ∀ x ∈ (AgentBus.trimBoundary ms (nm, nb) b).2, x.2 ≠ none) := by
  obtain ⟨start, stop⟩ := b
  have hstart := hb.start_lt
  have hprompt : ms[start]? = some ms[start] := List.getElem?_eq_getElem hstart
  cases stop with
  | none =>
    have hdrop : ms.drop start = ms[start] :: ms.drop (start + 1) := List.drop_eq_getElem_cons hstart
    simp only [AgentBus.trimBoundary, hprompt, hdrop]
    refine ⟨?_, fun hne => absurd rfl hne⟩
    have hopen := (h.open hclosed ms[start]).append (ms.drop (start + 1))
    rwa [List.append_assoc, List.singleton_append] at hopen
  | some stop =>
    obtain ⟨-, -, i, m, hi, hle, hm, hf⟩ := hb
    have hsome : (findFinalAssistant ms (start + 1) stop).isSome = true :=
      findFinalAssistant_isSome.mpr ⟨i, m, hi, hle, hm, hf⟩
    obtain ⟨final, hfinal⟩ := Option.isSome_iff_exists.mp hsome
    simp only [AgentBus.trimBoundary, hprompt, hfinal]
    have hopen := (h.open hclosed ms[start]).append [final]
    rw [List.append_assoc, List.singleton_append] at hopen
    have hlast : (nb ++ [(nm.length, none)]).getLast? = some (nm.length, (none : Option ℕ)) := by simp
    have hclose := hopen.close hlast
      ⟨nm.length + 1, final, by omega, by simp, isFinal_of_findFinalAssistant hfinal⟩
    simp only [List.dropLast_concat, List.length_append, List.length_cons, List.length_nil] at hclose
    refine ⟨hclose, fun _ x hx => ?_⟩
    rcases List.mem_append.mp hx with hx | hx
    · exact hclosed x hx
    · rw [List.mem_singleton.mp hx]
      exact Option.some_ne_none _

theorem Bounded.trimFold {ms : History} :
    ∀ (bs : List TaskBoundary) {nm : History} {nb : List TaskBoundary}, Bounded ms bs → Bounded nm nb →
      (∀ x ∈ nb, x.2 ≠ none) →
      Bounded (bs.foldl (AgentBus.trimBoundary ms) (nm, nb)).1 (bs.foldl (AgentBus.trimBoundary ms) (nm, nb)).2 ∧
        ((∀ b ∈ bs, b.2 ≠ none) →
          ∀ x ∈ (bs.foldl (AgentBus.trimBoundary ms) (nm, nb)).2, x.2 ≠ none)
  | [], nm, nb, _, h, hclosed => ⟨h, fun _ => hclosed⟩
  | b :: bs, nm, nb, hbs, h, hclosed => by
    have hrest : Bounded ms bs :=
      ⟨(List.pairwise_cons.mp hbs.ordered).2, fun x hx => hbs.covers x (List.mem_cons_of_mem _ hx)⟩
    obtain ⟨h1, h2⟩ := h.trimBoundary hclosed (hbs.covers b List.mem_cons_self)
    rw [List.foldl_cons]
    cases hb : b.2 with
    | some stop =>
      have hne : b.2 ≠ none := by simp [hb]
      obtain ⟨h3, h4⟩ := Bounded.trimFold bs hrest h1 (h2 hne)
      exact ⟨h3, fun hall => h4 fun x hx => hall x (List.mem_cons_of_mem _ hx)⟩
    | none =>
      -- nothing stands behind an open boundary
      have hnil : bs = [] := by
        rcases bs with _ | ⟨c, cs⟩
        · rfl
        · obtain ⟨stop, hstop, -⟩ := (List.pairwise_cons.mp hbs.ordered).1 c List.mem_cons_self
          rw [hb] at hstop
          cases hstop
      subst hnil
      exact ⟨h1, fun hall => absurd hb (hall b List.mem_cons_self)⟩

/-- **Trimming keeps the boundaries in order**, and closed if they were. -/
theorem Bounded.trim {ms nm : History} {bs nb : List TaskBoundary} (h : Bounded ms bs)
    (ht : trimAndRemapBoundaries ms bs = some (nm, nb)) :
    Bounded nm nb ∧ ((∀ b ∈ bs, b.2 ≠ none) → ∀ b ∈ nb, b.2 ≠ none) := by
  unfold trimAndRemapBoundaries at ht
  split_ifs at ht
  have hfold := Bounded.trimFold bs h (Bounded.nil []) (by simp)
  rw [Option.some.inj ht] at hfold
  exact hfold

end AgentBus
end AgentCore
