/-
# Noninterference of a part of a system

Some of the events of a system are a part's own, and each answers something. The part
is not interfered with when its events answer the same without the others. By unwinding:
a relation between two runs that an event of the others keeps on its side, and that an
event of the part keeps on both while it answers the same (`noninterference`).
-/
import AgentCore.Lib.Runs

namespace Runs

variable {S E O : Type} (step : S → E → Option S) (out : S → E → O)

/-- The events of a run with their answers. -/
def answers : S → List E → List (E × O)
  | _, [] => []
  | s, e :: es =>
    match step s e with
    | some s' => (e, out s e) :: answers s' es
    | none => []

/-- The relation `agree` follows the part `mine` of the events that meet `P`. -/
structure Unwinding (P : List E → S → E → Prop) (mine : E → Bool) (agree : S → S → Prop) : Prop where
  skip : ∀ {es s s' u e}, P es s e → mine e = false → agree s u → step s e = some s' → agree s' u
  follow : ∀ {es s s' u e}, P es s e → mine e = true → agree s u → step s e = some s' →
    out s e = out u e ∧ ∃ u', step u e = some u' ∧ agree s' u'

variable {step out}

theorem Trace.run_eq {P : List E → S → E → Prop} {s₀ s : S} {es : List E} (h : Trace step P s₀ es s) :
    run step s₀ es = some s := by
  induction h with
  | init => rfl
  | next _ _ hs ih => rw [run_concat, ih, Option.bind_some, hs]

theorem answers_concat {s s' s'' : S} {es : List E} {e : E} (hrun : run step s es = some s') (hs : step s' e = some s'') :
    answers step out s (es ++ [e]) = answers step out s es ++ [(e, out s' e)] := by
  induction es generalizing s with
  | nil =>
    obtain rfl : s = s' := Option.some.inj hrun
    show (match step s e with | some s' => [(e, out s e)] | none => []) = [(e, out s e)]
    rw [hs]
  | cons x es ih =>
    obtain ⟨s₁, hx, hrest⟩ := Option.bind_eq_some_iff.mp hrun
    rw [List.cons_append, answers, answers, hx]
    dsimp only
    rw [ih hrest, List.cons_append]

/-- **Noninterference**: the part can run without the others, and gets the same answers. -/
theorem noninterference {P : List E → S → E → Prop} {mine : E → Bool} {agree : S → S → Prop}
    (h : Unwinding step out P mine agree) {s₀ u₀ s : S} (h0 : agree s₀ u₀) {es : List E} (ht : Trace step P s₀ es s) :
    ∃ u, run step u₀ (es.filter mine) = some u ∧ agree s u ∧
      (answers step out s₀ es).filter (fun a => mine a.1) = answers step out u₀ (es.filter mine) := by
  induction ht with
  | init => exact ⟨u₀, rfl, h0, rfl⟩
  | @next es s s' e ht hP hs ih =>
    obtain ⟨u, hu, hagree, hanswers⟩ := ih
    rw [answers_concat ht.run_eq hs, List.filter_append, List.filter_append, hanswers, List.filter_singleton,
      List.filter_singleton]
    dsimp only
    cases hmine : mine e with
    | false =>
      rw [cond_false, cond_false, List.append_nil, List.append_nil]
      exact ⟨u, hu, h.skip hP hmine hagree hs, rfl⟩
    | true =>
      obtain ⟨hout, u', hu', hagree'⟩ := h.follow hP hmine hagree hs
      rw [cond_true, cond_true]
      refine ⟨u', ?_, hagree', ?_⟩
      · rw [run_concat, hu, Option.bind_some, hu']
      · rw [answers_concat hu hu', hout]

end Runs
