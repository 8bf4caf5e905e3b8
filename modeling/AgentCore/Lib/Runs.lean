/-
# Runs of a system of events

A system is a partial step function: an event happens in a state or cannot.
`Trace step P s₀ es s` says that the events `es`, each meeting `P` in the
state it happens in and after the events before it, lead from `s₀` to `s`; so a
statement about traces is one about every state that a run reaches. An
invariant is proved by `Trace.invariant`, and a concrete run is turned into a
trace by evaluating it (`Trace.of_run`).
-/
import Mathlib.Data.List.Basic
import Mathlib.Data.List.Induction

namespace Runs

variable {S E : Type} (step : S → E → Option S)

/-- The events `es` lead from `s₀` to `s`, each meeting `P`. -/
inductive Trace (P : List E → S → E → Prop) (s₀ : S) : List E → S → Prop
  | init : Trace P s₀ [] s₀
  | next {es : List E} {s s' : S} {e : E} (h : Trace P s₀ es s) (hP : P es s e) (hs : step s e = some s') :
      Trace P s₀ (es ++ [e]) s'

variable {step}

/-- **The invariant rule**: what holds at the start and is kept by every step
that meets `P` holds in every state reached. -/
theorem Trace.invariant {P : List E → S → E → Prop} {I : List E → S → Prop} {s₀ : S} (h0 : I [] s₀)
    (hstep : ∀ es s e s', I es s → P es s e → step s e = some s' → I (es ++ [e]) s') {es : List E} {s : S}
    (h : Trace step P s₀ es s) : I es s := by
  induction h with
  | init => exact h0
  | next _ hP hs ih => exact hstep _ _ _ _ ih hP hs

theorem Trace.imp {P Q : List E → S → E → Prop} (hPQ : ∀ es s e, P es s e → Q es s e) {s₀ : S} {es : List E}
    {s : S} (h : Trace step P s₀ es s) : Trace step Q s₀ es s := by
  induction h with
  | init => exact .init
  | next _ hP hs ih => exact .next ih (hPQ _ _ _ hP) hs

/-! ### Concrete runs -/

variable (step)

/-- The state a list of events leads to. -/
def run : S → List E → Option S
  | s, [] => some s
  | s, e :: es => (step s e).bind fun s' => run s' es

/-- The events all meet `p` on the way, after those of `past`. -/
def meets (p : List E → S → E → Bool) : List E → S → List E → Bool
  | _, _, [] => true
  | past, s, e :: es => p past s e && (step s e).all fun s' => meets p (past ++ [e]) s' es

variable {step}

theorem run_append : ∀ (s : S) (es es' : List E), run step s (es ++ es') = (run step s es).bind fun s' => run step s' es'
  | _, [], _ => rfl
  | s, e :: es, es' => by
    rw [List.cons_append, run, run]
    cases step s e with
    | none => rfl
    | some s' => exact run_append s' es es'

/-- A run with one more event. -/
theorem run_concat (s : S) (es : List E) (e : E) : run step s (es ++ [e]) = (run step s es).bind fun s' => step s' e := by
  rw [run_append]
  congr 1
  funext s'
  rw [run]
  cases step s' e with
  | none => rfl
  | some s'' => rfl

/-- An event of a run happens in a state of the run. -/
theorem exists_of_run {s s' : S} {past later : List E} {e : E} (h : run step s (past ++ e :: later) = some s') :
    ∃ s₁ s₂, run step s past = some s₁ ∧ step s₁ e = some s₂ := by
  rw [run_append] at h
  obtain ⟨s₁, hpast, h⟩ := Option.bind_eq_some_iff.mp h
  obtain ⟨s₂, hstep, -⟩ := Option.bind_eq_some_iff.mp h
  exact ⟨s₁, s₂, hpast, hstep⟩

theorem Trace.run_append {P : List E → S → E → Prop} {p : List E → S → E → Bool}
    (hp : ∀ es s e, p es s e = true → P es s e) {s₀ : S} :
    ∀ {past : List E} {s : S} (es : List E) {s' : S}, Trace step P s₀ past s →
      meets step p past s es = true → run step s es = some s' → Trace step P s₀ (past ++ es) s'
  | past, s, [], s', h, _, hr => by
    rw [run, Option.some.injEq] at hr
    subst hr
    rwa [List.append_nil]
  | past, s, e :: es, s', h, hm, hr => by
    obtain ⟨s₁, hs, hr'⟩ := Option.bind_eq_some_iff.mp hr
    rw [meets, hs, Bool.and_eq_true, Option.all_some] at hm
    have hnext := Trace.run_append hp es (.next h (hp _ _ _ hm.1) hs) hm.2 hr'
    rwa [List.append_assoc, List.singleton_append] at hnext

/-- An evaluated run is a trace. -/
theorem Trace.of_run {P : List E → S → E → Prop} {p : List E → S → E → Bool}
    (hp : ∀ es s e, p es s e = true → P es s e) {s₀ s : S} {es : List E}
    (hm : meets step p [] s₀ es = true) (hr : run step s₀ es = some s) : Trace step P s₀ es s :=
  Trace.run_append hp es .init hm hr

/-- An evaluated run of events that meet `P` wherever they happen is a trace. -/
theorem Trace.of_forall {P : List E → S → E → Prop} {s₀ s : S} {es : List E} (hP : ∀ e ∈ es, ∀ past s, P past s e)
    (hr : run step s₀ es = some s) : Trace step P s₀ es s := by
  induction es using List.reverseRecOn generalizing s with
  | nil =>
    rw [run, Option.some.injEq] at hr
    rw [← hr]
    exact .init
  | append_singleton es e ih =>
    rw [run_concat] at hr
    obtain ⟨s', hbefore, hs⟩ := Option.bind_eq_some_iff.mp hr
    have htrace := ih (fun x hx => hP x (List.mem_append_left _ hx)) hbefore
    exact .next htrace (hP e (List.mem_append_right _ (List.mem_singleton_self e)) es s') hs

theorem meets_true : ∀ (past : List E) (s : S) (es : List E), meets step (fun _ _ _ => true) past s es = true
  | _, _, [] => rfl
  | past, s, e :: es => by
    rw [meets, Bool.true_and]
    cases step s e with
    | none => rfl
    | some s' => exact meets_true (past ++ [e]) s' es

/-- An evaluated run is a trace of steps that need meet nothing. -/
theorem Trace.of_run_any {s₀ s : S} {es : List E} (hr : run step s₀ es = some s) :
    Trace step (fun _ _ _ => True) s₀ es s :=
  Trace.of_run (fun _ _ _ _ => trivial) (meets_true [] s₀ es) hr

end Runs
