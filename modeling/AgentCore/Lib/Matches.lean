/-
# Matches of a pattern in a text

`findall` and `sub` of a regular expression engine, for a pattern that can match at
a place in one way only: the matches are found from the left and do not overlap.
What replaces a match may be made of what it captures.

A text that is delimited by one symbol falls into segments. Where a pattern begins
with the delimiter and looks at one segment only, its matches in the text are those
of the segments (`findAll_body`).

Key definitions: `Matcher`, `Matcher.findAll`, `Matcher.replaceAll`, `Matches.body`.
Key theorems: `Matcher.induct`, `Matcher.absent_of_replaceAll_length`, `Matches.findAll_body`.
-/
import Mathlib.Data.List.Basic
import Mathlib.Data.List.Infix

/-- What a pattern captures at the head of a text, and the text behind the match. -/
structure Matcher (α γ : Type) where
  at? : List α → Option (γ × List α)
  shortens : ∀ {t g r}, at? t = some (g, r) → ∃ front, front ≠ [] ∧ t = front ++ r

namespace Matcher

variable {α γ : Type} (m : Matcher α γ)

/-- A text cut up into symbols outside the matches and what the matches capture,
`skip` symbols of a match being still to be passed. -/
def cut : ℕ → List α → List (α ⊕ γ)
  | _, [] => []
  | skip + 1, _ :: t => cut skip t
  | 0, c :: t =>
    match m.at? (c :: t) with
    | some (g, r) => .inr g :: cut (t.length - r.length) t
    | none => .inl c :: cut 0 t

def pieces (t : List α) : List (α ⊕ γ) := m.cut 0 t

/-- `re.findall`. -/
def findAll (t : List α) : List γ := (m.pieces t).filterMap Sum.getRight?

/-- `re.sub`. -/
def replaceAll (repl : γ → List α) (t : List α) : List α := (m.pieces t).flatMap (Sum.elim (fun c => [c]) repl)

variable {m} {t : List α}

theorem cut_skip : ∀ (front t : List α), m.cut front.length (front ++ t) = m.cut 0 t
  | [], _ => rfl
  | _ :: front, t => cut_skip front t

theorem pieces_plain {c : α} (h : m.at? (c :: t) = none) : m.pieces (c :: t) = .inl c :: m.pieces t := by
  unfold pieces
  rw [cut, h]

theorem pieces_match {g : γ} {r : List α} (h : m.at? t = some (g, r)) : m.pieces t = .inr g :: m.pieces r := by
  obtain ⟨front, hne, rfl⟩ := m.shortens h
  obtain ⟨c, front, rfl⟩ := List.exists_cons_of_ne_nil hne
  rw [List.cons_append] at h
  have hlen : (front ++ r).length - r.length = front.length := by simp
  unfold pieces
  rw [List.cons_append, cut, h]
  simp only [hlen, cut_skip]

/-- A text is empty, or begins with a symbol that begins no match, or with a match. -/
theorem induct {motive : List α → Prop} (nil : motive [])
    (plain : ∀ c t, m.at? (c :: t) = none → motive t → motive (c :: t))
    (hit : ∀ t g r, m.at? t = some (g, r) → motive r → motive t) : ∀ t, motive t := by
  intro t
  induction hn : t.length using Nat.strong_induction_on generalizing t with
  | _ n ih =>
    cases t with
    | nil => exact nil
    | cons c t =>
      cases hat : m.at? (c :: t) with
      | none => exact plain c t hat (ih t.length (by rw [← hn]; exact Nat.lt_succ_self _) t rfl)
      | some found =>
        obtain ⟨g, r⟩ := found
        obtain ⟨front, hne, ht⟩ := m.shortens hat
        have hlen : r.length < n := by
          rw [← hn, ht, List.length_append]
          exact Nat.lt_add_of_pos_left (List.length_pos_iff.mpr hne)
        exact hit _ g r hat (ih r.length hlen r rfl)

@[simp] theorem findAll_nil : m.findAll [] = [] := rfl

@[simp] theorem replaceAll_nil (repl : γ → List α) : m.replaceAll repl [] = [] := rfl

theorem findAll_plain {c : α} (h : m.at? (c :: t) = none) : m.findAll (c :: t) = m.findAll t := by
  unfold findAll
  rw [pieces_plain h]
  rfl

theorem findAll_match {g : γ} {r : List α} (h : m.at? t = some (g, r)) : m.findAll t = g :: m.findAll r := by
  unfold findAll
  rw [pieces_match h]
  rfl

/-- Every match is one at some place of the text. -/
theorem exists_of_mem_findAll {g : γ} (h : g ∈ m.findAll t) : ∃ s r, s <:+ t ∧ m.at? s = some (g, r) := by
  induction t using m.induct with
  | nil => exact absurd h List.not_mem_nil
  | plain c t hat ih =>
    rw [findAll_plain hat] at h
    obtain ⟨s, r, hs, hat'⟩ := ih h
    exact ⟨s, r, hs.trans (List.suffix_cons c t), hat'⟩
  | hit t g' r hat ih =>
    rw [findAll_match hat] at h
    by_cases heq : g = g'
    · exact ⟨t, r, List.suffix_refl t, heq ▸ hat⟩
    · obtain ⟨s, r', hs, hat'⟩ := ih (List.mem_of_ne_of_mem heq h)
      obtain ⟨front, -, rfl⟩ := m.shortens hat
      exact ⟨s, r', hs.trans (List.suffix_append front r), hat'⟩

theorem replaceAll_plain {c : α} (repl : γ → List α) (h : m.at? (c :: t) = none) :
    m.replaceAll repl (c :: t) = c :: m.replaceAll repl t := by
  unfold replaceAll
  rw [pieces_plain h]
  rfl

theorem replaceAll_match {g : γ} {r : List α} (repl : γ → List α) (h : m.at? t = some (g, r)) :
    m.replaceAll repl t = repl g ++ m.replaceAll repl r := by
  unfold replaceAll
  rw [pieces_match h]
  rfl

/-! ### Replacing by something shorter -/

/-- Nothing matches anywhere in the text. -/
def Absent (m : Matcher α γ) (t : List α) : Prop := ∀ s, s <:+ t → m.at? s = none

theorem replaceAll_of_absent (repl : γ → List α) (h : m.Absent t) : m.replaceAll repl t = t := by
  induction t with
  | nil => rfl
  | cons c t ih =>
    rw [replaceAll_plain repl (h _ (List.suffix_refl _)), ih fun s hs => h s (hs.trans (List.suffix_cons ..))]

/-- Every match is longer than what replaces it. -/
def Shrinks (m : Matcher α γ) (repl : γ → List α) : Prop :=
  ∀ t g r, m.at? t = some (g, r) → (repl g).length + r.length < t.length

theorem replaceAll_length_le {repl : γ → List α} (h : m.Shrinks repl) (t : List α) :
    (m.replaceAll repl t).length ≤ t.length := by
  induction t using m.induct with
  | nil => exact Nat.le_refl _
  | plain c t hat ih =>
    rw [replaceAll_plain repl hat]
    exact Nat.succ_le_succ ih
  | hit t g r hat ih =>
    have := h t g r hat
    rw [replaceAll_match repl hat, List.length_append]
    omega

/-- Where something matches the text gets shorter, so in a text that keeps its length
nothing matches. -/
theorem absent_of_replaceAll_length {repl : γ → List α} (h : m.Shrinks repl)
    (ht : (m.replaceAll repl t).length = t.length) : m.Absent t := by
  induction t using m.induct with
  | nil =>
    intro s hs
    rw [List.suffix_nil.mp hs]
    cases hat : m.at? [] with
    | none => rfl
    | some found =>
      obtain ⟨g, r⟩ := found
      have := h [] g r hat
      simp at this
  | plain c t hat ih =>
    rw [replaceAll_plain repl hat, List.length_cons, List.length_cons, Nat.add_right_cancel_iff] at ht
    intro s hs
    rcases List.suffix_cons_iff.mp hs with rfl | hs
    · exact hat
    · exact ih ht s hs
  | hit t g r hat ih =>
    have hlt := h t g r hat
    have hle := replaceAll_length_le h r
    rw [replaceAll_match repl hat, List.length_append] at ht
    omega

end Matcher

namespace Matches

variable {α γ : Type} {d : α}

/-- Segments, each behind a delimiter. -/
def body (d : α) (segments : List (List α)) : List α := segments.flatMap (d :: ·)

@[simp] theorem body_nil : body d [] = [] := rfl

theorem body_cons (s : List α) (ss : List (List α)) : body d (s :: ss) = d :: (s ++ body d ss) := rfl

theorem body_append (ss ss' : List (List α)) : body d (ss ++ ss') = body d ss ++ body d ss' := List.flatMap_append ..

/-- Every text is a part without delimiter and segments without delimiter. -/
theorem exists_segments [DecidableEq α] (d : α) (t : List α) :
    ∃ a ss, d ∉ a ∧ (∀ s ∈ ss, d ∉ s) ∧ t = a ++ body d ss := by
  induction t with
  | nil => exact ⟨[], [], by simp, by simp, rfl⟩
  | cons c t ih =>
    obtain ⟨a, ss, ha, hss, rfl⟩ := ih
    by_cases hc : c = d
    · subst hc
      refine ⟨[], a :: ss, by simp, ?_, rfl⟩
      simpa [ha] using hss
    · exact ⟨c :: a, ss, by simp [Ne.symm hc, ha], hss, rfl⟩

/-- The pattern begins with the delimiter. -/
def Headed (d : α) (m : Matcher α γ) : Prop := ∀ c t, c ≠ d → m.at? (c :: t) = none

/-- In a text of segments the pattern looks at the first one only: `f` says what it
finds there. -/
def Local (d : α) (m : Matcher α γ) (f : List α → Option (γ × List α)) : Prop :=
  ∀ s ss, d ∉ s → m.at? (d :: (s ++ body d ss)) = (f s).map fun found => (found.1, found.2 ++ body d ss)

theorem findAll_clean {m : Matcher α γ} (hm : Headed d m) {a : List α} (ha : d ∉ a) (t : List α) :
    m.findAll (a ++ t) = m.findAll t := by
  induction a with
  | nil => rfl
  | cons c a ih =>
    simp only [List.mem_cons, not_or] at ha
    rw [List.cons_append, Matcher.findAll_plain (hm c _ (Ne.symm ha.1)), ih ha.2]

theorem replaceAll_clean {m : Matcher α γ} (hm : Headed d m) (repl : γ → List α) {a : List α} (ha : d ∉ a) (t : List α) :
    m.replaceAll repl (a ++ t) = a ++ m.replaceAll repl t := by
  induction a with
  | nil => rfl
  | cons c a ih =>
    simp only [List.mem_cons, not_or] at ha
    rw [List.cons_append, Matcher.replaceAll_plain repl (hm c _ (Ne.symm ha.1)), ih ha.2, List.cons_append]

theorem findAll_body {m : Matcher α γ} (hm : Headed d m) {f : List α → Option (γ × List α)} (hf : Local d m f)
    (hsuffix : ∀ s g r, f s = some (g, r) → r <:+ s) : ∀ {ss : List (List α)}, (∀ s ∈ ss, d ∉ s) →
      m.findAll (body d ss) = ss.filterMap fun s => (f s).map Prod.fst
  | [], _ => rfl
  | s :: ss, hss => by
    have hs : d ∉ s := hss s (by simp)
    have ih := findAll_body hm hf hsuffix fun x hx => hss x (List.mem_cons_of_mem s hx)
    have hat := hf s ss hs
    rw [body_cons, List.filterMap_cons]
    cases hfs : f s with
    | none =>
      rw [hfs] at hat
      rw [Matcher.findAll_plain hat, findAll_clean hm hs, ih]
      rfl
    | some found =>
      obtain ⟨g, r⟩ := found
      rw [hfs] at hat
      have hr : d ∉ r := fun h => hs ((hsuffix s g r hfs).subset h)
      rw [Matcher.findAll_match hat]
      simp only [Option.map_some]
      rw [findAll_clean hm hr, ih]

end Matches
