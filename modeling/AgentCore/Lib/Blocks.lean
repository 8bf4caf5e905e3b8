/-
# Delimited blocks of a text

The patterns `OPEN(.*?)CLOSE` of a regular expression engine: a block begins
where its opening matches, and ends at the first place behind it where its
closing does; an opening without a closing behind it is none. Blocks are found
from the left and do not overlap. Openings and closings are such that there is
one way only to match them at a place, so no matching is ever taken back.

Key definitions: `Opening`, `Pattern`, `Pattern.sub`, `Pattern.inners`,
`Opening.before`, `Opening.Absent`, `Removal`, `tagged`.
Key theorems: `Pattern.induct`, `Opening.absent_before`,
`Pattern.sub_of_absent`, `Pattern.pieces_clear`, `Pattern.sub_removal`.
-/
import Mathlib.Data.List.Infix
import Mathlib.Data.List.TakeWhile
import Mathlib.Data.List.Forall2
import Mathlib.Logic.Relation
import AgentCore.Lib.Cut

namespace Blocks

variable {α γ : Type}

/-! ### Matching at the head of a text -/

/-- One test for each symbol; the text behind them. -/
def lit : List (α → Bool) → List α → Option (List α)
  | [], t => some t
  | _ :: _, [] => none
  | p :: ps, c :: t => if p c then lit ps t else none

/-- The tests in turn accept the symbols that are read. -/
theorem lit_eq_some : ∀ {ps : List (α → Bool)} {t r : List α},
    lit ps t = some r ↔ ∃ front, t = front ++ r ∧ List.Forall₂ (fun p c => p c = true) ps front
  | [], t, r => by
    constructor
    · intro h
      have ht : t = r := by simpa [lit] using h
      exact ⟨[], ht, .nil⟩
    · rintro ⟨front, rfl, hfront⟩
      cases hfront
      rfl
  | p :: ps, [], r => by
    refine ⟨fun h => (by cases h), ?_⟩
    rintro ⟨front, ht, hfront⟩
    cases hfront
    cases ht
  | p :: ps, c :: t, r => by
    unfold lit
    by_cases hc : p c = true
    · rw [if_pos hc, lit_eq_some]
      constructor
      · rintro ⟨front, rfl, hfront⟩
        exact ⟨c :: front, rfl, .cons hc hfront⟩
      · rintro ⟨front, ht, hfront⟩
        cases hfront with
        | cons _ hfront =>
          obtain ⟨-, rfl⟩ := List.cons.inj ht
          exact ⟨_, rfl, hfront⟩
    · rw [if_neg hc]
      refine ⟨fun h => (by cases h), ?_⟩
      rintro ⟨front, ht, hfront⟩
      cases hfront with
      | cons hp _ =>
        obtain ⟨rfl, -⟩ := List.cons.inj ht
        exact absurd hp hc

theorem lit_append {ps : List (α → Bool)} {t r : List α} (u : List α) (h : lit ps t = some r) :
    lit ps (t ++ u) = some (r ++ u) := by
  obtain ⟨front, rfl, hfront⟩ := lit_eq_some.mp h
  exact lit_eq_some.mpr ⟨front, List.append_assoc .., hfront⟩

/-- A test that refuses a symbol reads none. -/
theorem notMem_of_forall₂ {m : α} {ps : List (α → Bool)} {front : List α} (hps : ∀ p ∈ ps, p m = false)
    (h : List.Forall₂ (fun p c => p c = true) ps front) : m ∉ front := by
  induction h with
  | nil => exact List.not_mem_nil
  | @cons p c ps front hp _ ih =>
    intro hm
    rcases List.mem_cons.mp hm with rfl | hm
    · rw [hps p List.mem_cons_self] at hp
      cases hp
    · exact ih (fun q hq => hps q (List.mem_cons_of_mem p hq)) hm

/-- The literal text `s`. -/
def exactly [DecidableEq α] (s : List α) : List α → Option (List α) := lit (s.map fun c => fun d => d = c)

theorem exactly_eq_some [DecidableEq α] : ∀ {s t r : List α}, exactly s t = some r ↔ t = s ++ r
  | [], t, r => by simp [exactly, lit]
  | c :: s, [], r => by simp [exactly, lit]
  | c :: s, d :: t, r => by
    unfold exactly
    rw [List.map_cons, lit]
    by_cases hd : d = c
    · rw [if_pos (by simpa using hd), List.cons_append, hd]
      have hs := exactly_eq_some (s := s) (t := t) (r := r)
      unfold exactly at hs
      rw [hs]
      simp
    · rw [if_neg (by simpa using hd), List.cons_append]
      simp [hd]

theorem exactly_isSome [DecidableEq α] {s t : List α} : (exactly s t).isSome = true ↔ s <+: t := by
  rw [Option.isSome_iff_exists]
  simp only [exactly_eq_some]
  exact ⟨fun ⟨r, hr⟩ => ⟨r, hr.symm⟩, fun ⟨r, hr⟩ => ⟨r, hr.symm⟩⟩

theorem exactly_eq_none [DecidableEq α] {s t : List α} : exactly s t = none ↔ ¬s <+: t := by
  rw [← exactly_isSome, Option.not_isSome_iff_eq_none]

/-! ### Readers -/

/-- A part of a pattern that captures something: it reads a front of a text, and
reads the same of a longer text unless it reads up to the end. -/
structure Reader (α γ : Type) where
  read : List α → Option (γ × List α)
  suffix : ∀ {t g r}, read t = some (g, r) → r <:+ t
  stable : ∀ {t g r} (u : List α), read t = some (g, r) → r ≠ [] → read (t ++ u) = some (g, r ++ u)

namespace Reader

variable {δ ε : Type}

/-- A literal. -/
def text (ps : List (α → Bool)) : Reader α Unit where
  read t := (lit ps t).map fun r => ((), r)
  suffix := by
    intro t g r h
    obtain ⟨r', hr', he⟩ := Option.map_eq_some_iff.mp h
    obtain ⟨-, rfl⟩ := Prod.mk.inj he
    obtain ⟨front, rfl, -⟩ := lit_eq_some.mp hr'
    exact List.suffix_append front r'
  stable := by
    intro t g r u h _
    obtain ⟨r', hr', he⟩ := Option.map_eq_some_iff.mp h
    obtain ⟨-, rfl⟩ := Prod.mk.inj he
    rw [lit_append u hr']
    rfl

theorem dropWhile_append_of_ne_nil {p : α → Bool} {t : List α} (u : List α) (h : t.dropWhile p ≠ []) :
    (t ++ u).dropWhile p = t.dropWhile p ++ u ∧ (t ++ u).takeWhile p = t.takeWhile p := by
  obtain ⟨x, rest, hx⟩ := List.exists_cons_of_ne_nil h
  have hnot : p x = false := by
    have := List.head_dropWhile_not p (l := t) h
    simpa only [hx, List.head_cons] using this
  have htaken : ∀ y ∈ t.takeWhile p, p y = true := fun y hy => List.mem_takeWhile_imp hy
  have ht : t ++ u = t.takeWhile p ++ (x :: (rest ++ u)) := by
    rw [← List.cons_append, ← hx, ← List.append_assoc, List.takeWhile_append_dropWhile]
  constructor
  · rw [ht, List.dropWhile_append_of_pos htaken, List.dropWhile_cons_of_neg (by simp [hnot]), hx]
    rfl
  · rw [ht, List.takeWhile_append_of_pos htaken, List.takeWhile_cons_of_neg (by simp [hnot]), List.append_nil]

/-- `[…]*`, captured. -/
def many (p : α → Bool) : Reader α (List α) where
  read t := some (t.takeWhile p, t.dropWhile p)
  suffix := by
    intro t g r h
    obtain ⟨-, rfl⟩ := Prod.mk.inj (Option.some.inj h)
    exact List.dropWhile_suffix p
  stable := by
    intro t g r u h hr
    obtain ⟨rfl, rfl⟩ := Prod.mk.inj (Option.some.inj h)
    obtain ⟨hdrop, htake⟩ := dropWhile_append_of_ne_nil u hr
    rw [hdrop, htake]

/-- `[…]+`, captured. -/
def many1 (p : α → Bool) : Reader α (List α) where
  read t := if t.takeWhile p = [] then none else some (t.takeWhile p, t.dropWhile p)
  suffix := by
    intro t g r h
    obtain ⟨-, h⟩ := Option.ite_none_left_eq_some.mp h
    obtain ⟨-, rfl⟩ := Prod.mk.inj (Option.some.inj h)
    exact List.dropWhile_suffix p
  stable := by
    intro t g r u h hr
    obtain ⟨hne, h⟩ := Option.ite_none_left_eq_some.mp h
    obtain ⟨rfl, rfl⟩ := Prod.mk.inj (Option.some.inj h)
    obtain ⟨hdrop, htake⟩ := dropWhile_append_of_ne_nil u hr
    rw [hdrop, htake, if_neg hne]

/-- One reader, then another one; `f` says what is captured. -/
def andThen (m : Reader α γ) (f : γ → δ → ε) (n : Reader α δ) : Reader α ε where
  read t := (m.read t).bind fun x => (n.read x.2).map fun y => (f x.1 y.1, y.2)
  suffix := by
    intro t g r h
    obtain ⟨x, hx, hxy⟩ := Option.bind_eq_some_iff.mp h
    obtain ⟨y, hy, he⟩ := Option.map_eq_some_iff.mp hxy
    obtain ⟨-, rfl⟩ := Prod.mk.inj he
    exact (n.suffix hy).trans (m.suffix hx)
  stable := by
    intro t g r u h hr
    obtain ⟨x, hx, hxy⟩ := Option.bind_eq_some_iff.mp h
    obtain ⟨y, hy, he⟩ := Option.map_eq_some_iff.mp hxy
    obtain ⟨rfl, rfl⟩ := Prod.mk.inj he
    have hx2 : x.2 ≠ [] := fun hnil => hr (List.suffix_nil.mp (hnil ▸ n.suffix hy))
    rw [m.stable u hx hx2, Option.bind_some, n.stable u hy hr]
    rfl

end Reader

/-! ### Openings -/

/-- What a block begins with: where it matches at the head of a text, what it
captures and the text behind it. It takes something off the text, and goes on
matching when the text goes on. -/
structure Opening (α γ : Type) where
  at? : List α → Option (γ × List α)
  shortens : ∀ {t g r}, at? t = some (g, r) → ∃ front, front ≠ [] ∧ t = front ++ r
  stable : ∀ {t} (u : List α), (at? t).isSome → (at? (t ++ u)).isSome

namespace Opening

variable (o : Opening α γ)

/-- The opening begins nowhere in the text. -/
def Absent (t : List α) : Prop := ∀ s, s <:+ t → o.at? s = none

/-- The text before the first opening. -/
def before : List α → List α
  | [] => []
  | c :: t => if (o.at? (c :: t)).isSome then [] else c :: before t

/-- The text behind the first opening. -/
def tail? : List α → Option (List α)
  | [] => none
  | c :: t =>
    match o.at? (c :: t) with
    | some m => some m.2
    | none => tail? t

variable {o} {t : List α}

@[simp] theorem at?_nil : o.at? [] = none := by
  cases h : o.at? [] with
  | none => rfl
  | some m =>
    obtain ⟨front, hne, hnil⟩ := o.shortens h
    exact absurd (List.append_eq_nil_iff.mp hnil.symm).1 hne

theorem at?_of_append {u : List α} (h : o.at? (t ++ u) = none) : o.at? t = none := by
  have hstable := o.stable (t := t) u
  rw [h] at hstable
  exact Option.not_isSome_iff_eq_none.mp fun hsome => Bool.false_ne_true (hstable hsome)

theorem Absent.suffix {s : List α} (h : o.Absent t) (hs : s <:+ t) : o.Absent s := fun _ hr => h _ (hr.trans hs)

theorem Absent.ofPrefix {s : List α} (h : o.Absent t) (hs : s <+: t) : o.Absent s := by
  obtain ⟨u, rfl⟩ := hs
  rintro r ⟨a, rfl⟩
  refine at?_of_append (u := u) (h _ ⟨a, ?_⟩)
  rw [List.append_assoc]

theorem Absent.ofInfix {s : List α} (h : o.Absent t) (hs : s <:+: t) : o.Absent s := by
  obtain ⟨a, b, rfl⟩ := hs
  exact (h.ofPrefix (List.prefix_append (a ++ s) b)).suffix (List.suffix_append a s)

@[simp] theorem absent_nil : o.Absent [] := by
  intro s hs
  rw [List.suffix_nil.mp hs]
  exact at?_nil

theorem absent_cons {c : α} : o.Absent (c :: t) ↔ o.at? (c :: t) = none ∧ o.Absent t := by
  refine ⟨fun h => ⟨h _ List.suffix_rfl, h.suffix (List.suffix_cons c t)⟩, fun ⟨hc, ht⟩ s hs => ?_⟩
  rcases List.suffix_cons_iff.mp hs with rfl | hs
  · exact hc
  · exact ht s hs

theorem before_isPrefix : ∀ t : List α, o.before t <+: t
  | [] => List.prefix_rfl
  | c :: t => by
    unfold before
    by_cases hc : (o.at? (c :: t)).isSome
    · rw [if_pos hc]
      exact List.nil_prefix
    · rw [if_neg hc]
      exact List.cons_prefix_cons.mpr ⟨rfl, before_isPrefix t⟩

theorem before_of_absent : ∀ {t : List α}, o.Absent t → o.before t = t
  | [], _ => rfl
  | c :: t, h => by
    obtain ⟨hc, ht⟩ := absent_cons.mp h
    rw [before, hc, if_neg (by simp), before_of_absent ht]

/-- No opening is left before the first one. -/
theorem absent_before : ∀ t : List α, o.Absent (o.before t)
  | [] => absent_nil
  | c :: t => by
    rw [before]
    by_cases hc : (o.at? (c :: t)).isSome
    · rw [if_pos hc]
      exact absent_nil
    · rw [if_neg hc]
      refine absent_cons.mpr ⟨?_, absent_before t⟩
      obtain ⟨u, hu⟩ := before_isPrefix (o := o) t
      refine at?_of_append (u := u) ?_
      rw [List.cons_append, hu]
      exact Option.not_isSome_iff_eq_none.mp hc

theorem absent_of_tail? : ∀ {t : List α}, o.tail? t = none → o.Absent t
  | [], _ => absent_nil
  | c :: t, h => by
    unfold tail? at h
    cases hc : o.at? (c :: t) with
    | some m =>
      rw [hc] at h
      cases h
    | none =>
      rw [hc] at h
      exact absent_cons.mpr ⟨hc, absent_of_tail? h⟩

/-- A front in which no opening begins is passed. -/
theorem tail?_clear : ∀ {front rest : List α}, (∀ s, s <:+ front → s ≠ [] → o.at? (s ++ rest) = none) →
    o.tail? (front ++ rest) = o.tail? rest
  | [], _, _ => rfl
  | c :: front, rest, h => by
    have hhead : o.at? (c :: (front ++ rest)) = none := h (c :: front) List.suffix_rfl (List.cons_ne_nil _ _)
    have htail := tail?_clear fun s hs hne => h s (hs.trans (List.suffix_cons c front)) hne
    rw [List.cons_append, tail?, hhead]
    exact htail

theorem tail?_of_at? {g : γ} {r : List α} (h : o.at? t = some (g, r)) : o.tail? t = some r := by
  cases t with
  | nil =>
    rw [at?_nil] at h
    cases h
  | cons c t => rw [tail?, h]

/-- Where something is cut off, an opening stands at the cut. -/
theorem before_cut : ∀ t : List α, ∃ cut, t = o.before t ++ cut ∧ (cut ≠ [] → (o.at? cut).isSome)
  | [] => ⟨[], rfl, fun h => absurd rfl h⟩
  | c :: t => by
    unfold before
    by_cases hc : (o.at? (c :: t)).isSome
    · rw [if_pos hc]
      exact ⟨c :: t, rfl, fun _ => hc⟩
    · rw [if_neg hc]
      obtain ⟨cut, hcut, hat⟩ := before_cut t
      exact ⟨cut, congrArg (c :: ·) hcut, hat⟩

end Opening

/-! ### Openings made of tests -/

namespace Opening

/-- The literal that `p :: ps` test. -/
def literal (p : α → Bool) (ps : List (α → Bool)) : Opening α Unit where
  at? t := (lit (p :: ps) t).map fun r => ((), r)
  shortens := by
    intro t g r h
    obtain ⟨r', hr', he⟩ := Option.map_eq_some_iff.mp h
    obtain ⟨-, rfl⟩ := Prod.mk.inj he
    obtain ⟨front, ht, hfront⟩ := lit_eq_some.mp hr'
    exact ⟨front, List.ne_nil_of_length_eq_add_one hfront.length_eq.symm, ht⟩
  stable := by
    intro t u h
    rw [Option.isSome_map] at h ⊢
    obtain ⟨r, hr⟩ := Option.isSome_iff_exists.mp h
    rw [lit_append u hr]
    rfl

/-- A literal, any number of symbols that `space` accepts, then another literal.
What the second one begins with is not such a symbol where nothing is taken
back. -/
def spaced (p : α → Bool) (ps : List (α → Bool)) (space q : α → Bool) (qs : List (α → Bool)) : Opening α Unit where
  at? t := ((lit (p :: ps) t).bind fun r => lit (q :: qs) (r.dropWhile space)).map fun r => ((), r)
  shortens := by
    intro t g r h
    obtain ⟨r', hr', he⟩ := Option.map_eq_some_iff.mp h
    obtain ⟨-, rfl⟩ := Prod.mk.inj he
    obtain ⟨behind, hbehind, hlit⟩ := Option.bind_eq_some_iff.mp hr'
    obtain ⟨front, rfl, hfront⟩ := lit_eq_some.mp hbehind
    obtain ⟨last, hlast, -⟩ := lit_eq_some.mp hlit
    obtain ⟨passed, hpassed⟩ := List.dropWhile_suffix (l := behind) space
    refine ⟨front ++ (passed ++ last), ?_, ?_⟩
    · exact List.append_ne_nil_of_left_ne_nil (List.ne_nil_of_length_eq_add_one hfront.length_eq.symm) _
    · rw [List.append_assoc, List.append_assoc, ← hlast, hpassed]
  stable := by
    intro t u h
    rw [Option.isSome_map] at h ⊢
    obtain ⟨r, hr⟩ := Option.isSome_iff_exists.mp h
    obtain ⟨behind, hbehind, hr⟩ := Option.bind_eq_some_iff.mp hr
    have hne : behind.dropWhile space ≠ [] := by
      intro hnil
      rw [hnil] at hr
      cases hr
    have hdrop : (behind ++ u).dropWhile space = behind.dropWhile space ++ u := by
      rw [List.dropWhile_append, if_neg (by simpa using hne)]
    rw [lit_append u hbehind, Option.bind_some, hdrop, lit_append u hr]
    rfl

/-- What a reader reads, then a literal. -/
def closedBy (m : Reader α γ) (p : α → Bool) (ps : List (α → Bool)) : Opening α γ where
  at? t := (m.read t).bind fun x => (lit (p :: ps) x.2).map fun r => (x.1, r)
  shortens := by
    intro t g r h
    obtain ⟨x, hx, hr⟩ := Option.bind_eq_some_iff.mp h
    obtain ⟨r', hr', he⟩ := Option.map_eq_some_iff.mp hr
    obtain ⟨-, rfl⟩ := Prod.mk.inj he
    obtain ⟨last, hlast, hfront⟩ := lit_eq_some.mp hr'
    obtain ⟨front, rfl⟩ := m.suffix hx
    refine ⟨front ++ last, ?_, by rw [hlast, List.append_assoc]⟩
    exact List.append_ne_nil_of_right_ne_nil _ (List.ne_nil_of_length_eq_add_one hfront.length_eq.symm)
  stable := by
    intro t u h
    obtain ⟨y, hy⟩ := Option.isSome_iff_exists.mp h
    obtain ⟨x, hx, hr⟩ := Option.bind_eq_some_iff.mp hy
    obtain ⟨r, hr, -⟩ := Option.map_eq_some_iff.mp hr
    have hx2 : x.2 ≠ [] := by
      intro hnil
      rw [hnil] at hr
      cases hr
    rw [m.stable u hx hx2, Option.bind_some, lit_append u hr]
    rfl

/-- The first of several openings that matches. -/
def firstOf (os : List (Opening α γ)) : Opening α γ where
  at? t := os.findSome? fun o => o.at? t
  shortens := by
    intro t g r h
    obtain ⟨o, -, ho⟩ := List.exists_of_findSome?_eq_some h
    exact o.shortens ho
  stable := by
    intro t u h
    obtain ⟨m, hm⟩ := Option.isSome_iff_exists.mp h
    obtain ⟨o, ho, hm⟩ := List.exists_of_findSome?_eq_some hm
    refine List.findSome?_isSome_iff.mpr ⟨o, ho, o.stable u ?_⟩
    rw [hm]
    rfl

theorem firstOf_isSome {os : List (Opening α γ)} {t : List α} :
    ((firstOf os).at? t).isSome ↔ ∃ o ∈ os, (o.at? t).isSome := List.findSome?_isSome_iff

/-! An opening that is known by the symbol it begins with: a match reads that
symbol at its head and nowhere else, and needs nothing but what it reads. -/

/-- Every match begins with `m`, reads no other one, and depends on what it reads
only. -/
def Headed (m : α) (o : Opening α γ) : Prop := ∀ t, (o.at? t).isSome →
  ∃ front rest, t = m :: (front ++ rest) ∧ m ∉ front ∧ ∀ u, (o.at? (m :: (front ++ u))).isSome

variable {m : α} {o : Opening α γ}

/-- Cutting a text off at its mark cuts through no match. -/
theorem Headed.cut (h : Headed m o) {s cut : List α} (hs : s ≠ []) (hcut : ∀ x u, cut = x :: u → x = m) :
    (o.at? (s ++ cut)).isSome ↔ (o.at? s).isSome := by
  refine ⟨fun hat => ?_, fun hat => o.stable cut hat⟩
  obtain ⟨front, rest, ht, hfront, hstable⟩ := h _ hat
  rw [← List.cons_append] at ht
  rcases List.append_eq_append_iff.mp ht with ⟨y, hy, hcut'⟩ | ⟨y, rfl, -⟩
  · -- the match would run over the mark that the cut begins with
    cases y with
    | nil =>
      have hself := hstable []
      rw [List.append_nil] at hself hy
      rwa [hy] at hself
    | cons x y =>
      obtain ⟨c, s, rfl⟩ := List.exists_cons_of_ne_nil hs
      have hx : x = m := hcut x _ hcut'
      have hmem : x ∈ front := by
        rw [(List.cons.inj hy).2]
        exact List.mem_append_right _ List.mem_cons_self
      exact absurd (hx ▸ hmem) hfront
  · exact hstable y

theorem Headed.firstOf {os : List (Opening α γ)} (h : ∀ o ∈ os, Headed m o) : Headed m (firstOf os) := by
  intro t ht
  obtain ⟨o, ho, hat⟩ := firstOf_isSome.mp ht
  obtain ⟨front, rest, rfl, hfront, hstable⟩ := h o ho t hat
  exact ⟨front, rest, rfl, hfront, fun u => firstOf_isSome.mpr ⟨o, ho, hstable u⟩⟩

/-- Every match begins with `m`. -/
def Begins (m : α) (o : Opening α γ) : Prop := ∀ x u, (o.at? (x :: u)).isSome → x = m

theorem Headed.begins (h : Headed m o) : Begins m o := by
  intro x u hat
  obtain ⟨front, rest, hxu, -, -⟩ := h _ hat
  exact (List.cons.inj hxu).1

/-- A headed opening begins before the cut of another one as it does in the
whole text. -/
theorem Headed.at?_before {h : Opening α γ} (hh : Headed m h) (ho : Begins m o) (c : α) (t : List α) :
    (h.at? (c :: o.before t)).isSome ↔ (h.at? (c :: t)).isSome := by
  obtain ⟨cut, hcut, hat⟩ := before_cut (o := o) t
  have hhead : ∀ x u, cut = x :: u → x = m := by
    rintro x u rfl
    exact ho x u (hat (List.cons_ne_nil x u))
  rw [← hh.cut (List.cons_ne_nil c (o.before t)) hhead, List.cons_append, ← hcut]

/-- A headed opening is absent before the first match of another one exactly
where each of its places has such a match at or before it. -/
theorem Headed.absent_before_iff {h : Opening α γ} (hh : Headed m h) (ho : Begins m o) : ∀ t : List α,
    h.Absent (o.before t) ↔
      ∀ s, s <:+ t → (h.at? s).isSome → ∃ s', s <:+ s' ∧ s' <:+ t ∧ (o.at? s').isSome
  | [] => by
    refine ⟨fun _ s hs hat => ?_, fun _ => absent_nil⟩
    rw [List.suffix_nil.mp hs, at?_nil] at hat
    cases hat
  | c :: t => by
    have ih := hh.absent_before_iff ho t
    unfold before
    by_cases hc : (o.at? (c :: t)).isSome
    · rw [if_pos hc]
      exact ⟨fun _ s hs _ => ⟨c :: t, hs, List.suffix_rfl, hc⟩, fun _ => absent_nil⟩
    · rw [if_neg hc, absent_cons, ih]
      have hhead := hh.at?_before ho c t
      refine ⟨fun ⟨hnone, hall⟩ s hs hat => ?_, fun hall => ⟨?_, fun s hs hat => ?_⟩⟩
      · rcases List.suffix_cons_iff.mp hs with rfl | hs
        · rw [← hhead, hnone] at hat
          cases hat
        · obtain ⟨s', hss', hs', hat'⟩ := hall s hs hat
          exact ⟨s', hss', hs'.trans (List.suffix_cons c t), hat'⟩
      · refine Option.not_isSome_iff_eq_none.mp fun hat => hc ?_
        obtain ⟨s', hss', hs', hat'⟩ := hall (c :: t) List.suffix_rfl (hhead.mp hat)
        rwa [hs'.eq_of_length_le hss'.length_le] at hat'
      · obtain ⟨s', hss', hs', hat'⟩ := hall s (hs.trans (List.suffix_cons c t)) hat
        rcases List.suffix_cons_iff.mp hs' with rfl | hs'
        · exact absurd hat' hc
        · exact ⟨s', hss', hs', hat'⟩

/-- Cutting at one opening, then at a headed one, is cutting at the first of the
two. -/
theorem Headed.before_before {h : Opening α γ} (hh : Headed m h) (ho : Begins m o) : ∀ t : List α,
    h.before (o.before t) = (Opening.firstOf [o, h]).before t
  | [] => rfl
  | c :: t => by
    have hhead := hh.at?_before ho c t
    have hfirst : ((Opening.firstOf [o, h]).at? (c :: t)).isSome ↔ (o.at? (c :: t)).isSome ∨ (h.at? (c :: t)).isSome := by
      rw [firstOf_isSome]
      simp
    have ih := hh.before_before ho t
    rw [before, before]
    by_cases hc : (o.at? (c :: t)).isSome
    · rw [if_pos hc, if_pos (hfirst.mpr (.inl hc))]
      rfl
    · rw [if_neg hc, before]
      by_cases hg : (h.at? (c :: t)).isSome
      · rw [if_pos (hhead.mpr hg), if_pos (hfirst.mpr (.inr hg))]
      · rw [if_neg (fun hat => hg (hhead.mp hat)), if_neg (fun hat => (hfirst.mp hat).elim hc hg), ih]

theorem begins_spaced {p q space : α → Bool} {ps qs : List (α → Bool)} (hp : ∀ x, p x = true → x = m) :
    Begins m (spaced p ps space q qs) := by
  intro x u hat
  obtain ⟨r, hr⟩ := Option.isSome_iff_exists.mp (Option.isSome_map.symm.trans hat)
  obtain ⟨behind, hbehind, -⟩ := Option.bind_eq_some_iff.mp hr
  obtain ⟨front, hxu, hfront⟩ := lit_eq_some.mp hbehind
  cases hfront with
  | cons hc _ => exact hp x ((List.cons.inj hxu).1 ▸ hc)

/-- A literal whose first test accepts `m` only and whose other tests refuse it. -/
theorem headed_literal {p : α → Bool} {ps : List (α → Bool)} (hp : ∀ x, p x = true → x = m)
    (hps : ∀ q ∈ ps, q m = false) : Headed m (literal p ps) := by
  intro t hat
  obtain ⟨r, hr⟩ := Option.isSome_iff_exists.mp (Option.isSome_map.symm.trans hat)
  obtain ⟨front, rfl, hfront⟩ := lit_eq_some.mp hr
  cases hfront with
  | @cons _ c _ front hc hfront =>
    obtain rfl := hp c hc
    refine ⟨front, r, rfl, notMem_of_forall₂ hps hfront, fun u => ?_⟩
    have hlit : lit (p :: ps) (c :: (front ++ u)) = some u := lit_eq_some.mpr ⟨c :: front, rfl, .cons hc hfront⟩
    show ((lit (p :: ps) (c :: (front ++ u))).map _).isSome
    rw [hlit]
    rfl

theorem headed_spaced {p q space : α → Bool} {ps qs : List (α → Bool)} (hp : ∀ x, p x = true → x = m)
    (hps : ∀ f ∈ ps, f m = false) (hspace : space m = false) (hqs : ∀ f ∈ q :: qs, f m = false) :
    Headed m (spaced p ps space q qs) := by
  intro t hat
  obtain ⟨r, hr⟩ := Option.isSome_iff_exists.mp (Option.isSome_map.symm.trans hat)
  obtain ⟨behind, hbehind, hlast⟩ := Option.bind_eq_some_iff.mp hr
  obtain ⟨front, rfl, hfront⟩ := lit_eq_some.mp hbehind
  obtain ⟨last, hdrop, hlast⟩ := lit_eq_some.mp hlast
  have hpassed : behind = behind.takeWhile space ++ (last ++ r) := by
    rw [← hdrop, List.takeWhile_append_dropWhile]
  have hnot : m ∉ behind.takeWhile space := by
    intro hm
    rw [List.mem_takeWhile_imp hm] at hspace
    cases hspace
  have hlast' := hlast
  cases hfront with
  | @cons _ c _ front hc hfront =>
    cases hlast with
    | @cons _ d _ last hd hqlast =>
      obtain rfl := hp c hc
      -- the symbol that the second literal begins with ends the run before it
      have hd' : space d = false := by
        have := List.head_dropWhile_not space (l := behind) (by rw [hdrop]; exact List.cons_ne_nil _ _)
        simpa only [hdrop, List.cons_append, List.head_cons] using this
      refine ⟨front ++ (behind.takeWhile space ++ d :: last), r, ?_, ?_, fun u => ?_⟩
      · rw [List.append_assoc, List.append_assoc, ← hpassed]
        rfl
      · rw [List.mem_append, List.mem_append]
        rintro (hm | hm | hm)
        · exact notMem_of_forall₂ hps hfront hm
        · exact hnot hm
        · exact notMem_of_forall₂ hqs hlast' hm
      · have hlit : lit (p :: ps) (c :: (front ++ (behind.takeWhile space ++ d :: last) ++ u)) =
            some (behind.takeWhile space ++ d :: last ++ u) :=
          lit_eq_some.mpr ⟨c :: front, by simp, .cons hc hfront⟩
        have hrun : (behind.takeWhile space ++ d :: last ++ u).dropWhile space = d :: last ++ u := by
          rw [List.append_assoc, List.dropWhile_append_of_pos (fun x hx => List.mem_takeWhile_imp hx)]
          exact List.dropWhile_cons_of_neg (by simp [hd'])
        have hlast : lit (q :: qs) (d :: last ++ u) = some u := lit_eq_some.mpr ⟨d :: last, rfl, hlast'⟩
        show (((lit (p :: ps) _).bind _).map _).isSome
        rw [hlit, Option.bind_some, hrun, hlast]
        rfl

end Opening

/-! ### Blocks -/

/-- The text up to the first place where `m` matches, and the text behind it. -/
def upTo (m : List α → Option (List α)) : List α → Option (List α × List α)
  | [] => (m []).map fun r => ([], r)
  | c :: t =>
    match m (c :: t) with
    | some r => some ([], r)
    | none => (upTo m t).map fun found => (c :: found.1, found.2)

/-- A text that holds the inner text of a match, then a place where the closing
matches. -/
theorem upTo_eq_some {m : List α → Option (List α)} : ∀ {t inner r : List α}, upTo m t = some (inner, r) →
    ∃ back, t = inner ++ back ∧ m back = some r ∧ ∀ s, s <:+ inner → s ≠ [] → m (s ++ back) = none
  | [], inner, r, h => by
    obtain ⟨r', hr, he⟩ := Option.map_eq_some_iff.mp h
    obtain ⟨rfl, rfl⟩ := Prod.mk.inj he
    exact ⟨[], rfl, hr, fun s hs hne => absurd (List.suffix_nil.mp hs) hne⟩
  | c :: t, inner, r, h => by
    unfold upTo at h
    cases hm : m (c :: t) with
    | some r' =>
      rw [hm] at h
      obtain ⟨rfl, rfl⟩ := Prod.mk.inj (Option.some.inj h)
      exact ⟨c :: t, rfl, hm, fun s hs hne => absurd (List.suffix_nil.mp hs) hne⟩
    | none =>
      rw [hm] at h
      obtain ⟨found, hfound, he⟩ := Option.map_eq_some_iff.mp h
      obtain ⟨rfl, rfl⟩ := Prod.mk.inj he
      obtain ⟨back, hback, hr, hfirst⟩ := upTo_eq_some hfound
      refine ⟨back, congrArg (c :: ·) hback, hr, fun s hs hne => ?_⟩
      rcases List.suffix_cons_iff.mp hs with rfl | hs
      · rw [List.cons_append, ← hback]
        exact hm
      · exact hfirst s hs hne

theorem upTo_of_clear {m : List α → Option (List α)} {back r : List α} (hback : m back = some r) :
    ∀ {inner : List α}, (∀ s, s <:+ inner → s ≠ [] → m (s ++ back) = none) →
      upTo m (inner ++ back) = some (inner, r)
  | [], _ => by
    cases back with
    | nil => simp [upTo, hback]
    | cons c t => simp [upTo, hback]
  | c :: inner, h => by
    have hhead : m (c :: (inner ++ back)) = none := h (c :: inner) List.suffix_rfl (List.cons_ne_nil _ _)
    have htail := upTo_of_clear hback fun s hs hne => h s (hs.trans (List.suffix_cons c inner)) hne
    rw [List.cons_append, upTo, hhead, htail]
    rfl

theorem upTo_eq_none {m : List α → Option (List α)} : ∀ {t : List α}, (∀ s, s <:+ t → m s = none) → upTo m t = none
  | [], h => by
    rw [upTo, h [] List.suffix_rfl]
    rfl
  | c :: t, h => by
    rw [upTo, h _ List.suffix_rfl, upTo_eq_none fun s hs => h s (hs.trans (List.suffix_cons c t))]
    rfl

/-- A block: its opening, the text in it, its closing. -/
structure Pattern (α γ : Type) extends Opening α γ where
  closes : List α → Option (List α)
  closes_suffix : ∀ {t r}, closes t = some r → r <:+ t

/-- What one opening begins and another one ends. -/
def between (o : Opening α γ) (c : Opening α Unit) : Pattern α γ where
  toOpening := o
  closes t := (c.at? t).map Prod.snd
  closes_suffix := by
    intro t r h
    obtain ⟨m, hm, rfl⟩ := Option.map_eq_some_iff.mp h
    obtain ⟨front, -, rfl⟩ := c.shortens hm
    exact List.suffix_append front m.2

/-- A literal opening and a literal closing, with what `space` accepts behind the
one and before the other. -/
def padded (p : α → Bool) (ps closing : List (α → Bool)) (space : α → Bool) : Pattern α Unit where
  at? t := (lit (p :: ps) t).map fun r => ((), r.dropWhile space)
  shortens := by
    intro t g r h
    obtain ⟨r', hr', he⟩ := Option.map_eq_some_iff.mp h
    obtain ⟨-, rfl⟩ := Prod.mk.inj he
    obtain ⟨front, rfl, hfront⟩ := lit_eq_some.mp hr'
    obtain ⟨passed, hpassed⟩ := List.dropWhile_suffix (l := r') space
    refine ⟨front ++ passed, ?_, by rw [List.append_assoc, hpassed]⟩
    exact List.append_ne_nil_of_left_ne_nil (List.ne_nil_of_length_eq_add_one hfront.length_eq.symm) _
  stable := by
    intro t u h
    rw [Option.isSome_map] at h ⊢
    obtain ⟨r, hr⟩ := Option.isSome_iff_exists.mp h
    rw [lit_append u hr]
    rfl
  closes t := lit closing (t.dropWhile space)
  closes_suffix := by
    intro t r h
    obtain ⟨front, hfront, -⟩ := lit_eq_some.mp h
    exact (List.suffix_append front r).trans (hfront ▸ List.dropWhile_suffix space)

/-- A text cut up: a symbol outside the blocks, or a block with what its opening
captures and the text in it. -/
inductive Piece (α γ : Type)
  | plain (c : α)
  | block (g : γ) (inner : List α)

namespace Pattern

variable (P : Pattern α γ)

/-- The block at the head of a text: what its opening captures, the text in it,
and the text behind it. -/
def blockAt? (t : List α) : Option (γ × List α × List α) :=
  (P.at? t).bind fun m => (upTo P.closes m.2).map fun found => (m.1, found)

/-- A text cut up, `skip` symbols of a block being still to be passed. -/
def cut : ℕ → List α → List (Piece α γ)
  | _, [] => []
  | skip + 1, _ :: t => cut skip t
  | 0, c :: t =>
    match P.blockAt? (c :: t) with
    | some (g, inner, r) => .block g inner :: cut (t.length - r.length) t
    | none => .plain c :: cut 0 t

def pieces (t : List α) : List (Piece α γ) := P.cut 0 t

/-- `re.sub`: every block replaced by the same text. -/
def sub (repl t : List α) : List α :=
  (P.pieces t).flatMap fun
    | .plain c => [c]
    | .block _ _ => repl

/-- `re.findall`: what the openings capture, with the texts in the blocks. -/
def found (t : List α) : List (γ × List α) :=
  (P.pieces t).filterMap fun
    | .plain _ => none
    | .block g inner => some (g, inner)

/-- The texts in the blocks. -/
def inners (t : List α) : List (List α) := (P.found t).map Prod.snd

variable {P} {t : List α}

theorem blockAt?_suffix {g : γ} {inner r : List α} (h : P.blockAt? t = some (g, inner, r)) :
    ∃ front, front ≠ [] ∧ t = front ++ r := by
  obtain ⟨m, hm, hfound⟩ := Option.bind_eq_some_iff.mp h
  obtain ⟨found, hfound, he⟩ := Option.map_eq_some_iff.mp hfound
  obtain ⟨rfl, rfl⟩ := Prod.mk.inj he
  obtain ⟨front, hne, rfl⟩ := P.shortens hm
  obtain ⟨back, hback, hr, -⟩ := upTo_eq_some hfound
  obtain ⟨closing, rfl⟩ := P.closes_suffix hr
  refine ⟨front ++ inner ++ closing, by simp [hne], ?_⟩
  rw [hback]
  simp

theorem blockAt?_of_absent (h : P.at? t = none) : P.blockAt? t = none := by
  unfold blockAt?
  rw [h]
  rfl

theorem cut_skip : ∀ (front t : List α), P.cut front.length (front ++ t) = P.cut 0 t
  | [], _ => rfl
  | _ :: front, t => cut_skip front t

theorem pieces_plain {c : α} (h : P.blockAt? (c :: t) = none) : P.pieces (c :: t) = .plain c :: P.pieces t := by
  unfold pieces
  rw [cut, h]

theorem pieces_block {g : γ} {inner r : List α} (h : P.blockAt? t = some (g, inner, r)) :
    P.pieces t = .block g inner :: P.pieces r := by
  obtain ⟨front, hne, rfl⟩ := blockAt?_suffix h
  obtain ⟨c, front, rfl⟩ := List.exists_cons_of_ne_nil hne
  rw [List.cons_append] at h
  unfold pieces
  rw [List.cons_append, cut, h]
  have hlen : (front ++ r).length - r.length = front.length := by simp
  simp only [hlen, cut_skip]

/-- A text is empty, or begins with a symbol that begins no block, or with a
block. -/
theorem induct {motive : List α → Prop} (nil : motive [])
    (plain : ∀ c t, P.blockAt? (c :: t) = none → motive t → motive (c :: t))
    (block : ∀ t g inner r, P.blockAt? t = some (g, inner, r) → motive r → motive t) : ∀ t, motive t := by
  intro t
  induction hn : t.length using Nat.strong_induction_on generalizing t with
  | _ n ih =>
    cases t with
    | nil => exact nil
    | cons c t =>
      cases hat : P.blockAt? (c :: t) with
      | none => exact plain c t hat (ih t.length (by rw [← hn]; exact Nat.lt_succ_self _) t rfl)
      | some m =>
        obtain ⟨g, inner, r⟩ := m
        obtain ⟨front, hne, ht⟩ := blockAt?_suffix hat
        have hlen : r.length < n := by
          rw [← hn, ht, List.length_append]
          exact Nat.lt_add_of_pos_left (List.length_pos_iff.mpr hne)
        exact block _ g inner r hat (ih r.length hlen r rfl)

@[simp] theorem sub_nil (repl : List α) : P.sub repl [] = [] := rfl

theorem sub_plain {c : α} (repl : List α) (h : P.blockAt? (c :: t) = none) :
    P.sub repl (c :: t) = c :: P.sub repl t := by
  unfold sub
  rw [pieces_plain h]
  rfl

theorem sub_block {g : γ} {inner r : List α} (repl : List α) (h : P.blockAt? t = some (g, inner, r)) :
    P.sub repl t = repl ++ P.sub repl r := by
  unfold sub
  rw [pieces_block h]
  rfl

@[simp] theorem found_nil : P.found [] = [] := rfl

theorem found_plain {c : α} (h : P.blockAt? (c :: t) = none) : P.found (c :: t) = P.found t := by
  unfold found
  rw [pieces_plain h]
  rfl

theorem found_block {g : γ} {inner r : List α} (h : P.blockAt? t = some (g, inner, r)) :
    P.found t = (g, inner) :: P.found r := by
  unfold found
  rw [pieces_block h]
  rfl

/-- A text without an opening has no blocks. -/
theorem sub_of_absent {repl : List α} : ∀ {t : List α}, P.Absent t → P.sub repl t = t
  | [], _ => rfl
  | c :: t, h => by
    obtain ⟨hc, ht⟩ := Opening.absent_cons.mp h
    rw [sub_plain repl (blockAt?_of_absent hc), sub_of_absent ht]

theorem found_of_absent : ∀ {t : List α}, P.Absent t → P.found t = []
  | [], _ => rfl
  | c :: t, h => by
    obtain ⟨hc, ht⟩ := Opening.absent_cons.mp h
    rw [found_plain (blockAt?_of_absent hc), found_of_absent ht]

theorem blockAt?_of_no_closing (h : ∀ s, s <:+ t → P.closes s = none) : P.blockAt? t = none := by
  unfold blockAt?
  cases hm : P.at? t with
  | none => rfl
  | some m =>
    obtain ⟨front, -, rfl⟩ := P.shortens hm
    rw [Option.bind_some, upTo_eq_none fun s hs => h s (hs.trans (List.suffix_append front m.2))]
    rfl

/-- A text without a closing has no blocks. -/
theorem found_of_no_closing : ∀ {t : List α}, (∀ s, s <:+ t → P.closes s = none) → P.found t = []
  | [], _ => rfl
  | c :: t, h => by
    rw [found_plain (blockAt?_of_no_closing h), found_of_no_closing fun s hs => h s (hs.trans (List.suffix_cons c t))]

/-- A text in which no block is found stays as it is. -/
theorem sub_of_found_eq_nil (repl : List α) (h : P.found t = []) : P.sub repl t = t := by
  induction t using P.induct with
  | nil => rfl
  | plain c t hc ih => rw [sub_plain repl hc, ih (by rwa [found_plain hc] at h)]
  | block t g inner r hb _ =>
    rw [found_block hb] at h
    cases h

/-- A front in which no opening begins is passed. -/
theorem pieces_clear : ∀ {front rest : List α}, (∀ s, s <:+ front → s ≠ [] → P.at? (s ++ rest) = none) →
    P.pieces (front ++ rest) = front.map .plain ++ P.pieces rest
  | [], _, _ => rfl
  | c :: front, rest, h => by
    have hhead : P.blockAt? (c :: (front ++ rest)) = none :=
      blockAt?_of_absent (h (c :: front) List.suffix_rfl (List.cons_ne_nil _ _))
    have htail := pieces_clear fun s hs hne => h s (hs.trans (List.suffix_cons c front)) hne
    rw [List.cons_append, pieces_plain hhead, htail]
    rfl

theorem sub_clear {front rest : List α} (repl : List α)
    (h : ∀ s, s <:+ front → s ≠ [] → P.at? (s ++ rest) = none) :
    P.sub repl (front ++ rest) = front ++ P.sub repl rest := by
  unfold sub
  rw [pieces_clear h, List.flatMap_append, List.flatMap_map]
  simp

theorem found_clear {front rest : List α}
    (h : ∀ s, s <:+ front → s ≠ [] → P.at? (s ++ rest) = none) :
    P.found (front ++ rest) = P.found rest := by
  unfold found
  rw [pieces_clear h, List.filterMap_append, List.filterMap_map]
  simp

end Pattern

/-! ### Removals -/

/-- A block is taken out of a text, or all of it from an opening on. -/
inductive Removal (P : Pattern α γ) : List α → List α → Prop
  | block (front : List α) {t inner r : List α} {g : γ} :
      P.blockAt? t = some (g, inner, r) → Removal P (front ++ t) (front ++ r)
  | tail (front : List α) {t : List α} : (P.at? t).isSome → Removal P (front ++ t) front

theorem Removal.cons {P : Pattern α γ} {t t' : List α} (c : α) (h : Removal P t t') : Removal P (c :: t) (c :: t') := by
  cases h with
  | block front hb => exact Removal.block (c :: front) hb
  | tail _ ho => exact Removal.tail (c :: t') ho

/-- Deleting all blocks removes one after the other. -/
theorem Pattern.sub_removal {P : Pattern α γ} (t : List α) : Relation.ReflTransGen (Removal P) t (P.sub [] t) := by
  induction t using P.induct with
  | nil => exact .refl
  | plain c t hc ih =>
    rw [Pattern.sub_plain [] hc]
    exact ih.lift (c :: ·) fun _ _ h => Removal.cons c h
  | block t g inner r hb ih =>
    rw [Pattern.sub_block [] hb]
    exact Relation.ReflTransGen.head (Removal.block [] hb) ih

/-- So does cutting a text off at the first opening. -/
theorem Pattern.before_removal {P : Pattern α γ} (t : List α) :
    Relation.ReflTransGen (Removal P) t (P.before t) := by
  obtain ⟨cut, hcut, hat⟩ := P.before_cut t
  by_cases hnil : cut = []
  · rw [hnil, List.append_nil] at hcut
    rw [← hcut]
  · have hremoval : Removal P (P.before t ++ cut) (P.before t) := Removal.tail _ (hat hnil)
    rw [← hcut] at hremoval
    exact .single hremoval

/-! ### Blocks between two literal tags -/

section Tagged

variable [DecidableEq α]

/-- `OPEN([\s\S]*?)CLOSE`, with the symbols behind it that `space` accepts. -/
def tagged (opening closing : List α) (h : opening ≠ []) (space : α → Bool) : Pattern α Unit where
  at? t := (exactly opening t).map fun r => ((), r)
  shortens := by
    intro t g r ht
    obtain ⟨r', hr', he⟩ := Option.map_eq_some_iff.mp ht
    obtain ⟨-, rfl⟩ := Prod.mk.inj he
    exact ⟨opening, h, exactly_eq_some.mp hr'⟩
  stable := by
    intro t u ht
    rw [Option.isSome_map] at ht ⊢
    exact exactly_isSome.mpr ((exactly_isSome.mp ht).trans (List.prefix_append t u))
  closes t := (exactly closing t).map (List.dropWhile space)
  closes_suffix := by
    intro t r ht
    obtain ⟨r', hr', rfl⟩ := Option.map_eq_some_iff.mp ht
    rw [exactly_eq_some.mp hr']
    exact (List.dropWhile_suffix space).trans (List.suffix_append closing r')

variable {opening closing : List α} {h : opening ≠ []} {space : α → Bool}

theorem tagged_at?_eq_none {t : List α} : (tagged opening closing h space).at? t = none ↔ ¬opening <+: t := by
  show (exactly opening t).map _ = none ↔ _
  rw [Option.map_eq_none_iff, exactly_eq_none]

theorem tagged_absent {t : List α} : (tagged opening closing h space).Absent t ↔ ¬opening <:+: t := by
  refine ⟨fun ht hin => ?_, fun ht s hs => tagged_at?_eq_none.mpr fun hpre => ht ?_⟩
  · obtain ⟨s, hpre, hs⟩ := List.infix_iff_prefix_suffix.mp hin
    exact tagged_at?_eq_none.mp (ht s hs) hpre
  · exact hpre.isInfix.trans hs.isInfix

omit [DecidableEq α] in
/-- No separator begins at a place in a clear front. -/
theorem not_prefix_of_clear {sep front rest : List α} (hc : Cut.Clear sep front rest) :
    ∀ s, s <:+ front → s ≠ [] → ¬sep <+: s ++ rest := by
  rintro s ⟨a, rfl⟩ hne hpre
  have hlt : a.length < (a ++ s).length := by
    rw [List.length_append]
    exact Nat.lt_add_of_pos_right (List.length_pos_iff.mpr hne)
  refine hc a.length hlt ?_
  rwa [List.append_assoc, List.drop_left]

theorem tagged_block {inner rest : List α} (hc : Cut.Clear closing inner (closing ++ rest)) :
    (tagged opening closing h space).blockAt? (opening ++ (inner ++ (closing ++ rest))) =
      some ((), inner, rest.dropWhile space) := by
  have hopen : (tagged opening closing h space).at? (opening ++ (inner ++ (closing ++ rest))) =
      some ((), inner ++ (closing ++ rest)) := by
    show (exactly opening _).map _ = _
    rw [exactly_eq_some.mpr rfl]
    rfl
  have hclose : (tagged opening closing h space).closes (closing ++ rest) = some (rest.dropWhile space) := by
    show (exactly closing _).map _ = _
    rw [exactly_eq_some.mpr rfl]
    rfl
  have hupTo : upTo _ (inner ++ (closing ++ rest)) = _ := upTo_of_clear hclose fun s hs hne => by
    show (exactly closing _).map _ = none
    rw [Option.map_eq_none_iff, exactly_eq_none]
    exact not_prefix_of_clear hc s hs hne
  unfold Pattern.blockAt?
  rw [hopen, Option.bind_some, hupTo]
  rfl

theorem tagged_block_eq_some {t inner r : List α} (hclosing : closing ≠ [])
    (hb : (tagged opening closing h space).blockAt? t = some ((), inner, r)) :
    ∃ rest, t = opening ++ (inner ++ (closing ++ rest)) ∧ r = rest.dropWhile space ∧ ¬closing <:+: inner := by
  obtain ⟨m, hm, hfound⟩ := Option.bind_eq_some_iff.mp hb
  obtain ⟨found, hfound, he⟩ := Option.map_eq_some_iff.mp hfound
  obtain ⟨-, rfl⟩ := Prod.mk.inj he
  obtain ⟨behind, hbehind, rfl⟩ := Option.map_eq_some_iff.mp hm
  obtain ⟨back, hback, hr, hfirst⟩ := upTo_eq_some hfound
  obtain ⟨rest, hrest, rfl⟩ := Option.map_eq_some_iff.mp hr
  refine ⟨rest, ?_, rfl, fun hin => ?_⟩
  · rw [exactly_eq_some.mp hbehind]
    exact congrArg (opening ++ ·) (hback.trans (congrArg (inner ++ ·) (exactly_eq_some.mp hrest)))
  · obtain ⟨s, hpre, hs⟩ := List.infix_iff_prefix_suffix.mp hin
    have hs0 : s ≠ [] := fun hnil => hclosing (List.prefix_nil.mp (hnil ▸ hpre))
    have hnone := hfirst s hs hs0
    have hnot := exactly_eq_none.mp (Option.map_eq_none_iff.mp hnone)
    exact hnot (hpre.trans (List.prefix_append s back))

end Tagged

end Blocks
