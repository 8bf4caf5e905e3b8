/-
# Lists cut into groups

A list is read as a sequence of groups: a head that is not a member, then
the members directly beneath it, up to the next head. `Grouped` says that a
list is nothing but such groups and that each of them is good; it does not
say what good is. The list may start with no member (there would be no head
above it), which is what makes two grouped lists grouped when they are put
end to end, and a list cut at a head fall into two grouped lists.

Key definitions: `Groups.Grouped`, `Groups.groups`, `Groups.digest`.
Key theorems: `Groups.grouped_iff`, `Groups.grouped_append`,
`Groups.Grouped.forall₂`, `Groups.Grouped.filter`, `Groups.grouped_map`,
`Groups.grouped_iff_digest`.
-/
import Mathlib.Data.List.Basic
import Mathlib.Data.List.TakeWhile
import Mathlib.Data.List.Forall2

namespace Groups

variable {α : Type*} (p : α → Bool) (good : α → List α → Prop)

/-- The list is a sequence of good groups: a head, then its members. -/
inductive Grouped : List α → Prop
  | nil : Grouped []
  | group {x : α} {body rest : List α} : p x = false → (∀ m ∈ body, p m = true) → good x body →
      Grouped rest → Grouped (x :: (body ++ rest))

/-- The groups of a list, each with its head; members before the first head
belong to no group. -/
def groups : List α → List (α × List α)
  | [] => []
  | x :: xs => if p x then groups xs else (x, xs.takeWhile p) :: groups xs

variable {p good}

theorem groups_members : ∀ {ms : List α}, (∀ m ∈ ms, p m = true) → ∀ xs : List α,
    groups p (ms ++ xs) = groups p xs
  | [], _, _ => rfl
  | m :: ms, h, xs => by
    have hm : p m = true := h m (by simp)
    have hms : ∀ x ∈ ms, p x = true := fun x hx => h x (by simp [hx])
    simp [groups, hm, groups_members hms xs]

theorem takeWhile_members {ms xs : List α} (h : ∀ m ∈ ms, p m = true) (hx : xs.takeWhile p = []) :
    (ms ++ xs).takeWhile p = ms := by
  rw [List.takeWhile_append_of_pos (by simpa using h), hx, List.append_nil]

theorem takeWhile_dropWhile (q : α → Bool) (l : List α) : (l.dropWhile q).takeWhile q = [] := by
  cases hd : l.dropWhile q with
  | nil => rfl
  | cons x xs =>
    have hx := List.head_dropWhile_not q (l := l) (by simp [hd])
    simp only [hd, List.head_cons] at hx
    simp [hx]

theorem Grouped.takeWhile_eq_nil {h : List α} (hg : Grouped p good h) : h.takeWhile p = [] := by
  cases hg with
  | nil => rfl
  | group hx _ _ _ => simp [hx]

theorem Grouped.each {h : List α} (hg : Grouped p good h) : ∀ g ∈ groups p h, good g.1 g.2 := by
  induction hg with
  | nil => simp [groups]
  | @group x body rest hx hb hgood hrest ih =>
    intro g hmem
    simp only [groups, hx, Bool.false_eq_true, if_false, List.mem_cons] at hmem
    rcases hmem with rfl | hmem
    · rw [takeWhile_members hb hrest.takeWhile_eq_nil]
      exact hgood
    · rw [groups_members hb] at hmem
      exact ih g hmem

theorem grouped_dropWhile : ∀ {h : List α}, (∀ g ∈ groups p h, good g.1 g.2) →
    Grouped p good (h.dropWhile p)
  | [], _ => .nil
  | x :: xs, h => by
    by_cases hx : p x = true
    · rw [List.dropWhile_cons_of_pos hx]
      exact grouped_dropWhile (by simpa [groups, hx] using h)
    · simp only [groups, hx, Bool.false_eq_true, if_false, List.mem_cons, forall_eq_or_imp] at h
      rw [List.dropWhile_cons_of_neg hx, ← List.takeWhile_append_dropWhile (p := p) (l := xs)]
      exact .group (by simpa using hx) (fun m hm => List.mem_takeWhile_imp hm) h.1 (grouped_dropWhile h.2)

/-- A list is grouped iff it starts with no member and its groups are good. -/
theorem grouped_iff {h : List α} :
    Grouped p good h ↔ h.takeWhile p = [] ∧ ∀ g ∈ groups p h, good g.1 g.2 := by
  refine ⟨fun hg => ⟨hg.takeWhile_eq_nil, hg.each⟩, fun ⟨hlead, heach⟩ => ?_⟩
  have h' := grouped_dropWhile heach
  rwa [← List.nil_append (h.dropWhile p), ← hlead, List.takeWhile_append_dropWhile] at h'

instance [∀ x b, Decidable (good x b)] (h : List α) : Decidable (Grouped p good h) :=
  letI : Decidable (∀ g ∈ groups p h, good g.1 g.2) := List.decidableBAll _ _
  decidable_of_iff _ grouped_iff.symm

theorem Grouped.append {xs ys : List α} (hx : Grouped p good xs) (hy : Grouped p good ys) :
    Grouped p good (xs ++ ys) := by
  induction hx with
  | nil => exact hy
  | group h hb hgood _ ih =>
    rw [List.cons_append, List.append_assoc]
    exact .group h hb hgood ih

/-- One group on its own. -/
theorem Grouped.single {x : α} {body : List α} (hx : p x = false) (hb : ∀ m ∈ body, p m = true)
    (hgood : good x body) : Grouped p good (x :: body) := by
  have h : Grouped p good (x :: (body ++ [])) := .group hx hb hgood .nil
  rwa [List.append_nil] at h

/-- A list cut at a head is grouped iff its two parts are. -/
theorem grouped_append {xs ys : List α} (hy : ys.takeWhile p = []) :
    Grouped p good (xs ++ ys) ↔ Grouped p good xs ∧ Grouped p good ys := by
  refine ⟨fun h => ?_, fun h => h.1.append h.2⟩
  generalize hzs : xs ++ ys = zs at h
  induction h generalizing xs with
  | nil =>
    obtain ⟨rfl, rfl⟩ := List.append_eq_nil_iff.mp hzs
    exact ⟨.nil, .nil⟩
  | @group x body rest hx hb hgood hrest ih =>
    cases xs with
    | nil =>
      rw [List.nil_append] at hzs
      exact ⟨.nil, hzs ▸ .group hx hb hgood hrest⟩
    | cons x' xs =>
      simp only [List.cons_append, List.cons.injEq] at hzs
      obtain ⟨rfl, hzs⟩ := hzs
      -- the cut falls inside the body only when the body ends there
      rcases List.append_eq_append_iff.mp hzs with ⟨c, rfl, rfl⟩ | ⟨c, rfl, rfl⟩
      · cases c with
        | nil => exact ⟨.single hx (by simpa using hb) (by simpa using hgood), hrest⟩
        | cons m ms =>
          have hm : p m = true := hb m (by simp)
          simp [hm] at hy
      · obtain ⟨hc, hys⟩ := ih rfl
        exact ⟨.group hx hb hgood hc, hys⟩

/-- The members beneath a head are its group when a head follows. -/
theorem grouped_cons {x : α} {body rest : List α} (hx : p x = false) (hb : ∀ m ∈ body, p m = true)
    (hr : rest.takeWhile p = []) :
    Grouped p good (x :: (body ++ rest)) ↔ good x body ∧ Grouped p good rest := by
  refine ⟨fun h => ?_, fun h => .group hx hb h.1 h.2⟩
  rw [← List.cons_append, grouped_append hr] at h
  refine ⟨?_, h.2⟩
  have := h.1.each (x, body) (by simp [groups, hx, List.takeWhile_eq_self_iff.mpr hb])
  exact this

theorem exists_of_forall₂_left {β : Type*} {R : α → β → Prop} {xs : List α} {ys : List β} (h : List.Forall₂ R xs ys)
    {x : α} (hx : x ∈ xs) : ∃ y ∈ ys, R x y := by
  induction h with
  | nil => cases hx
  | cons hxy _ ih =>
    rcases List.mem_cons.mp hx with rfl | hx
    · exact ⟨_, List.mem_cons_self, hxy⟩
    · obtain ⟨y, hy, hR⟩ := ih hx
      exact ⟨y, List.mem_cons_of_mem _ hy, hR⟩

theorem exists_of_forall₂_right {β : Type*} {R : α → β → Prop} {xs : List α} {ys : List β} (h : List.Forall₂ R xs ys)
    {y : β} (hy : y ∈ ys) : ∃ x ∈ xs, R x y := by
  have hflip : List.Forall₂ (flip R) ys xs := List.Forall₂.flip h
  exact exists_of_forall₂_left hflip hy

theorem forall₂_trans {R : α → α → Prop} (hR : ∀ a b c, R a b → R b c → R a c) {xs ys zs : List α}
    (h : List.Forall₂ R xs ys) (h' : List.Forall₂ R ys zs) : List.Forall₂ R xs zs := by
  induction h generalizing zs with
  | nil => exact h'
  | cons hxy _ ih =>
    obtain ⟨z, t, hyz, ht, rfl⟩ := List.forall₂_cons_left_iff.mp h'
    exact .cons (hR _ _ _ hxy hyz) (ih ht)

theorem forall₂_append_left {R : α → α → Prop} : ∀ {xs ys zs : List α}, List.Forall₂ R (xs ++ ys) zs →
    ∃ c d, List.Forall₂ R xs c ∧ List.Forall₂ R ys d ∧ zs = c ++ d
  | [], _, zs, h => ⟨[], zs, .nil, h, rfl⟩
  | x :: xs, ys, _, h => by
    obtain ⟨y, t, hxy, ht, rfl⟩ := List.forall₂_cons_left_iff.mp h
    obtain ⟨c, d, hc, hd, rfl⟩ := forall₂_append_left ht
    exact ⟨y :: c, d, .cons hxy hc, hd, rfl⟩

theorem forall₂_members {R : α → α → Prop} (hp : ∀ x y, R x y → p x = p y) {b c : List α}
    (hr : List.Forall₂ R b c) (hb : ∀ m ∈ b, p m = true) : ∀ m ∈ c, p m = true := by
  induction hr with
  | nil => simp
  | @cons x y b c hxy _ ih =>
    simp only [List.mem_cons, forall_eq_or_imp] at hb ⊢
    exact ⟨hp x y hxy ▸ hb.1, ih hb.2⟩

/-- Groups are kept by a rewriting of the elements one by one that keeps
heads heads, members members and good groups good. -/
theorem Grouped.forall₂ {R : α → α → Prop} (hp : ∀ x y, R x y → p x = p y)
    (hgood : ∀ x y b c, R x y → List.Forall₂ R b c → good x b → good y c) {h h' : List α}
    (hg : Grouped p good h) (hr : List.Forall₂ R h h') : Grouped p good h' := by
  induction hg generalizing h' with
  | nil => cases hr; exact .nil
  | @group x body rest hx hb hgx _ ih =>
    obtain ⟨y, t, hxy, ht, rfl⟩ := List.forall₂_cons_left_iff.mp hr
    obtain ⟨c, d, hc, hd, rfl⟩ := forall₂_append_left ht
    exact .group (hp x y hxy ▸ hx) (forall₂_members hp hc hb) (hgood x y _ _ hxy hc hgx) (ih hd)

/-- A head that is good with no member and with nothing else. -/
def Plain (p : α → Bool) (good : α → List α → Prop) (x : α) : Prop :=
  p x = false ∧ ∀ b, good x b ↔ b = []

theorem Grouped.plain {x : α} (hx : Plain p good x) : Grouped p good [x] :=
  .single hx.1 (by simp) ((hx.2 []).mpr rfl)

/-- Plain heads can be taken out anywhere. -/
theorem Grouped.filter {q : α → Bool} {h : List α} (hg : Grouped p good h)
    (hq : ∀ x ∈ h, q x = false → Plain p good x) : Grouped p good (h.filter q) := by
  induction hg with
  | nil => exact .nil
  | @group x body rest hx hb hgood _ ih =>
    have hrest := ih fun y hy => hq y (by simp [hy])
    have hbody : body.filter q = body := by
      rw [List.filter_eq_self]
      intro m hm
      by_contra hqm
      have := (hq m (by simp [hm]) (by simpa using hqm)).1
      rw [hb m hm] at this
      cases this
    rw [List.filter_cons]
    split
    · rw [List.filter_append, hbody]
      exact .group hx hb hgood hrest
    · next hqx =>
      have := ((hq x (by simp) (by simpa using hqx)).2 body).mp hgood
      subst this
      simpa using hrest

/-! ### Other elements -/

theorem groups_map {β : Type*} {q : β → Bool} {f : α → β} (hp : ∀ x, q (f x) = p x) : ∀ h : List α,
    groups q (h.map f) = (groups p h).map fun g => (f g.1, g.2.map f)
  | [] => rfl
  | x :: xs => by
    have htake : (xs.map f).takeWhile q = (xs.takeWhile p).map f := by
      rw [List.takeWhile_map]
      exact congrArg (fun r => (xs.takeWhile r).map f) (funext hp)
    rw [List.map_cons, groups, groups, groups_map hp xs, hp x, htake]
    by_cases hx : p x = true
    · rw [if_pos hx, if_pos hx]
    · rw [if_neg hx, if_neg hx]
      rfl

/-- The images of the elements are grouped as the elements are. -/
theorem grouped_map {β : Type*} {q : β → Bool} {good : β → List β → Prop} {f : α → β} (hp : ∀ x, q (f x) = p x)
    {h : List α} : Grouped q good (h.map f) ↔ Grouped p (fun x b => good (f x) (b.map f)) h := by
  have htake : (h.map f).takeWhile q = (h.takeWhile p).map f := by
    rw [List.takeWhile_map]
    exact congrArg (fun r => (h.takeWhile r).map f) (funext hp)
  rw [grouped_iff, grouped_iff, groups_map hp, htake, List.map_eq_nil_iff, List.forall_mem_map]

/-- The groups of a list with what their members say. -/
def digest {β : Type*} (p : α → Bool) (f : α → List β) (h : List α) : List (α × List β) :=
  (groups p h).map fun g => (g.1, g.2.flatMap f)

/-- What the members before the first head say. -/
def lead {β : Type*} (p : α → Bool) (f : α → List β) (h : List α) : List β := (h.takeWhile p).flatMap f

theorem digest_head {β : Type*} {f : α → List β} {x : α} (hx : p x = false) (xs : List α) :
    digest p f (x :: xs) = (x, lead p f xs) :: digest p f xs := by
  unfold digest
  rw [groups, hx]
  rfl

theorem digest_member {β : Type*} {f : α → List β} {x : α} (hx : p x = true) (xs : List α) :
    digest p f (x :: xs) = digest p f xs := by
  unfold digest
  rw [groups, if_pos hx]

theorem lead_head {β : Type*} {f : α → List β} {x : α} (hx : p x = false) (xs : List α) : lead p f (x :: xs) = [] := by
  unfold lead
  rw [List.takeWhile_cons_of_neg (by rw [hx]; exact Bool.false_ne_true)]
  rfl

theorem lead_member {β : Type*} {f : α → List β} {x : α} (hx : p x = true) (xs : List α) :
    lead p f (x :: xs) = f x ++ lead p f xs := by
  unfold lead
  rw [List.takeWhile_cons_of_pos hx, List.flatMap_cons]

/-- Where a group is good by what its members say, the digest decides. -/
theorem grouped_iff_digest {β : Type*} {f : α → List β} {good' : α → List β → Prop}
    (hgood : ∀ x b, good x b ↔ good' x (b.flatMap f)) {h : List α} :
    Grouped p good h ↔ h.takeWhile p = [] ∧ ∀ g ∈ digest p f h, good' g.1 g.2 := by
  rw [grouped_iff]
  unfold digest
  rw [List.forall_mem_map]
  refine and_congr_right fun _ => forall₂_congr fun g _ => ?_
  exact hgood g.1 g.2

end Groups
