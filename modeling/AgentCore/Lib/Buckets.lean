/-
# First-fit buckets

The elements of a list are put into buckets one after the other: each goes into the
first bucket whose head it fits, or opens a bucket of its own. Where fitting is an
equivalence, the buckets are its classes, in the order in which they begin
(`buckets_eq`). Where an element may fit a head of another class as well, the buckets
are the classes exactly if no element fits the head of a class that begins before its
own (`classes_iff`).

Key definitions: `buckets`, `firsts`, `Apart`.
Key theorems: `buckets_eq`, `buckets_of_apart`, `classes_iff`.
-/
import Mathlib.Data.List.Basic
import Mathlib.Data.List.Induction
import Mathlib.Data.List.TakeWhile

namespace Buckets

variable {α : Type} (fits E : α → α → Bool)

/-- The head of the bucket takes the element. -/
def takes (x : α) : List α → Bool
  | [] => false
  | h :: _ => fits h x

/-- The element in the first bucket that takes it, or in one of its own. -/
def place (x : α) : List (List α) → List (List α)
  | [] => [[x]]
  | b :: bs => if takes fits x b then (b ++ [x]) :: bs else b :: place x bs

def buckets (xs : List α) : List (List α) := xs.foldl (fun bs x => place fits x bs) []

/-- The first element of each class. -/
def firsts (xs : List α) : List α := xs.foldl (fun hs x => if hs.any fun h => E h x then hs else hs ++ [x]) []

/-- No element fits the first of a class that begins before its own. -/
def Apart (xs : List α) : Prop := ∀ x ∈ xs, ∀ h ∈ (firsts E xs).takeWhile fun h => !E h x, fits h x = false

variable {fits E}

@[simp] theorem buckets_concat (xs : List α) (x : α) : buckets fits (xs ++ [x]) = place fits x (buckets fits xs) := by
  simp [buckets]

theorem firsts_concat (xs : List α) (x : α) :
    firsts E (xs ++ [x]) = if (firsts E xs).any fun h => E h x then firsts E xs else firsts E xs ++ [x] := by
  simp [firsts]

theorem place_of_none {x : α} : ∀ {bs : List (List α)}, (∀ b ∈ bs, takes fits x b = false) →
    place fits x bs = bs ++ [[x]]
  | [], _ => rfl
  | b :: bs, h => by
    rw [place, if_neg (by simp [h b List.mem_cons_self]),
      place_of_none fun b' hb' => h b' (List.mem_cons_of_mem _ hb')]
    rfl

theorem place_of_first {x : α} {b : List α} (hb : takes fits x b = true) (r : List (List α)) :
    ∀ {l : List (List α)}, (∀ b' ∈ l, takes fits x b' = false) → place fits x (l ++ b :: r) = l ++ (b ++ [x]) :: r
  | [], _ => by rw [List.nil_append, place, if_pos hb, List.nil_append]
  | b' :: l, h => by
    rw [List.cons_append, place, if_neg (by simp [h b' List.mem_cons_self]),
      place_of_first hb r fun c hc => h c (List.mem_cons_of_mem _ hc)]
    rfl

/-- What a bucket has stays together. -/
theorem place_keeps {x : α} {b : List α} : ∀ {bs : List (List α)}, b ∈ bs → ∃ b' ∈ place fits x bs, b ⊆ b'
  | c :: bs, h => by
    rw [place]
    by_cases hc : takes fits x c = true
    · rw [if_pos hc]
      rcases List.mem_cons.mp h with rfl | h
      · exact ⟨b ++ [x], List.mem_cons_self, List.subset_append_left b [x]⟩
      · exact ⟨b, List.mem_cons_of_mem _ h, List.Subset.refl b⟩
    · rw [if_neg hc]
      rcases List.mem_cons.mp h with rfl | h
      · exact ⟨b, List.mem_cons_self, List.Subset.refl b⟩
      · obtain ⟨b', hb', hsub⟩ := place_keeps h
        exact ⟨b', List.mem_cons_of_mem _ hb', hsub⟩

/-! ### First elements -/

section Classes

variable (hE : Equivalence fun a b => E a b = true) {xs : List α}
include hE

theorem exists_first {x : α} (hx : x ∈ xs) : ∃ h ∈ firsts E xs, E h x = true := by
  induction xs using List.reverseRecOn with
  | nil => exact absurd hx List.not_mem_nil
  | append_singleton xs y ih =>
    rw [firsts_concat]
    by_cases hany : ((firsts E xs).any fun h => E h y) = true
    · rw [if_pos hany]
      rcases List.mem_append.mp hx with hx | hx
      · exact ih hx
      · rw [List.mem_singleton.mp hx]
        exact List.any_eq_true.mp hany
    · rw [if_neg hany]
      rcases List.mem_append.mp hx with hx | hx
      · obtain ⟨h, hh, hhx⟩ := ih hx
        exact ⟨h, List.mem_append_left _ hh, hhx⟩
      · rw [List.mem_singleton.mp hx]
        exact ⟨y, List.mem_append_right _ (List.mem_singleton_self y), hE.refl y⟩

omit hE in
theorem mem_of_mem_firsts {h : α} (hh : h ∈ firsts E xs) : h ∈ xs := by
  induction xs using List.reverseRecOn with
  | nil => exact absurd hh List.not_mem_nil
  | append_singleton xs y ih =>
    rw [firsts_concat] at hh
    by_cases hany : ((firsts E xs).any fun h => E h y) = true
    · rw [if_pos hany] at hh
      exact List.mem_append_left _ (ih hh)
    · rw [if_neg hany] at hh
      rcases List.mem_append.mp hh with hh | hh
      · exact List.mem_append_left _ (ih hh)
      · exact List.mem_append_right _ hh

omit hE in
theorem firsts_apart : (firsts E xs).Pairwise fun a b => E a b = false := by
  induction xs using List.reverseRecOn with
  | nil => exact List.Pairwise.nil
  | append_singleton xs y ih =>
    rw [firsts_concat]
    by_cases hany : ((firsts E xs).any fun h => E h y) = true
    · rwa [if_pos hany]
    · rw [if_neg hany, List.pairwise_append]
      refine ⟨ih, List.pairwise_singleton _ _, fun a ha b hb => ?_⟩
      rw [List.mem_singleton.mp hb]
      by_contra hab
      exact hany (List.any_eq_true.mpr ⟨a, ha, by simpa using hab⟩)

/-- An element that begins a class has no other one of the class in front of it. -/
theorem filter_of_new {x : α} (hnew : ((firsts E xs).any fun h => E h x) = false) : xs.filter (E x) = [] := by
  rw [List.filter_eq_nil_iff]
  intro y hy hxy
  obtain ⟨h, hh, hhy⟩ := exists_first hE hy
  have hhx : E h x = true := hE.trans hhy (hE.symm hxy)
  have hall := List.any_eq_false.mp hnew h hh
  exact hall hhx

theorem filter_of_first {h : α} (hh : h ∈ firsts E xs) : ∃ t, xs.filter (E h) = h :: t := by
  induction xs using List.reverseRecOn with
  | nil => exact absurd hh List.not_mem_nil
  | append_singleton xs y ih =>
    rw [firsts_concat] at hh
    rw [List.filter_append]
    have hold : h ∈ firsts E xs → ∃ t, xs.filter (E h) ++ [y].filter (E h) = h :: t := by
      intro hh
      obtain ⟨t, ht⟩ := ih hh
      exact ⟨t ++ [y].filter (E h), by rw [ht, List.cons_append]⟩
    by_cases hany : ((firsts E xs).any fun h => E h y) = true
    · rw [if_pos hany] at hh
      exact hold hh
    · rw [if_neg hany] at hh
      rcases List.mem_append.mp hh with hh | hh
      · exact hold hh
      · rw [List.mem_singleton.mp hh, filter_of_new hE (Bool.eq_false_iff.mpr hany), List.nil_append,
          List.filter_cons_of_pos (hE.refl y)]
        exact ⟨[], rfl⟩

/-! ### Buckets are classes -/

/-- The classes, in the order in which they begin. -/
theorem takes_class {x h : α} (hh : h ∈ firsts E xs) : takes fits x (xs.filter (E h)) = fits h x := by
  obtain ⟨t, ht⟩ := filter_of_first hE hh
  rw [ht]
  rfl

/-- An element that fits no class that begins before its own goes into its own. -/
theorem place_classes (hfits : ∀ h x, E h x = true → fits h x = true) {x : α}
    (hx : ∀ h ∈ (firsts E xs).takeWhile fun h => !E h x, fits h x = false) :
    place fits x ((firsts E xs).map fun h => xs.filter (E h)) =
      (firsts E (xs ++ [x])).map fun h => (xs ++ [x]).filter (E h) := by
  have hother : ∀ h, E h x = false → (xs ++ [x]).filter (E h) = xs.filter (E h) := by
    intro h hhx
    rw [List.filter_append, List.filter_cons_of_neg (by simp [hhx]), List.filter_nil, List.append_nil]
  have hsplit := List.takeWhile_append_dropWhile (p := fun h => !E h x) (l := firsts E xs)
  have hbefore : ∀ h ∈ (firsts E xs).takeWhile fun h => !E h x, E h x = false := fun h hh => by
    simpa using List.mem_takeWhile_imp hh
  have hmem : ∀ h ∈ (firsts E xs).takeWhile fun h => !E h x, h ∈ firsts E xs := fun h hh =>
    (List.takeWhile_prefix _).subset hh
  have hclear : ∀ b ∈ ((firsts E xs).takeWhile fun h => !E h x).map fun h => xs.filter (E h),
      takes fits x b = false := by
    intro b hb
    obtain ⟨h, hh, rfl⟩ := List.mem_map.mp hb
    rw [takes_class hE (hmem h hh)]
    exact hx h hh
  have hfront : ((firsts E xs).takeWhile fun h => !E h x).map (fun h => (xs ++ [x]).filter (E h)) =
      ((firsts E xs).takeWhile fun h => !E h x).map fun h => xs.filter (E h) :=
    List.map_congr_left fun h hh => hother h (hbefore h hh)
  rw [firsts_concat]
  cases hback : (firsts E xs).dropWhile fun h => !E h x with
  | nil =>
    rw [hback, List.append_nil] at hsplit
    rw [hsplit] at hbefore hclear hfront
    have hnew : ((firsts E xs).any fun h => E h x) = false := by
      rw [List.any_eq_false]
      exact fun h hh => by simp [hbefore h hh]
    rw [if_neg (by simp [hnew]), List.map_append, hfront, place_of_none hclear, List.map_singleton,
      List.filter_append, filter_of_new hE hnew, List.filter_cons_of_pos (hE.refl x)]
    rfl
  | cons h r =>
    rw [hback] at hsplit
    have hh : h ∈ firsts E xs := by
      rw [← hsplit]
      exact List.mem_append_right _ List.mem_cons_self
    have hhx : E h x = true := by
      have hhead := List.head?_dropWhile_not (fun h => !E h x) (firsts E xs)
      rw [hback] at hhead
      simpa using hhead
    have hany : ((firsts E xs).any fun h => E h x) = true := List.any_eq_true.mpr ⟨h, hh, hhx⟩
    have hrest : r.map (fun h => (xs ++ [x]).filter (E h)) = r.map fun h => xs.filter (E h) := by
      refine List.map_congr_left fun a ha => hother a ?_
      have hpair : (firsts E xs).Pairwise fun a b => E a b = false := firsts_apart
      rw [← hsplit] at hpair
      have hha := (List.pairwise_cons.mp (List.pairwise_append.mp hpair).2.1).1 a ha
      by_contra hax
      have hha' : E h a = true := hE.trans hhx (hE.symm (by simpa using hax))
      rw [hha] at hha'
      cases hha'
    have hown : (xs ++ [x]).filter (E h) = xs.filter (E h) ++ [x] := by
      rw [List.filter_append, List.filter_cons_of_pos hhx, List.filter_nil]
    have htakes : takes fits x (xs.filter (E h)) = true := (takes_class hE hh).trans (hfits h x hhx)
    rw [if_pos hany]
    conv_lhs => rw [← hsplit]
    conv_rhs => rw [← hsplit]
    rw [List.map_append, List.map_append, List.map_cons, List.map_cons, place_of_first htakes _ hclear, hfront, hrest,
      hown]

/-- **The buckets of an equivalence** are its classes. -/
theorem buckets_eq (xs : List α) : buckets E xs = (firsts E xs).map fun h => xs.filter (E h) := by
  induction xs using List.reverseRecOn with
  | nil => rfl
  | append_singleton xs x ih =>
    rw [buckets_concat, ih]
    refine place_classes hE (fun _ _ h => h) fun h hh => ?_
    simpa using List.mem_takeWhile_imp hh

omit hE in
theorem takeWhile_of_stop {p : α → Bool} {l : List α} (h : ∃ a ∈ l, p a = false) (r : List α) :
    (l ++ r).takeWhile p = l.takeWhile p := by
  have hall : ¬ ∀ a ∈ l, p a = true := fun hall => by
    obtain ⟨a, ha, hpa⟩ := h
    rw [hall a ha] at hpa
    cases hpa
  have hne : l.dropWhile p ≠ [] := fun hnil => hall (List.dropWhile_eq_nil_iff.mp hnil)
  obtain ⟨c, t, hct⟩ := List.exists_cons_of_ne_nil hne
  have hc : p c = false := by
    have hhead := List.head?_dropWhile_not p l
    rw [hct] at hhead
    simpa using hhead
  have hsplit := List.takeWhile_append_dropWhile (p := p) (l := l)
  rw [hct] at hsplit
  conv_lhs => rw [← hsplit]
  rw [List.append_assoc, List.takeWhile_append_of_pos fun a ha => List.mem_takeWhile_imp ha, List.cons_append,
    List.takeWhile_cons_of_neg (by simp [hc]), List.append_nil]

omit hE in
theorem firsts_prefix (xs : List α) (x : α) : ∃ r, firsts E (xs ++ [x]) = firsts E xs ++ r := by
  rw [firsts_concat]
  by_cases hany : ((firsts E xs).any fun h => E h x) = true
  · rw [if_pos hany]
    exact ⟨[], (List.append_nil _).symm⟩
  · rw [if_neg hany]
    exact ⟨[x], rfl⟩

/-- The classes that begin before the one of the last element. -/
theorem takeWhile_firsts_concat (xs : List α) (x : α) :
    ((firsts E (xs ++ [x])).takeWhile fun h => !E h x) = (firsts E xs).takeWhile fun h => !E h x := by
  rw [firsts_concat]
  by_cases hany : ((firsts E xs).any fun h => E h x) = true
  · rw [if_pos hany]
  · have hall : ∀ h ∈ firsts E xs, (!E h x) = true := by
      intro h hh
      have hno := List.any_eq_false.mp (Bool.eq_false_iff.mpr hany) h hh
      simpa using hno
    have hself : List.takeWhile (fun h => !E h x) [x] = [] :=
      List.takeWhile_cons_of_neg (by simp [hE.refl x])
    have hwhole : (firsts E xs).takeWhile (fun h => !E h x) = firsts E xs :=
      List.takeWhile_eq_self_iff.mpr hall
    rw [if_neg hany, List.takeWhile_append_of_pos hall, hself, List.append_nil, hwhole]

theorem apart_concat (xs : List α) (x : α) : Apart fits E (xs ++ [x]) ↔
    Apart fits E xs ∧ ∀ h ∈ (firsts E xs).takeWhile fun h => !E h x, fits h x = false := by
  have hold : ∀ y ∈ xs, ((firsts E (xs ++ [x])).takeWhile fun h => !E h y) =
      (firsts E xs).takeWhile fun h => !E h y := by
    intro y hy
    obtain ⟨r, hr⟩ := firsts_prefix (E := E) xs x
    obtain ⟨h, hh, hhy⟩ := exists_first hE hy
    rw [hr]
    exact takeWhile_of_stop ⟨h, hh, by simp [hhy]⟩ r
  constructor
  · intro h
    constructor
    · intro y hy
      have hy' := h y (List.mem_append_left _ hy)
      rwa [hold y hy] at hy'
    · have hx := h x (List.mem_append_right _ (List.mem_singleton_self x))
      rwa [takeWhile_firsts_concat hE] at hx
  · rintro ⟨hxs, hx⟩ y hy
    rcases List.mem_append.mp hy with hy | hy
    · rw [hold y hy]
      exact hxs y hy
    · rw [List.mem_singleton.mp hy, takeWhile_firsts_concat hE]
      exact hx

variable (hfits : ∀ h x, E h x = true → fits h x = true)
include hfits

theorem buckets_of_apart (hxs : Apart fits E xs) : buckets fits xs = buckets E xs := by
  rw [buckets_eq hE]
  induction xs using List.reverseRecOn with
  | nil => rfl
  | append_singleton xs x ih =>
    obtain ⟨hxs, hx⟩ := (apart_concat hE xs x).mp hxs
    rw [buckets_concat, ih hxs]
    exact place_classes hE hfits hx

/-- An element that fits the head of an earlier class ends up beside it. -/
theorem mixed_of_not_apart (hxs : ¬ Apart fits E xs) :
    ∃ b ∈ buckets fits xs, ∃ y ∈ b, ∃ z ∈ b, E y z = false := by
  induction xs using List.reverseRecOn with
  | nil => exact absurd (fun x hx => absurd hx List.not_mem_nil) hxs
  | append_singleton xs x ih =>
    rw [buckets_concat]
    by_cases hold : Apart fits E xs
    · have hx : ¬ ∀ h ∈ (firsts E xs).takeWhile fun h => !E h x, fits h x = false := fun hx =>
        hxs ((apart_concat hE xs x).mpr ⟨hold, hx⟩)
      obtain ⟨h, hh, hhx⟩ : ∃ h ∈ (firsts E xs).takeWhile fun h => !E h x, fits h x = true := by
        by_contra hno
        exact hx fun h hh => by
          by_contra hf
          exact hno ⟨h, hh, by simpa using hf⟩
      rw [buckets_of_apart hE hfits hold, buckets_eq hE]
      -- the first head that is fitted is no later than this one, so it is none of its class
      have hsplit := List.takeWhile_append_dropWhile (p := fun h => !fits h x) (l := firsts E xs)
      have hbefore : ∀ a ∈ (firsts E xs).takeWhile fun h => !fits h x, fits a x = false := fun a ha => by
        simpa using List.mem_takeWhile_imp ha
      cases hback : (firsts E xs).dropWhile fun h => !fits h x with
      | nil =>
        rw [hback, List.append_nil] at hsplit
        rw [hsplit] at hbefore
        have hno := hbefore h ((List.takeWhile_prefix _).subset hh)
        rw [hhx] at hno
        cases hno
      | cons h₀ r =>
        rw [hback] at hsplit
        have hmem : h₀ ∈ firsts E xs := by
          rw [← hsplit]
          exact List.mem_append_right _ List.mem_cons_self
        have hfit : fits h₀ x = true := by
          have hhead := List.head?_dropWhile_not (fun h => !fits h x) (firsts E xs)
          rw [hback] at hhead
          simpa using hhead
        have hother : E h₀ x = false := by
          by_contra hown
          have hown : E h₀ x = true := by simpa using hown
          have hstop : ((firsts E xs).takeWhile fun h => !E h x) =
              (firsts E xs).takeWhile fun h => !fits h x := by
            have hnone : ∀ a ∈ (firsts E xs).takeWhile fun h => !fits h x, (!E a x) = true := by
              intro a ha
              by_contra hax
              have hfa := hfits a x (by simpa using hax)
              rw [hbefore a ha] at hfa
              cases hfa
            conv_lhs => rw [← hsplit]
            rw [List.takeWhile_append_of_pos hnone, List.takeWhile_cons_of_neg (by simp [hown]), List.append_nil]
          rw [hstop] at hh
          have hno := hbefore h hh
          rw [hhx] at hno
          cases hno
        have hclear : ∀ b ∈ ((firsts E xs).takeWhile fun h => !fits h x).map fun h => xs.filter (E h),
            takes fits x b = false := by
          intro b hb
          obtain ⟨a, ha, rfl⟩ := List.mem_map.mp hb
          rw [takes_class hE ((List.takeWhile_prefix _).subset ha)]
          exact hbefore a ha
        have htakes : takes fits x (xs.filter (E h₀)) = true := (takes_class hE hmem).trans hfit
        refine ⟨xs.filter (E h₀) ++ [x], ?_, h₀, ?_, x, ?_, hother⟩
        · rw [← hsplit, List.map_append, List.map_cons, place_of_first htakes _ hclear]
          exact List.mem_append_right _ List.mem_cons_self
        · exact List.mem_append_left _ (List.mem_filter.mpr ⟨mem_of_mem_firsts hmem, hE.refl h₀⟩)
        · exact List.mem_append_right _ (List.mem_singleton_self x)
    · obtain ⟨b, hb, y, hy, z, hz, hyz⟩ := ih hold
      obtain ⟨b', hb', hsub⟩ := place_keeps hb
      exact ⟨b', hb', y, hsub hy, z, hsub hz, hyz⟩

/-- **The buckets are the classes** exactly where no element fits the first of a class
that begins before its own. -/
theorem classes_iff :
    (∀ b, b ∈ buckets fits xs ↔ ∃ a ∈ xs, b = xs.filter (E a)) ↔ Apart fits E xs := by
  constructor
  · intro h
    by_contra hno
    obtain ⟨b, hb, y, hy, z, hz, hyz⟩ := mixed_of_not_apart hE hfits hno
    obtain ⟨a, -, rfl⟩ := (h b).mp hb
    have hay : E a y = true := (List.mem_filter.mp hy).2
    have haz : E a z = true := (List.mem_filter.mp hz).2
    have hyz' : E y z = true := hE.trans (hE.symm hay) haz
    rw [hyz] at hyz'
    cases hyz'
  · intro h b
    rw [buckets_of_apart hE hfits h, buckets_eq hE, List.mem_map]
    constructor
    · rintro ⟨a, ha, rfl⟩
      exact ⟨a, mem_of_mem_firsts ha, rfl⟩
    · rintro ⟨a, ha, rfl⟩
      obtain ⟨h, hh, hha⟩ := exists_first hE ha
      refine ⟨h, hh, List.filter_congr fun x _ => ?_⟩
      rw [Bool.eq_iff_iff]
      exact ⟨fun hhx => hE.trans (hE.symm hha) hhx, fun hax => hE.trans hha hax⟩

end Classes

end Buckets
