/-
# Regular expressions

The syntax of regular expressions over symbols, with places (`^`, `\b`, a look
behind or ahead of one symbol) that are told apart by the symbols on either side,
and the engine that backtracks: `ends` lists where a match from a place can end,
the preferred end first. A repetition takes as much as it can, and a round of it
that reads nothing is not taken.

Key definitions: `Regex`, `Regex.ends`, `Regex.search`, `Regex.captured`, `Regex.findAll`.
Key theorems: `Regex.ends_reads`, `Regex.exists_of_mem_findAll`.
-/
import Mathlib.Data.List.Basic

/-- A place in a text: the symbols in front of it, the nearest one first, and those
behind it. -/
structure Place (α : Type) where
  past : List α
  rest : List α
  deriving DecidableEq, Repr

inductive Regex (α : Type)
  | empty
  | one (p : α → Bool)
  | place (p : Option α → Option α → Bool)
  | seq (r s : Regex α)
  | alt (r s : Regex α)
  | many (r : Regex α)

namespace Regex

variable {α : Type}

/-- What `round` leads to, as often as it can, `n` rounds at most. -/
def repeats (round : Place α → List (Place α)) : ℕ → Place α → List (Place α)
  | 0, q => [q]
  | n + 1, q =>
    ((round q).filter fun q' => q'.rest.length < q.rest.length).flatMap (repeats round n) ++ [q]

/-- Where a match from a place can end. -/
def ends : Regex α → Place α → List (Place α)
  | empty, q => [q]
  | one _, ⟨_, []⟩ => []
  | one p, ⟨past, c :: rest⟩ => if p c then [⟨c :: past, rest⟩] else []
  | place p, q => if p q.past.head? q.rest.head? then [q] else []
  | seq r s, q => (r.ends q).flatMap s.ends
  | alt r s, q => r.ends q ++ s.ends q
  | many r, q => repeats r.ends q.rest.length q

/-- `re.search` in the text behind `past`, as a test. -/
def searchFrom (r : Regex α) : List α → List α → Bool
  | past, [] => !(r.ends ⟨past, []⟩).isEmpty
  | past, c :: t => !(r.ends ⟨past, c :: t⟩).isEmpty || searchFrom r (c :: past) t

def search (r : Regex α) (t : List α) : Bool := r.searchFrom [] t

/-- One test for each symbol. -/
def tests : List (α → Bool) → Regex α
  | [] => empty
  | p :: ps => seq (one p) (tests ps)

def anyOf : List (Regex α) → Regex α
  | [] => place fun _ _ => false
  | r :: rs => alt r (anyOf rs)

def opt (r : Regex α) : Regex α := alt r empty

def many1 (r : Regex α) : Regex α := seq r (many r)

def exactly : ℕ → Regex α → Regex α
  | 0, _ => empty
  | n + 1, r => seq r (exactly n r)

def upTo : ℕ → Regex α → Regex α
  | 0, _ => empty
  | n + 1, r => opt (seq r (upTo n r))

/-! ### Groups -/

/-- The text from one place to a later one. -/
def between (q q' : Place α) : List α := q.rest.take (q.rest.length - q'.rest.length)

/-- The preferred match of three parts: what the middle one reads, and where the match
ends. -/
def captured (front group back : Regex α) (q : Place α) : Option (List α × Place α) :=
  ((front.ends q).flatMap fun a => (group.ends a).flatMap fun b =>
    (back.ends b).map fun c => (between a b, c)).head?

variable {γ : Type}

/-- The matches in the text behind `past`, none of which is empty; `skip` symbols of a
match are still to be passed. -/
def findAllFrom (at? : Place α → Option (γ × Place α)) : ℕ → List α → List α → List γ
  | _, _, [] => []
  | skip + 1, past, c :: t => findAllFrom at? skip (c :: past) t
  | 0, past, c :: t =>
    match at? ⟨past, c :: t⟩ with
    | some (g, q) => g :: findAllFrom at? (t.length - q.rest.length) (c :: past) t
    | none => findAllFrom at? 0 (c :: past) t

/-- `re.findall`. -/
def findAll (at? : Place α → Option (γ × Place α)) (t : List α) : List γ := findAllFrom at? 0 [] t

/-- Every match is one at a place of the text. -/
theorem exists_of_mem_findAllFrom {at? : Place α → Option (γ × Place α)} {g : γ} :
    ∀ {skip : ℕ} {past t : List α}, g ∈ findAllFrom at? skip past t →
      ∃ q q', at? q = some (g, q') ∧ q.past.reverse ++ q.rest = past.reverse ++ t
  | _, _, [], h => absurd h List.not_mem_nil
  | skip + 1, past, c :: t, h => by
    rw [findAllFrom] at h
    obtain ⟨q, q', hq, htext⟩ := exists_of_mem_findAllFrom h
    exact ⟨q, q', hq, by rw [htext, List.reverse_cons, List.append_assoc, List.singleton_append]⟩
  | 0, past, c :: t, h => by
    have hnext : ∀ {skip : ℕ}, g ∈ findAllFrom at? skip (c :: past) t →
        ∃ q q', at? q = some (g, q') ∧ q.past.reverse ++ q.rest = past.reverse ++ c :: t := by
      intro skip h
      obtain ⟨q, q', hq, htext⟩ := exists_of_mem_findAllFrom h
      exact ⟨q, q', hq, by rw [htext, List.reverse_cons, List.append_assoc, List.singleton_append]⟩
    rw [findAllFrom] at h
    cases hat : at? ⟨past, c :: t⟩ with
    | none =>
      rw [hat] at h
      exact hnext h
    | some found =>
      obtain ⟨g', q'⟩ := found
      rw [hat] at h
      rcases List.mem_cons.mp h with rfl | h
      · exact ⟨_, q', hat, rfl⟩
      · exact hnext h

theorem exists_of_mem_findAll {at? : Place α → Option (γ × Place α)} {g : γ} {t : List α}
    (h : g ∈ findAll at? t) : ∃ q q', at? q = some (g, q') ∧ q.past.reverse ++ q.rest = t :=
  exists_of_mem_findAllFrom h

/-! ### Where a match ends -/

variable {r s : Regex α} {a b c : Place α}

theorem mem_ends_seq (hr : b ∈ r.ends a) (hs : c ∈ s.ends b) : c ∈ (seq r s).ends a :=
  List.mem_flatMap.mpr ⟨b, hr, hs⟩

theorem mem_ends_left (h : b ∈ r.ends a) : b ∈ (alt r s).ends a := List.mem_append_left _ h

theorem mem_ends_right (h : b ∈ s.ends a) : b ∈ (alt r s).ends a := List.mem_append_right _ h

theorem of_mem_ends_one {p : α → Bool} : ∀ {a : Place α}, b ∈ (one p).ends a →
    ∃ x t, a.rest = x :: t ∧ p x = true ∧ b = ⟨x :: a.past, t⟩
  | ⟨past, []⟩, h => absurd h List.not_mem_nil
  | ⟨past, x :: t⟩, h => by
    have h : b ∈ if p x then [(⟨x :: past, t⟩ : Place α)] else [] := h
    by_cases hp : p x = true
    · rw [if_pos hp] at h
      exact ⟨x, t, rfl, hp, List.mem_singleton.mp h⟩
    · rw [if_neg hp] at h
      exact absurd h List.not_mem_nil

theorem of_mem_ends_place {p : Option α → Option α → Bool} (h : b ∈ (place p).ends a) :
    p a.past.head? a.rest.head? = true ∧ b = a := by
  have h : b ∈ if p a.past.head? a.rest.head? then [a] else [] := h
  by_cases hp : p a.past.head? a.rest.head? = true
  · rw [if_pos hp] at h
    exact ⟨hp, List.mem_singleton.mp h⟩
  · rw [if_neg hp] at h
    exact absurd h List.not_mem_nil

/-- A repetition can read nothing. -/
theorem mem_ends_many (r : Regex α) (a : Place α) : a ∈ (many r).ends a := by
  show a ∈ repeats r.ends a.rest.length a
  cases a.rest.length with
  | zero => exact List.mem_singleton_self a
  | succ n => exact List.mem_append_right _ (List.mem_singleton_self a)

theorem mem_ends_anyOf : ∀ {rs : List (Regex α)}, r ∈ rs → b ∈ r.ends a → b ∈ (anyOf rs).ends a
  | r' :: rs, hr, h => by
    rcases List.mem_cons.mp hr with rfl | hr
    · exact mem_ends_left h
    · exact mem_ends_right (mem_ends_anyOf hr h)

/-- A text whose symbols pass the tests one by one is read by them. -/
theorem mem_ends_tests : ∀ (ps : List (α → Bool)) (w past rest : List α), ps.length = w.length →
    (List.zipWith (fun p x => p x) ps w).all id = true →
      (⟨w.reverse ++ past, rest⟩ : Place α) ∈ (tests ps).ends ⟨past, w ++ rest⟩
  | [], [], _, _, _, _ => List.mem_singleton_self _
  | p :: ps, x :: w, past, rest, hlen, hall => by
    rw [List.zipWith_cons_cons, List.all_cons, Bool.and_eq_true] at hall
    obtain ⟨hp, hall⟩ := hall
    have hone : (⟨x :: past, w ++ rest⟩ : Place α) ∈ (one p).ends ⟨past, x :: (w ++ rest)⟩ := by
      have hp : p x = true := hp
      show _ ∈ if p x then _ else _
      rw [if_pos hp]
      exact List.mem_singleton_self _
    have hrest := mem_ends_tests ps w (x :: past) rest (Nat.succ.inj hlen) hall
    rw [List.reverse_cons, List.append_assoc, List.singleton_append]
    exact mem_ends_seq hone hrest

/-- A match at the start of a text. -/
theorem search_of_ends {t : List α} (h : b ∈ r.ends ⟨[], t⟩) : r.search t = true := by
  have hne : r.ends ⟨[], t⟩ ≠ [] := List.ne_nil_of_mem h
  unfold search
  cases t with
  | nil => simpa [searchFrom] using hne
  | cons c t =>
    rw [searchFrom, Bool.or_eq_true]
    exact .inl (by simpa using hne)

/-! ### What a match reads -/

/-- Some test of the expression accepts the symbol. -/
def reads : Regex α → α → Bool
  | empty, _ => false
  | one p, c => p c
  | place _, _ => false
  | seq r s, c => r.reads c || s.reads c
  | alt r s, c => r.reads c || s.reads c
  | many r, c => r.reads c

/-- `b` is behind `a`, and all symbols from one to the other are accepted. -/
def Reads (p : α → Bool) (a b : Place α) : Prop :=
  ∃ w, a.rest = w ++ b.rest ∧ b.past = w.reverse ++ a.past ∧ ∀ c ∈ w, p c = true

theorem Reads.refl (p : α → Bool) (a : Place α) : Reads p a a := ⟨[], rfl, rfl, fun _ h => absurd h List.not_mem_nil⟩

theorem Reads.trans {p : α → Bool} (hab : Reads p a b) (hbc : Reads p b c) : Reads p a c := by
  obtain ⟨w, hrest, hpast, hw⟩ := hab
  obtain ⟨v, hrest', hpast', hv⟩ := hbc
  refine ⟨w ++ v, ?_, ?_, fun x hx => ?_⟩
  · rw [hrest, hrest', List.append_assoc]
  · rw [hpast', hpast, List.reverse_append, List.append_assoc]
  · rcases List.mem_append.mp hx with hx | hx
    · exact hw x hx
    · exact hv x hx

theorem Reads.imp {p p' : α → Bool} (h : Reads p a b) (hp : ∀ c, p c = true → p' c = true) : Reads p' a b := by
  obtain ⟨w, hrest, hpast, hw⟩ := h
  exact ⟨w, hrest, hpast, fun c hc => hp c (hw c hc)⟩

theorem Reads.between {p : α → Bool} (h : Reads p a b) : ∀ c ∈ between a b, p c = true := by
  obtain ⟨w, hrest, -, hw⟩ := h
  have hlen : a.rest.length - b.rest.length = w.length := by
    rw [hrest, List.length_append, Nat.add_sub_cancel]
  unfold Regex.between
  rw [hlen, hrest, List.take_left]
  exact hw

theorem repeats_reads {round : Place α → List (Place α)} {p : α → Bool}
    (hround : ∀ a b, b ∈ round a → Reads p a b) :
    ∀ (n : ℕ) {a b : Place α}, b ∈ repeats round n a → Reads p a b
  | 0, a, b, h => by
    rw [List.mem_singleton.mp h]
    exact Reads.refl p a
  | n + 1, a, b, h => by
    rcases List.mem_append.mp h with h | h
    · obtain ⟨c, hc, hb⟩ := List.mem_flatMap.mp h
      exact (hround a c (List.mem_of_mem_filter hc)).trans (repeats_reads hround n hb)
    · rw [List.mem_singleton.mp h]
      exact Reads.refl p a

/-- **A match** reads symbols that the expression tests for. -/
theorem ends_reads : ∀ (r : Regex α) {a b : Place α}, b ∈ r.ends a → Reads r.reads a b
  | empty, a, b, h => by
    rw [List.mem_singleton.mp h]
    exact Reads.refl _ a
  | one p, a, b, h => by
    obtain ⟨x, t, hrest, hp, rfl⟩ := of_mem_ends_one h
    exact ⟨[x], hrest, rfl, fun c hc => by rw [List.mem_singleton.mp hc]; exact hp⟩
  | place p, a, b, h => by
    rw [(of_mem_ends_place h).2]
    exact Reads.refl _ a
  | seq r s, a, b, h => by
    obtain ⟨c, hc, hb⟩ := List.mem_flatMap.mp h
    have hr : Reads (seq r s).reads a c := (ends_reads r hc).imp fun x hx => by rw [reads, hx, Bool.true_or]
    have hs : Reads (seq r s).reads c b := (ends_reads s hb).imp fun x hx => by rw [reads, hx, Bool.or_true]
    exact hr.trans hs
  | alt r s, a, b, h => by
    rcases List.mem_append.mp h with h | h
    · exact (ends_reads r h).imp fun x hx => by rw [reads, hx, Bool.true_or]
    · exact (ends_reads s h).imp fun x hx => by rw [reads, hx, Bool.or_true]
  | many r, a, b, h => repeats_reads (fun _ _ h => ends_reads r h) _ h

/-- What the middle part of a match reads. -/
theorem captured_reads {front group back : Regex α} {q q' : Place α} {g : List α}
    (h : captured front group back q = some (g, q')) : ∀ c ∈ g, group.reads c = true := by
  obtain ⟨a, -, h⟩ := List.mem_flatMap.mp (List.mem_of_mem_head? h)
  obtain ⟨b, hb, h⟩ := List.mem_flatMap.mp h
  obtain ⟨c, -, heq⟩ := List.mem_map.mp h
  obtain ⟨rfl, -⟩ := Prod.mk.inj heq
  exact (ends_reads group hb).between

end Regex
