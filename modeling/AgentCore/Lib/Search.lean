/-
# Breadth-first search

A queue of names to expand and the list of those expanded: a name is taken from
the head of the queue, skipped if it was expanded before, and else expanded, its
successors that were not expanded going to the end of the queue. A budget that
pays for the successors of every name once is enough for the queue to run empty,
and then the search has found exactly what can be reached (`mem_search_iff`).

Key definitions: `Search.search`, `Search.Pays`.
Key theorem: `Search.mem_search_iff`.
-/
import Mathlib.Data.List.Basic
import Mathlib.Logic.Relation

namespace Search

variable {α : Type} [DecidableEq α] (succ : α → List α)

/-- At most `n` names are taken from the queue. -/
def search : ℕ → List α → List α → List α
  | 0, visited, _ => visited
  | _, visited, [] => visited
  | n + 1, visited, x :: queue =>
    if x ∈ visited then search n visited queue
    else search n (visited ++ [x]) (queue ++ (succ x).filter (· ∉ visited ++ [x]))

/-- `x` leads to `y` in one step. -/
def Leads (x y : α) : Prop := y ∈ succ x

/-- What is set aside for the names not expanded yet pays for the successors of
each of them. -/
def Pays (budget : List α → ℕ) : Prop :=
  ∀ visited x, x ∉ visited → (succ x).length + budget (visited ++ [x]) ≤ budget visited

variable {succ}

/-- Nothing is found but what the names of the queue lead to. -/
theorem reachable_of_mem_search : ∀ (n : ℕ) {visited queue : List α} {x : α}, x ∈ search succ n visited queue →
    x ∈ visited ∨ ∃ y ∈ queue, Relation.ReflTransGen (Leads succ) y x
  | 0, _, _, _, h => .inl h
  | _ + 1, _, [], _, h => .inl h
  | n + 1, visited, y :: queue, x, h => by
    rw [search] at h
    split at h
    · rcases reachable_of_mem_search n h with hv | ⟨z, hz, hr⟩
      · exact .inl hv
      · exact .inr ⟨z, List.mem_cons_of_mem _ hz, hr⟩
    · rcases reachable_of_mem_search n h with hv | ⟨z, hz, hr⟩
      · rcases List.mem_append.mp hv with hv | hv
        · exact .inl hv
        · rw [List.mem_singleton.mp hv]
          exact .inr ⟨y, List.mem_cons_self, .refl⟩
      · rcases List.mem_append.mp hz with hz | hz
        · exact .inr ⟨z, List.mem_cons_of_mem _ hz, hr⟩
        · have hlead : Leads succ y z := (List.mem_filter.mp hz).1
          exact .inr ⟨y, List.mem_cons_self, .head hlead hr⟩

/-- What the names expanded lead to is expanded, or waits in the queue. -/
def Closed (succ : α → List α) (visited queue : List α) : Prop :=
  ∀ x ∈ visited, ∀ y ∈ succ x, y ∈ visited ∨ y ∈ queue

omit [DecidableEq α] in
theorem Closed.skip {visited queue : List α} {x : α} (h : Closed succ visited (x :: queue)) (hx : x ∈ visited) :
    Closed succ visited queue := by
  intro z hz y hy
  rcases h z hz y hy with hv | hq
  · exact .inl hv
  · rcases List.mem_cons.mp hq with rfl | hq
    · exact .inl hx
    · exact .inr hq

theorem Closed.expand {visited queue : List α} {x : α} (h : Closed succ visited (x :: queue)) :
    Closed succ (visited ++ [x]) (queue ++ (succ x).filter (· ∉ visited ++ [x])) := by
  have hself : x ∈ visited ++ [x] := List.mem_append_right _ (List.mem_singleton_self x)
  intro z hz y hy
  rcases List.mem_append.mp hz with hz | hz
  · rcases h z hz y hy with hv | hq
    · exact .inl (List.mem_append_left _ hv)
    · rcases List.mem_cons.mp hq with rfl | hq
      · exact .inl hself
      · exact .inr (List.mem_append_left _ hq)
  · rw [List.mem_singleton.mp hz] at hy
    by_cases hv : y ∈ visited ++ [x]
    · exact .inl hv
    · exact .inr (List.mem_append_right _ (List.mem_filter.mpr ⟨hy, by simpa using hv⟩))

/-- With the budget there, the search finds all that was expanded or queued, and
what it finds leads to nothing else. -/
theorem search_closed {budget : List α → ℕ} (hpays : Pays succ budget) :
    ∀ (n : ℕ) {visited queue : List α}, queue.length + budget visited ≤ n → Closed succ visited queue →
      (∀ x, x ∈ visited ∨ x ∈ queue → x ∈ search succ n visited queue) ∧
        ∀ x ∈ search succ n visited queue, ∀ y ∈ succ x, y ∈ search succ n visited queue
  | 0, visited, queue, hn, hc => by
    have hq : queue = [] := List.eq_nil_of_length_eq_zero (by omega)
    subst hq
    refine ⟨fun x hx => ?_, fun x hx y hy => ?_⟩
    · exact hx.resolve_right List.not_mem_nil
    · exact (hc x hx y hy).resolve_right List.not_mem_nil
  | n + 1, visited, [], _, hc => by
    refine ⟨fun x hx => ?_, fun x hx y hy => ?_⟩
    · exact hx.resolve_right List.not_mem_nil
    · exact (hc x hx y hy).resolve_right List.not_mem_nil
  | n + 1, visited, y :: queue, hn, hc => by
    rw [search]
    rw [List.length_cons] at hn
    split
    · next hy =>
      obtain ⟨hall, hclosed⟩ := search_closed hpays n (by omega) (hc.skip hy)
      refine ⟨fun x hx => hall x ?_, hclosed⟩
      rcases hx with hx | hx
      · exact .inl hx
      · rcases List.mem_cons.mp hx with rfl | hx
        · exact .inl hy
        · exact .inr hx
    · next hy =>
      have hfew : ((succ y).filter (· ∉ visited ++ [y])).length ≤ (succ y).length := List.length_filter_le _ _
      have hpay := hpays visited y hy
      have hn' : (queue ++ (succ y).filter (· ∉ visited ++ [y])).length + budget (visited ++ [y]) ≤ n := by
        rw [List.length_append]
        omega
      obtain ⟨hall, hclosed⟩ := search_closed hpays n hn' hc.expand
      refine ⟨fun x hx => hall x ?_, hclosed⟩
      rcases hx with hx | hx
      · exact .inl (List.mem_append_left _ hx)
      · rcases List.mem_cons.mp hx with rfl | hx
        · exact .inl (List.mem_append_right _ (List.mem_singleton_self _))
        · exact .inr (List.mem_append_left _ hx)

/-- **The search finds what can be reached**, and nothing else. -/
theorem mem_search_iff {budget : List α → ℕ} (hpays : Pays succ budget) {n : ℕ} (hn : 1 + budget [] ≤ n)
    {start x : α} : x ∈ search succ n [] [start] ↔ Relation.ReflTransGen (Leads succ) start x := by
  have hnew : Closed succ [] [start] := fun x hx => absurd hx List.not_mem_nil
  have hpaid : [start].length + budget [] ≤ n := hn
  obtain ⟨hall, hclosed⟩ := search_closed hpays n hpaid hnew
  constructor
  · intro h
    rcases reachable_of_mem_search n h with hv | ⟨y, hy, hr⟩
    · exact absurd hv List.not_mem_nil
    · rwa [List.mem_singleton.mp hy] at hr
  · intro h
    induction h with
    | refl => exact hall start (.inr (List.mem_singleton_self start))
    | tail _ hlead ih => exact hclosed _ ih _ hlead

end Search
