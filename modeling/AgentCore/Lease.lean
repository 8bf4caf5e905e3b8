/-
# Leases on a concurrency slot

`hold_until_settled` and `await_bounded` of `runtime/async_utils.py`. A block holds a
slot; an operation that is abandoned while it still runs holds the slot too, until its
done callback has run. Whoever has the block's context may abandon operations, also after
the block has exited.

The count of a lease is the number of those that hold it: the block, the operations that
have not finished, and those whose callbacks the event loop has still to run (`Shared`).
So the slot is given back once, when the last of them is through (`lease_settles`).

A block exits in the context it was entered in. What the operations come to and the set
of pending cancellations are left out. `tracked` and `releases` are ghosts.

Key definitions: `Lease`, `System`, `step`, `Settles`.
Key theorem: `lease_settles`.
-/
import AgentCore.Lib.Runs
import Mathlib.Data.Int.Notation

namespace AgentCore.Leases

variable {K : Type}

/-- `_Lease`. -/
structure Lease where
  /-- The block itself is the first. -/
  pending : ℤ := 1
  released : Bool := false
  deriving DecidableEq, Repr

structure System (K : Type) where
  lease : Lease := {}
  exited : Bool := false
  /-- The operations that have finished. -/
  done : List K := []
  /-- Done callbacks of operations that have not. -/
  callbacks : List K := []
  /-- Done callbacks that the event loop still has to run. -/
  scheduled : List K := []
  /-- The operations tracked before the release. -/
  tracked : List K := []
  releases : ℕ := 0
  deriving DecidableEq, Repr

inductive Event (K : Type)
  | exit
  /-- The `finally` block of `await_bounded`, in a context of the block. -/
  | abandon (op : K) (hold : Bool)
  | finish (op : K)
  | callback (op : K)
  deriving DecidableEq, Repr

/-- `task.add_done_callback(self.settle)`. -/
def addDoneCallback [DecidableEq K] (s : System K) (op : K) : System K :=
  if op ∈ s.done then { s with scheduled := s.scheduled ++ [op] } else { s with callbacks := s.callbacks ++ [op] }

/-- `_Lease.track`. -/
def track [DecidableEq K] (s : System K) (op : K) : System K :=
  if s.lease.released then s
  else addDoneCallback { s with lease.pending := s.lease.pending + 1, tracked := op :: s.tracked } op

/-- `_Lease.settle`. -/
def settle (s : System K) : System K :=
  let s := { s with lease.pending := s.lease.pending - 1 }
  if s.lease.pending = 0 ∧ s.lease.released = false then
    { s with lease.released := true, releases := s.releases + 1 }
  else s

/-- The end of `await_bounded`: an operation that still runs is cancelled, and tracked. -/
def abandon [DecidableEq K] (s : System K) (op : K) (hold : Bool) : System K :=
  if op ∈ s.done then s else if hold then track s op else s

def step [DecidableEq K] (s : System K) : Event K → Option (System K)
  | .exit => if s.exited then none else some (settle { s with exited := true })
  | .abandon op hold => some (abandon s op hold)
  | .finish op =>
    if op ∈ s.done then none
    else some { s with
      done := op :: s.done
      callbacks := s.callbacks.filter (· ≠ op)
      scheduled := s.scheduled ++ s.callbacks.filter (· = op) }
  | .callback op =>
    if op ∈ s.scheduled then some (settle { s with scheduled := s.scheduled.erase op }) else none

/-! ### What is claimed -/

/-- **The slot is given back exactly once**, when all is settled: never more than once;
not before the block has exited and every operation tracked till then has finished; and
once they have, and the callbacks have run, it has been. -/
structure Settles (s : System K) : Prop where
  at_most_once : s.releases ≤ 1
  after_all : s.releases ≠ 0 → s.exited = true ∧ ∀ op ∈ s.tracked, op ∈ s.done
  once : s.exited = true → (∀ op ∈ s.tracked, op ∈ s.done) → s.scheduled = [] → s.releases = 1

/-! ### The count -/

/-- The lease counts those that hold the slot. -/
structure Shared (s : System K) : Prop where
  pending : s.lease.pending = (if s.exited then 0 else 1) + s.callbacks.length + s.scheduled.length
  released : s.lease.released = true ↔ s.lease.pending = 0
  releases : s.releases = if s.lease.released then 1 else 0
  running : ∀ op ∈ s.callbacks, op ∈ s.tracked ∧ op ∉ s.done
  tracked : ∀ op ∈ s.tracked, op ∈ s.done ∨ op ∈ s.callbacks

theorem start_shared : Shared ({} : System K) where
  pending := rfl
  released := by simp
  releases := rfl
  running := by simp
  tracked := by simp

variable {s s' : System K}

/-- One of those that hold the slot gives it up. -/
theorem settle_shared (hpending : s.lease.pending - 1 = (if s.exited then 0 else 1) + s.callbacks.length + s.scheduled.length)
    (hreleased : s.lease.released = true ↔ s.lease.pending = 0)
    (hreleases : s.releases = if s.lease.released then 1 else 0)
    (hrunning : ∀ op ∈ s.callbacks, op ∈ s.tracked ∧ op ∉ s.done)
    (htracked : ∀ op ∈ s.tracked, op ∈ s.done ∨ op ∈ s.callbacks) : Shared (settle s) := by
  -- the one that gives it up was counted
  have hpos : 0 < s.lease.pending := by
    have hblock : (0 : ℤ) ≤ if s.exited then 0 else 1 := by split <;> omega
    omega
  have hopen : s.lease.released = false := by
    by_contra hreleased'
    have hzero : s.lease.pending = 0 := hreleased.mp (by simpa using hreleased')
    omega
  unfold settle
  dsimp only
  by_cases hlast : s.lease.pending - 1 = 0
  · rw [if_pos ⟨hlast, hopen⟩]
    refine ⟨hpending, iff_of_true rfl hlast, ?_, hrunning, htracked⟩
    show s.releases + 1 = 1
    rw [hreleases, hopen]
    rfl
  · rw [if_neg fun h => hlast h.1]
    refine ⟨hpending, ?_, hreleases, hrunning, htracked⟩
    rw [hopen]
    exact iff_of_false Bool.false_ne_true hlast

theorem track_shared [DecidableEq K] (h : Shared s) {op : K} (hop : op ∉ s.done) : Shared (track s op) := by
  unfold track
  by_cases hreleased : s.lease.released = true
  · rw [if_pos hreleased]
    exact h
  · have hpos : s.lease.pending ≠ 0 := fun hzero => hreleased (h.released.mpr hzero)
    have hpending := h.pending
    have hblock : (0 : ℤ) ≤ if s.exited then 0 else 1 := by split <;> omega
    rw [if_neg hreleased, addDoneCallback]
    dsimp only
    rw [if_neg hop]
    refine ⟨?_, ?_, h.releases, ?_, ?_⟩
    · show s.lease.pending + 1 = (if s.exited then 0 else 1) + (s.callbacks ++ [op]).length + s.scheduled.length
      rw [List.length_append, List.length_singleton]
      push_cast
      omega
    · refine iff_of_false hreleased ?_
      show s.lease.pending + 1 ≠ 0
      omega
    · intro x hx
      rcases List.mem_append.mp hx with hx | hx
      · exact ⟨List.mem_cons_of_mem _ (h.running x hx).1, (h.running x hx).2⟩
      · rw [List.mem_singleton.mp hx]
        exact ⟨List.mem_cons_self, hop⟩
    · intro x hx
      rcases List.mem_cons.mp hx with rfl | hx
      · exact .inr (List.mem_append_right _ List.mem_cons_self)
      · exact (h.tracked x hx).imp_right (List.mem_append_left _)

theorem finish_shared [DecidableEq K] (h : Shared s) (op : K) : Shared { s with
    done := op :: s.done
    callbacks := s.callbacks.filter (· ≠ op)
    scheduled := s.scheduled ++ s.callbacks.filter (· = op) } := by
  have hsplit : (s.callbacks.filter (· = op)).length + (s.callbacks.filter (· ≠ op)).length = s.callbacks.length := by
    have hlength := List.length_eq_length_filter_add (l := s.callbacks) (fun x => decide (x = op))
    simp only [decide_not]
    exact hlength.symm
  refine ⟨?_, h.released, h.releases, ?_, ?_⟩
  · show s.lease.pending = (if s.exited then 0 else 1) + (s.callbacks.filter (· ≠ op)).length +
      (s.scheduled ++ s.callbacks.filter (· = op)).length
    rw [h.pending, List.length_append]
    omega
  · intro x hx
    obtain ⟨hx, hne⟩ := List.mem_filter.mp hx
    refine ⟨(h.running x hx).1, ?_⟩
    rw [List.mem_cons, not_or]
    exact ⟨by simpa using hne, (h.running x hx).2⟩
  · intro x hx
    by_cases hop : x = op
    · exact .inl (hop ▸ List.mem_cons_self)
    · exact (h.tracked x hx).imp (List.mem_cons_of_mem _) fun hx => List.mem_filter.mpr ⟨hx, by simpa using hop⟩

theorem step_shared [DecidableEq K] (h : Shared s) {e : Event K} (hstep : step s e = some s') : Shared s' := by
  cases e with
  | exit =>
    obtain ⟨hexited, heq⟩ := Option.ite_none_left_eq_some.mp hstep
    obtain rfl := Option.some.inj heq
    refine settle_shared ?_ h.released h.releases h.running h.tracked
    have hpending := h.pending
    rw [if_neg hexited] at hpending
    show s.lease.pending - 1 = 0 + s.callbacks.length + s.scheduled.length
    omega
  | abandon op hold =>
    obtain rfl := Option.some.inj hstep
    unfold abandon
    by_cases hop : op ∈ s.done
    · rw [if_pos hop]
      exact h
    · rw [if_neg hop]
      by_cases hhold : hold = true
      · rw [if_pos hhold]
        exact track_shared h hop
      · rw [if_neg hhold]
        exact h
  | finish op =>
    obtain ⟨-, heq⟩ := Option.ite_none_left_eq_some.mp hstep
    obtain rfl := Option.some.inj heq
    exact finish_shared h op
  | callback op =>
    obtain ⟨hop, heq⟩ := Option.ite_none_right_eq_some.mp hstep
    obtain rfl := Option.some.inj heq
    refine settle_shared ?_ h.released h.releases h.running h.tracked
    have hpending := h.pending
    have hlength := List.length_erase_of_mem hop
    have hpos : 0 < s.scheduled.length := List.length_pos_of_mem hop
    show s.lease.pending - 1 = (if s.exited then 0 else 1) + s.callbacks.length + (s.scheduled.erase op).length
    omega

theorem Shared.settles (h : Shared s) : Settles s := by
  have hblock : (0 : ℤ) ≤ if s.exited then 0 else 1 := by split <;> omega
  have hpending := h.pending
  refine ⟨?_, ?_, ?_⟩
  · rw [h.releases]
    split <;> omega
  · intro hreleases
    have hreleased : s.lease.released = true := by
      by_contra hopen
      rw [h.releases, if_neg hopen] at hreleases
      exact hreleases rfl
    rw [h.released.mp hreleased] at hpending
    have hcallbacks : s.callbacks = [] := List.eq_nil_of_length_eq_zero (by omega)
    have hexited : s.exited = true := by
      by_contra hin
      rw [if_neg hin] at hpending
      omega
    refine ⟨hexited, fun op hop => (h.tracked op hop).resolve_right ?_⟩
    rw [hcallbacks]
    exact List.not_mem_nil
  · intro hexited hdone hscheduled
    have hcallbacks : s.callbacks = [] := by
      rw [List.eq_nil_iff_forall_not_mem]
      intro op hop
      exact (h.running op hop).2 (hdone op (h.running op hop).1)
    rw [hexited, hcallbacks, hscheduled] at hpending
    have hreleased : s.lease.released = true := h.released.mpr (by simpa using hpending)
    rw [h.releases, if_pos hreleased]

/-- **A lease settles** in every order of exits, abandoned operations and their ends. -/
theorem lease_settles [DecidableEq K] {es : List (Event K)} (hrun : Runs.run step {} es = some s) : Settles s := by
  have hshared : Shared s := Runs.Trace.invariant (I := fun _ s => Shared s) start_shared
    (fun _ _ _ _ h _ hstep => step_shared h hstep) (Runs.Trace.of_run_any hrun)
  exact hshared.settles

/-- What a request abandoned in the block and another one after its exit come to. -/
def twoRequests : System ℕ where
  lease := ⟨0, true⟩
  exited := true
  done := [2, 1]
  tracked := [2, 1]
  releases := 1

theorem twoRequests_settles : Settles twoRequests := by
  have hrun : Runs.run step ({} : System ℕ) [.abandon 1 true, .exit, .abandon 2 true, .finish 1, .callback 1, .finish 2,
      .callback 2, .abandon 3 true] = some twoRequests := by decide +kernel
  exact lease_settles hrun

end AgentCore.Leases
