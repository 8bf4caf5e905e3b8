/-
# A first-in, first-out semaphore with cancellation

The semaphore of an event loop: a number of free permits and a queue of
waiters. A permit given back is handed to the first waiter that is still
waiting, which resumes with it later; until it has, the permit is neither free
nor taken, and newcomers queue up behind it. A wait that is cancelled before it
is granted only leaves the queue; one cancelled between grant and resumption
gives its permit back. Whoever leaves the queue hands out what is free.

`permits` is what the semaphore accounts for, free permits and granted ones;
every operation changes it by what the caller took or gave back, and waking
changes nothing else about the queue than waiting to granted (`Woken`).

Key definitions: `Semaphore`, `wakeUpAll`, `acquire`, `release`, `cancel`,
`resume`.
Key theorems: `wakeUpAll_permits`, `wakeUpAll_woken`.
-/
import AgentCore.Lib.Keyed
import Mathlib.Data.List.Count
import Mathlib.Data.List.Forall2

/-- Where a wait stands. -/
inductive Wait
  | waiting
  | cancelled
  /-- Handed a permit and not resumed yet; perhaps cancelled since. -/
  | granted (cancelRequested : Bool)
  deriving DecidableEq, Repr

/-- Free permits and waiters in order of arrival. -/
structure Semaphore (α : Type) where
  value : ℕ
  waiters : List (α × Wait) := []
  deriving DecidableEq, Repr

namespace Semaphore

variable {α : Type}

def isGranted : Wait → Bool
  | .granted _ => true
  | _ => false

/-- An acquisition would have to wait: no permit is free, or others come
first. -/
def locked (s : Semaphore α) : Bool := s.value == 0 || s.waiters.any fun w => w.2 != .cancelled

/-- The queue with the first waiter that still waits granted. -/
def wakeFirst : List (α × Wait) → Option (List (α × Wait))
  | [] => none
  | (a, .waiting) :: ws => some ((a, .granted false) :: ws)
  | w :: ws => (wakeFirst ws).map (w :: ·)

/-- Hand out `value` free permits as far as anybody waits. -/
def wakeUpAll : ℕ → List (α × Wait) → Semaphore α
  | 0, ws => ⟨0, ws⟩
  | v + 1, ws =>
    match wakeFirst ws with
    | some ws' => wakeUpAll v ws'
    | none => ⟨v + 1, ws⟩

/-- The semaphore, and whether the permit is taken at once. -/
def acquire (s : Semaphore α) (a : α) : Semaphore α × Bool :=
  if s.locked then (⟨s.value, s.waiters ++ [(a, .waiting)]⟩, false) else (⟨s.value - 1, s.waiters⟩, true)

def release (s : Semaphore α) : Semaphore α :=
  match wakeFirst s.waiters with
  | some ws => ⟨s.value, ws⟩
  | none => ⟨s.value + 1, s.waiters⟩

variable [DecidableEq α]

/-- What cancelling does to one wait. -/
def cancelWait : Wait → Wait
  | .waiting => .cancelled
  | .cancelled => .cancelled
  | .granted _ => .granted true

def cancel (s : Semaphore α) (a : α) : Semaphore α :=
  ⟨s.value, Keyed.update (·.1) (fun w => (w.1, cancelWait w.2)) a s.waiters⟩

/-- The wait of `a` ends: the semaphore, and whether it ends with a permit. A
wait that is neither granted nor cancelled does not end. -/
def resume (s : Semaphore α) (a : α) : Option (Semaphore α × Bool) :=
  let rest := Keyed.pop (·.1) s.waiters a
  (Keyed.get? (·.1) s.waiters a).bind fun w =>
    match w.2 with
    | .waiting => none
    | .cancelled => some (wakeUpAll s.value rest, false)
    | .granted true => some (wakeUpAll (s.value + 1) rest, false)
    | .granted false => some (wakeUpAll s.value rest, true)

/-! ### Waking -/

/-- A wait before and after others were handed permits. -/
def Woken (w w' : α × Wait) : Prop := w' = w ∨ (w.2 = .waiting ∧ w' = (w.1, .granted false))

/-- Permits handed out and not resumed with yet. -/
def grantedCount (ws : List (α × Wait)) : ℕ := ws.countP fun w => isGranted w.2

/-- All the permits the semaphore accounts for. -/
def permits (s : Semaphore α) : ℕ := s.value + grantedCount s.waiters

omit [DecidableEq α] in
theorem wakeFirst_spec : ∀ {ws ws' : List (α × Wait)}, wakeFirst ws = some ws' →
    List.Forall₂ Woken ws ws' ∧ grantedCount ws' = grantedCount ws + 1
  | [], _, h => by simp [wakeFirst] at h
  | (a, .waiting) :: ws, ws', h => by
    rw [wakeFirst, Option.some.injEq] at h
    subst h
    refine ⟨.cons (.inr ⟨rfl, rfl⟩) (List.forall₂_same.mpr fun _ _ => .inl rfl), ?_⟩
    simp [grantedCount, isGranted]
  | (a, .cancelled) :: ws, ws', h => by
    obtain ⟨t, ht, rfl⟩ := Option.map_eq_some_iff.mp h
    obtain ⟨hw, hc⟩ := wakeFirst_spec ht
    refine ⟨.cons (.inl rfl) hw, ?_⟩
    simpa [grantedCount, isGranted] using hc
  | (a, .granted b) :: ws, ws', h => by
    obtain ⟨t, ht, rfl⟩ := Option.map_eq_some_iff.mp h
    obtain ⟨hw, hc⟩ := wakeFirst_spec ht
    refine ⟨.cons (.inl rfl) hw, ?_⟩
    simp only [grantedCount, isGranted, List.countP_cons] at *
    omega

omit [DecidableEq α] in
theorem woken_trans {a b c : List (α × Wait)} (h : List.Forall₂ Woken a b) (h' : List.Forall₂ Woken b c) :
    List.Forall₂ Woken a c := by
  induction h generalizing c with
  | nil => exact h'
  | @cons x y xs ys hxy _ ih =>
    obtain ⟨z, t, hyz, ht, rfl⟩ := List.forall₂_cons_left_iff.mp h'
    refine .cons ?_ (ih ht)
    rcases hxy with rfl | ⟨hx, rfl⟩
    · exact hyz
    · rcases hyz with rfl | ⟨hy, _⟩
      · exact .inr ⟨hx, rfl⟩
      · cases hy

omit [DecidableEq α] in
theorem wakeUpAll_woken : ∀ (v : ℕ) (ws : List (α × Wait)), List.Forall₂ Woken ws (wakeUpAll v ws).waiters
  | 0, ws => List.forall₂_same.mpr fun _ _ => .inl rfl
  | v + 1, ws => by
    unfold wakeUpAll
    split
    · next ws' h => exact woken_trans (wakeFirst_spec h).1 (wakeUpAll_woken v ws')
    · exact List.forall₂_same.mpr fun _ _ => .inl rfl

omit [DecidableEq α] in
theorem wakeUpAll_permits : ∀ (v : ℕ) (ws : List (α × Wait)), permits (wakeUpAll v ws) = v + grantedCount ws
  | 0, ws => rfl
  | v + 1, ws => by
    unfold wakeUpAll
    split
    · next ws' h =>
      rw [wakeUpAll_permits v ws', (wakeFirst_spec h).2]
      omega
    · rfl

omit [DecidableEq α] in
theorem release_spec (s : Semaphore α) :
    List.Forall₂ Woken s.waiters s.release.waiters ∧ permits s.release = permits s + 1 := by
  unfold release
  split
  · next ws h =>
    refine ⟨(wakeFirst_spec h).1, ?_⟩
    simp only [permits, (wakeFirst_spec h).2]
    omega
  · refine ⟨List.forall₂_same.mpr fun _ _ => .inl rfl, ?_⟩
    simp only [permits]
    omega

omit [DecidableEq α] in
/-- Waking grants waits and leaves the rest alone. -/
theorem mem_woken {ws ws' : List (α × Wait)} (h : List.Forall₂ Woken ws ws') {w' : α × Wait} (hw : w' ∈ ws') :
    w' ∈ ws ∨ ((w'.1, .waiting) ∈ ws ∧ w'.2 = .granted false) := by
  induction h with
  | nil => simp at hw
  | @cons x y xs ys hxy _ ih =>
    rcases List.mem_cons.mp hw with rfl | hw
    · rcases hxy with rfl | ⟨hx, rfl⟩
      · exact .inl (List.mem_cons_self ..)
      · refine .inr ⟨?_, rfl⟩
        rw [← hx]
        exact List.mem_cons_self ..
    · exact (ih hw).imp (List.mem_cons_of_mem _) fun h => ⟨List.mem_cons_of_mem _ h.1, h.2⟩

omit [DecidableEq α] in
theorem woken_keys {ws ws' : List (α × Wait)} (h : List.Forall₂ Woken ws ws') :
    ws'.map (·.1) = ws.map (·.1) := by
  induction h with
  | nil => rfl
  | @cons x y _ _ hxy _ ih =>
    have hkey : y.1 = x.1 := by
      rcases hxy with rfl | ⟨_, rfl⟩ <;> rfl
    rw [List.map_cons, List.map_cons, hkey, ih]

omit [DecidableEq α] in
/-- Waking ends no wait and cancels none. -/
theorem woken_pending {ws ws' : List (α × Wait)} (h : List.Forall₂ Woken ws ws') :
    (ws'.filter (·.2 ≠ .cancelled)).map (·.1) = (ws.filter (·.2 ≠ .cancelled)).map (·.1) := by
  induction h with
  | nil => rfl
  | @cons x y xs ys hxy _ ih =>
    rcases hxy with rfl | ⟨hx, rfl⟩
    · by_cases hc : y.2 = .cancelled
      · simpa [hc] using ih
      · simpa [hc] using ih
    · simpa [hx] using ih

/-! ### Operations -/

omit [DecidableEq α] in
/-- A permit that need not be waited for is a free one. -/
theorem acquire_spec (s : Semaphore α) (a : α) :
    (s.acquire a = (⟨s.value, s.waiters ++ [(a, .waiting)]⟩, false)) ∨
      ∃ v, s.value = v + 1 ∧ s.acquire a = (⟨v, s.waiters⟩, true) := by
  unfold acquire
  split
  · exact .inl rfl
  · next h =>
    refine .inr ⟨s.value - 1, ?_, rfl⟩
    have hv : s.value ≠ 0 := by
      intro hv
      simp [locked, hv] at h
    omega

theorem isGranted_cancelWait (w : Wait) : isGranted (cancelWait w) = isGranted w := by
  cases w <;> rfl

theorem cancel_permits (s : Semaphore α) (a : α) : permits (s.cancel a) = permits s := by
  unfold permits cancel grantedCount Keyed.update
  rw [List.countP_map]
  congr 1
  refine List.countP_congr fun w _ => ?_
  simp only [Function.comp_apply]
  split
  · rw [isGranted_cancelWait]
  · rfl

/-- A wait ends: it leaves the queue, others may be woken, and a permit is
taken out of the semaphore just when the wait ends with it. -/
theorem resume_spec {s s' : Semaphore α} {a : α} {taken : Bool} (hk : (s.waiters.map (·.1)).Nodup)
    (h : s.resume a = some (s', taken)) :
    List.Forall₂ Woken (Keyed.pop (·.1) s.waiters a) s'.waiters ∧
      (permits s' + if taken then 1 else 0) = permits s ∧
      (taken = true → (a, .granted false) ∈ s.waiters) := by
  obtain ⟨⟨k, st⟩, hg, h⟩ := Option.bind_eq_some_iff.mp h
  obtain ⟨hmem, rfl⟩ := Keyed.get?_some hg
  have hcount : grantedCount s.waiters =
      grantedCount (Keyed.pop (·.1) s.waiters k) + if isGranted st then 1 else 0 := by
    unfold grantedCount
    rw [(Keyed.perm_cons_pop hk hmem).countP_eq, List.countP_cons]
  have hpermits := fun v => wakeUpAll_permits v (Keyed.pop (·.1) s.waiters k)
  cases st with
  | waiting => cases h
  | cancelled =>
    cases h
    refine ⟨wakeUpAll_woken _ _, ?_, by simp⟩
    rw [hpermits, permits, hcount]
    rfl
  | granted cancelRequested =>
    cases cancelRequested with
    | true =>
      cases h
      refine ⟨wakeUpAll_woken _ _, ?_, by simp⟩
      rw [hpermits, permits, hcount]
      simp [isGranted]
      omega
    | false =>
      cases h
      refine ⟨wakeUpAll_woken _ _, ?_, fun _ => hmem⟩
      rw [hpermits, permits, hcount]
      simp [isGranted]
      omega

end Semaphore
