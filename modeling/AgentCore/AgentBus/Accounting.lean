/-
# What the spawn guard accounts for

Two invariants over every interleaving. The tokens reserved are the sum of the
active jobs' estimates and stay within the budget (`TokenInv`). The permits of
the semaphore and the reservations that own a slot make up all slots, each
granted wait is that of one active job without a slot, and no job waits twice
(`SlotInv`); so free permits and jobs that hold a slot add up, and when nobody
is active every permit is free.

Key definitions: `TokenInv`, `SlotInv`.
Key theorems: `step_tokenInv`, `step_slotInv`, `spawnGuard_accounting`.
-/
import AgentCore.AgentBus.SpawnGuard
import Mathlib.Algebra.BigOperators.Group.List.Basic
import Mathlib.Algebra.Order.BigOperators.Group.List
import Mathlib.Algebra.Ring.Int.Defs
import Mathlib.Algebra.Ring.Nat

namespace AgentCore
namespace AgentBus
namespace SpawnGuard

open Runs Semaphore

theorem checkedIds_append (past : List GuardEvent) (e : GuardEvent) :
    checkedIds (past ++ [e]) = checkedIds past ++ checkedIds [e] :=
  List.filterMap_append ..

theorem mem_checkedIds_append {past : List GuardEvent} {id : String} (h : id ∈ checkedIds past)
    (e : GuardEvent) : id ∈ checkedIds (past ++ [e]) := by
  rw [checkedIds_append]
  exact List.mem_append_left _ h

/-! ### Tokens -/

structure TokenInv (past : List GuardEvent) (g : SpawnGuard) : Prop where
  nodup : (g.active.map (·.jobId)).Nodup
  checked : ∀ r ∈ g.active, r.jobId ∈ checkedIds past
  nonneg : ∀ r ∈ g.active, 0 ≤ r.estimatedTokens
  reserved : g.tokensReserved = (g.active.map (·.estimatedTokens)).sum
  reserved_le : g.tokensReserved ≤ g.maxTokens

theorem TokenInv.mono {past : List GuardEvent} {g : SpawnGuard} (h : TokenInv past g) (e : GuardEvent) :
    TokenInv (past ++ [e]) g :=
  ⟨h.nodup, fun r hr => mem_checkedIds_append (h.checked r hr) e, h.nonneg, h.reserved, h.reserved_le⟩

theorem TokenInv.reserved_nonneg {past : List GuardEvent} {g : SpawnGuard} (h : TokenInv past g) :
    0 ≤ g.tokensReserved := by
  rw [h.reserved]
  refine List.sum_nonneg fun x hx => ?_
  obtain ⟨r, hr, rfl⟩ := List.mem_map.mp hx
  exact h.nonneg r hr

/-- A check that passes adds one reservation of its own. -/
theorem preCheck_ok {g g' : SpawnGuard} {jobId : String} {depth est : ℤ}
    (hfresh : ∀ r ∈ g.active, r.jobId ≠ jobId) (h : g.preCheck jobId depth est = .ok g') :
    (est ≤ 0 ∨ est ≤ g.maxTokens - g.tokensReserved) ∧
      g' = { g with tokensReserved := g.tokensReserved + est, totalSpawns := g.totalSpawns + 1,
                    active := g.active ++ [{ jobId, depth, estimatedTokens := est }] } := by
  unfold preCheck at h
  dsimp only at h
  split_ifs at h with h1 h2
  cases h
  refine ⟨?_, by rw [Keyed.pop_eq_self hfresh]⟩
  rcases not_and_or.mp h2 with h2 | h2
  · exact .inl (by omega)
  · exact .inr (by omega)

theorem preCheck_tokenInv {past : List GuardEvent} {g g' : SpawnGuard} (hI : TokenInv past g) {jobId : String}
    {depth est : ℤ} (hc : Checked past (.preCheck jobId depth est))
    (h : g.preCheck jobId depth est = .ok g') : TokenInv (past ++ [.preCheck jobId depth est]) g' := by
  have hfresh : ∀ r ∈ g.active, r.jobId ≠ jobId := fun r hr heq => hc.1 (heq ▸ hI.checked r hr)
  obtain ⟨hle, rfl⟩ := preCheck_ok hfresh h
  refine ⟨?_, fun r hr => ?_, fun r hr => ?_, ?_, ?_⟩
  · rw [List.map_append, List.nodup_append]
    refine ⟨hI.nodup, List.nodup_singleton _, fun a ha b hb => ?_⟩
    obtain ⟨r, hr, rfl⟩ := List.mem_map.mp ha
    rw [List.mem_singleton.mp hb]
    exact hfresh r hr
  · rcases List.mem_append.mp hr with hr | hr
    · exact mem_checkedIds_append (hI.checked r hr) _
    · rw [List.mem_singleton.mp hr, checkedIds_append]
      exact List.mem_append_right _ (List.mem_singleton_self _)
  · rcases List.mem_append.mp hr with hr | hr
    · exact hI.nonneg r hr
    · rw [List.mem_singleton.mp hr]
      exact hc.2
  · simp [hI.reserved]
  · have := hI.reserved_le
    dsimp only
    omega

theorem enterSlot_ids (g : SpawnGuard) (jobId : String) :
    (g.enterSlot jobId).active.map (·.jobId) = g.active.map (·.jobId) := by
  unfold enterSlot
  exact Keyed.map_key_update (by intro _; rfl) jobId

/-- The reservations with others' slots entered are the same for the tokens. -/
theorem TokenInv.of_active {past : List GuardEvent} {g g' : SpawnGuard} (hI : TokenInv past g)
    (hmax : g'.maxTokens = g.maxTokens) (hres : g'.tokensReserved = g.tokensReserved)
    (hact : g'.active = g.active ∨ ∃ jobId, g'.active = (g.enterSlot jobId).active) : TokenInv past g' := by
  rcases hact with hact | ⟨jobId, hact⟩
  · exact ⟨hact ▸ hI.nodup, hact ▸ hI.checked, hact ▸ hI.nonneg, by rw [hres, hact, hI.reserved],
      by rw [hres, hmax]; exact hI.reserved_le⟩
  · have hids : g'.active.map (·.jobId) = g.active.map (·.jobId) := by
      rw [hact]
      exact enterSlot_ids g jobId
    have hest : g'.active.map (·.estimatedTokens) = g.active.map (·.estimatedTokens) := by
      rw [hact]
      unfold enterSlot Keyed.update
      rw [List.map_map]
      refine List.map_congr_left fun r _ => ?_
      simp only [Function.comp_apply]
      split <;> rfl
    refine ⟨hids ▸ hI.nodup, fun r hr => ?_, fun r hr => ?_, by rw [hres, hest, hI.reserved],
      by rw [hres, hmax]; exact hI.reserved_le⟩
    · have hmem := List.mem_map_of_mem (f := (·.jobId)) hr
      rw [hids] at hmem
      obtain ⟨r', hr', heq⟩ := List.mem_map.mp hmem
      rw [← heq]
      exact hI.checked r' hr'
    · have hmem := List.mem_map_of_mem (f := (·.estimatedTokens)) hr
      rw [hest] at hmem
      obtain ⟨r', hr', heq⟩ := List.mem_map.mp hmem
      rw [← heq]
      exact hI.nonneg r' hr'

theorem release_tokenInv {past : List GuardEvent} {g : SpawnGuard} (hI : TokenInv past g) (jobId : String)
    (actual : ℤ) : TokenInv past (g.release jobId actual) := by
  unfold release
  split
  · exact hI
  · next r hr =>
    obtain ⟨hmem, rfl⟩ := Keyed.get?_some hr
    have hperm := Keyed.perm_cons_pop hI.nodup hmem
    have hsub : (Keyed.pop (·.jobId) g.active r.jobId).Sublist g.active := Keyed.pop_sublist _
    have hsum : (g.active.map (·.estimatedTokens)).sum =
        r.estimatedTokens + ((Keyed.pop (·.jobId) g.active r.jobId).map (·.estimatedTokens)).sum := by
      rw [(hperm.map _).sum_eq, List.map_cons, List.sum_cons]
    have hle := hI.reserved_le
    have hnn := hI.nonneg r hmem
    refine ⟨hI.nodup.sublist (hsub.map _), fun x hx => hI.checked x (hsub.subset hx),
      fun x hx => hI.nonneg x (hsub.subset hx), ?_, ?_⟩
    · dsimp only
      rw [hI.reserved, hsum]
      omega
    · dsimp only
      omega

/-- What the two halves of `acquire_slot` do to the reservations. -/
theorem resumeSlot_cases {g g' : SpawnGuard} {a : Acquisition} (h : g.resumeSlot a = some g') :
    ∃ semaphore taken, g.semaphore.resume a = some (semaphore, taken) ∧
      g' = if taken then { g with semaphore }.enterSlot a.jobId else { g with semaphore } := by
  obtain ⟨⟨semaphore, taken⟩, hr, rfl⟩ := Option.map_eq_some_iff.mp h
  exact ⟨semaphore, taken, hr, rfl⟩

theorem step_tokenInv {past : List GuardEvent} {g g' : SpawnGuard} {e : GuardEvent} (hI : TokenInv past g)
    (hc : Checked past e) (hs : step g e = some g') : TokenInv (past ++ [e]) g' := by
  cases e with
  | preCheck jobId depth est =>
    simp only [step] at hs
    split at hs
    · next g₁ hok =>
      cases hs
      exact preCheck_tokenInv hI hc hok
    · cases hs
      exact hI.mono _
  | acquireSlot a =>
    simp only [step] at hs
    split at hs
    · cases hs
    · cases hs
      refine (hI.of_active ?_ ?_ ?_).mono _
      all_goals
        unfold acquireSlot
        dsimp only
      · split <;> rfl
      · split <;> rfl
      · split
        · exact .inr ⟨_, rfl⟩
        · exact .inl rfl
  | cancelSlot a =>
    simp only [step] at hs
    split at hs
    · cases hs
      have hcancel : TokenInv past (g.cancelSlot a) := hI.of_active rfl rfl (.inl rfl)
      exact hcancel.mono _
    · cases hs
  | resumeSlot a =>
    obtain ⟨semaphore, taken, -, rfl⟩ := resumeSlot_cases hs
    refine (hI.of_active ?_ ?_ ?_).mono _
    · split <;> rfl
    · split <;> rfl
    · split
      · exact .inr ⟨_, rfl⟩
      · exact .inl rfl
  | release jobId actual =>
    cases hs
    exact (release_tokenInv hI jobId actual).mono _

theorem step_limits {g g' : SpawnGuard} {e : GuardEvent} (hs : step g e = some g') :
    g'.maxTokens = g.maxTokens ∧ g'.maxParallel = g.maxParallel := by
  cases e with
  | preCheck jobId depth est =>
    simp only [step] at hs
    split at hs
    · next g₁ hok =>
      cases hs
      unfold preCheck at hok
      dsimp only at hok
      split_ifs at hok
      cases hok
      exact ⟨rfl, rfl⟩
    · cases hs
      exact ⟨rfl, rfl⟩
  | acquireSlot a =>
    simp only [step] at hs
    split at hs
    · cases hs
    · cases hs
      unfold acquireSlot
      dsimp only
      split <;> exact ⟨rfl, rfl⟩
  | cancelSlot a =>
    simp only [step] at hs
    split at hs
    · cases hs
      exact ⟨rfl, rfl⟩
    · cases hs
  | resumeSlot a =>
    obtain ⟨semaphore, taken, -, rfl⟩ := resumeSlot_cases hs
    split <;> exact ⟨rfl, rfl⟩
  | release jobId actual =>
    cases hs
    unfold release
    split <;> exact ⟨rfl, rfl⟩

/-! ### Waits -/

/-- The jobs whose wait is not cancelled. -/
def pendingJobs (ws : List (Acquisition × Wait)) : List String :=
  (ws.filter (·.2 ≠ .cancelled)).map (·.1.jobId)

/-- The waits beside the reservations. -/
structure WaitInv (past : List GuardEvent) (active : List SpawnReservation)
    (ws : List (Acquisition × Wait)) : Prop where
  keys : (ws.map (·.1)).Nodup
  /-- No job waits twice. -/
  single : (pendingJobs ws).Nodup
  checked : ∀ w ∈ ws, w.1.jobId ∈ checkedIds past
  granted : ∀ w ∈ ws, isGranted w.2 = true → w.1.jobId ∈ active.map (·.jobId)
  /-- Who waits owns no slot. -/
  owes : ∀ w ∈ ws, w.2 ≠ .cancelled → ∀ r ∈ active, r.jobId = w.1.jobId → r.acquired = false

section Waits

variable {past : List GuardEvent} {active : List SpawnReservation} {ws : List (Acquisition × Wait)}
variable (h : WaitInv past active ws)
include h

theorem WaitInv.mono (e : GuardEvent) : WaitInv (past ++ [e]) active ws :=
  ⟨h.keys, h.single, fun w hw => mem_checkedIds_append (h.checked w hw) e, h.granted, h.owes⟩

theorem WaitInv.sublist {ws' : List (Acquisition × Wait)} (hs : ws'.Sublist ws) : WaitInv past active ws' :=
  ⟨h.keys.sublist (hs.map _), h.single.sublist ((hs.filter _).map _),
    fun w hw => h.checked w (hs.subset hw), fun w hw => h.granted w (hs.subset hw),
    fun w hw => h.owes w (hs.subset hw)⟩

/-- Permits are handed to active jobs only. -/
theorem WaitInv.woken {ws' : List (Acquisition × Wait)} (hw : List.Forall₂ Woken ws ws')
    (hact : ∀ w ∈ ws, w.2 = .waiting → w.1.jobId ∈ active.map (·.jobId)) : WaitInv past active ws' := by
  refine ⟨(woken_keys hw).symm ▸ h.keys, ?_, fun w hmem => ?_, fun w hmem hg => ?_, fun w hmem hc => ?_⟩
  · have hpending := congrArg (List.map (·.jobId)) (woken_pending hw)
    simp only [List.map_map] at hpending
    have hsame : pendingJobs ws' = pendingJobs ws := hpending
    rw [hsame]
    exact h.single
  · rcases mem_woken hw hmem with hmem | ⟨hmem, -⟩
    · exact h.checked w hmem
    · exact h.checked (w.1, .waiting) hmem
  · rcases mem_woken hw hmem with hmem | ⟨hmem, -⟩
    · exact h.granted w hmem hg
    · exact hact (w.1, .waiting) hmem rfl
  · rcases mem_woken hw hmem with hmem | ⟨hmem, -⟩
    · exact h.owes w hmem hc
    · exact h.owes (w.1, .waiting) hmem (by simp)

theorem WaitInv.append {a : Acquisition} (hkey : a ∉ ws.map (·.1)) (hmem : a.jobId ∈ checkedIds past)
    (hfree : ∀ r ∈ active, r.jobId = a.jobId → r.acquired = false)
    (hnone : ∀ w ∈ ws, w.1.jobId = a.jobId → w.2 = .cancelled) :
    WaitInv past active (ws ++ [(a, .waiting)]) := by
  refine ⟨?_, ?_, ?_, ?_, ?_⟩
  · rw [List.map_append, List.nodup_append]
    refine ⟨h.keys, List.nodup_singleton _, fun x hx y hy => ?_⟩
    rw [List.mem_singleton.mp hy]
    rintro rfl
    exact hkey hx
  · have happ : pendingJobs (ws ++ [(a, .waiting)]) = pendingJobs ws ++ [a.jobId] := by
      simp [pendingJobs]
    rw [happ, List.nodup_append]
    refine ⟨h.single, List.nodup_singleton _, fun x hx y hy => ?_⟩
    rw [List.mem_singleton.mp hy]
    rintro rfl
    obtain ⟨w, hw, heq⟩ := List.mem_map.mp hx
    obtain ⟨hw, hc⟩ := List.mem_filter.mp hw
    rw [hnone w hw heq] at hc
    simp at hc
  all_goals
    intro w hw
    rcases List.mem_append.mp hw with hw | hw
  · exact h.checked w hw
  · rw [List.mem_singleton.mp hw]
    exact hmem
  · exact h.granted w hw
  · rw [List.mem_singleton.mp hw]
    intro hg
    cases hg
  · exact h.owes w hw
  · rw [List.mem_singleton.mp hw]
    exact fun _ => hfree

theorem WaitInv.cancel (a : Acquisition) :
    WaitInv past active (Keyed.update (·.1) (fun w => (w.1, cancelWait w.2)) a ws) := by
  have hback : ∀ w ∈ Keyed.update (·.1) (fun w => (w.1, cancelWait w.2)) a ws,
      ∃ w' ∈ ws, w.1 = w'.1 ∧ (isGranted w.2 = true → isGranted w'.2 = true) ∧
        (w.2 ≠ .cancelled → w'.2 ≠ .cancelled) := by
    intro w hw
    rcases Keyed.mem_update.mp hw with ⟨w', hw', -, rfl⟩ | ⟨hw, -⟩
    · refine ⟨w', hw', rfl, fun hg => (isGranted_cancelWait w'.2).symm.trans hg, fun hc h' => hc ?_⟩
      simp [h', cancelWait]
    · exact ⟨w, hw, rfl, id, id⟩
  have hpending : (pendingJobs (Keyed.update (·.1) (fun w => (w.1, cancelWait w.2)) a ws)).Sublist
      (pendingJobs ws) := by
    unfold pendingJobs Keyed.update
    clear h hback
    induction ws with
    | nil => exact List.Sublist.refl _
    | cons w ws ih =>
      rcases w with ⟨k, st⟩
      by_cases hk : k = a
      · cases st
        · simpa [hk, cancelWait] using ih.cons a.jobId
        · simpa [hk, cancelWait] using ih
        · simpa [hk, cancelWait] using ih
      · by_cases hc : st = .cancelled
        · simpa [hk, hc] using ih
        · simpa [hk, hc] using ih
  refine ⟨?_, h.single.sublist hpending, fun w hw => ?_, fun w hw hg => ?_, fun w hw hc => ?_⟩
  · rw [Keyed.map_key_update (by intro _; rfl)]
    exact h.keys
  all_goals obtain ⟨w', hw', heq, hgr, hcan⟩ := hback w hw
  · exact heq ▸ h.checked w' hw'
  · exact heq ▸ h.granted w' hw' (hgr hg)
  · exact heq ▸ h.owes w' hw' (hcan hc)

/-- The wait of a job is its only one. -/
theorem WaitInv.last_wait {a : Acquisition} {st : Wait} (hmem : (a, st) ∈ ws) (hst : st ≠ .cancelled) :
    ∀ w ∈ Keyed.pop (·.1) ws a, w.1.jobId = a.jobId → w.2 = .cancelled := by
  intro w hw hjob
  by_contra hc
  have hperm : (pendingJobs ws).Perm (pendingJobs ((a, st) :: Keyed.pop (·.1) ws a)) :=
    ((Keyed.perm_cons_pop h.keys hmem).filter _).map _
  have hnodup := hperm.nodup_iff.mp h.single
  rw [pendingJobs, List.filter_cons_of_pos (by simpa using hst), List.map_cons, List.nodup_cons] at hnodup
  exact hnodup.1 (List.mem_map.mpr ⟨w, List.mem_filter.mpr ⟨hw, by simpa using hc⟩, hjob⟩)

/-- A slot is entered for a job that waits no longer. -/
theorem WaitInv.enterSlot {g : SpawnGuard} (hact : g.active = active) {jobId : String}
    (hnone : ∀ w ∈ ws, w.1.jobId = jobId → w.2 = .cancelled) :
    WaitInv past (g.enterSlot jobId).active ws := by
  refine ⟨h.keys, h.single, h.checked, fun w hw hg => ?_, fun w hw hc r hr heq => ?_⟩
  · rw [enterSlot_ids, hact]
    exact h.granted w hw hg
  · unfold SpawnGuard.enterSlot at hr
    rcases Keyed.mem_update.mp hr with ⟨r', -, hk, rfl⟩ | ⟨hr, -⟩
    · exact absurd (hnone w hw (heq.symm.trans hk)) hc
    · exact h.owes w hw hc r (hact ▸ hr) heq

/-- A reservation goes whose job has no permit on the way. -/
theorem WaitInv.pop {jobId : String} (hnone : ∀ w ∈ ws, w.1.jobId = jobId → isGranted w.2 = false) :
    WaitInv past (Keyed.pop (·.jobId) active jobId) ws := by
  refine ⟨h.keys, h.single, h.checked, fun w hw hg => ?_, fun w hw hc r hr => ?_⟩
  · obtain ⟨r, hr, heq⟩ := List.mem_map.mp (h.granted w hw hg)
    refine List.mem_map.mpr ⟨r, Keyed.mem_pop.mpr ⟨hr, fun hk => ?_⟩, heq⟩
    rw [hnone w hw (heq.symm.trans hk)] at hg
    cases hg
  · exact h.owes w hw hc r (Keyed.mem_pop.mp hr).1

/-- A reservation comes whose job was not heard of. -/
theorem WaitInv.check {r : SpawnReservation} (hfresh : r.jobId ∉ checkedIds past) :
    WaitInv past (active ++ [r]) ws := by
  refine ⟨h.keys, h.single, h.checked, fun w hw hg => ?_, fun w hw hc x hx heq => ?_⟩
  · rw [List.map_append]
    exact List.mem_append_left _ (h.granted w hw hg)
  · rcases List.mem_append.mp hx with hx | hx
    · exact h.owes w hw hc x hx heq
    · rw [List.mem_singleton.mp hx] at heq
      exact absurd (heq ▸ h.checked w hw) hfresh

end Waits

/-! ### Slots -/

def acquiredCount (active : List SpawnReservation) : ℕ := active.countP (·.acquired)

structure SlotInv (past : List GuardEvent) (g : SpawnGuard) : Prop where
  permits : g.semaphore.permits + acquiredCount g.active = slots g.maxParallel
  waits : WaitInv past g.active g.semaphore.waiters

theorem acquiredCount_enterSlot {g : SpawnGuard} (hnodup : (g.active.map (·.jobId)).Nodup)
    {r : SpawnReservation} (hr : r ∈ g.active) (hfree : r.acquired = false) :
    acquiredCount (g.enterSlot r.jobId).active = acquiredCount g.active + 1 := by
  have hnew := Keyed.update_perm hnodup (f := fun r => { r with acquired := true }) hr
  have hold := Keyed.perm_cons_pop hnodup hr
  unfold acquiredCount enterSlot
  rw [hnew.countP_eq, hold.countP_eq, List.countP_cons_of_pos rfl, List.countP_cons_of_neg (by simp [hfree])]

theorem acquiredCount_pop {g : SpawnGuard} (hnodup : (g.active.map (·.jobId)).Nodup)
    {r : SpawnReservation} (hr : r ∈ g.active) :
    acquiredCount g.active =
      acquiredCount (Keyed.pop (·.jobId) g.active r.jobId) + if r.acquired then 1 else 0 := by
  unfold acquiredCount
  rw [(Keyed.perm_cons_pop hnodup hr).countP_eq, List.countP_cons]

/-- The reservation of an active job that owns no slot. -/
theorem exists_free {g : SpawnGuard} {jobId : String} (hact : jobId ∈ g.active.map (·.jobId))
    (hfree : ¬g.Owns jobId) : ∃ r ∈ g.active, r.jobId = jobId ∧ r.acquired = false := by
  obtain ⟨r, hr, heq⟩ := List.mem_map.mp hact
  refine ⟨r, hr, heq, ?_⟩
  cases ha : r.acquired with
  | false => rfl
  | true => exact absurd ⟨r, hr, heq, ha⟩ hfree

theorem acquireSlot_slotInv {past : List GuardEvent} {g : SpawnGuard} (hT : TokenInv past g)
    (hI : SlotInv past g) {a : Acquisition} (hkey : a ∉ g.waits) (hc : g.HandsToActive (.acquireSlot a)) :
    SlotInv past (g.acquireSlot a) := by
  obtain ⟨hact, hfree, hnone⟩ := hc
  obtain ⟨r, hr, heq, hacq⟩ := exists_free hact hfree
  have hpermits := hI.permits
  unfold acquireSlot
  rcases acquire_spec g.semaphore a with hwait | ⟨v, hv, htake⟩
  · rw [hwait]
    refine ⟨?_, ?_⟩
    · have hcount : grantedCount (g.semaphore.waiters ++ [(a, Wait.waiting)]) =
          grantedCount g.semaphore.waiters := by
        simp [grantedCount, isGranted]
      simp only [Bool.false_eq_true, if_false, permits, hcount] at hpermits ⊢
      exact hpermits
    · refine hI.waits.append hkey (heq ▸ hT.checked r hr) (fun x hx hxa => ?_) hnone
      rw [Keyed.eq_of_key hT.nodup hx hr (hxa.trans heq.symm)]
      exact hacq
  · rw [htake]
    refine ⟨?_, hI.waits.enterSlot rfl hnone⟩
    have hcount : acquiredCount (enterSlot { g with semaphore := ⟨v, g.semaphore.waiters⟩ } a.jobId).active =
        acquiredCount g.active + 1 := by
      rw [← heq]
      exact acquiredCount_enterSlot hT.nodup hr hacq
    show permits ⟨v, g.semaphore.waiters⟩ + _ = slots g.maxParallel
    simp only [if_true, hcount]
    simp only [permits, hv] at hpermits ⊢
    omega

theorem resumeSlot_slotInv {past : List GuardEvent} {g g' : SpawnGuard} (hT : TokenInv past g)
    (hI : SlotInv past g) {a : Acquisition} (hc : g.WaitersActive) (hs : g.resumeSlot a = some g') :
    SlotInv past g' := by
  obtain ⟨semaphore, taken, hres, rfl⟩ := resumeSlot_cases hs
  obtain ⟨hwoken, hpermits, hgrant⟩ := resume_spec hI.waits.keys hres
  have hslots := hI.permits
  have hrest : WaitInv past g.active (Keyed.pop (·.1) g.semaphore.waiters a) :=
    hI.waits.sublist (Keyed.pop_sublist a)
  have hwaits : WaitInv past g.active semaphore.waiters :=
    hrest.woken hwoken fun w hw => hc w (Keyed.mem_pop.mp hw).1
  cases taken with
  | false =>
    refine ⟨?_, hwaits⟩
    simp only [Bool.false_eq_true, if_false] at hpermits ⊢
    omega
  | true =>
    have hmem := hgrant rfl
    obtain ⟨r, hr, heq⟩ := List.mem_map.mp (hI.waits.granted (a, .granted false) hmem rfl)
    have hacq := hI.waits.owes (a, .granted false) hmem (by simp) r hr heq
    have hnone : ∀ w ∈ semaphore.waiters, w.1.jobId = a.jobId → w.2 = .cancelled := by
      intro w hw hjob
      have hlast := hI.waits.last_wait hmem (by simp)
      rcases mem_woken hwoken hw with hw | ⟨hw, -⟩
      · exact hlast w hw hjob
      · cases hlast (w.1, .waiting) hw hjob
    refine ⟨?_, hwaits.enterSlot rfl hnone⟩
    have hcount : acquiredCount (enterSlot { g with semaphore } a.jobId).active =
        acquiredCount g.active + 1 := by
      rw [← heq]
      exact acquiredCount_enterSlot hT.nodup hr hacq
    simp only [if_true] at hpermits
    simp only [if_true, hcount]
    show semaphore.permits + _ = slots g.maxParallel
    omega

theorem release_slotInv {past : List GuardEvent} {g : SpawnGuard} (hT : TokenInv past g)
    (hI : SlotInv past g) {jobId : String} {actual : ℤ} (hc : g.HandsToActive (.release jobId actual)) :
    SlotInv past (g.release jobId actual) := by
  unfold release
  split
  · exact hI
  · next r hr =>
    obtain ⟨hmem, rfl⟩ := Keyed.get?_some hr
    obtain ⟨hnone, hactive⟩ := hc
    have hslots := hI.permits
    have hcount := acquiredCount_pop hT.nodup hmem
    have hpop := hI.waits.pop hnone
    cases hacq : r.acquired with
    | false =>
      rw [hacq] at hcount
      refine ⟨?_, hpop⟩
      simp only [Bool.false_eq_true, if_false] at hcount ⊢
      omega
    | true =>
      rw [hacq] at hcount
      obtain ⟨hwoken, hpermits⟩ := release_spec g.semaphore
      refine ⟨?_, hpop.woken hwoken fun w hw hwait => ?_⟩
      · simp only [if_true] at hcount ⊢
        omega
      · -- a job that waits is active, and another than the one released
        obtain ⟨x, hx, heq⟩ := List.mem_map.mp (hactive ⟨r, hmem, rfl, hacq⟩ w hw hwait)
        refine List.mem_map.mpr ⟨x, Keyed.mem_pop.mpr ⟨hx, fun hk => ?_⟩, heq⟩
        have hfree := hI.waits.owes w hw (by simp [hwait]) r hmem (hk.symm.trans heq)
        rw [hacq] at hfree
        cases hfree

theorem step_slotInv {past : List GuardEvent} {g g' : SpawnGuard} {e : GuardEvent} (hT : TokenInv past g)
    (hI : SlotInv past g) (hd : Checked past e) (hc : g.HandsToActive e) (hs : step g e = some g') :
    SlotInv (past ++ [e]) g' := by
  suffices h : SlotInv past g' from ⟨h.permits, h.waits.mono e⟩
  cases e with
  | preCheck jobId depth est =>
    simp only [step] at hs
    split at hs
    · next g₁ hok =>
      cases hs
      have hfresh : ∀ r ∈ g.active, r.jobId ≠ jobId := fun r hr heq => hd.1 (heq ▸ hT.checked r hr)
      obtain ⟨-, rfl⟩ := preCheck_ok hfresh hok
      refine ⟨?_, hI.waits.check hd.1⟩
      have := hI.permits
      simpa [acquiredCount] using this
    · cases hs
      exact hI
  | acquireSlot a =>
    simp only [step] at hs
    split at hs
    · cases hs
    · next hkey =>
      cases hs
      exact acquireSlot_slotInv hT hI hkey hc
  | cancelSlot a =>
    simp only [step] at hs
    split at hs
    · cases hs
      refine ⟨?_, hI.waits.cancel a⟩
      have := hI.permits
      unfold cancelSlot
      rwa [cancel_permits]
    · cases hs
  | resumeSlot a => exact resumeSlot_slotInv hT hI hc hs
  | release jobId actual =>
    cases hs
    exact release_slotInv hT hI hc

/-! ### Whole runs -/

theorem countP_or {α : Type} (p q : α → Bool) (l : List α) :
    l.countP (fun x => p x || q x) = l.countP p + l.countP fun x => !p x && q x := by
  induction l with
  | nil => rfl
  | cons x xs ih =>
    simp only [List.countP_cons, ih]
    cases p x <;> cases q x <;> simp <;> omega

/-- Jobs that own a slot, and jobs the semaphore has handed one. -/
theorem SlotInv.holding_length {past : List GuardEvent} {g : SpawnGuard} (hT : TokenInv past g)
    (hI : SlotInv past g) : g.semaphore.value + g.holding.length = slots g.maxParallel := by
  set grantedJobs := (g.semaphore.waiters.filter fun w => isGranted w.2).map (·.1.jobId) with hjobs
  have hmemJobs : ∀ r : SpawnReservation, (g.semaphore.waiters.any fun w =>
      w.1.jobId = r.jobId && isGranted w.2) = true ↔ r.jobId ∈ grantedJobs := by
    intro r
    simp only [hjobs, List.any_eq_true, Bool.and_eq_true, decide_eq_true_eq, List.mem_map, List.mem_filter]
    exact ⟨fun ⟨w, hw, h1, h2⟩ => ⟨w, ⟨hw, h2⟩, h1⟩, fun ⟨w, ⟨hw, h2⟩, h1⟩ => ⟨w, hw, h1, h2⟩⟩
  -- the jobs handed a permit are the active ones that own no slot and hold one
  have hperm : ((g.active.filter fun r => !r.acquired && decide (r.jobId ∈ grantedJobs)).map (·.jobId)).Perm
      grantedJobs := by
    refine (List.perm_ext_iff_of_nodup ?_ ?_).mpr fun id => ?_
    · exact hT.nodup.sublist (List.filter_sublist.map _)
    · refine hI.waits.single.sublist (List.Sublist.map _ ?_)
      refine List.monotone_filter_right _ fun w hw => ?_
      rcases w with ⟨k, st⟩
      cases st <;> simp_all [isGranted]
    · constructor
      · intro hid
        obtain ⟨r, hr, rfl⟩ := List.mem_map.mp hid
        have := (List.mem_filter.mp hr).2
        rw [Bool.and_eq_true, decide_eq_true_eq] at this
        exact this.2
      · intro hid
        obtain ⟨w, hw, rfl⟩ := List.mem_map.mp hid
        obtain ⟨hw, hg⟩ := List.mem_filter.mp hw
        obtain ⟨r, hr, heq⟩ := List.mem_map.mp (hI.waits.granted w hw hg)
        have hfree := hI.waits.owes w hw (by intro hc; simp [hc, isGranted] at hg) r hr heq
        refine List.mem_map.mpr ⟨r, List.mem_filter.mpr ⟨hr, ?_⟩, heq⟩
        rw [hfree, heq]
        simpa using hid
  have hlen : g.holding.length = acquiredCount g.active + grantedCount g.semaphore.waiters := by
    have hgranted : grantedJobs.length = grantedCount g.semaphore.waiters := by
      rw [hjobs, List.length_map, grantedCount, List.countP_eq_length_filter]
    rw [← hgranted, ← hperm.length_eq, List.length_map, ← List.countP_eq_length_filter, acquiredCount,
      ← countP_or, holding, ← List.countP_eq_length_filter]
    refine List.countP_congr fun r _ => ?_
    rw [Bool.or_eq_true, Bool.or_eq_true, hmemJobs, decide_eq_true_eq]
  have hpermits := hI.permits
  unfold Semaphore.permits at hpermits
  omega

/-- The steps a guard is meant for: checks under distinct ids and with estimates
that are not negative, and no permit handed to a job that cannot hold it. -/
def Orderly (past : List GuardEvent) (g : SpawnGuard) (e : GuardEvent) : Prop :=
  Checked past e ∧ g.HandsToActive e

instance (past : List GuardEvent) (g : SpawnGuard) (e : GuardEvent) : Decidable (Orderly past g e) :=
  inferInstanceAs (Decidable (_ ∧ _))

/-- **The guard's accounts.** In every state of every interleaving the tokens
reserved are those of the active jobs and within the budget, free permits and
jobs that hold a slot make up all slots, and when nobody is active all permits
are free. -/
theorem spawnGuard_accounting {b : TaskBudget} (hmax : 0 ≤ b.maxTokens) {es : List GuardEvent}
    {g : SpawnGuard} (h : Trace step Orderly (ofBudget b) es g) :
    (g.tokensReserved = (g.active.map (·.estimatedTokens)).sum ∧ 0 ≤ g.tokensReserved ∧
      g.tokensReserved ≤ b.maxTokens) ∧
    ((g.semaphore.value + g.holding.length : ℕ) : ℤ) = max b.maxParallel 1 ∧
    (g.active = [] → (g.semaphore.value : ℤ) = max b.maxParallel 1) := by
  have hinv : TokenInv es g ∧ SlotInv es g ∧ g.maxTokens = b.maxTokens ∧ g.maxParallel = b.maxParallel := by
    refine Trace.invariant (I := fun es g => TokenInv es g ∧ SlotInv es g ∧ g.maxTokens = b.maxTokens ∧
      g.maxParallel = b.maxParallel) ?_ ?_ h
    · refine ⟨⟨by simp [ofBudget], by simp [ofBudget], by simp [ofBudget], by simp [ofBudget], ?_⟩, ⟨?_, ?_⟩,
        rfl, rfl⟩
      · simpa [ofBudget] using hmax
      · simp [ofBudget, permits, grantedCount, acquiredCount]
      · exact ⟨by simp [ofBudget], by simp [ofBudget, pendingJobs], by simp [ofBudget],
          by simp [ofBudget], by simp [ofBudget]⟩
    · rintro es g e g' ⟨hT, hI, htok, hpar⟩ ⟨hd, hc⟩ hs
      obtain ⟨h1, h2⟩ := step_limits hs
      exact ⟨step_tokenInv hT hd hs, step_slotInv hT hI hd hc hs, h1.trans htok, h2.trans hpar⟩
  obtain ⟨hT, hI, htok, hpar⟩ := hinv
  have hslots : (slots b.maxParallel : ℤ) = max b.maxParallel 1 := by
    unfold slots
    omega
  have hhold := hI.holding_length hT
  rw [hpar] at hhold
  refine ⟨⟨hT.reserved, hT.reserved_nonneg, htok ▸ hT.reserved_le⟩, by rw [hhold, hslots], fun hnil => ?_⟩
  have hempty : g.holding = [] := by simp [holding, hnil]
  rw [hempty, List.length_nil, Nat.add_zero] at hhold
  rw [hhold, hslots]

/-- Two jobs for one slot, the second cancelled while it waits and then
released. -/
def cancelledWait : List GuardEvent :=
  [.preCheck "a" 0 10, .preCheck "b" 0 20, .acquireSlot ⟨0, "a"⟩, .acquireSlot ⟨1, "b"⟩,
    .cancelSlot ⟨1, "b"⟩, .resumeSlot ⟨1, "b"⟩, .release "b" 0, .release "a" 5]

theorem spawnGuard_accounting_cancelledWait :
    ∃ g, run step (ofBudget { maxParallel := 1 }) cancelledWait = some g ∧
      (g.active = [] → (g.semaphore.value : ℤ) = 1) := by
  refine ⟨_, rfl, ?_⟩
  have htrace : Trace step Orderly (ofBudget { maxParallel := 1 }) cancelledWait _ :=
    Trace.of_run (p := fun past g e => decide (Orderly past g e))
      (fun _ _ _ h => of_decide_eq_true h) (by decide) rfl
  exact (spawnGuard_accounting (by decide) htrace).2.2

/-- The second job is released while it waits: the permit of the first goes to
a wait whose job is no longer there, and is lost. -/
def releasedWait : List GuardEvent :=
  [.preCheck "a" 0 10, .preCheck "b" 0 20, .acquireSlot ⟨0, "a"⟩, .acquireSlot ⟨1, "b"⟩,
    .release "b" 0, .release "a" 5, .resumeSlot ⟨1, "b"⟩]

theorem releasedWait_leaks_permit :
    (meets step (fun past _ e => decide (Checked past e)) [] (ofBudget { maxParallel := 1 }) releasedWait = true) ∧
      ∃ g, run step (ofBudget { maxParallel := 1 }) releasedWait = some g ∧ g.active = [] ∧
        g.semaphore = { value := 0 } ∧ ((g.semaphore.value + g.holding.length : ℕ) : ℤ) ≠ max 1 1 :=
  ⟨by decide, _, rfl, rfl, rfl, by decide⟩

end SpawnGuard
end AgentBus
end AgentCore
