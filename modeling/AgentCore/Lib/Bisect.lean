/-
# Bisection

The search for the last place up to which a condition holds, between a lower
and an upper bound that close in on each other from both sides. If the
condition holds at the lower bound it holds at the place found
(`holds_last`); nothing else is asked of it, so where it is not monotone the
place need not be the last one. A condition that holds at every place before
one where it holds is found out: no place up to the upper bound at which it
holds is beyond the one found (`le_last`).
-/
import Mathlib.Data.List.Basic

namespace Bisect

variable (p : ℕ → Bool)

/-- `while lo < hi`, the middle being rounded up. -/
def last (lo hi : ℕ) : ℕ :=
  if lo < hi then
    if p ((lo + hi + 1) / 2) then last ((lo + hi + 1) / 2) hi else last lo ((lo + hi + 1) / 2 - 1)
  else lo
termination_by hi - lo

variable {p}

/-- **The bisection rule**: the condition holds where it ends if it holds where
it starts. -/
theorem holds_last {lo hi : ℕ} (h : p lo = true) : p (last p lo hi) = true := by
  fun_induction last p lo hi with
  | case1 lo hi _ hmid ih => exact ih hmid
  | case2 lo hi _ _ ih => exact ih h
  | case3 lo hi _ => exact h

/-- It ends between the bounds. -/
theorem last_le {lo hi : ℕ} (h : lo ≤ hi) : last p lo hi ≤ hi := by
  fun_induction last p lo hi with
  | case1 lo hi hlt _ ih => exact ih (by omega)
  | case2 lo hi hlt _ ih =>
    have hstep : last p lo ((lo + hi + 1) / 2 - 1) ≤ (lo + hi + 1) / 2 - 1 := ih (by omega)
    omega
  | case3 lo hi _ => exact h

/-- **A monotone condition is found out**: where it holds, up to the upper
bound, is not beyond the place found. -/
theorem le_last (hmono : ∀ m n, m ≤ n → p n = true → p m = true) {lo hi m : ℕ} (hm : m ≤ hi)
    (hp : p m = true) : m ≤ last p lo hi := by
  fun_induction last p lo hi with
  | case1 lo hi _ _ ih => exact ih hm
  | case2 lo hi _ hmid ih =>
    -- it does not hold in the middle, and so not from there on either
    have hbelow : m < (lo + hi + 1) / 2 := by
      by_contra hge
      exact hmid (hmono _ m (Nat.le_of_not_lt hge) hp)
    exact ih (by omega)
  | case3 lo hi hge => omega

end Bisect
