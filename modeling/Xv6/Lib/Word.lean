import Mathlib.Algebra.Ring.Int.Defs
import Mathlib.Data.Int.Basic

/-!
# Signed machine words

A C `int` or `short` of the kernel is an integer in a range of `2 ^ w` values
centred on zero; what an assignment stores is the representative of the
mathematical result in that range.
-/

namespace Xv6.Lib

/-- The value a signed `w`-bit variable holds after `x` was assigned to it. -/
def wrapInt (w : ℕ) (x : ℤ) : ℤ := (x + 2 ^ (w - 1)) % 2 ^ w - 2 ^ (w - 1)

theorem wrapInt_eq {w : ℕ} (hw : 0 < w) {x : ℤ} (hlo : -2 ^ (w - 1) ≤ x) (hhi : x < 2 ^ (w - 1)) : wrapInt w x = x := by
  have hpow : (2 : ℤ) ^ w = 2 ^ (w - 1) + 2 ^ (w - 1) := by
    obtain ⟨k, rfl⟩ : ∃ k, w = k + 1 := ⟨w - 1, by omega⟩
    rw [Nat.add_sub_cancel, Int.pow_succ]
    omega
  rw [wrapInt, Int.emod_eq_of_lt (by omega) (by omega)]
  omega

end Xv6.Lib
