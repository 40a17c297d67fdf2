import Mathlib.Data.Fintype.BigOperators
import Mathlib.Algebra.Order.BigOperators.Group.Finset

/-!
# Counting over a table

A reference count is the number of places that refer to something, and the places are
entries of tables. When one entry of a table is overwritten, a sum over the table changes by
what that entry contributed and contributes.
-/

namespace Xv6.Lib

open Function

variable {ι β : Type*} [Fintype ι] [DecidableEq ι] (g : β → ℕ) (w : ι → β)

theorem sum_update (p : ι) (v : β) : ∑ q, g (update w p v q) + g (w p) = ∑ q, g (w q) + g v := by
  have h : ∀ x, ∑ q, g (update w p x q) = g x + ∑ q ∈ Finset.univ.erase p, g (w q) := by
    intro x
    rw [← Finset.add_sum_erase _ _ (Finset.mem_univ p), update_self]
    refine congrArg _ (Finset.sum_congr rfl fun q hq => ?_)
    rw [update_of_ne (Finset.ne_of_mem_erase hq)]
  have hself := h (w p)
  rw [update_eq_self] at hself
  rw [h v, hself]
  omega

omit [DecidableEq ι] in
theorem le_sum (p : ι) : g (w p) ≤ ∑ q, g (w q) :=
  Finset.single_le_sum (f := fun q => g (w q)) (fun _ _ => Nat.zero_le _) (Finset.mem_univ p)

theorem add_le_sum {p q : ι} (h : p ≠ q) : g (w p) + g (w q) ≤ ∑ r, g (w r) := by
  rw [← Finset.add_sum_erase _ _ (Finset.mem_univ p)]
  refine Nat.add_le_add_left ?_ _
  exact Finset.single_le_sum (f := fun r => g (w r)) (fun _ _ => Nat.zero_le _) (Finset.mem_erase.mpr ⟨h.symm, Finset.mem_univ q⟩)

end Xv6.Lib
