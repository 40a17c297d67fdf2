import Mathlib.Data.Fin.Basic
import Mathlib.Data.List.Basic
import Mathlib.Logic.Function.Basic
import Mathlib.Data.Nat.ModEq

/-!
# Circular buffers with wrapping counters

A buffer of `N` cells with two counters: how many items were put, and how many were taken. The next item goes to the cell
`w % N`, the next one taken comes from the cell `r % N`. A machine keeps the counters modulo some `M`. This works as long as
`N` divides `M`, so that a counter leads to the same cell whether it has wrapped or not, and `N < M`, so that full and
empty can be told apart. `Xv6.Lib.Circular` relates such a buffer to the list of all items ever put.
-/

namespace Xv6.Lib

open Function

variable {β : Type*} {N M : ℕ} [NeZero N] {data : Fin N → β} {r w taken : ℕ} {items : List β}

/-- **The buffer with counters `r` and `w` holds the items that were put and not taken.** -/
structure Circular (N M : ℕ) [NeZero N] (data : Fin N → β) (r w : ℕ) (items : List β) (taken : ℕ) : Prop where
  read : r = taken % M
  write : w = items.length % M
  le : taken ≤ items.length
  fits : items.length ≤ taken + N
  cell : ∀ k (h : k < items.length), taken ≤ k → data (Fin.ofNat N k) = items[k]

namespace Circular

theorem nil : Circular N M data 0 0 [] 0 where
  read := (Nat.zero_mod M).symm
  write := (Nat.zero_mod M).symm
  le := le_rfl
  fits := Nat.zero_le _
  cell k h := absurd h (Nat.not_lt_zero k)

theorem ofNat_mod (hd : N ∣ M) (k : ℕ) : Fin.ofNat N (k % M) = Fin.ofNat N k :=
  Fin.ext (Nat.mod_mod_of_dvd k hd)

theorem mod_eq_iff {a b : ℕ} (hab : a ≤ b) (hb : b < a + M) : a % M = b % M ↔ a = b := by
  constructor
  · intro h
    obtain ⟨k, hk⟩ := (Nat.modEq_iff_dvd' hab).mp h
    rcases Nat.eq_zero_or_pos k with rfl | hpos
    · omega
    · have : M ≤ M * k := Nat.le_mul_of_pos_right M hpos
      omega
  · rintro rfl
    rfl

variable (h : Circular N M data r w items taken)

include h

theorem empty_iff (hNM : N < M) : r = w ↔ taken = items.length := by
  rw [h.read, h.write]
  have := h.fits
  exact mod_eq_iff h.le (by omega)

theorem full_iff (hNM : N < M) : w = (r + N) % M ↔ items.length = taken + N := by
  rw [h.read, h.write, Nat.mod_add_mod]
  have hle := h.le
  exact mod_eq_iff h.fits (by omega)

theorem count (hNM : N < M) : (w + M - r) % M = items.length - taken := by
  have hle := h.le
  have hfits := h.fits
  have hr : r < M := h.read ▸ Nat.mod_lt _ (by omega)
  obtain ⟨k, hk⟩ : ∃ k, items.length = taken + k := ⟨items.length - taken, by omega⟩
  have hmod : (w + M - r) % M = k % M := by
    have h₁ : (w + M - r + r) % M = (k + r) % M := by
      rw [Nat.sub_add_cancel (by omega), Nat.add_mod_right, h.write, Nat.mod_mod, h.read, hk, Nat.add_mod_mod, Nat.add_comm taken k]
    exact Nat.ModEq.add_right_cancel' r h₁
  rw [hmod, Nat.mod_eq_of_lt (by omega)]
  omega

section

variable (hd : N ∣ M) (hfull : items.length ≠ taken + N)

include hd hfull

theorem prepare (b : β) : Circular N M (update data (Fin.ofNat N w) b) r w items taken := by
  have hfits := h.fits
  have hcell : Fin.ofNat N w = Fin.ofNat N items.length := by rw [h.write, ofNat_mod hd]
  refine { h with cell := fun k hk htk => ?_ }
  -- the cell of an older item is another one
  have hne : Fin.ofNat N k ≠ Fin.ofNat N items.length := by
    intro heq
    have hmod : k % N = items.length % N := congrArg Fin.val heq
    rw [mod_eq_iff (Nat.le_of_lt hk) (by omega)] at hmod
    omega
  rw [hcell, update_of_ne hne, h.cell k hk htk]

theorem publish {b : β}
    (hb : data (Fin.ofNat N w) = b) : Circular N M data r ((w + 1) % M) (items ++ [b]) taken := by
  have hle := h.le
  have hfits := h.fits
  refine ⟨h.read, ?_, ?_, ?_, fun k hk htk => ?_⟩
  · rw [h.write, List.length_append, List.length_singleton, Nat.mod_add_mod]
  · rw [List.length_append]
    omega
  · rw [List.length_append, List.length_singleton]
    omega
  · rw [List.length_append, List.length_singleton] at hk
    rcases Nat.lt_succ_iff_lt_or_eq.mp hk with hlt | rfl
    · rw [h.cell k hlt htk, List.getElem_append_left hlt]
    · rw [← ofNat_mod hd, ← h.write, hb, List.getElem_append_right le_rfl]
      simp

/-- **Putting an item.** -/
theorem put (b : β) :
    Circular N M (update data (Fin.ofNat N w) b) r ((w + 1) % M) (items ++ [b]) taken :=
  (h.prepare hd hfull b).publish hd hfull (update_self ..)

end

/-- **Taking an item**: it is the oldest one. -/
theorem take (hd : N ∣ M) (hempty : taken ≠ items.length) : ∃ hlt : taken < items.length, data (Fin.ofNat N r) = items[taken] ∧
      Circular N M data ((r + 1) % M) w items (taken + 1) := by
  have hle := h.le
  have hfits := h.fits
  have hlt : taken < items.length := by omega
  refine ⟨hlt, ?_, ?_, h.write, hlt, by omega, fun k hk htk => h.cell k hk (by omega)⟩
  · rw [h.read, ofNat_mod hd]
    exact h.cell taken hlt le_rfl
  · rw [h.read, Nat.mod_add_mod]

end Circular

end Xv6.Lib
