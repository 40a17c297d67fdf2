import Mathlib.Logic.Function.Basic
import Mathlib.Algebra.Ring.Nat
import Mathlib.Algebra.Ring.Int.Defs
import Mathlib.Data.Int.Basic

/-!
# Moving bytes that overlap

`memmove` of the kernel and of the user library copy a range of memory to another that may overlap it. Both have a loop
that goes up and a loop that goes down: the kernel goes down only if the ranges overlap and the destination is the higher
one, the library whenever the source is not the higher one. Either loop is right as long as it does not overwrite what it
has still to read.
-/

namespace Xv6.User

open Function

abbrev Memory := ℕ → UInt8

/-! ### The two loops -/

/-- `while(n-- > 0) *d++ = *s++`. -/
def copyUp : ℕ → ℕ → ℕ → Memory → Memory
  | 0, _, _, m => m
  | n + 1, d, s, m => copyUp n ((d + 1) % 2 ^ 64) ((s + 1) % 2 ^ 64) (update m d (m s))

/-- `while(n-- > 0) *--d = *--s`. -/
def copyDown : ℕ → ℕ → ℕ → Memory → Memory
  | 0, _, _, m => m
  | n + 1, d, s, m =>
    let d := (d + (2 ^ 64 - 1)) % 2 ^ 64
    let s := (s + (2 ^ 64 - 1)) % 2 ^ 64
    copyDown n d s (update m d (m s))

def kernelMemmove (m : Memory) (dst src n : ℕ) : Memory :=
  if n = 0 then m
  else if src < dst ∧ (src + n) % 2 ^ 64 > dst then copyDown n ((dst + n) % 2 ^ 64) ((src + n) % 2 ^ 64) m
  else copyUp n dst src m

/-- `memmove` of the user library, where `n` is an `int`. -/
def memmove (m : Memory) (dst src : ℕ) (n : ℤ) : Memory :=
  if src > dst then copyUp n.toNat dst src m
  else copyDown n.toNat (((dst : ℤ) + n) % 2 ^ 64).toNat (((src : ℤ) + n) % 2 ^ 64).toNat m

/-! ### What they do -/

/-- **The bytes have been moved**: the destination has what the source had, and all else is as before. -/
def Moved (m m' : Memory) (dst src n : ℕ) : Prop :=
  (∀ i < n, m' (dst + i) = m (src + i)) ∧ ∀ a, a < dst ∨ dst + n ≤ a → m' a = m a

variable {m : Memory} {dst src n : ℕ}

theorem copyUp_moved (hd : dst + n ≤ 2 ^ 64) (hs : src + n ≤ 2 ^ 64) (h : dst ≤ src ∨ src + n ≤ dst) : Moved m (copyUp n dst src m) dst src n := by
  induction n generalizing m dst src with
  | zero => exact ⟨fun i hi => absurd hi (Nat.not_lt_zero i), fun _ _ => rfl⟩
  | succ n ih =>
    rw [copyUp]
    cases n with
    | zero =>
      refine ⟨fun i hi => ?_, fun a ha => update_of_ne (by omega) ..⟩
      obtain rfl : i = 0 := by omega
      exact update_self ..
    | succ n =>
      rw [Nat.mod_eq_of_lt (by omega), Nat.mod_eq_of_lt (by omega)]
      obtain ⟨hin, hout⟩ := @ih (update m dst (m src)) (dst + 1) (src + 1) (by omega) (by omega) (by omega)
      refine ⟨fun i hi => ?_, fun a ha => ?_⟩
      · cases i with
        | zero => exact (hout dst (.inl (by omega))).trans (update_self ..)
        | succ i =>
          have hi' := hin i (by omega)
          rw [update_of_ne (by omega), Nat.add_assoc, Nat.add_assoc, Nat.add_comm 1 i] at hi'
          exact hi'
      · exact (hout a (by omega)).trans (update_of_ne (by omega) ..)

theorem step_down {a : ℕ} (ha : a < 2 ^ 64) : ((a + 1) % 2 ^ 64 + (2 ^ 64 - 1)) % 2 ^ 64 = a := by
  omega

section

variable (hd : dst + n ≤ 2 ^ 64) (hs : src + n ≤ 2 ^ 64)

include hd hs

theorem copyDown_moved (h : src ≤ dst ∨ dst + n ≤ src) :
    Moved m (copyDown n ((dst + n) % 2 ^ 64) ((src + n) % 2 ^ 64) m) dst src n := by
  induction n generalizing m with
  | zero => exact ⟨fun i hi => absurd hi (Nat.not_lt_zero i), fun _ _ => rfl⟩
  | succ n ih =>
    rw [copyDown, ← Nat.add_assoc, ← Nat.add_assoc]
    rw [step_down (by omega), step_down (by omega)]
    have ih := @ih (update m (dst + n) (m (src + n))) (by omega) (by omega) (by omega)
    rw [Nat.mod_eq_of_lt (show dst + n < 2 ^ 64 by omega), Nat.mod_eq_of_lt (show src + n < 2 ^ 64 by omega)] at ih
    obtain ⟨hin, hout⟩ := ih
    refine ⟨fun i hi => ?_, fun a ha => ?_⟩
    · by_cases hin' : i < n
      · exact (hin i hin').trans (update_of_ne (by omega) ..)
      · obtain rfl : i = n := by omega
        exact (hout (dst + i) (.inr le_rfl)).trans (update_self ..)
    · exact (hout a (by omega)).trans (update_of_ne (by omega) ..)

theorem kernelMemmove_moved : Moved m (kernelMemmove m dst src n) dst src n := by
  rw [kernelMemmove]
  by_cases h0 : n = 0
  · rw [if_pos h0, h0]
    exact ⟨fun i hi => absurd hi (Nat.not_lt_zero i), fun _ _ => rfl⟩
  rw [if_neg h0]
  by_cases hover : src < dst ∧ (src + n) % 2 ^ 64 > dst
  · rw [if_pos hover]
    exact copyDown_moved hd hs (.inl (Nat.le_of_lt hover.1))
  rw [if_neg hover]
  refine copyUp_moved hd hs ?_
  -- a source that ends at the top of memory is not below the destination
  by_cases hlt : src < dst
  · rw [Nat.mod_eq_of_lt (by omega)] at hover
    omega
  · omega

theorem memmove_moved : Moved m (memmove m dst src n) dst src n := by
  rw [memmove, Int.toNat_natCast]
  by_cases hgt : src > dst
  · rw [if_pos hgt]
    exact copyUp_moved hd hs (.inl (Nat.le_of_lt hgt))
  · have hend : ∀ a : ℕ, (((a : ℤ) + n) % 2 ^ 64).toNat = (a + n) % 2 ^ 64 := by
      intro a
      omega
    rw [if_neg hgt, hend, hend]
    exact copyDown_moved hd hs (.inl (by omega))

end

/-- **`memmove` is right for ranges that overlap in any way**, in the kernel and in the user library. The ranges may end at the top of the
address space. -/
theorem memmove_overlap (m : Memory) {dst src : ℕ} (n : ℕ) (hd : dst + n ≤ 2 ^ 64) (hs : src + n ≤ 2 ^ 64) :
    Moved m (kernelMemmove m dst src n) dst src n ∧ Moved m (memmove m dst src n) dst src n :=
  ⟨kernelMemmove_moved hd hs, memmove_moved hd hs⟩

/-- Four bytes are moved up by two, to the top of the address space. -/
theorem memmove_overlap_top :
    Moved (fun a => UInt8.ofNat a) (kernelMemmove (fun a => UInt8.ofNat a) (2 ^ 64 - 4) (2 ^ 64 - 6) 4) (2 ^ 64 - 4) (2 ^ 64 - 6) 4 :=
  (memmove_overlap (fun a => UInt8.ofNat a) 4 (by decide) (by decide)).1

end Xv6.User
