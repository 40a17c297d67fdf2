import Mathlib.Algebra.Order.Ring.Nat
import Mathlib.Data.Nat.Bitwise
import Mathlib.Data.List.Range
import Mathlib.Tactic.Ring

/-!
# Byte strings, and the numbers stored in them

A disk block, a page of memory or a file is a string of bytes, and the structures of the kernel lie in it at fixed offsets,
in little-endian order. `Xv6.Lib.load` and `Xv6.Lib.store` move bytes, `Xv6.Lib.getLE` and `Xv6.Lib.setLE` numbers of a
given width: a field holds what was stored in it, reduced to its width, and a field elsewhere is untouched.
-/

namespace Xv6.Lib

/-! ### Moving bytes -/

/-- A string of `n` bytes. -/
abbrev Bytes (n : ℕ) : Type := Fin n → UInt8

variable {n : ℕ}

/-- The byte at an offset; there are zeros past the end. -/
def byteAt (b : Bytes n) (k : ℕ) : UInt8 := if h : k < n then b ⟨k, h⟩ else 0

def load (b : Bytes n) (off len : ℕ) : List UInt8 := (List.range len).map fun k => byteAt b (off + k)

/-- Overwrite the bytes from `off` on. What would lie past the end is dropped. -/
def store (b : Bytes n) (off : ℕ) (bs : List UInt8) : Bytes n := fun i =>
  if off ≤ i ∧ i < off + bs.length then bs.getD (i - off) 0 else b i

@[simp] theorem length_load (b : Bytes n) (off len : ℕ) : (load b off len).length = len := by
  simp [load]

variable {k w : ℕ} {bs : List UInt8}

theorem getElem_load (b : Bytes n) (off len : ℕ) (hk : k < (load b off len).length) : (load b off len)[k] = byteAt b (off + k) := by
  simp [load]

theorem byteAt_store_of_mem (b : Bytes n) {off : ℕ} (hk : k < bs.length)
    (hn : off + bs.length ≤ n) : byteAt (store b off bs) (off + k) = bs[k] := by
  have hlt : off + k < n := by omega
  rw [byteAt, dif_pos hlt, store, if_pos ⟨by simp, by simp; omega⟩]
  simp [hk]

theorem byteAt_store_of_notMem (b : Bytes n) {off : ℕ}
    (hk : k < off ∨ off + bs.length ≤ k) : byteAt (store b off bs) k = byteAt b k := by
  simp only [byteAt]
  split
  · exact if_neg (by simp only; omega)
  · rfl

theorem load_store (b : Bytes n) {off : ℕ} (bs : List UInt8) (h : off + bs.length ≤ n) : load (store b off bs) off bs.length = bs := by
  refine List.ext_getElem (by simp) fun k hk hk' => ?_
  rw [getElem_load, byteAt_store_of_mem b hk' h]

theorem load_store_of_disjoint (b : Bytes n) {off off' len : ℕ} (h : off' + len ≤ off ∨ off + bs.length ≤ off') :
    load (store b off bs) off' len = load b off' len := by
  refine List.ext_getElem (by simp) fun k hk hk' => ?_
  rw [length_load] at hk
  rw [getElem_load, getElem_load, byteAt_store_of_notMem b (by omega)]

/-! ### Little-endian numbers -/

/-- The `w` bytes of a number, the lowest first. -/
def leBytes : ℕ → ℕ → List UInt8
  | 0, _ => []
  | w + 1, x => UInt8.ofNat x :: leBytes w (x / 256)

/-- The number with the given bytes. -/
def leNat : List UInt8 → ℕ
  | [] => 0
  | b :: bs => b.toNat + 256 * leNat bs

@[simp] theorem length_leBytes (w x : ℕ) : (leBytes w x).length = w := by
  induction w generalizing x with
  | zero => rfl
  | succ w ih => rw [leBytes, List.length_cons, ih]

theorem leNat_leBytes (w x : ℕ) : leNat (leBytes w x) = x % 256 ^ w := by
  induction w generalizing x with
  | zero => rw [leBytes, leNat, pow_zero, Nat.mod_one]
  | succ w ih =>
    have hx : (UInt8.ofNat x).toNat = x % 256 := UInt8.toNat_ofNat'
    rw [leBytes, leNat, ih, hx, pow_succ', Nat.mod_mul]

theorem leNat_lt (bs : List UInt8) : leNat bs < 256 ^ bs.length := by
  induction bs with
  | nil => exact Nat.one_pos
  | cons b bs ih =>
    rw [leNat, List.length_cons, pow_succ]
    have hb : b.toNat < 256 := b.toNat_lt
    omega

/-! ### Fields -/

/-- The number in the field of `w` bytes at `off`. -/
def getLE (b : Bytes n) (off w : ℕ) : ℕ := leNat (load b off w)

/-- Store a number in the field of `w` bytes at `off`. -/
def setLE (b : Bytes n) (off w x : ℕ) : Bytes n := store b off (leBytes w x)

/-- **A field holds what was stored in it**, reduced to its width. -/
theorem getLE_setLE (b : Bytes n) {off : ℕ} (x : ℕ) (h : off + w ≤ n) : getLE (setLE b off w x) off w = x % 256 ^ w := by
  have hload := load_store b (leBytes w x) (by simpa using h)
  rw [length_leBytes] at hload
  rw [getLE, setLE, hload, leNat_leBytes]

theorem getLE_setLE_of_lt (b : Bytes n) {off x : ℕ} (h : off + w ≤ n) (hx : x < 256 ^ w) : getLE (setLE b off w x) off w = x := by
  rw [getLE_setLE b x h, Nat.mod_eq_of_lt hx]

/-- **Another field is untouched.** -/
theorem getLE_setLE_of_disjoint (b : Bytes n) {off off' w' : ℕ} (x : ℕ) (h : off' + w' ≤ off ∨ off + w ≤ off') :
    getLE (setLE b off w x) off' w' = getLE b off' w' := by
  rw [getLE, setLE, load_store_of_disjoint b (by simpa using h), getLE]

/-! ### Lists that are written at an offset -/

section Overwrite

variable {α : Type} {xs ys zs : List α} {off x : ℕ}

/-- A list with another one written over it from `off` on, and beyond its end if need be. -/
def overwrite (xs : List α) (off : ℕ) (ys : List α) : List α :=
  xs.take off ++ ys ++ xs.drop (off + ys.length)

theorem overwrite_nil : overwrite xs off [] = xs := by
  simp [overwrite]

theorem length_overwrite (h : off ≤ xs.length) : (overwrite xs off ys).length = max xs.length (off + ys.length) := by
  simp only [overwrite, List.length_append, List.length_take, List.length_drop]
  omega

theorem getElem?_overwrite (h : off ≤ xs.length) : (overwrite xs off ys)[x]? = if off ≤ x ∧ x < off + ys.length then ys[x - off]? else xs[x]? := by
  have htake : (xs.take off).length = off := by simp [h]
  rw [overwrite, List.append_assoc]
  split
  · next hx =>
    rw [List.getElem?_append_right (by omega), htake, List.getElem?_append_left (by omega)]
  rename_i hx
  by_cases hlt : x < off
  · rw [List.getElem?_append_left (by omega), List.getElem?_take_of_lt hlt]
  · rw [List.getElem?_append_right (by omega), htake, List.getElem?_append_right (by omega), List.getElem?_drop]
    congr 1
    omega

theorem overwrite_append (h : off ≤ xs.length) : overwrite (overwrite xs off ys) (off + ys.length) zs = overwrite xs off (ys ++ zs) := by
  refine List.ext_getElem? fun x => ?_
  rw [getElem?_overwrite (by rw [length_overwrite h]; omega), getElem?_overwrite h, getElem?_overwrite h, List.length_append]
  rcases lt_or_ge x off with hx | hx
  · rw [if_neg (by omega), if_neg (by omega), if_neg (by omega)]
  rcases lt_or_ge x (off + ys.length) with hy | hy
  · rw [if_neg (by omega), if_pos ⟨hx, hy⟩, if_pos ⟨hx, by omega⟩, List.getElem?_append_left (by omega)]
  · rcases lt_or_ge x (off + ys.length + zs.length) with hz | hz
    · rw [if_pos ⟨hy, hz⟩, if_pos ⟨hx, by omega⟩, List.getElem?_append_right (by omega)]
      congr 1
      omega
    · rw [if_neg (by omega), if_neg (by omega), if_neg (by omega)]

end Overwrite

/-! ### Bits -/

section Bits

variable {n i j : ℕ} {b : Bytes n}

/-- `1 << (k % 8)`. -/
def bitMask (k : ℕ) : UInt8 := UInt8.ofNat (2 ^ (k % 8))

def bitAt (b : Bytes n) (k : ℕ) : Bool := byteAt b (k / 8) &&& bitMask k ≠ 0

def setBit (b : Bytes n) (k : ℕ) : Bytes n := store b (k / 8) [byteAt b (k / 8) ||| bitMask k]

theorem toNat_bitMask (k : ℕ) : (bitMask k).toNat = 2 ^ (k % 8) := by
  have hpow : 2 ^ (k % 8) < 2 ^ 8 := Nat.pow_lt_pow_right (by decide) (Nat.mod_lt _ (by decide))
  rw [bitMask, UInt8.toNat_ofNat']
  exact Nat.mod_eq_of_lt hpow

theorem bitAt_eq (b : Bytes n) (k : ℕ) : bitAt b k = (byteAt b (k / 8)).toNat.testBit (k % 8) := by
  have hzero : byteAt b (k / 8) &&& bitMask k = 0 ↔ (byteAt b (k / 8)).toNat.testBit (k % 8) = false := by
    rw [← UInt8.toNat_inj, UInt8.toNat_and, toNat_bitMask, Nat.and_two_pow]
    cases (byteAt b (k / 8)).toNat.testBit (k % 8) <;> simp
  rw [bitAt, Bool.eq_iff_iff, decide_eq_true_iff, ne_eq, hzero, Bool.not_eq_false]

/-- **A bit is set, and no other.** -/
theorem bitAt_setBit (hi : i < 8 * n) : bitAt (setBit b i) j = (bitAt b j || decide (i = j)) := by
  rw [bitAt_eq, bitAt_eq, setBit]
  by_cases hbyte : i / 8 = j / 8
  · have hself : byteAt (store b (i / 8) [byteAt b (i / 8) ||| bitMask i]) (i / 8 + 0) = _ :=
      byteAt_store_of_mem b (k := 0) (by simp) (by simp; omega)
    rw [Nat.add_zero] at hself
    rw [← hbyte, hself, List.getElem_cons_zero, UInt8.toNat_or, toNat_bitMask, Nat.testBit_or, Nat.testBit_two_pow]
    congr 2
    exact propext ⟨fun h => by omega, fun h => by omega⟩
  · have hother : i ≠ j := by
      rintro rfl
      exact hbyte rfl
    rw [byteAt_store_of_notMem _ (by simp; omega), decide_eq_false hother, Bool.or_false]

theorem bitAt_zero (k : ℕ) : bitAt (fun _ => 0 : Bytes n) k = false := by
  rw [bitAt_eq, byteAt]
  split <;> simp

theorem bitAt_foldl_setBit {used : ℕ} (h : used ≤ 8 * n) : bitAt ((List.range used).foldl setBit b) j = (bitAt b j || decide (j < used)) := by
  induction used with
  | zero => simp
  | succ used ih =>
    rw [List.range_succ, List.foldl_append, List.foldl_cons, List.foldl_nil, bitAt_setBit (by omega), ih (by omega), Bool.or_assoc]
    congr 1
    rw [← Bool.decide_or]
    congr 1
    exact propext ⟨fun h => by omega, fun h => by omega⟩

end Bits

/-! ### Records of one length -/

theorem length_flatMap_eq {α β : Type} {g : α → List β} {l : List α} (hg : ∀ a, (g a).length = w) : (l.flatMap g).length = w * l.length := by
  induction l with
  | nil => rfl
  | cons a l ih =>
    rw [List.flatMap_cons, List.length_append, hg, ih, List.length_cons, Nat.mul_succ, Nat.add_comm]

theorem take_drop_flatMap {α β : Type} {g : α → List β} {l : List α} (hg : ∀ a, (g a).length = w) (hk : k < l.length) :
    ((l.flatMap g).drop (w * k)).take w = g l[k] := by
  induction l generalizing k with
  | nil => simp at hk
  | cons a l ih =>
    rw [List.flatMap_cons]
    cases k with
    | zero => rw [Nat.mul_zero, List.drop_zero, List.take_left' (hg a), List.getElem_cons_zero]
    | succ k =>
      have hlen : w * (k + 1) = (g a).length + w * k := by rw [hg, Nat.mul_succ, Nat.add_comm]
      rw [hlen, List.drop_append, List.drop_eq_nil_of_le (by omega), List.nil_append, Nat.add_sub_cancel_left, List.getElem_cons_succ]
      exact ih (by simpa using hk)

end Xv6.Lib
