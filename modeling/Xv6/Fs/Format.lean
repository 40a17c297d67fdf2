import Xv6.Fs.Own

/-!
# The file system on the disk

Where the parts of `Xv6.FileSys.Disk` lie in the blocks of a disk: the superblock, the inodes,
several of them in a block, and the bits of the bitmap. `Xv6.FileSys.Disk.ofImage` is what the kernel
finds there.
-/

namespace Xv6.FileSys

open Lib Function

open Logging (Block getWord)

/-! ### Inodes -/

/-- The number that stands for a type: `T_DIR`, `T_FILE` and `T_DEVICE`. -/
def IType.code : IType → ℕ
  | .free => 0
  | .dir => 1
  | .file => 2
  | .device => 3

/-- The type a number stands for. No other numbers are in use. -/
def IType.ofCode : ℕ → IType
  | 0 => .free
  | 1 => .dir
  | 2 => .file
  | _ => .device

def DINODE : ℕ := 64

def IPB : ℕ := BSIZE / DINODE

/-- The number in the field of `w` bytes at `off` of a structure. -/
def field (bs : List UInt8) (off w : ℕ) : ℕ := leNat ((bs.drop off).take w)

def short (x : ℤ) : ℕ := (x % 2 ^ 16).toNat

namespace Dinode

def encode (e : Dinode) : List UInt8 :=
  leBytes 2 e.type.code ++ (leBytes 2 (short e.major) ++ (leBytes 2 (short e.minor) ++
    (leBytes 2 (short e.nlink) ++ (leBytes 4 e.size ++
      (List.range (NDIRECT + 1)).flatMap fun k => leBytes 4 (e.addrs k)))))

def decode (bs : List UInt8) : Dinode where
  type := IType.ofCode (field bs 0 2)
  major := wrapInt 16 (field bs 2 2)
  minor := wrapInt 16 (field bs 4 2)
  nlink := wrapInt 16 (field bs 6 2)
  size := field bs 8 4
  addrs k := if k ≤ NDIRECT then field bs (12 + 4 * k) 4 else 0

structure Fits (e : Dinode) : Prop where
  major : -2 ^ 15 ≤ e.major ∧ e.major < 2 ^ 15
  minor : -2 ^ 15 ≤ e.minor ∧ e.minor < 2 ^ 15
  nlink : -2 ^ 15 ≤ e.nlink ∧ e.nlink < 2 ^ 15
  size : e.size < 2 ^ 32
  addrs : ∀ k, e.addrs k < 2 ^ 32
  rest : ∀ k, NDIRECT < k → e.addrs k = 0

end Dinode

variable {e : Dinode} {bs xs ys : List UInt8} {off w x k : ℕ} {z : ℤ}

theorem field_append (h : off = xs.length + k) : field (xs ++ bs) off w = field bs k w := by
  subst h
  rw [field, field, List.drop_append, List.drop_eq_nil_of_le (by omega), List.nil_append, Nat.add_sub_cancel_left]

theorem field_leBytes (hx : x < 256 ^ w) : field (leBytes w x ++ bs) 0 w = x := by
  rw [field, List.drop_zero, List.take_left' (length_leBytes w x), leNat_leBytes, Nat.mod_eq_of_lt hx]

theorem field_lt : field bs off w < 256 ^ w := by
  refine (leNat_lt _).trans_le (Nat.pow_le_pow_right (by decide) ?_)
  rw [List.length_take]
  omega

theorem wrapInt_short (h : -2 ^ 15 ≤ z ∧ z < 2 ^ 15) : wrapInt 16 (short z) = z := by
  rw [wrapInt, short]
  omega

theorem short_lt : short z < 256 ^ 2 := by
  rw [short]
  omega

theorem wrapInt_range : -2 ^ 15 ≤ wrapInt 16 z ∧ wrapInt 16 z < 2 ^ 15 := by
  rw [wrapInt]
  omega

namespace Dinode

@[simp] theorem length_encode : e.encode.length = DINODE := by
  rw [encode]
  simp only [List.length_append, length_leBytes, length_flatMap_eq fun k => length_leBytes 4 (e.addrs k), List.length_range]
  rfl

theorem decode_encode (h : e.Fits) : decode e.encode = e := by
  have htype : IType.ofCode e.type.code = e.type := by cases e.type <;> rfl
  have hcode : e.type.code < 256 ^ 2 := by cases e.type <;> decide
  have haddrs : (decode e.encode).addrs = e.addrs := by
    funext k
    change (if k ≤ NDIRECT then field e.encode (12 + 4 * k) 4 else 0) = e.addrs k
    split
    · next hk =>
      have hlt : k < (List.range (NDIRECT + 1)).length := by
        rw [List.length_range]
        omega
      rw [encode, field_append (k := 10 + 4 * k) (by simp; omega), field_append (k := 8 + 4 * k) (by simp; omega),
        field_append (k := 6 + 4 * k) (by simp; omega), field_append (k := 4 + 4 * k) (by simp; omega),
        field_append (k := 4 * k) (by simp), field,
        take_drop_flatMap (fun k => length_leBytes 4 (e.addrs k)) hlt, leNat_leBytes, List.getElem_range]
      exact Nat.mod_eq_of_lt (h.addrs k)
    · next hk => exact (h.rest k (by omega)).symm
  refine Dinode.ext ?_ ?_ ?_ ?_ ?_ haddrs
  · change IType.ofCode (field e.encode 0 2) = e.type
    rw [encode, field_leBytes hcode, htype]
  · change wrapInt 16 (field e.encode 2 2) = e.major
    rw [encode, field_append (k := 0) (by simp), field_leBytes short_lt, wrapInt_short h.major]
  · change wrapInt 16 (field e.encode 4 2) = e.minor
    rw [encode, field_append (k := 2) (by simp), field_append (k := 0) (by simp), field_leBytes short_lt, wrapInt_short h.minor]
  · change wrapInt 16 (field e.encode 6 2) = e.nlink
    rw [encode, field_append (k := 4) (by simp), field_append (k := 2) (by simp),
      field_append (k := 0) (by simp), field_leBytes short_lt, wrapInt_short h.nlink]
  · change field e.encode 8 4 = e.size
    rw [encode, field_append (k := 6) (by simp), field_append (k := 4) (by simp),
      field_append (k := 2) (by simp), field_append (k := 0) (by simp), field_leBytes h.size]

theorem fits_decode : (decode bs).Fits where
  major := wrapInt_range
  minor := wrapInt_range
  nlink := wrapInt_range
  size := field_lt
  addrs k := by
    change (if k ≤ NDIRECT then field bs (12 + 4 * k) 4 else 0) < 2 ^ 32
    split
    · exact field_lt
    · decide
  rest k hk := if_neg (by omega)

theorem fits_zero : Dinode.zero.Fits where
  major := by decide
  minor := by decide
  nlink := by decide
  size := by decide
  addrs _ := Nat.two_pow_pos 32
  rest _ _ := rfl

end Dinode

/-! ### Images -/

def iblock (inodestart inum : ℕ) : ℕ := inum / IPB + inodestart

def dinodeAt (b : Block) (inum : ℕ) : Dinode := Dinode.decode (load b (inum % IPB * DINODE) DINODE)

def setDinodeAt (b : Block) (inum : ℕ) (e : Dinode) : Block := store b (inum % IPB * DINODE) e.encode

def Superblock.ofImage (img : ℕ → Block) : Superblock :=
  ⟨getWord (img 1) 1, getWord (img 1) 3, getWord (img 1) 7⟩

/-- **What the kernel finds on a disk.** The superblock says where the inodes and the bitmap are; the blocks up to the end of the bitmap
are for no files. -/
def Disk.ofImage (img : ℕ → Block) : Disk where
  sb := Superblock.ofImage img
  bitmap b := bitAt (img (b / (BSIZE * 8) + getWord (img 1) 7)) (b % (BSIZE * 8))
  dinode inum :=
    if inum < getWord (img 1) 3 then dinodeAt (img (iblock (getWord (img 1) 6) inum)) inum else Dinode.zero
  block b := if b < (Superblock.ofImage img).nmeta then fun _ => 0 else img b

variable {b : Block} {inum : ℕ}

theorem dinodeAt_setDinodeAt (h : e.Fits) : dinodeAt (setDinodeAt b inum e) inum = e := by
  have hslot : inum % IPB * DINODE + e.encode.length ≤ BSIZE := by
    have := Nat.mod_lt inum (show 0 < IPB by decide)
    rw [Dinode.length_encode]
    simp only [IPB, DINODE, BSIZE] at this ⊢
    omega
  have hload := load_store b e.encode hslot
  rw [Dinode.length_encode] at hload
  rw [dinodeAt, setDinodeAt, hload, Dinode.decode_encode h]

theorem dinodeAt_setDinodeAt_of_ne {j : ℕ} (h : j % IPB ≠ inum % IPB) : dinodeAt (setDinodeAt b inum e) j = dinodeAt b j := by
  rw [dinodeAt, setDinodeAt, load_store_of_disjoint, dinodeAt]
  rw [Dinode.length_encode]
  simp only [DINODE]
  omega

theorem fits_dinodeAt : (dinodeAt b inum).Fits := Dinode.fits_decode

theorem mod_ne_of_iblock_eq {s i j : ℕ} (h : iblock s j = iblock s i) (hji : j ≠ i) : j % IPB ≠ i % IPB := by
  intro hmod
  have hi := Nat.div_add_mod i IPB
  have hj := Nat.div_add_mod j IPB
  have hdiv : j / IPB = i / IPB := by
    rw [iblock, iblock] at h
    omega
  rw [hdiv] at hj
  omega

end Xv6.FileSys
