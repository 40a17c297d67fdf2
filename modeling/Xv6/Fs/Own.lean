import Xv6.Fs.Disk
import Xv6.Lib.Exclusive
import Xv6.Lib.Outcome
import Xv6.Lib.Update

/-!
# Who owns a block

A block of the disk is part of the file system's own data, or in use at one place of one inode, or free: this is
`Lib.Exclusive` for the roles of `Xv6.FileSys.Role`, and the bitmap is the allocator's view. The functions of the lower
half of `fs.c` keep it, with the inode in memory that they work on in the place of the one on the disk.

With it goes that files have no holes, because a hole is filled by whoever comes across it, even by `readi`, which does not
write the inode back.
-/

namespace Xv6.FileSys

open Lib Function

open Logging (Block getWord setWord getWord_setWord getWord_setWord_of_ne)

/-! ### Places and roles -/

/-- A place of an inode for a block number. -/
inductive Place
  | direct (i : Fin NDIRECT)
  | indirect
  | entry (j : Fin NINDIRECT)
  deriving DecidableEq

def Place.ref (block : ℕ → Block) (e : Dinode) : Place → ℕ
  | .direct i => e.addrs i
  | .indirect => e.addrs NDIRECT
  | .entry j => if e.addrs NDIRECT = 0 then 0 else getWord (block (e.addrs NDIRECT)) j

inductive Role
  /-- The boot block, the superblock, the log, the inodes and the bitmap. -/
  | system (b : ℕ)
  | of (inum : ℕ) (p : Place)
  deriving DecidableEq

def Superblock.nmeta (sb : Superblock) : ℕ := sb.bmapstart + sb.size / (BSIZE * 8) + 1

def owner (sb : Superblock) (block : ℕ → Block) (ino : ℕ → Dinode) : Role → Option ℕ
  | .system b => if b < sb.nmeta then some b else none
  | .of i p => if (ino i).type = .free ∨ p.ref block (ino i) = 0 then none
      else some (p.ref block (ino i))

def Disk.Used (d : Disk) (b : ℕ) : Prop := b < d.sb.size ∧ d.bitmap b = true

def placeOf (bn : ℕ) (h : bn < MAXFILE) : Place :=
  if h' : bn < NDIRECT then .direct ⟨bn, h'⟩
  else .entry ⟨bn - NDIRECT, by rw [MAXFILE] at h; omega⟩

def blockOf (block : ℕ → Block) (e : Dinode) (bn : ℕ) : ℕ :=
  if h : bn < MAXFILE then (placeOf bn h).ref block e else 0

/-- A file without holes. -/
structure Dense (block : ℕ → Block) (e : Dinode) : Prop where
  size : e.size ≤ MAXFILE * BSIZE
  mapped : ∀ bn, bn * BSIZE < e.size → blockOf block e bn ≠ 0

/-- The numbers in a superblock make sense. -/
structure Superblock.Layout (sb : Superblock) : Prop where
  nmeta : sb.nmeta ≤ sb.size
  size : sb.size < 2 ^ 31
  ninodes : sb.ninodes ≤ 2 ^ 16
  root : ROOTINO < sb.ninodes

/-- **The disk is in order**, with the inodes given by `ino`. -/
structure Good (d : Disk) (ino : ℕ → Dinode) : Prop where
  layout : d.sb.Layout
  excl : Exclusive (owner d.sb d.block ino) d.Used
  range : ∀ i, (ino i).type ≠ .free → 1 ≤ i ∧ i < d.sb.ninodes
  dense : ∀ i, (ino i).type ≠ .free → Dense d.block (ino i)

variable {d d' : Disk} {ino : ℕ → Dinode} {i j b bn : ℕ} {p : Place} {e : Dinode} {E : Panic → Prop}
  {sb : Superblock} {block block' : ℕ → Block} {v : Block} {k : Fin NINDIRECT} {e'' : Dinode}

/-! ### Owners -/

theorem owner_system (hb : b < sb.nmeta) : owner sb block ino (.system b) = some b := by
  rw [owner, if_pos hb]

theorem owner_of (ht : (ino i).type ≠ .free) (hp : p.ref block (ino i) ≠ 0) :
    owner sb block ino (.of i p) = some (p.ref block (ino i)) := if_neg (not_or.mpr ⟨ht, hp⟩)

theorem owner_of_zero (hp : p.ref block (ino i) = 0) : owner sb block ino (.of i p) = none :=
  if_pos (Or.inr hp)

theorem owner_of_eq (h : owner sb block ino (.of i p) = some b) : (ino i).type ≠ .free ∧ p.ref block (ino i) = b ∧ b ≠ 0 := by
  rw [owner] at h
  split at h
  · simp at h
  · next hn =>
    rw [not_or] at hn
    obtain rfl := Option.some.inj h
    exact ⟨hn.1, rfl, hn.2⟩

variable {ino' : ℕ → Dinode} {e' : Dinode}

theorem owner_congr (htype : (ino' i).type = (ino i).type)
    (href : (ino i).type ≠ .free → p.ref block' (ino' i) = p.ref block (ino i)) : owner sb block' ino' (.of i p) = owner sb block ino (.of i p) := by
  rw [owner, owner, htype]
  by_cases ht : (ino i).type = .free
  · rw [if_pos (Or.inl ht), if_pos (Or.inl ht)]
  · rw [href ht]

theorem Place.ref_congr (h : e.addrs NDIRECT ≠ 0 → block' (e.addrs NDIRECT) = block (e.addrs NDIRECT)) : p.ref block' e = p.ref block e := by
  cases p with
  | direct i | indirect => rfl
  | entry j =>
    rw [Place.ref, Place.ref]
    split
    · rfl
    · next h0 => rw [h h0]

theorem Place.ref_update (h : e.addrs NDIRECT ≠ b) : p.ref (update block b v) e = p.ref block e :=
  Place.ref_congr fun _ => update_of_ne h ..

theorem blockOf_congr (h : e.addrs NDIRECT ≠ 0 → block' (e.addrs NDIRECT) = block (e.addrs NDIRECT)) : blockOf block' e bn = blockOf block e bn := by
  rw [blockOf, blockOf]
  split
  · exact Place.ref_congr h
  · rfl

theorem placeOf_inj {h : bn < MAXFILE} {h' : j < MAXFILE} (heq : placeOf bn h = placeOf j h') : bn = j := by
  rw [placeOf, placeOf] at heq
  split at heq <;> split at heq
  · injection heq with heq
    exact congrArg Fin.val heq
  · simp at heq
  · simp at heq
  · injection heq with heq
    have := congrArg Fin.val heq
    dsimp only at this
    omega

theorem placeOf_ne_indirect {h : bn < MAXFILE} : placeOf bn h ≠ .indirect := by
  rw [placeOf]
  split
  · simp
  · simp

theorem owner_of_blockOf (sb : Superblock) (ht : (ino i).type ≠ .free) (hb : blockOf block (ino i) bn ≠ 0) :
    ∃ h : bn < MAXFILE, owner sb block ino (.of i (placeOf bn h)) = some (blockOf block (ino i) bn) := by
  rw [blockOf] at hb ⊢
  split at hb
  · next h =>
    rw [dif_pos h]
    exact ⟨h, owner_of ht hb⟩
  · exact absurd rfl hb

namespace Good

section

variable (h : Good d ino)

include h

theorem data (ho : owner d.sb d.block ino (.of i p) = some b) : d.sb.nmeta ≤ b ∧ b < d.sb.size := by
  refine ⟨?_, (h.excl.used_of ho).1⟩
  by_contra hb
  exact absurd (h.excl.inj ho (owner_system (Nat.lt_of_not_le hb))) (by simp)

section

variable (hi : (ino i).type ≠ .free) (hj : (ino j).type ≠ .free) (hb : blockOf d.block (ino i) bn ≠ 0)

include hi hj hb

theorem blockOf_ne_indirect : blockOf d.block (ino i) bn ≠ (ino j).addrs NDIRECT := by
  intro heq
  obtain ⟨hbn, ho⟩ := owner_of_blockOf d.sb hi hb
  have h0 : (ino j).addrs NDIRECT ≠ 0 := heq ▸ hb
  have ho' : owner d.sb d.block ino (.of j .indirect) = some (blockOf d.block (ino i) bn) := by
    rw [heq]
    exact owner_of hj h0
  have := h.excl.inj ho ho'
  injection this with hij hp
  exact placeOf_ne_indirect hp

theorem blockOf_inj {bm : ℕ}
    (heq : blockOf d.block (ino i) bn = blockOf d.block (ino j) bm) : i = j ∧ bn = bm := by
  obtain ⟨hbn, ho⟩ := owner_of_blockOf d.sb hi hb
  obtain ⟨hbm, ho'⟩ := owner_of_blockOf d.sb hj (heq ▸ hb)
  rw [← heq] at ho'
  have := h.excl.inj ho ho'
  injection this with hij hp
  exact ⟨hij, placeOf_inj hp⟩

end

theorem addrs_ne (hi : (ino i).type ≠ .free) (hb : ¬d.Used b) (hb0 : b ≠ 0) : (ino i).addrs NDIRECT ≠ b := by
  rintro rfl
  exact hb (h.excl.used_of (owner_of (p := .indirect) hi hb0))

theorem ne_zero (hb : ¬d.Used b) : b ≠ 0 := by
  rintro rfl
  exact hb (h.excl.used_of (owner_system (Nat.succ_pos _)))

theorem claim (hb : ¬d.Used b) (hlt : b < d.sb.size) (hp : p.ref d.block (ino i) = 0)
    (hown : ∀ r, owner d.sb block' ino' r = update (owner d.sb d.block ino) (.of i p) (some b) r) (htype : ∀ j, (ino' j).type = (ino j).type)
    (hdense : ∀ j, (ino' j).type ≠ .free → Dense block' (ino' j)) : Good { d with bitmap := update d.bitmap b true, block := block' } ino' := by
  refine ⟨h.layout, ?_, fun j hj => h.range j (htype j ▸ hj), hdense⟩
  refine (h.excl.claim (owner_of_zero hp) hb).congr hown fun x => ?_
  rw [Disk.Used, Disk.Used]
  by_cases hx : x = b
  · simp [hx, hlt]
  · simp [hx]

end

end Good

/-! ### What a file keeps -/

def Keeps (block : ℕ → Block) (e : Dinode) (block' : ℕ → Block) (e' : Dinode) : Prop :=
  ∀ bn, blockOf block e bn ≠ 0 → blockOf block' e' bn = blockOf block e bn ∧
    block' (blockOf block e bn) = block (blockOf block e bn)

theorem Keeps.refl : Keeps block e block e := fun _ _ => ⟨rfl, rfl⟩

theorem Keeps.trans {block'' : ℕ → Block} (h : Keeps block e block' e')
    (h' : Keeps block' e' block'' e'') : Keeps block e block'' e'' := by
  intro bn hbn
  obtain ⟨h₁, h₂⟩ := h bn hbn
  obtain ⟨h₃, h₄⟩ := h' bn (h₁ ▸ hbn)
  rw [h₁] at h₃ h₄
  exact ⟨h₃, h₄.trans h₂⟩

theorem Dense.mono (h : Dense block e) (hs : e'.size = e.size)
    (hm : ∀ bn, blockOf block e bn ≠ 0 → blockOf block' e' bn ≠ 0) : Dense block' e' :=
  ⟨hs ▸ h.size, fun bn hbn => hm bn (h.mapped bn (hs ▸ hbn))⟩

theorem Dense.keeps (h : Dense block e) (hs : e'.size = e.size) (hk : Keeps block e block' e') : Dense block' e' :=
  h.mono hs fun bn hbn => (hk bn hbn).1 ▸ hbn

/-- Between `(d, e)` and `(d', e')`, where `e` is inode `i` in memory, that inode has got
blocks, and the others have kept theirs. -/
structure Grown (i : ℕ) (d : Disk) (e : Dinode) (d' : Disk) (e' : Dinode) : Prop where
  good : Good d' (update d.dinode i e')
  sb : d'.sb = d.sb
  dinode : d'.dinode = d.dinode
  info : e' = { e with addrs := e'.addrs }
  others : ∀ j, j ≠ i → (d.dinode j).type ≠ .free →
    Keeps d.block (d.dinode j) d'.block (d.dinode j)

theorem Grown.refl (h : Good d (update d.dinode i e)) : Grown i d e d e :=
  ⟨h, rfl, rfl, rfl, fun _ _ _ => Keeps.refl⟩

theorem Grown.trans {d'' : Disk} (h : Grown i d e d' e') (h' : Grown i d' e' d'' e'') : Grown i d e d'' e'' := by
  refine ⟨h.dinode ▸ h'.good, h'.sb.trans h.sb, h'.dinode.trans h.dinode, ?_, fun j hj hjt => ?_⟩
  · rw [h'.info, h.info]
  · exact (h.others j hj hjt).trans (h.dinode ▸ h'.others j hj (h.dinode.symm ▸ hjt))

/-! ### Allocation -/

theorem balloc_spec (hE : E .outOfBlocks) : Post E (balloc d) fun (b, d') => ¬d.Used b ∧ b < d.sb.size ∧ d' = { d with
      bitmap := update d.bitmap b true
      block := update d.block b fun _ => 0 } := by
  rw [balloc]
  split
  · next b hb =>
    have hbit := List.find?_some hb
    have hmem := List.mem_of_find?_eq_some hb
    rw [Bool.not_eq_true'] at hbit
    refine ⟨fun hu => ?_, List.mem_range.mp hmem, rfl⟩
    exact absurd (hbit.symm.trans hu.2) (by simp)
  · exact hE

theorem getWord_zero (k : ℕ) : getWord (fun _ => 0) k = 0 := by
  have h : ∀ w off, leNat (load (fun _ => 0 : Block) off w) = 0 := by
    intro w off
    have : ∀ x ∈ load (fun _ => 0 : Block) off w, x = 0 := by
      intro x hx
      obtain ⟨k, hk, rfl⟩ := List.getElem_of_mem hx
      rw [getElem_load, byteAt]
      split <;> rfl
    generalize load (fun _ => 0 : Block) off w = l at this
    induction l with
    | nil => rfl
    | cons x l ih =>
      rw [leNat, this x List.mem_cons_self, ih fun y hy => this y (List.mem_cons_of_mem _ hy)]
      rfl
  exact h 4 (4 * k)

def addrPlace (k : ℕ) : Place := if h : k < NDIRECT then .direct ⟨k, h⟩ else .indirect

theorem addrPlace_ref {k : ℕ} (hk : k ≤ NDIRECT) : (addrPlace k).ref block e = e.addrs k := by
  rw [addrPlace]
  split
  · rfl
  · next h => rw [Place.ref, Nat.le_antisymm hk (Nat.le_of_not_lt h)]

theorem ref_update_addr {k : ℕ} (hk : k ≤ NDIRECT) (h0 : e.addrs k = 0) (hp : p ≠ addrPlace k) (hb : e.addrs NDIRECT ≠ b) :
    p.ref (update block b fun _ => 0) { e with addrs := update e.addrs k b } = p.ref block e := by
  cases p with
  | direct m =>
    refine update_of_ne (fun hmk => hp ?_) ..
    rw [addrPlace, dif_pos (hmk ▸ m.isLt)]
    exact congrArg Place.direct (Fin.ext hmk)
  | indirect =>
    refine update_of_ne (fun hmk => hp ?_) ..
    rw [addrPlace, dif_neg (by omega)]
  | entry j =>
    rw [Place.ref, Place.ref]
    by_cases hkn : k = NDIRECT
    · -- the new indirect block is empty
      subst hkn
      simp only [update_self, h0, if_true, getWord_zero, ite_self]
    · have hne : NDIRECT ≠ k := Ne.symm hkn
      simp only [update_of_ne hne, update_of_ne hb]

theorem Good.keeps_update (h : Good d ino) (hb : ¬d.Used b) (hj : (ino j).type ≠ .free) : Keeps d.block (ino j) (update d.block b v) (ino j) := by
  intro bn hbn
  obtain ⟨_, ho⟩ := owner_of_blockOf d.sb hj hbn
  refine ⟨blockOf_congr fun _ => update_of_ne (h.addrs_ne hj hb (h.ne_zero hb)) .., ?_⟩
  refine update_of_ne ?_ ..
  rintro rfl
  exact hb (h.excl.used_of ho)

theorem Grown.claim_addr {k : ℕ} (h : Good d (update d.dinode i e)) (ht : e.type ≠ .free)
    (hb : ¬d.Used b) (hlt : b < d.sb.size) (hk : k ≤ NDIRECT) (h0 : e.addrs k = 0) :
    Grown i d e { d with bitmap := update d.bitmap b true, block := update d.block b fun _ => 0 } { e with addrs := update e.addrs k b } ∧
      Keeps d.block e (update d.block b fun _ => 0) { e with addrs := update e.addrs k b } := by
  have hb0 := h.ne_zero hb
  have hti : (update d.dinode i e i).type ≠ .free := by rwa [update_self]
  have hne := h.addrs_ne hti hb hb0
  rw [update_self] at hne
  have hself : Keeps d.block e (update d.block b fun _ => 0) { e with addrs := update e.addrs k b } := by
    intro bn hbn
    have hkeep := h.keeps_update (v := fun _ => 0) hb hti
    rw [update_self] at hkeep
    refine ⟨?_, (hkeep bn hbn).2⟩
    rw [blockOf] at hbn
    split at hbn
    · next hlt =>
      rw [blockOf, blockOf, dif_pos hlt, dif_pos hlt]
      refine ref_update_addr hk h0 ?_ hne
      intro hp
      rw [hp, addrPlace_ref hk] at hbn
      exact hbn h0
    · exact absurd rfl hbn
  have hothers : ∀ j, j ≠ i → (d.dinode j).type ≠ .free → Keeps d.block (d.dinode j) (update d.block b fun _ => 0) (d.dinode j) := by
    intro j hji hj
    have := h.keeps_update (v := fun _ => 0) (j := j) hb (by rwa [update_of_ne hji])
    rwa [update_of_ne hji] at this
  refine ⟨⟨?_, rfl, rfl, rfl, hothers⟩, hself⟩
  refine h.claim (i := i) (p := addrPlace k) hb hlt ?_ (fun r => ?_) (fun j => ?_) fun j hj => ?_
  · rw [update_self, addrPlace_ref hk, h0]
  · cases r with
    | system b' =>
      rw [update_of_ne (by simp)]
      rfl
    | of j q =>
      by_cases hji : j = i
      · subst hji
        by_cases hq : q = addrPlace k
        · subst hq
          rw [update_self, owner_of (by rwa [update_self])]
          · rw [update_self, addrPlace_ref hk]
            exact congrArg some (update_self ..)
          · rw [update_self, addrPlace_ref hk]
            exact fun heq => hb0 ((update_self k b e.addrs).symm.trans heq)
        · rw [update_of_ne (by simp [hq])]
          refine owner_congr (by rw [update_self, update_self]) fun _ => ?_
          rw [update_self, update_self]
          exact ref_update_addr hk h0 hq hne
      · rw [update_of_ne (by simp [hji])]
        refine owner_congr (by rw [update_of_ne hji, update_of_ne hji]) fun hj => ?_
        rw [update_of_ne hji]
        have := h.addrs_ne hj hb hb0
        rw [update_of_ne hji] at this ⊢
        exact Place.ref_update this
  · exact forall_update₂ (P := fun _ a b => Dinode.type a = Dinode.type b) (by rfl) (fun _ _ => rfl) j
  · by_cases hji : j = i
    · subst hji
      have := h.dense j (by rwa [update_self])
      rw [update_self] at this ⊢
      exact this.keeps rfl hself
    · rw [update_of_ne hji] at hj ⊢
      have := h.dense j (by rwa [update_of_ne hji])
      rw [update_of_ne hji] at this
      exact this.keeps rfl (hothers j hji hj)

theorem Good.indirect_ne (h : Good d ino) (hi : (ino i).type ≠ .free) (hj : (ino j).type ≠ .free)
    (hji : j ≠ i) (h0 : (ino j).addrs NDIRECT ≠ 0) : (ino j).addrs NDIRECT ≠ (ino i).addrs NDIRECT := by
  intro heq
  have ho : owner d.sb d.block ino (.of j .indirect) = some ((ino i).addrs NDIRECT) :=
    heq ▸ owner_of (p := .indirect) hj h0
  have h0' : (ino i).addrs NDIRECT ≠ 0 := heq ▸ h0
  have ho' : owner d.sb d.block ino (.of i .indirect) = some ((ino i).addrs NDIRECT) :=
    owner_of (p := .indirect) hi h0'
  have := h.excl.inj ho ho'
  injection this with hij
  exact hji hij

theorem ref_setWord (hp : p ≠ .entry k) (hind : block' (e.addrs NDIRECT) =
    setWord (block (e.addrs NDIRECT)) k b) : p.ref block' e = p.ref block e := by
  cases p with
  | direct m | indirect => rfl
  | entry j =>
    rw [Place.ref, Place.ref]
    split
    · rfl
    · rw [hind, getWord_setWord_of_ne fun hjk => hp (congrArg Place.entry (Fin.ext hjk))]

theorem Grown.claim_entry (h : Good d (update d.dinode i e))
    (ht : e.type ≠ .free) (hb : ¬d.Used b) (hlt : b < d.sb.size) (hind : e.addrs NDIRECT ≠ 0) (h0 : getWord (d.block (e.addrs NDIRECT)) k = 0)
    (hblock' : block' = update (update d.block b fun _ => 0) (e.addrs NDIRECT) (setWord (d.block (e.addrs NDIRECT)) k b)) :
    Grown i d e { d with bitmap := update d.bitmap b true, block := block' } e ∧ Keeps d.block e block' e := by
  have hb0 := h.ne_zero hb
  have hti : (update d.dinode i e i).type ≠ .free := by rwa [update_self]
  have hne := h.addrs_ne hti hb hb0
  rw [update_self] at hne
  have hb32 : b < 2 ^ 32 := hlt.trans (h.layout.size.trans (by decide))
  have hk : (k : ℕ) < 256 := k.isLt
  have hnew : block' (e.addrs NDIRECT) = setWord (d.block (e.addrs NDIRECT)) k b := by
    rw [hblock', update_self]
  -- blocks with contents, and other indirect blocks, are not touched
  have hdata : ∀ j, (update d.dinode i e j).type ≠ .free → ∀ bn, blockOf d.block (update d.dinode i e j) bn ≠ 0 →
        block' (blockOf d.block (update d.dinode i e j) bn) = d.block (blockOf d.block (update d.dinode i e j) bn) := by
    intro j hj bn hbn
    have hni := h.blockOf_ne_indirect hj hti hbn
    rw [update_self] at hni
    rw [hblock', update_of_ne hni]
    exact (h.keeps_update hb hj bn hbn).2
  have hother : ∀ j, j ≠ i → (d.dinode j).type ≠ .free → (d.dinode j).addrs NDIRECT ≠ 0 →
      block' ((d.dinode j).addrs NDIRECT) = d.block ((d.dinode j).addrs NDIRECT) := by
    intro j hji hj hj0
    have hj' : (update d.dinode i e j).type ≠ .free := by rwa [update_of_ne hji]
    have h₁ := h.indirect_ne hti hj' hji (by rwa [update_of_ne hji])
    have h₂ := h.addrs_ne hj' hb hb0
    rw [update_of_ne hji] at h₁ h₂
    rw [update_self] at h₁
    rw [hblock', update_of_ne h₁, update_of_ne h₂]
  have hself : Keeps d.block e block' e := by
    intro bn hbn
    have hd := hdata i hti bn
    rw [update_self] at hd
    refine ⟨?_, hd hbn⟩
    rw [blockOf] at hbn
    split at hbn
    · next hlt =>
      rw [blockOf, blockOf, dif_pos hlt, dif_pos hlt]
      refine ref_setWord ?_ hnew
      intro hp
      rw [hp, Place.ref, if_neg hind] at hbn
      exact hbn h0
    · exact absurd rfl hbn
  have hothers : ∀ j, j ≠ i → (d.dinode j).type ≠ .free → Keeps d.block (d.dinode j) block' (d.dinode j) := by
    intro j hji hj bn hbn
    have hd := hdata j
    rw [update_of_ne hji] at hd
    exact ⟨blockOf_congr (hother j hji hj), hd hj bn hbn⟩
  refine ⟨⟨?_, rfl, rfl, rfl, hothers⟩, hself⟩
  refine h.claim (i := i) (p := .entry k) hb hlt ?_ (fun r => ?_) (fun j => rfl) fun j hj => ?_
  · rw [update_self, Place.ref, if_neg hind, h0]
  · cases r with
    | system b' =>
      rw [update_of_ne (by simp)]
      rfl
    | of j q =>
      by_cases hji : j = i
      · subst hji
        by_cases hq : q = .entry k
        · have href : (Place.entry k).ref block' e = b := by
            rw [Place.ref, if_neg hind, hnew, getWord_setWord hk hb32]
          rw [hq, update_self, owner_of hti]
          · rw [update_self, href]
          · rwa [update_self, href]
        · rw [update_of_ne (by simp [hq])]
          refine owner_congr rfl fun _ => ?_
          rw [update_self]
          exact ref_setWord hq hnew
      · rw [update_of_ne (by simp [hji])]
        refine owner_congr rfl fun hj => ?_
        rw [update_of_ne hji] at hj ⊢
        exact Place.ref_congr (hother j hji hj)
  · have := h.dense j hj
    by_cases hji : j = i
    · subst hji
      rw [update_self] at this ⊢
      exact this.keeps rfl hself
    · rw [update_of_ne hji] at this hj ⊢
      exact this.keeps rfl (hothers j hji hj)

theorem blockOf_of_lt (h : bn < NDIRECT) : blockOf block e bn = e.addrs bn := by
  have hlt : bn < MAXFILE := by rw [MAXFILE]; omega
  rw [blockOf, dif_pos hlt, placeOf, dif_pos h]
  rfl

theorem blockOf_of_ge (h : NDIRECT ≤ bn) (h' : bn - NDIRECT < NINDIRECT) (h0 : e.addrs NDIRECT ≠ 0) :
    blockOf block e bn = getWord (block (e.addrs NDIRECT)) (bn - NDIRECT) := by
  have hlt : bn < MAXFILE := by rw [MAXFILE]; omega
  rw [blockOf, dif_pos hlt, placeOf, dif_neg (by omega), Place.ref, if_neg h0]

theorem blockOf_of_lacks (h : NDIRECT ≤ bn) (h0 : e.addrs NDIRECT = 0) : blockOf block e bn = 0 := by
  rw [blockOf]
  split
  · rw [placeOf, dif_neg (by omega), Place.ref, if_pos h0]
  · rfl

theorem bmap_of_ne (hb : blockOf d.block e bn ≠ 0) : bmap d e bn = .ok (blockOf d.block e bn, d, e) := by
  rw [bmap]
  split
  · next h =>
    rw [blockOf_of_lt h] at hb ⊢
    rw [if_neg hb]
  rename_i h
  split
  · next h' =>
    have h0 : e.addrs NDIRECT ≠ 0 := fun h0 => hb (blockOf_of_lacks (Nat.le_of_not_lt h) h0)
    rw [blockOf_of_ge (Nat.le_of_not_lt h) h' h0] at hb ⊢
    rw [bmapIndirect, if_neg h0]
    exact if_neg hb
  · next h' =>
    rw [blockOf, dif_neg (by rw [MAXFILE]; omega)] at hb
    exact absurd rfl hb

theorem bmapIndirect_spec (h : Good d (update d.dinode i e)) (ht : e.type ≠ .free) (hE : E .outOfBlocks) : Post E (bmapIndirect d e) fun (d', e') =>
      Grown i d e d' e' ∧ Keeps d.block e d'.block e' ∧ e'.addrs NDIRECT ≠ 0 := by
  rw [bmapIndirect]
  split
  · next h0 =>
    refine (balloc_spec hE).bind ?_
    rintro ⟨b, d'⟩ ⟨hfree, hsize, rfl⟩
    obtain ⟨hg, hk⟩ := Grown.claim_addr h ht hfree hsize le_rfl h0
    refine ⟨hg, hk, fun heq => h.ne_zero hfree ?_⟩
    exact (update_self NDIRECT b e.addrs).symm.trans heq
  · next h0 => exact ⟨Grown.refl h, Keeps.refl, h0⟩

/-- **`bmap` finds a block or adds one**, and disturbs no file. -/
theorem bmap_spec (h : Good d (update d.dinode i e)) (ht : e.type ≠ .free) (hbn : bn < MAXFILE)
    (hE : E .outOfBlocks) : Post E (bmap d e bn) fun (addr, d', e') =>
      Grown i d e d' e' ∧ Keeps d.block e d'.block e' ∧ addr = blockOf d'.block e' bn ∧ addr ≠ 0 := by
  by_cases hb : blockOf d.block e bn = 0
  swap
  · rw [bmap_of_ne hb]
    exact ⟨Grown.refl h, Keeps.refl, rfl, hb⟩
  rw [bmap]
  split
  · next hlt =>
    rw [blockOf_of_lt hlt] at hb
    rw [if_pos hb]
    refine (balloc_spec hE).bind ?_
    rintro ⟨b, d'⟩ ⟨hfree, hsize, rfl⟩
    obtain ⟨hg, hk⟩ := Grown.claim_addr h ht hfree hsize (Nat.le_of_lt hlt) hb
    refine ⟨hg, hk, ?_, h.ne_zero hfree⟩
    rw [blockOf_of_lt hlt]
    exact (update_self bn b e.addrs).symm
  rename_i hge
  have hge : NDIRECT ≤ bn := Nat.le_of_not_lt hge
  have hlt : bn - NDIRECT < NINDIRECT := by
    rw [MAXFILE] at hbn
    omega
  rw [if_pos hlt]
  refine (bmapIndirect_spec h ht hE).bind ?_
  rintro ⟨d₁, e₁⟩ ⟨hg, hk, h0⟩
  dsimp only
  split
  · next hw =>
    refine (balloc_spec hE).bind ?_
    rintro ⟨b, d'⟩ ⟨hfree, hsize, rfl⟩
    have ht₁ : e₁.type ≠ .free := by rwa [hg.info]
    have hgood : Good d₁ (update d₁.dinode i e₁) := hg.dinode ▸ hg.good
    have hti : (update d₁.dinode i e₁ i).type ≠ .free := by rwa [update_self]
    have hne := hgood.addrs_ne hti hfree (hgood.ne_zero hfree)
    rw [update_self] at hne
    obtain ⟨hg₂, hk₂⟩ := Grown.claim_entry (k := ⟨bn - NDIRECT, hlt⟩) hgood ht₁ hfree hsize h0 hw rfl
    dsimp only
    rw [update_of_ne hne]
    refine ⟨hg.trans hg₂, hk.trans hk₂, ?_, hgood.ne_zero hfree⟩
    rw [blockOf_of_ge hge hlt h0]
    dsimp only
    rw [update_self, getWord_setWord hlt]
    exact hsize.trans (hgood.layout.size.trans (by decide))
  · next hw =>
    refine ⟨hg, hk, ?_, hw⟩
    rw [blockOf_of_ge hge hlt h0]

end Xv6.FileSys
