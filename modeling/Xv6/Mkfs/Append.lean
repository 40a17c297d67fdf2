import Xv6.Mkfs.Basic
import Xv6.Fs.Bytes

/-!
# `iappend` is `writei`

The image that `mkfs` works on, seen with the eyes of the kernel: the blocks below `freeblock` are in use,
although no bitmap says so yet. Taking the block at `freeblock` is what `balloc` of the kernel does to this
disk, since the blocks from there on are still zero; so `iappend` does what `writei` does at the end of the
file, as long as there is room, and gives up where `writei` would run out of blocks.
-/

namespace Xv6.Mkfs

open Lib Function FileSys

open Logging (Block getWord setWord getWord_setWord getWord_setWord_of_ne)

variable {j m : ℕ} {block : ℕ → Block} {din' : Dinode}

def State.disk (st : State) : Disk :=
  { Disk.ofImage st.sect with bitmap := fun b => decide (b < st.freeblock) }

variable {st st' : State} {i x b fbn off : ℕ} {v : Block} {e din : Dinode} {ino : ℕ → Dinode} {p : List UInt8}

theorem disk_eq (h : st.sect 1 = superBlock) : st.disk =
    { sb := ⟨FSSIZE, NINODES, bmapstart⟩
      bitmap := fun b => decide (b < st.freeblock)
      dinode := fun inum =>
        if inum < NINODES then dinodeAt (st.sect (iblock inodestart inum)) inum else Dinode.zero
      block := fun b => if b < nmeta then zeroes else st.sect b } := by
  have hsize : getWord superBlock 1 = FSSIZE := by decide +kernel
  have hninodes : getWord superBlock 3 = NINODES := by decide +kernel
  have hinodes : getWord superBlock 6 = inodestart := by decide +kernel
  have hbmap : getWord superBlock 7 = bmapstart := by decide +kernel
  rw [State.disk, Disk.ofImage, Superblock.ofImage, h, hsize, hninodes, hinodes, hbmap]
  rfl

theorem nmeta_eq : nmeta = 46 := by decide

theorem nmeta_sb : (⟨FSSIZE, NINODES, bmapstart⟩ : Superblock).nmeta = nmeta := by decide

theorem iblock_lt (hi : i < NINODES) : 32 ≤ iblock inodestart i ∧ iblock inodestart i < 45 := by
  have hIPB : IPB = 16 := by decide
  have hs : inodestart = 32 := by decide
  rw [iblock, hs, hIPB]
  rw [NINODES] at hi
  omega

theorem wsect_sect : (wsect st x v).sect = update st.sect x v := rfl

theorem disk_wsect (h : st.sect 1 = superBlock) (hx : nmeta ≤ x) : (wsect st x v).disk = { st.disk with block := update st.disk.block x v } := by
  have h1 : (wsect st x v).sect 1 = superBlock := by
    rw [nmeta_eq] at hx
    exact (update_of_ne (by omega) ..).trans h
  rw [disk_eq h1, disk_eq h]
  have hdinode : ∀ inum, inum < NINODES → (wsect st x v).sect (iblock inodestart inum) = st.sect (iblock inodestart inum) := by
    intro inum hi
    have hlt := (iblock_lt hi).2
    rw [nmeta_eq] at hx
    exact update_of_ne (by omega) ..
  simp only [Disk.mk.injEq, true_and]
  refine ⟨rfl, ?_, ?_⟩
  · funext inum
    split
    · next hi => rw [hdinode inum hi]
    · rfl
  funext b
  by_cases hb : b = x
  · rw [hb, update_self, if_neg (by omega)]
    exact update_self ..
  · rw [update_of_ne hb]
    split
    · rfl
    · exact update_of_ne hb ..

theorem winode_spec (h : st.sect 1 = superBlock) (hn : st.nsect = FSSIZE) (hi : i < NINODES) (he : e.Fits) :
    ∃ st', winode st i e = .ok st' ∧ st'.disk = FileSys.iupdate st.disk i e ∧ st'.sect 1 = superBlock ∧
      st'.nsect = FSSIZE ∧ st'.freeblock = st.freeblock ∧ st'.freeinode = st.freeinode ∧
      st'.written = st.written ++ [i] ∧ ∀ b, nmeta ≤ b → st'.sect b = st.sect b := by
  obtain ⟨hlo, hhi⟩ := iblock_lt hi
  have hlt : iblock inodestart i < st.nsect := by
    rw [hn, FSSIZE]
    omega
  have h1 : update st.sect (iblock inodestart i) (setDinodeAt (st.sect (iblock inodestart i)) i e) 1 =
      superBlock := (update_of_ne (by omega) ..).trans h
  have hdata : ∀ b, nmeta ≤ b → update st.sect (iblock inodestart i) (setDinodeAt (st.sect (iblock inodestart i)) i e) b = st.sect b := by
    intro b hb
    rw [nmeta_eq] at hb
    exact update_of_ne (by omega) ..
  refine ⟨{ wsect st (iblock inodestart i) (setDinodeAt (st.sect (iblock inodestart i)) i e) with
    written := st.written ++ [i] }, ?_, ?_, h1, (max_eq_left (by omega)).trans hn, rfl, rfl, rfl, hdata⟩
  · rw [winode, rsect, if_pos hlt]
    rfl
  refine (disk_eq ?_).trans ?_
  · exact h1
  rw [disk_eq h, FileSys.iupdate]
  have hdinode : ∀ inum, inum < NINODES → inum ≠ i →
      dinodeAt (update st.sect (iblock inodestart i) (setDinodeAt (st.sect (iblock inodestart i)) i e)
        (iblock inodestart inum)) inum = dinodeAt (st.sect (iblock inodestart inum)) inum := by
    intro inum _ hii
    -- the two inodes may be in one block
    by_cases hblock : iblock inodestart inum = iblock inodestart i
    · rw [hblock, update_self, dinodeAt_setDinodeAt_of_ne (mod_ne_of_iblock_eq hblock hii)]
    · rw [update_of_ne hblock]
  simp only [Disk.mk.injEq, true_and]
  refine ⟨rfl, funext fun inum => ?_, funext fun b => ?_⟩
  · by_cases hii : inum = i
    · rw [hii, update_self, if_pos hi, wsect_sect, update_self, dinodeAt_setDinodeAt he]
    · rw [update_of_ne hii]
      by_cases hin : inum < NINODES
      · rw [if_pos hin, if_pos hin, wsect_sect, hdinode inum hin hii]
      · rw [if_neg hin, if_neg hin]
  · split
    · rfl
    · rw [wsect_sect, hdata b (by omega)]

/-! ### What `mkfs` keeps -/

/-- The superblock is there, and the blocks from `freeblock` on are as they were in the beginning. -/
structure Clean (st : State) : Prop where
  super : st.sect 1 = superBlock
  nsect : st.nsect = FSSIZE
  lower : nmeta ≤ st.freeblock
  blank : ∀ b, st.freeblock ≤ b → st.sect b = zeroes

/-- **The image is in order**, with the inodes given by `ino`. -/
structure Sound (st : State) (ino : ℕ → Dinode) : Prop extends Clean st where
  room : st.freeblock ≤ FSSIZE
  good : Good st.disk ino

def State.take (st : State) : State := { st with freeblock := st.freeblock + 1 }

namespace Clean

variable (h : Clean st)

include h

theorem disk_sb : st.disk.sb = ⟨FSSIZE, NINODES, bmapstart⟩ := by rw [disk_eq h.super]

theorem disk_block (hb : nmeta ≤ b) : st.disk.block b = st.sect b := by
  rw [disk_eq h.super]
  exact if_neg (by omega)

theorem take : Clean st.take where
  super := h.super
  nsect := h.nsect
  lower := Nat.le_succ_of_le h.lower
  blank b hb := h.blank b (Nat.le_of_succ_le hb)

theorem wsect (hx : nmeta ≤ x) (hlt : x < st.freeblock) (hsize : x < FSSIZE) : Clean (wsect st x v) where
  super := by
    rw [nmeta_eq] at hx
    exact (update_of_ne (by omega) ..).trans h.super
  nsect := by
    have := h.nsect
    exact (max_eq_left (by omega)).trans h.nsect
  lower := h.lower
  blank b hb := (update_of_ne (fun heq => absurd hb (by subst heq; exact Nat.not_le.mpr hlt)) ..).trans (h.blank b hb)

theorem block_freeblock : st.disk.block st.freeblock = fun _ => 0 := by
  rw [h.disk_block h.lower, h.blank _ le_rfl]
  rfl

/-- **`balloc` of the kernel** takes the block that `mkfs` takes. -/
theorem balloc_eq (hlt : st.freeblock < FSSIZE) : FileSys.balloc st.disk = .ok (st.freeblock, st.take.disk) := by
  have hfind : (List.range st.disk.sb.size).find? (fun b => !st.disk.bitmap b) = some st.freeblock := by
    rw [disk_eq h.super, List.find?_range_eq_some]
    simp only [List.mem_range]
    exact ⟨by simp, hlt, fun b hb => by simp [hb]⟩
  have hbitmap : update st.disk.bitmap st.freeblock true = fun b => decide (b < st.freeblock + 1) := by
    funext b
    by_cases hb : b = st.freeblock
    · simp [hb]
    · rw [update_of_ne hb]
      exact decide_eq_decide.mpr ⟨fun h => by omega, fun h => by omega⟩
  rw [FileSys.balloc, hfind]
  dsimp only
  rw [hbitmap, ← h.block_freeblock, update_eq_self]
  rfl

theorem rsect_eq (hx : x < FSSIZE) : rsect st x = .ok (st.sect x) := by
  rw [rsect, if_pos (by rw [h.nsect]; exact hx)]

theorem rsect_die (hx : FSSIZE ≤ x) : rsect st x = .error .die := by
  have := h.nsect
  rw [rsect, if_neg (by omega)]

end Clean

/-! ### Finding a block -/

def fresh (block : ℕ → Block) (din : Dinode) (fbn : ℕ) : ℕ :=
  (if blockOf block din fbn = 0 then 1 else 0) + if NDIRECT ≤ fbn ∧ din.addrs NDIRECT = 0 then 1 else 0

/-- What a round of `iappend` and `bmap` of the kernel agree in, when they have found block `fbn`. -/
structure Mapped (st : State) (din : Dinode) (fbn : ℕ) (x : ℕ) (st' : State) (din' : Dinode) : Prop where
  mapped : mapBlock st din fbn = .ok (x, st', din')
  bmap : bmap st.disk din fbn = .ok (x, st'.disk, din')
  clean : Clean st'
  freeblock : st'.freeblock = st.freeblock + fresh st.disk.block din fbn
  freeinode : st'.freeinode = st.freeinode
  written : st'.written = st.written
  others : ∀ bn, bn ≠ fbn → blockOf st'.disk.block din' bn = blockOf st.disk.block din bn
  indirect : din'.addrs NDIRECT = 0 ↔ din.addrs NDIRECT = 0 ∧ fbn < NDIRECT
  fits : din.Fits → din'.Fits

theorem sub_lt (hmax : fbn < MAXFILE) : fbn - NDIRECT < NINDIRECT := by
  have hpos : 0 < NINDIRECT := by decide
  rw [MAXFILE] at hmax
  omega

theorem fits_update {k : ℕ} (h : din.Fits) (hk : k ≤ NDIRECT) (hb : b < 2 ^ 32) : { din with addrs := update din.addrs k b }.Fits where
  major := h.major
  minor := h.minor
  nlink := h.nlink
  size := h.size
  addrs j := by
    by_cases hj : j = k
    · simpa [hj] using hb
    · simpa [hj] using h.addrs j
  rest j hj := (update_of_ne (by omega) ..).trans (h.rest j hj)

section

variable (h : Sound st (update st.disk.dinode i din)) (ht : din.type ≠ .free)

include h ht

theorem Sound.range (q : Place)
    (h0 : q.ref st.disk.block din ≠ 0) : nmeta ≤ q.ref st.disk.block din ∧
      q.ref st.disk.block din < st.freeblock ∧ q.ref st.disk.block din < FSSIZE := by
  have ho : owner st.disk.sb st.disk.block (update st.disk.dinode i din) (.of i q) = some (q.ref st.disk.block din) := by
    rw [owner, update_self]
    exact if_neg (not_or.mpr ⟨ht, h0⟩)
  obtain ⟨hlo, hhi⟩ := h.good.data ho
  have hused : decide (q.ref st.disk.block din < st.freeblock) = true := (h.good.excl.used_of ho).2
  rw [h.disk_sb] at hlo hhi
  rw [nmeta_sb] at hlo
  exact ⟨hlo, of_decide_eq_true hused, hhi⟩

theorem Sound.indirect_range
    (h0 : din.addrs NDIRECT ≠ 0) : nmeta ≤ din.addrs NDIRECT ∧ din.addrs NDIRECT < st.freeblock ∧ din.addrs NDIRECT < FSSIZE :=
  h.range ht .indirect h0

end

section Found

variable (h : Sound st (update st.disk.dinode i din))

include h

theorem Sound.mapEntry_of_ne (ht : din.type ≠ .free) (h0 : din.addrs NDIRECT ≠ 0) (hj : getWord (st.disk.block (din.addrs NDIRECT)) j ≠ 0) :
    mapEntry st din j = .ok (getWord (st.disk.block (din.addrs NDIRECT)) j, st) := by
  obtain ⟨hlo, -, hhi⟩ := h.indirect_range ht h0
  rw [h.disk_block hlo] at hj ⊢
  rw [mapEntry, h.rsect_eq hhi]
  exact if_neg hj

theorem Sound.mapped_of_ne (ht : din.type ≠ .free) (hfbn : fbn < MAXFILE) (hb : blockOf st.disk.block din fbn ≠ 0) :
    Mapped st din fbn (blockOf st.disk.block din fbn) st din := by
  have hind : NDIRECT ≤ fbn → din.addrs NDIRECT ≠ 0 := fun hge h0 => hb (blockOf_of_lacks hge h0)
  have hfresh : fresh st.disk.block din fbn = 0 := by
    rw [fresh, if_neg hb, if_neg fun hc => hind hc.1 hc.2]
  refine ⟨?_, bmap_of_ne hb, h.toClean, by rw [hfresh, Nat.add_zero], rfl, rfl, fun _ _ => rfl, ?_, id⟩
  · rw [mapBlock]
    by_cases hlt : fbn < NDIRECT
    · rw [blockOf_of_lt hlt] at hb ⊢
      rw [if_pos hlt, if_neg hb]
    have h0 := hind (by omega)
    rw [blockOf_of_ge (by omega) (sub_lt hfbn) h0] at hb ⊢
    rw [if_neg hlt, mapIndirect, if_neg h0]
    dsimp only
    rw [h.mapEntry_of_ne ht h0 hb]
    rfl
  · constructor
    · intro h0
      exact ⟨h0, Nat.lt_of_not_le fun hge => hind hge h0⟩
    · exact fun hc => hc.1

theorem Sound.mapped_direct (hlt : fbn < NDIRECT) (hb : din.addrs fbn = 0) (hroom : st.freeblock < FSSIZE) :
    Mapped st din fbn st.freeblock st.take { din with addrs := update din.addrs fbn st.freeblock } := by
  have hfresh : fresh st.disk.block din fbn = 1 := by
    rw [fresh, blockOf_of_lt hlt, if_pos hb, if_neg (by omega)]
  have hne : NDIRECT ≠ fbn := by omega
  refine ⟨?_, ?_, h.take, by rw [hfresh]; rfl, rfl, rfl, fun bn hbn => ?_, ?_, fun hf =>
    fits_update hf (by omega) (hroom.trans (by decide))⟩
  · rw [mapBlock, if_pos hlt, if_pos hb]
    rfl
  · rw [FileSys.bmap, if_pos hlt, if_pos hb, h.balloc_eq hroom]
    rfl
  · change blockOf st.disk.block _ bn = _
    by_cases hbn' : bn < NDIRECT
    · rw [blockOf_of_lt hbn', blockOf_of_lt hbn']
      exact update_of_ne hbn ..
    · rw [blockOf, blockOf]
      split
      · rw [placeOf, dif_neg hbn', Place.ref, Place.ref]
        simp only [update_of_ne hne]
      · rfl
  · simp only [update_of_ne hne]
    exact ⟨fun h0 => ⟨h0, hlt⟩, fun hc => hc.1⟩

end Found

theorem blockOf_setWord {bn : ℕ} (h0 : e.addrs NDIRECT ≠ 0) (hge : NDIRECT ≤ fbn) (hbn : bn ≠ fbn) :
    blockOf (update block (e.addrs NDIRECT) (setWord (block (e.addrs NDIRECT)) (fbn - NDIRECT) b)) e bn = blockOf block e bn := by
  by_cases hlt : bn < NDIRECT
  · rw [blockOf_of_lt hlt, blockOf_of_lt hlt]
  by_cases hmax : bn - NDIRECT < NINDIRECT
  · rw [blockOf_of_ge (by omega) hmax h0, blockOf_of_ge (by omega) hmax h0, update_self, getWord_setWord_of_ne (by omega)]
  · have hout : ¬bn < MAXFILE := by
      rw [MAXFILE]
      omega
    rw [blockOf, blockOf, dif_neg hout, dif_neg hout]

def withIndirect (e : Dinode) (b : ℕ) : Dinode := { e with addrs := update e.addrs NDIRECT b }

theorem withIndirect_self : (withIndirect e b).addrs NDIRECT = b := by simp [withIndirect]

theorem blockOf_new {bn : ℕ} (h0 : e.addrs NDIRECT = 0) (hb : block b = fun _ => 0) :
    blockOf block (withIndirect e b) bn = blockOf block e bn := by
  by_cases hlt : bn < NDIRECT
  · rw [blockOf_of_lt hlt, blockOf_of_lt hlt]
    exact update_of_ne (by omega) ..
  · rw [blockOf, blockOf]
    split
    · rw [placeOf, dif_neg hlt, Place.ref, Place.ref, if_pos h0]
      simp only [withIndirect_self, hb, getWord_zero, ite_self]
    · rfl

theorem bmap_of_ge {d : Disk} (hge : NDIRECT ≤ fbn) (hmax : fbn < MAXFILE) : bmap d din fbn = bmapIndirect d din >>= fun q =>
      if getWord (q.1.block (q.2.addrs NDIRECT)) (fbn - NDIRECT) = 0 then FileSys.balloc q.1 >>= fun r => .ok (r.1, { r.2 with
          block := update r.2.block (q.2.addrs NDIRECT)
            (setWord (r.2.block (q.2.addrs NDIRECT)) (fbn - NDIRECT) r.1) }, q.2)
      else .ok (getWord (q.1.block (q.2.addrs NDIRECT)) (fbn - NDIRECT), q.1, q.2) := by
  rw [bmap, if_neg (by omega), if_pos (sub_lt hmax)]

section Entry

variable (h : Clean st) (hge : NDIRECT ≤ fbn) (hmax : fbn < MAXFILE) (hlo : nmeta ≤ din.addrs NDIRECT)
  (hused : din.addrs NDIRECT < st.freeblock) (hhi : din.addrs NDIRECT < FSSIZE)
  (hj : getWord (st.disk.block (din.addrs NDIRECT)) (fbn - NDIRECT) = 0)

theorem ne_zero_of_lower (hb : nmeta ≤ b) : b ≠ 0 := by
  rw [nmeta_eq] at hb
  omega

include h hge hmax hlo hhi hj

theorem Clean.mapBlock_entry (hfree : st.freeblock ≤ FSSIZE) : mapBlock st din fbn = .ok (st.freeblock,
    Mkfs.wsect st.take (din.addrs NDIRECT) (setWord (st.disk.block (din.addrs NDIRECT)) (fbn - NDIRECT) st.freeblock), din) := by
  have hentry : mapEntry st din (fbn - NDIRECT) = .ok (st.freeblock, Mkfs.wsect st.take (din.addrs NDIRECT)
      (setWord (st.disk.block (din.addrs NDIRECT)) (fbn - NDIRECT) st.freeblock)) := by
    rw [h.disk_block hlo] at hj ⊢
    rw [mapEntry, h.rsect_eq hhi]
    refine (if_pos hj).trans ?_
    rw [getWord_setWord (sub_lt hmax) (hfree.trans_lt (by decide))]
    rfl
  rw [mapBlock, if_neg (by omega), mapIndirect, if_neg (ne_zero_of_lower hlo)]
  dsimp only
  rw [hentry]
  rfl

include hused

theorem Clean.mapped_entry (hroom : st.freeblock < FSSIZE) : Mapped st din fbn st.freeblock (Mkfs.wsect st.take (din.addrs NDIRECT)
    (setWord (st.disk.block (din.addrs NDIRECT)) (fbn - NDIRECT) st.freeblock)) din := by
  have h0 := ne_zero_of_lower hlo
  have hfresh : fresh st.disk.block din fbn = 1 := by
    rw [fresh, blockOf_of_ge hge (sub_lt hmax) h0, if_pos hj, if_neg fun hc => h0 hc.2]
  refine ⟨h.mapBlock_entry hge hmax hlo hhi hj hroom.le, ?_, h.take.wsect hlo (Nat.lt_succ_of_lt hused) hhi, by rw [hfresh]; rfl,
    rfl, rfl, fun bn hbn => ?_, ⟨fun hc => absurd hc h0, fun hc => hc.1⟩, id⟩
  · rw [bmap_of_ge hge hmax, bmapIndirect, if_neg h0]
    refine (if_pos hj).trans ?_
    rw [h.balloc_eq hroom, disk_wsect h.take.super hlo]
    rfl
  · rw [disk_wsect h.take.super hlo]
    exact blockOf_setWord h0 hge hbn

theorem Clean.die_entry (hlast : st.freeblock = FSSIZE) : (mapBlock st din fbn >>= fun q => rsect q.2.1 q.1) = .error .die := by
  rw [h.mapBlock_entry hge hmax hlo hhi hj hlast.le]
  exact (h.take.wsect hlo (Nat.lt_succ_of_lt hused) hhi).rsect_die hlast.ge

end Entry

/-! Without an indirect block the round takes one, and goes on from there. -/

section New

variable (h : Clean st) (hge : NDIRECT ≤ fbn) (h0 : din.addrs NDIRECT = 0)

include h

theorem Clean.entry_new : getWord (st.take.disk.block ((withIndirect din st.freeblock).addrs NDIRECT)) (fbn - NDIRECT) = 0 := by
  rw [withIndirect_self]
  exact (congrArg (getWord · _) h.block_freeblock).trans (getWord_zero _)

include hge h0

theorem Clean.mapBlock_new : mapBlock st din fbn = mapBlock st.take (withIndirect din st.freeblock) fbn := by
  have hne : (withIndirect din st.freeblock).addrs NDIRECT ≠ 0 := by
    rw [withIndirect_self]
    exact ne_zero_of_lower h.lower
  have hlt : ¬fbn < NDIRECT := by omega
  rw [mapBlock, mapBlock, if_neg hlt, if_neg hlt, mapIndirect, mapIndirect, if_pos h0, if_neg hne]
  rfl

theorem Clean.bmap_new (hmax : fbn < MAXFILE) (hroom : st.freeblock < FSSIZE) :
    FileSys.bmap st.disk din fbn = FileSys.bmap st.take.disk (withIndirect din st.freeblock) fbn := by
  have hne : (withIndirect din st.freeblock).addrs NDIRECT ≠ 0 := by
    rw [withIndirect_self]
    exact ne_zero_of_lower h.lower
  rw [bmap_of_ge hge hmax, bmap_of_ge hge hmax, bmapIndirect, bmapIndirect, if_pos h0, if_neg hne, h.balloc_eq hroom]
  rfl

theorem Clean.mapped_new (hmax : fbn < MAXFILE) (hroom : st.freeblock + 1 < FSSIZE) : ∃ x st' din', Mapped st din fbn x st' din' := by
  have hself : (withIndirect din st.freeblock).addrs NDIRECT = st.freeblock := withIndirect_self
  have hm := h.take.mapped_entry hge hmax (by rw [hself]; exact h.lower) (by rw [hself]; exact Nat.lt_succ_self _)
    (by rw [hself]; omega) h.entry_new hroom
  have hfresh : fresh st.disk.block din fbn = 2 := by
    rw [fresh, if_pos (blockOf_of_lacks hge h0), if_pos ⟨hge, h0⟩]
  have hlt : FSSIZE < 2 ^ 32 := by decide
  refine ⟨_, _, _, (h.mapBlock_new hge h0).trans hm.mapped, (h.bmap_new hge h0 hmax (by omega)).trans hm.bmap, hm.clean, ?_, rfl, rfl,
    fun bn hbn => (hm.others bn hbn).trans (blockOf_new h0 h.block_freeblock), ?_, fun hf => fits_update hf le_rfl (by omega)⟩
  · rw [hfresh]
    rfl
  · rw [hself]
    exact iff_of_false (ne_zero_of_lower h.lower) fun hc => absurd hc.2 (by omega)

end New

section

variable (h : Sound st (update st.disk.dinode i din)) (ht : din.type ≠ .free) (hmax : fbn < MAXFILE)

include h ht hmax

theorem Sound.die_of_full (hfull : FSSIZE < st.freeblock + fresh st.disk.block din fbn) :
    (mapBlock st din fbn >>= fun q => rsect q.2.1 q.1) = .error .die := by
  have hroom := h.room
  rw [fresh] at hfull
  by_cases hlt : fbn < NDIRECT
  · -- the new block would be the one after the last
    have hb : din.addrs fbn = 0 := by
      by_contra hb
      rw [blockOf_of_lt hlt, if_neg hb, if_neg (by omega)] at hfull
      omega
    rw [blockOf_of_lt hlt, if_pos hb, if_neg (by omega)] at hfull
    rw [mapBlock, if_pos hlt, if_pos hb]
    exact h.take.rsect_die (by omega)
  have hge : NDIRECT ≤ fbn := by omega
  by_cases h0 : din.addrs NDIRECT = 0
  · rw [if_pos (blockOf_of_lacks hge h0), if_pos ⟨hge, h0⟩] at hfull
    have hself : (withIndirect din st.freeblock).addrs NDIRECT = st.freeblock := withIndirect_self
    rw [h.mapBlock_new hge h0]
    by_cases hlast : st.freeblock = FSSIZE
    · have hne : (withIndirect din st.freeblock).addrs NDIRECT ≠ 0 := by
        rw [hself]
        exact ne_zero_of_lower h.lower
      rw [mapBlock, if_neg hlt, mapIndirect, if_neg hne]
      dsimp only
      rw [mapEntry, hself, h.take.rsect_die (by omega)]
      rfl
    · have hsize : st.freeblock + 1 = FSSIZE := by omega
      exact h.take.die_entry hge hmax (by rw [hself]; exact h.lower) (by rw [hself]; exact Nat.lt_succ_self _)
        (by rw [hself]; omega) h.entry_new hsize
  · obtain ⟨hlo, hused, hhi⟩ := h.indirect_range ht h0
    have hj : getWord (st.disk.block (din.addrs NDIRECT)) (fbn - NDIRECT) = 0 := by
      by_contra hj
      rw [blockOf_of_ge hge (sub_lt hmax) h0, if_neg hj, if_neg fun hc => h0 hc.2] at hfull
      omega
    rw [blockOf_of_ge hge (sub_lt hmax) h0, if_pos hj, if_neg fun hc => h0 hc.2] at hfull
    exact h.die_entry hge hmax hlo hused hhi hj (by omega)

/-- **A round finds its block**, as `bmap` does, if there is room. -/
theorem Sound.exists_mapped (hroom : st.freeblock + fresh st.disk.block din fbn ≤ FSSIZE) : ∃ x st' din', Mapped st din fbn x st' din' := by
  by_cases hb : blockOf st.disk.block din fbn = 0
  swap
  · exact ⟨_, _, _, h.mapped_of_ne ht hmax hb⟩
  by_cases hlt : fbn < NDIRECT
  · rw [fresh, if_pos hb, if_neg (by omega)] at hroom
    rw [blockOf_of_lt hlt] at hb
    exact ⟨_, _, _, h.mapped_direct hlt hb (by omega)⟩
  have hge : NDIRECT ≤ fbn := by omega
  by_cases h0 : din.addrs NDIRECT = 0
  · rw [fresh, if_pos hb, if_pos ⟨hge, h0⟩] at hroom
    exact h.mapped_new hge h0 hmax (by omega)
  · obtain ⟨hlo, hused, hhi⟩ := h.indirect_range ht h0
    rw [fresh, if_pos hb, if_neg fun hc => h0 hc.2] at hroom
    rw [blockOf_of_ge hge (sub_lt hmax) h0] at hb
    exact ⟨_, _, _, h.mapped_entry hge hmax hlo hused hhi hb (by omega)⟩

end

theorem Mapped.sound (hm : Mapped st din fbn x st' din')
    (h : Sound st (update st.disk.dinode i din)) (ht : din.type ≠ .free) (hmax : fbn < MAXFILE)
    (hroom : st'.freeblock ≤ FSSIZE) : Sound st' (update st'.disk.dinode i din') ∧
      x = blockOf st'.disk.block din' fbn ∧ x ≠ 0 ∧ din' = { din with addrs := din'.addrs } := by
  obtain ⟨hg, -, hx, h0⟩ := (bmap_spec (E := (· = .outOfBlocks)) h.good ht hmax rfl).of_ok hm.bmap
  refine ⟨⟨hm.clean, hroom, ?_⟩, hx, h0, hg.info⟩
  rw [hg.dinode]
  exact hg.good

/-! ### The loop of `iappend` -/

/-- **A file has the blocks for its first `off` bytes**, and no others. -/
structure Filled (block : ℕ → Block) (e : Dinode) (off : ℕ) : Prop where
  blocks : ∀ bn, bn < MAXFILE → (blockOf block e bn ≠ 0 ↔ bn * BSIZE < off)
  indirect : e.addrs NDIRECT ≠ 0 ↔ NDIRECT * BSIZE < off

def blocksFor (off : ℕ) : ℕ := (off + BSIZE - 1) / BSIZE + if NDIRECT * BSIZE < off then 1 else 0

theorem blocksFor_mono {off off' : ℕ} (h : off ≤ off') : blocksFor off ≤ blocksFor off' := by
  have hdiv : (off + BSIZE - 1) / BSIZE ≤ (off' + BSIZE - 1) / BSIZE := Nat.div_le_div_right (by omega)
  rw [blocksFor, blocksFor]
  split <;> split <;> omega

theorem Filled.fresh_eq (h : Filled block din off) (hmax : off / BSIZE < MAXFILE) (hm : 0 < m) (hend : off % BSIZE + m ≤ BSIZE) :
    blocksFor (off + m) = blocksFor off + fresh block din (off / BSIZE) := by
  have hb := h.blocks _ hmax
  have hi := h.indirect
  have hB : BSIZE = 1024 := rfl
  have hN : NDIRECT = 12 := rfl
  rw [fresh, blocksFor, blocksFor]
  rw [hB] at hb hi hend ⊢
  rw [hN] at hi ⊢
  by_cases h0 : blockOf block din (off / 1024) = 0
  · -- the file ends with its last block
    rw [if_pos h0]
    rw [ne_eq, h0, eq_self, not_true, false_iff] at hb
    by_cases h1 : din.addrs 12 = 0
    · rw [ne_eq, h1, eq_self, not_true, false_iff] at hi
      rw [if_neg hi]
      split <;> split <;> omega
    · have hlt := hi.mp h1
      have hnone : ¬(12 ≤ off / 1024 ∧ din.addrs 12 = 0) := fun hc => h1 hc.2
      rw [if_neg hnone, if_pos hlt, if_pos (show 12 * 1024 < off + m by omega)]
      omega
  · have hlt := hb.mp h0
    have hnone : ¬(12 ≤ off / 1024 ∧ din.addrs 12 = 0) := by
      rintro ⟨hge, h1⟩
      exact hi.mpr (Nat.lt_of_le_of_lt (Nat.mul_le_mul_right 1024 hge) hlt) h1
    rw [if_neg h0, if_neg hnone]
    split <;> split <;> omega

theorem Mapped.filled (hmap : Mapped st din (off / BSIZE) x st' din')
    (hx : x = blockOf st'.disk.block din' (off / BSIZE)) (h0 : x ≠ 0) (h : Filled st.disk.block din off)
    (hm : 0 < m) (hend : off % BSIZE + m ≤ BSIZE) : Filled st'.disk.block din' (off + m) := by
  have hB : BSIZE = 1024 := rfl
  have hdiv := Nat.div_add_mod off BSIZE
  constructor
  · intro bn hbn
    by_cases heq : bn = off / BSIZE
    · rw [heq, ← hx]
      refine iff_of_true h0 ?_
      rw [Nat.mul_comm]
      omega
    · rw [hmap.others bn heq, h.blocks bn hbn]
      rw [hB] at heq hend ⊢
      omega
  · have hN : NDIRECT = 12 := rfl
    rw [ne_eq, hmap.indirect, not_and_or, ← ne_eq, h.indirect]
    rw [hB] at hend ⊢
    rw [hN]
    omega

theorem Filled.update (h : Filled block e off) (hx : x ≠ e.addrs NDIRECT) : Filled (update block x v) e off := by
  refine ⟨fun bn hbn => ?_, h.indirect⟩
  rw [blockOf_congr fun _ => update_of_ne hx.symm ..]
  exact h.blocks bn hbn

/-- Why `iappend` of `n` bytes at `off` gives up: there is no room on the disk, or in the file. -/
def Refused (st : State) (off n : ℕ) (err : Stop) : Prop :=
  err = .die ∧ FSSIZE + blocksFor off < st.freeblock + blocksFor (off + n) ∨
    err = .assertion ∧ MAXFILE * BSIZE < off + n

/-- What the loop of `iappend` has done to append bytes from `off` up to `off'`. -/
structure Appended (st : State) (i : ℕ) (din : Dinode) (off : ℕ) (st' : State) (din' : Dinode) (off' : ℕ) : Prop where
  sound : Sound st' (update st'.disk.dinode i din')
  filled : Filled st'.disk.block din' off'
  freeblock : st'.freeblock + blocksFor off = st.freeblock + blocksFor off'
  freeinode : st'.freeinode = st.freeinode
  written : st'.written = st.written
  info : din' = { din with addrs := din'.addrs }
  fits : din.Fits → din'.Fits

theorem Appended.refl (h : Sound st (update st.disk.dinode i din)) (hfill : Filled st.disk.block din off) : Appended st i din off st din off :=
  ⟨h, hfill, rfl, rfl, rfl, rfl, id⟩

theorem Appended.trans {st₁ st₂ : State} {din₁ din₂ : Dinode} {off₁ off₂ : ℕ}
    (h : Appended st i din off st₁ din₁ off₁) (h' : Appended st₁ i din₁ off₁ st₂ din₂ off₂) : Appended st i din off st₂ din₂ off₂ where
  sound := h'.sound
  filled := h'.filled
  freeblock := by
    have := h.freeblock
    have := h'.freeblock
    omega
  freeinode := h'.freeinode.trans h.freeinode
  written := h'.written.trans h.written
  info := by rw [h'.info, h.info]
  fits hf := h'.fits (h.fits hf)

theorem Sound.die_bind {α : Type} (h : Sound st (update st.disk.dinode i din)) (ht : din.type ≠ .free)
    (hmax : fbn < MAXFILE) (hfull : FSSIZE < st.freeblock + fresh st.disk.block din fbn) (k : ℕ × State × Dinode → Block → Except Stop α) :
    (mapBlock st din fbn >>= fun q => rsect q.2.1 q.1 >>= k q) = .error .die := by
  have hdie := h.die_of_full ht hmax hfull
  cases hmap : mapBlock st din fbn with
  | error err =>
    rw [hmap] at hdie
    exact congrArg Except.error (Except.error.inj hdie)
  | ok q =>
    rw [hmap] at hdie
    change (rsect q.2.1 q.1 >>= k q) = _
    rw [show rsect q.2.1 q.1 = .error .die from hdie]
    rfl

/-- A round of the loop of `iappend` writes bytes `q` into block `x` of the file. -/
structure Round (st : State) (i : ℕ) (din : Dinode) (off : ℕ) (q : List UInt8) (x : ℕ) (st₁ st₂ : State) (din₁ : Dinode) : Prop where
  mapped : mapBlock st din (off / BSIZE) = .ok (x, st₁, din₁)
  bmap : bmap st.disk din (off / BSIZE) = .ok (x, st₁.disk, din₁)
  rsect : rsect st₁ x = .ok (st₁.sect x)
  wsect : st₂ = wsect st₁ x (store (st₁.sect x) (off % BSIZE) q)
  disk : st₂.disk = { st₁.disk with
    block := update st₁.disk.block x (store (st₁.disk.block x) (off % BSIZE) q) }
  type : din₁.type ≠ .free

section

variable (h : Sound st (update st.disk.dinode i din)) (ht : din.type ≠ .free) (hfill : Filled st.disk.block din off)

include h ht hfill

theorem Sound.round (hmax : off / BSIZE < MAXFILE)
    (hroom : st.freeblock + fresh st.disk.block din (off / BSIZE) ≤ FSSIZE) (hm0 : 0 < m) (hend : off % BSIZE + m ≤ BSIZE) (q : List UInt8) :
    ∃ x st₁ st₂ din₁, Round st i din off q x st₁ st₂ din₁ ∧ Appended st i din off st₂ din₁ (off + m) := by
  have hfresh := hfill.fresh_eq hmax hm0 hend
  obtain ⟨x, st₁, din₁, hmap⟩ := h.exists_mapped ht hmax hroom
  obtain ⟨hs, hx, hx0, hinfo⟩ := hmap.sound h ht hmax (by rw [hmap.freeblock]; exact hroom)
  have ht₁ : din₁.type ≠ .free := by
    rw [hinfo]
    exact ht
  have hfill₁ := hmap.filled hx hx0 hfill hm0 hend
  obtain ⟨hlo, hused, hhi⟩ : nmeta ≤ x ∧ x < st₁.freeblock ∧ x < FSSIZE := by
    have := hs.range ht₁ (placeOf _ hmax)
    rw [blockOf, dif_pos hmax] at hx
    rw [← hx] at this
    exact this hx0
  -- the state after the round, and the disk it shows
  obtain ⟨st₂, hst₂⟩ : ∃ st₂, st₂ = Mkfs.wsect st₁ x (store (st₁.sect x) (off % BSIZE) q) := ⟨_, rfl⟩
  have hdisk : st₂.disk = { st₁.disk with
      block := update st₁.disk.block x (store (st₁.disk.block x) (off % BSIZE) q) } := by
    rw [hst₂, disk_wsect hs.super hlo, hs.disk_block hlo]
  obtain ⟨⟨hgrown, -⟩, -⟩ := (bmap_store_spec (v := fun d' addr => store (d'.block addr) (off % BSIZE) q) h.good ht hmax).of_ok hmap.bmap
  refine ⟨x, st₁, st₂, din₁, ⟨hmap.mapped, hmap.bmap, hs.rsect_eq hhi, hst₂, hdisk, ht₁⟩, ⟨?_, ?_, ?_⟩, ?_, ?_, ?_, ?_, hinfo, hmap.fits⟩
  · rw [hst₂]
    exact hs.wsect hlo hused hhi
  · rw [hst₂]
    exact hs.room
  · rw [hdisk]
    have hgood := hgrown.good
    rw [← hgrown.dinode] at hgood
    exact hgood
  · rw [hdisk]
    refine hfill₁.update ?_
    have hti : (update st₁.disk.dinode i din₁ i).type ≠ .free := by rwa [update_self]
    have hne : FileSys.blockOf _ (update st₁.disk.dinode i din₁ i) (off / BSIZE) ≠ 0 → _ :=
      hs.good.blockOf_ne_indirect hti hti
    rw [update_self, ← hx] at hne
    exact hne hx0
  · have hfree : st₂.freeblock = st₁.freeblock := by rw [hst₂]; rfl
    rw [hfree, hmap.freeblock]
    omega
  · rw [hst₂]
    exact hmap.freeinode
  · rw [hst₂]
    exact hmap.written

theorem iappendLoop_spec {bs : List UInt8} {fuel tot : ℕ} (hfuel : p.length ≤ fuel) (hp : p = bs.drop tot) :
    Post (Refused st off p.length) (iappendLoop fuel st din off p) fun (st', din', off') =>
      off' = off + p.length ∧ (p ≠ [] → off' ≤ MAXFILE * BSIZE) ∧ Appended st i din off st' din' off' ∧
        writeiLoop (fromKernel bs) fuel st.disk din off tot p.length = .ok (tot + p.length, st'.disk, din') := by
  induction fuel generalizing st din off tot p with
  | zero =>
    obtain rfl : p = [] := List.length_eq_zero_iff.mp (by omega)
    exact ⟨rfl, fun hne => absurd rfl hne, .refl h hfill, rfl⟩
  | succ fuel ih =>
    by_cases hpe : p = []
    · subst hpe
      rw [iappendLoop, if_pos rfl]
      refine ⟨rfl, fun hne => absurd rfl hne, .refl h hfill, ?_⟩
      rw [writeiLoop, if_pos List.length_nil]
      rfl
    have hlen : 0 < p.length := List.length_pos_of_ne_nil hpe
    have hB : BSIZE = 1024 := rfl
    have hdiv := Nat.div_add_mod off BSIZE
    have hmod : off % BSIZE < BSIZE := Nat.mod_lt _ (by decide)
    rw [iappendLoop, if_neg hpe]
    dsimp only
    by_cases hmax : off / BSIZE < MAXFILE
    swap
    · rw [if_neg hmax]
      right
      refine ⟨rfl, ?_⟩
      have := Nat.mul_le_mul_right BSIZE (Nat.le_of_not_lt hmax)
      rw [Nat.mul_comm BSIZE] at hdiv
      omega
    rw [if_pos hmax]
    -- how much goes into the block, in both programs
    obtain ⟨m, hm⟩ : ∃ m, m = min p.length (BSIZE - off % BSIZE) := ⟨_, rfl⟩
    have hm' : min p.length ((off / BSIZE + 1) * BSIZE - off) = m := by
      rw [hm, Nat.succ_mul, Nat.mul_comm]
      congr 1
      omega
    have hat : off - off / BSIZE * BSIZE = off % BSIZE := by
      rw [Nat.mul_comm]
      omega
    have hm0 : 0 < m := by omega
    have hend : off % BSIZE + m ≤ BSIZE := by omega
    have hfresh := hfill.fresh_eq hmax hm0 hend
    by_cases hroom : st.freeblock + fresh st.disk.block din (off / BSIZE) ≤ FSSIZE
    swap
    · have hmono := blocksFor_mono (show off + m ≤ off + p.length by omega)
      rw [h.die_bind ht hmax (by omega) fun q buf => iappendLoop fuel (wsect q.2.1 q.1 (store buf
        (off - off / BSIZE * BSIZE) (p.take (min p.length ((off / BSIZE + 1) * BSIZE - off))))) q.2.2
        (off + min p.length ((off / BSIZE + 1) * BSIZE - off))
        (p.drop (min p.length ((off / BSIZE + 1) * BSIZE - off)))]
      exact .inl ⟨rfl, by omega⟩
    obtain ⟨x, st₁, st₂, din₁, hr, hround⟩ := h.round ht hfill hmax hroom hm0 hend (p.take m)
    rw [hr.mapped]
    change Post _ (rsect st₁ x >>= fun buf => _) _
    rw [hr.rsect]
    change Post _ (iappendLoop fuel _ din₁ _ _) _
    rw [hm', hat, ← hr.wsect]
    have hrest : (p.drop m).length = p.length - m := List.length_drop
    have hloop : writeiLoop (fromKernel bs) (fuel + 1) st.disk din off tot p.length =
        writeiLoop (fromKernel bs) fuel st₂.disk din₁ (off + m) (tot + m) (p.drop m).length := by
      rw [writeiLoop, if_neg (by omega), hr.bmap]
      change writeiLoop _ fuel { st₁.disk with block := update st₁.disk.block x (store (st₁.disk.block x)
        (off % BSIZE) ((bs.drop tot).take (min p.length (BSIZE - off % BSIZE)))) } din₁
        (off + min p.length (BSIZE - off % BSIZE)) (tot + min p.length (BSIZE - off % BSIZE))
        (p.length - min p.length (BSIZE - off % BSIZE)) = _
      rw [← hm, ← hp, ← hr.disk, hrest]
    have hdrop : p.drop m = bs.drop (tot + m) := by rw [hp, List.drop_drop]
    have hspec := ih hround.sound hr.type hround.filled (by omega) hdrop
    rw [hrest] at hspec
    cases hres : iappendLoop fuel st₂ din₁ (off + m) (p.drop m) with
    | error err =>
      have herr := hspec.of_error hres
      have hbal := hround.freeblock
      rw [Refused, Nat.add_assoc, Nat.add_sub_cancel' (by omega)] at herr
      rcases herr with ⟨rfl, hfull⟩ | ⟨rfl, hlong⟩
      · exact .inl ⟨rfl, by omega⟩
      · exact .inr ⟨rfl, hlong⟩
    | ok q =>
      obtain ⟨st', din', off'⟩ := q
      obtain ⟨rfl, hle, happ, hwrite⟩ := hspec.of_ok hres
      have hmle : m ≤ p.length := by omega
      have hoff : off + m + (p.length - m) = off + p.length := by omega
      refine ⟨hoff, fun _ => ?_, hround.trans happ, ?_⟩
      · by_cases hdone : p.drop m = []
        · have h0 : (p.drop m).length = 0 := List.length_eq_zero_iff.mpr hdone
          have hfit : off / BSIZE * BSIZE + BSIZE ≤ MAXFILE * BSIZE := by
            rw [← Nat.succ_mul]
            exact Nat.mul_le_mul_right BSIZE hmax
          rw [Nat.mul_comm (off / BSIZE)] at hfit
          dsimp only
          omega
        · exact hle hdone
      · rw [hloop, hrest, hwrite]
        congr 2
        omega

end

/-! ### `iappend` -/

/-- What `iappend` has done to inode `i`. -/
structure Extended (st : State) (i : ℕ) (p : List UInt8) (st' : State) : Prop where
  sound : Sound st' st'.disk.dinode
  writei : ∃ e, writei st.disk i (st.disk.dinode i) (fromKernel p) (st.disk.dinode i).size p.length =
    .ok (some p.length, st'.disk, e) ∧ Rewritten i st.disk st'.disk e
  bytes : st'.disk.bytes i = st.disk.bytes i ++ p
  filled : Filled st'.disk.block (st'.disk.dinode i) (st'.disk.dinode i).size
  freeblock : st'.freeblock + blocksFor (st.disk.dinode i).size =
    st.freeblock + blocksFor ((st.disk.dinode i).size + p.length)
  freeinode : st'.freeinode = st.freeinode
  written : st'.written = st.written ++ [i]

theorem Clean.disk_dinode (h : Clean st) (hi : i < NINODES) : st.disk.dinode i = dinodeAt (st.sect (iblock inodestart i)) i := by
  rw [disk_eq h.super]
  exact if_pos hi

theorem Clean.rinode_eq (h : Clean st) (hi : i < NINODES) : rinode st i = .ok (st.disk.dinode i) := by
  have hlt : iblock inodestart i < FSSIZE := (iblock_lt hi).2.trans (by decide)
  rw [rinode, h.rsect_eq hlt, h.disk_dinode hi]
  rfl

/-- **`iappend` is `writei`** at the end of the file. -/
theorem iappend_spec (h : Sound st st.disk.dinode) (hi : i < NINODES) (ht : (st.disk.dinode i).type ≠ .free)
    (hfill : Filled st.disk.block (st.disk.dinode i) (st.disk.dinode i).size) :
    Post (Refused st (st.disk.dinode i).size p.length) (iappend st i p) (Extended st i p) := by
  have h' : Sound st (update st.disk.dinode i (st.disk.dinode i)) := by rwa [update_eq_self]
  have hdrop : p = p.drop 0 := List.drop_zero.symm
  have hspec := iappendLoop_spec h' ht hfill le_rfl hdrop
  have hdense := (h.good.dense i ht).size
  have hmax : MAXFILE * BSIZE < 2 ^ 32 := by decide
  rw [iappend, h.rinode_eq hi]
  change Post _ (iappendLoop p.length st (st.disk.dinode i) (st.disk.dinode i).size p >>= fun q =>
    winode q.1 i { q.2.1 with size := q.2.2 }) _
  cases hloop : iappendLoop p.length st (st.disk.dinode i) (st.disk.dinode i).size p with
  | error err => exact hspec.of_error hloop
  | ok q =>
    obtain ⟨st₁, din, off⟩ := q
    obtain ⟨hoff, hlong, happ, hwrite⟩ := hspec.of_ok hloop
    have hle : off ≤ MAXFILE * BSIZE := by
      by_cases hp : p = []
      · rw [hoff, hp]
        exact hdense
      · exact hlong hp
    have hfits : { din with size := off }.Fits := by
      have hf : din.Fits := happ.fits (by rw [h.disk_dinode hi]; exact fits_dinodeAt)
      exact { hf with size := hle.trans_lt hmax }
    have hclean := happ.sound.toClean
    obtain ⟨st', hw, hdisk, h1, h2, h3, h4, h5, h6⟩ := winode_spec hclean.super hclean.nsect hi hfits
    change Post _ (winode st₁ i { din with size := off }) _
    rw [hw]
    have hsize : din.size = (st.disk.dinode i).size := by rw [happ.info]
    -- the kernel ends with the same disk
    have hkernel : writei st.disk i (st.disk.dinode i) (fromKernel p) (st.disk.dinode i).size p.length =
        .ok (some p.length, st'.disk, { din with size := off }) := by
      have hnew : (if off > din.size then
          { din with size := off } else din) =
          { din with size := off } := by
        split
        · rfl
        · have hp : p.length = 0 := by omega
          rw [hoff, hp, Nat.add_zero, ← hsize]
      rw [Nat.zero_add] at hwrite
      rw [FileSys.writei, if_neg (by omega), if_neg (by omega), hwrite]
      change Except.ok (some p.length, FileSys.iupdate st₁.disk i (if (st.disk.dinode i).size + p.length > din.size then _ else din), _) = _
      rw [← hoff, hnew, hdisk]
    have hrew := (writei_spec h.good ht (show p.length < 2 ^ 32 by omega)).of_ok hkernel
    have hself : st'.disk.dinode i = { din with size := off } := by
      rw [hrew.dinode, update_self]
    have hold : (st.disk.bytes i).length = (st.disk.dinode i).size := length_bytesOf
    have hroom : st'.freeblock ≤ FSSIZE := h3 ▸ happ.sound.room
    refine ⟨⟨⟨h1, h2, h3 ▸ hclean.lower, fun b hb => ?_⟩, hroom, hrew.good⟩, ⟨_, hkernel, hrew⟩, ?_, ?_, ?_,
      h4.trans happ.freeinode, by rw [h5, happ.written]⟩
    · rw [h6 b ((h3 ▸ hclean.lower).trans hb)]
      exact hclean.blank b (h3 ▸ hb)
    · have hbytes := (writei_bytes source_fromKernel h.good ht le_rfl (hoff ▸ hle) hkernel).2
      rw [Disk.bytes, hself, hbytes, overwrite, ← hold, List.take_length, List.drop_eq_nil_of_le (by omega), List.append_nil]
    · rw [hself, hdisk]
      exact ⟨happ.filled.blocks, happ.filled.indirect⟩
    · rw [h3, ← hoff]
      exact happ.freeblock

end Xv6.Mkfs
