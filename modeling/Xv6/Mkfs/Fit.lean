import Xv6.Mkfs.Image

/-!
# What `mkfs` lets through

The image has a hole if the entries of the root directory fill their last block: the size of the directory
is rounded up to one block more, for which there is no block. And `mkfs` counts the inodes, but never looks
whether there are as many; only the blocks cannot run out unnoticed, since a block that does not exist
cannot be read.
-/

namespace Xv6.Mkfs

open Lib Function FileSys

open Logging (Block getWord)

variable {st st' : State} {i : ℕ} {e : Dinode} {p : List UInt8} {f : Input} {files inputs : List Input}

/-! ### Holes -/

theorem dense_rounded_iff {block : ℕ → Block} (hfill : Filled block e e.size) (hsize : e.size < NDIRECT * BSIZE) :
    Dense block { e with size := (e.size / BSIZE + 1) * BSIZE } ↔ e.size % BSIZE ≠ 0 := by
  have hB : BSIZE = 1024 := rfl
  have hmax : NDIRECT * BSIZE ≤ MAXFILE * BSIZE := by decide
  have hlast : e.size / BSIZE < NDIRECT := Nat.div_lt_of_lt_mul (by rwa [Nat.mul_comm])
  have hM : NDIRECT ≤ MAXFILE := by decide
  constructor
  · intro h h0
    refine (hfill.blocks _ (hlast.trans_le hM)).not.mpr ?_ (h.mapped (e.size / BSIZE) ?_)
    · rw [hB] at h0 ⊢
      omega
    · change _ < (e.size / BSIZE + 1) * BSIZE
      rw [hB]
      omega
  · intro h0
    refine ⟨?_, fun bn hbn => (hfill.blocks bn ?_).mpr ?_⟩
    · change (e.size / BSIZE + 1) * BSIZE ≤ _
      refine le_trans ?_ hmax
      exact Nat.mul_le_mul_right _ hlast
    · change _ < (e.size / BSIZE + 1) * BSIZE at hbn
      rw [hB] at hbn hlast
      omega
    · change _ < (e.size / BSIZE + 1) * BSIZE at hbn
      rw [hB] at hbn h0 ⊢
      omega

/-- **The image has no holes**, unless the root directory fills its blocks. -/
theorem Finished.dense_iff (hf : Finished st st') (h : Holds st inputs) (hn : inputs.length + 1 < NINODES) :
    (∀ i, ((Disk.ofImage st'.sect).dinode i).type ≠ .free → Dense (Disk.ofImage st'.sect).block ((Disk.ofImage st'.sect).dinode i)) ↔
        (inputs.length + 2) % 64 ≠ 0 := by
  have hsize := h.rootSize
  have hlt : (st.disk.dinode ROOTINO).size < NDIRECT * BSIZE := by
    rw [hsize]
    simp only [NINODES, DIRENT, DIRSIZ, NDIRECT, BSIZE] at hn ⊢
    omega
  have hroot := dense_rounded_iff h.rootFilled hlt
  have hmod : (st.disk.dinode ROOTINO).size % BSIZE ≠ 0 ↔ (inputs.length + 2) % 64 ≠ 0 := by
    rw [hsize]
    simp only [DIRENT, DIRSIZ, BSIZE]
    omega
  rw [hf.dinode, hf.block, ← hmod, ← hroot]
  constructor
  · intro hall
    have := hall ROOTINO
    rw [update_self] at this
    refine this ?_
    change (st.disk.dinode ROOTINO).type ≠ .free
    rw [h.rootType]
    decide
  · intro hd i hi
    rcases eq_or_ne i ROOTINO with rfl | hne
    · rwa [update_self]
    · rw [update_of_ne hne] at hi ⊢
      exact h.sound.good.dense i hi

def emptyFile : Input := ⟨[97], some [], by decide, by simp⟩

theorem need_replicate (n : ℕ) : need (List.replicate n emptyFile) = nmeta + blocksFor (DIRENT * (n + 2)) := by
  have hzero : blocksFor emptyFile.data.length = 0 := by decide
  rw [need, List.length_replicate, List.map_replicate, hzero]
  simp

def passes (x : Except Stop State) (test : State → Bool) : Bool :=
  match x with
  | .ok st => test st
  | .error _ => false

theorem of_passes {x : Except Stop State} {test : State → Bool} (h : passes x test = true) : ∃ st, x = .ok st ∧ test st = true := by
  cases x with
  | error err => exact absurd h (by simp [passes])
  | ok st => exact ⟨st, rfl, h⟩

theorem bmap_hole {d : Disk} {bn b : ℕ} (hbn : bn < NDIRECT) (h0 : e.addrs bn = 0) (hb : b < d.sb.size) (hfree : d.bitmap b = false) :
    ∃ r, bmap d e bn = .ok r ∧ ∃ b, d.bitmap b = false ∧ r.2.1.bitmap b = true := by
  rw [bmap, if_pos hbn, if_pos h0, FileSys.balloc]
  cases hfind : (List.range d.sb.size).find? fun b => !d.bitmap b with
  | none =>
    have := List.find?_eq_none.mp hfind b (List.mem_range.mpr hb)
    simp [hfree] at this
  | some b' =>
    refine ⟨_, rfl, b', ?_, update_self ..⟩
    simpa using List.find?_some hfind

/-- **A fresh image can be read without a block being allocated** if and only if the entries of the root
directory do not fill their last block. -/
theorem main_no_holes (hn : inputs.length + 1 < NINODES) (hmain : main inputs = .ok st) : ((∀ i, ((Disk.ofImage st.sect).dinode i).type ≠ .free →
      Dense (Disk.ofImage st.sect).block ((Disk.ofImage st.sect).dinode i)) ↔ (inputs.length + 2) % 64 ≠ 0) ∧
    ((inputs.length + 2) % 64 ≠ 0 → ∀ i, ((Disk.ofImage st.sect).dinode i).type ≠ .free → ∀ (dst : ℕ → ℕ → Bool) off n, n < 2 ^ 32 →
        ∃ r, FileSys.readi (Disk.ofImage st.sect) ((Disk.ofImage st.sect).dinode i) dst off n =
          .ok (r, Disk.ofImage st.sect, (Disk.ofImage st.sect).dinode i)) := by
  obtain ⟨st₀, h, hf⟩ := exists_of_main hn hmain
  have hdense := hf.dense_iff h hn
  exact ⟨hdense, fun h0 i hi dst off n hlt => readi_spec dst off (hdense.mpr h0 i hi) hlt⟩

def smallFile : Input := ⟨[98], some [[1, 2, 3]], by decide, by decide⟩

theorem main_small : ∃ st, main [smallFile] = .ok st := by
  obtain ⟨st, hst, -⟩ := @of_passes (main [smallFile]) (fun _ => true) (by decide +kernel)
  exact ⟨st, hst⟩

/-- The image of a file of three bytes. -/
theorem main_no_holes_small : ∃ st, main [smallFile] = .ok st ∧ ∀ i, ((Disk.ofImage st.sect).dinode i).type ≠ .free →
    Dense (Disk.ofImage st.sect).block ((Disk.ofImage st.sect).dinode i) ∧ ∀ (dst : ℕ → ℕ → Bool) off n, n < 2 ^ 32 →
      ∃ r, FileSys.readi (Disk.ofImage st.sect) ((Disk.ofImage st.sect).dinode i) dst off n =
        .ok (r, Disk.ofImage st.sect, (Disk.ofImage st.sect).dinode i) := by
  obtain ⟨st, hst⟩ := main_small
  have h := main_no_holes (by decide) hst
  exact ⟨st, hst, fun i hi => ⟨h.1.mpr (by decide) i hi, h.2 (by decide) i hi⟩⟩

/-- With 62 files, the entries of the root directory fill a block. Its size is then that of two blocks, and to read the second one is to
allocate it. -/
theorem root_hole : ∃ st, main (List.replicate 62 emptyFile) = .ok st ∧ ((Disk.ofImage st.sect).dinode ROOTINO).type = .dir ∧
    ((Disk.ofImage st.sect).dinode ROOTINO).size = 2 * BSIZE ∧ blockOf (Disk.ofImage st.sect).block ((Disk.ofImage st.sect).dinode ROOTINO) 1 = 0 ∧
    ∃ r, bmap (Disk.ofImage st.sect) ((Disk.ofImage st.sect).dinode ROOTINO) 1 = .ok r ∧
      ∃ b, (Disk.ofImage st.sect).bitmap b = false ∧ r.2.1.bitmap b = true := by
  obtain ⟨st, hst, -⟩ := @of_passes (main (List.replicate 62 emptyFile)) (fun _ => true) (by decide +kernel)
  obtain ⟨st₀, h, hf⟩ := exists_of_main (by rw [List.length_replicate]; decide) hst
  have hroot : (Disk.ofImage st.sect).dinode ROOTINO = { st₀.disk.dinode ROOTINO with
      size := ((st₀.disk.dinode ROOTINO).size / BSIZE + 1) * BSIZE } := by
    rw [hf.dinode, update_self]
  have hsize : (st₀.disk.dinode ROOTINO).size = BSIZE := by
    rw [h.rootSize, List.length_replicate]
    rfl
  have hzero : blockOf st₀.disk.block (st₀.disk.dinode ROOTINO) 1 = 0 := by
    by_contra h1
    have := (h.rootFilled.blocks 1 (by decide)).mp h1
    rw [hsize] at this
    omega
  have haddr : (st₀.disk.dinode ROOTINO).addrs 1 = 0 := hzero
  refine ⟨st, hst, ?_, ?_, ?_, ?_⟩
  · rw [hroot]
    exact h.rootType
  · rw [hroot, hsize]
    rfl
  · rw [hroot, hf.block]
    exact hzero
  · have hneed : st₀.freeblock = 47 := by
      rw [h.freeblock, need_replicate]
      decide
    rw [hroot]
    refine bmap_hole (b := 47) (by decide) haddr ?_ ?_
    · rw [hf.sb, h.sound.disk_sb]
      decide
    · rw [hf.bitmap 47 (by decide), hneed]
      rfl

/-! ### What the counters say -/

theorem winode_freeinode : Post (fun _ => True) (winode st i e) fun st' => st'.freeinode = st.freeinode := by
  rw [winode, rsect]
  split <;> trivial

theorem mapBlock_freeinode {fbn : ℕ} : Post (fun _ => True) (mapBlock st e fbn) fun r => r.2.1.freeinode = st.freeinode := by
  have hind : (mapIndirect st e).1.freeinode = st.freeinode := by
    rw [mapIndirect]
    split <;> rfl
  have hentry : ∀ (st : State) din j, Post (fun _ => True) (mapEntry st din j) fun r => r.2.freeinode = st.freeinode := by
    intro st din j
    rw [mapEntry, rsect]
    split
    · change Post _ (if _ then _ else _) _
      split <;> rfl
    · trivial
  rw [mapBlock]
  split
  · split <;> rfl
  · exact (hentry _ _ _).bind fun r hr => hr.trans hind

theorem iappendLoop_freeinode {fuel off : ℕ} : Post (fun _ => True) (iappendLoop fuel st e off p) fun r => r.1.freeinode = st.freeinode := by
  induction fuel generalizing st e off p with
  | zero => rfl
  | succ fuel ih =>
    rw [iappendLoop]
    split
    · rfl
    dsimp only
    split
    · refine mapBlock_freeinode.bind fun r hr => ?_
      change Post _ (rsect r.2.1 r.1 >>= fun buf => iappendLoop fuel _ _ _ _) _
      rw [rsect]
      split
      · exact ih.mono fun r' hr' => hr'.trans hr
      · trivial
    · trivial

theorem iappend_freeinode : Post (fun _ => True) (iappend st i p) fun st' => st'.freeinode = st.freeinode := by
  rw [iappend, rinode, rsect]
  split
  · refine iappendLoop_freeinode.bind fun r hr => ?_
    exact winode_freeinode.mono fun st' h => h.trans hr
  · trivial

theorem ialloc_freeinode {type : IType} : Post (fun _ => True) (ialloc st type) fun r => r.2.freeinode = st.freeinode + 1 := by
  rw [ialloc]
  exact winode_freeinode.bind fun st' h => h

theorem addFile_freeinode {rootino : ℕ} : Post (fun _ => True) (addFile rootino st f) fun st' => st'.freeinode = st.freeinode + 1 := by
  rw [addFile]
  split
  · trivial
  · split
    · trivial
    · refine ialloc_freeinode.bind fun r hr => iappend_freeinode.bind fun st₁ h₁ => ?_
      refine Post.foldlM (I := fun _ (st' : State) => st'.freeinode = st.freeinode + 1) ?_ (h₁.trans hr)
      exact fun _ _ _ h₂ => iappend_freeinode.mono fun st' h => h.trans h₂

theorem main_freeinode (h : main inputs = .ok st) : st.freeinode = inputs.length + 2 := by
  obtain ⟨st₀, hempty, hmain⟩ := start_spec
  have hfiles : Post (fun _ => True) (inputs.foldlM (addFile ROOTINO) st₀) fun st' => st'.freeinode = inputs.length + 2 := by
    refine (Post.foldlM (I := fun rest (st' : State) => st'.freeinode + rest.length = inputs.length + 2)
      (fun f rest st₁ h₁ => ?_) ?_).mono fun _ h => h
    · rw [List.length_cons] at h₁
      refine addFile_freeinode.mono fun st' h => ?_
      omega
    · rw [hempty.freeinode, List.length_nil]
      omega
  have hfinish : ∀ st₁ : State, Post (fun _ => True) (finish ROOTINO st₁) fun st' => st'.freeinode = st₁.freeinode := by
    intro st₁
    rw [finish, rinode, rsect]
    split
    · refine winode_freeinode.bind fun st₂ h₂ => ?_
      rw [balloc]
      split
      · exact h₂
      · trivial
    · trivial
  have hall := hfiles.bind fun st₁ h₁ => (hfinish st₁).mono fun st' h' => h'.trans h₁
  rw [← hmain, h] at hall
  exact hall

theorem Finished.ref_lt (hf : Finished st st') (h : Holds st inputs) (i : ℕ) (q : Place) :
    q.ref (Disk.ofImage st'.sect).block ((Disk.ofImage st'.sect).dinode i) < FSSIZE := by
  have haddrs : ((Disk.ofImage st'.sect).dinode i).addrs = (st.disk.dinode i).addrs := by
    rw [hf.dinode]
    exact apply_update_of_eq Dinode.addrs (by rfl) i
  have href : q.ref (Disk.ofImage st'.sect).block ((Disk.ofImage st'.sect).dinode i) = q.ref st.disk.block (st.disk.dinode i) := by
    rw [hf.block]
    cases q <;> simp only [Place.ref, haddrs]
  rw [href]
  rcases eq_or_ne (q.ref st.disk.block (st.disk.dinode i)) 0 with h0 | h0
  · rw [h0]
    decide
  have ht : (st.disk.dinode i).type ≠ .free := by
    rcases Nat.lt_or_ge i st.freeinode with hlt | hge
    · rcases Nat.lt_or_ge i 2 with h2 | h2
      · rcases Nat.eq_zero_or_pos i with rfl | hpos
        · refine absurd ?_ h0
          rw [h.free 0 (.inl rfl)]
          cases q <;> rfl
        · obtain rfl : i = ROOTINO := by
            rw [ROOTINO]
            omega
          rw [h.rootType]
          decide
      · obtain ⟨j, rfl⟩ := Nat.exists_eq_add_of_le' h2
        rw [h.freeinode] at hlt
        rw [(h.file j (by omega)).1]
        decide
    · refine absurd ?_ h0
      rw [h.free i (.inr hge)]
      cases q <;> rfl
  have hs : Sound st (update st.disk.dinode i (st.disk.dinode i)) := by
    rw [update_eq_self]
    exact h.sound
  exact (hs.range ht q h0).2.2

/-- **What `mkfs` writes is all right** if and only if there are inodes for all files. -/
theorem main_fits_iff (hmain : main inputs = .ok st) : (st.freeinode ≤ NINODES ∧
      (∀ i ∈ st.written, inodestart ≤ iblock inodestart i ∧ iblock inodestart i < bmapstart) ∧
      (∀ i (q : Place), q.ref (Disk.ofImage st.sect).block ((Disk.ofImage st.sect).dinode i) < FSSIZE)) ↔ inputs.length + 1 < NINODES := by
  have hfree := main_freeinode hmain
  constructor
  · rintro ⟨hle, -, -⟩
    omega
  intro hn
  obtain ⟨st₀, h, hf⟩ := exists_of_main hn hmain
  refine ⟨by omega, fun i hi => ?_, hf.ref_lt h⟩
  have hlt : i < NINODES := by
    rw [hf.written, List.mem_append, List.mem_singleton] at hi
    rcases hi with hi | rfl
    · have := (h.written i hi).2
      rw [h.freeinode] at this
      omega
    · decide
  exact iblock_lt hlt

theorem main_fits_iff_small : ∃ st, main [smallFile] = .ok st ∧ st.freeinode ≤ NINODES ∧
    (∀ i ∈ st.written, inodestart ≤ iblock inodestart i ∧ iblock inodestart i < bmapstart) ∧
    ∀ i (q : Place), q.ref (Disk.ofImage st.sect).block ((Disk.ofImage st.sect).dinode i) < FSSIZE := by
  obtain ⟨st, hst⟩ := main_small
  exact ⟨st, hst, (main_fits_iff hst).mpr (by decide)⟩

/-- With 199 files, the last one gets the inode 200, which is not there, and `mkfs` does not complain. -/
theorem inode_past_the_end : ∃ st, main (List.replicate 199 emptyFile) = .ok st ∧ NINODES < st.freeinode := by
  obtain ⟨st, hst, hlt⟩ := @of_passes (main (List.replicate 199 emptyFile)) (fun st => decide (NINODES < st.freeinode)) (by decide +kernel)
  exact ⟨st, hst, of_decide_eq_true hlt⟩

end Xv6.Mkfs
