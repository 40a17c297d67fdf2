import Xv6.Mkfs.Append

/-!
# The image of `mkfs`

What is on the disk when `mkfs` has been given a number of files: each file has an inode, in the order of
the arguments, with the bytes of the file; the root directory has an entry for each of them; and the blocks
are those the files need, one after the other. When `mkfs` gives up, this is because an argument has a `/`
in it, or a file cannot be opened or is too long, or the disk is full.
-/

namespace Xv6.Mkfs

open Lib Function FileSys

open Logging (Block getWord)

variable {st st' : State} {i j off off' : ℕ} {e : Dinode} {p q : List UInt8} {f : Input} {files inputs : List Input}

/-! ### One file -/

theorem Filled.congr {block block' : ℕ → Block} (h : Filled block e off) (h0 : e.addrs NDIRECT = 0) : Filled block' e off := by
  refine ⟨fun bn hbn => ?_, h.indirect⟩
  rw [blockOf_congr fun hne => absurd h0 hne]
  exact h.blocks bn hbn

/-- **Bytes were appended to inode `i`**, and the other inodes are as they were. -/
structure Grew (st : State) (i : ℕ) (p : List UInt8) (st' : State) : Prop where
  sound : Sound st' st'.disk.dinode
  others : ∀ j, j ≠ i → st'.disk.dinode j = st.disk.dinode j
  contents : ∀ j, j ≠ i → (st.disk.dinode j).type ≠ .free → st'.disk.bytes j = st.disk.bytes j
  type : (st'.disk.dinode i).type = (st.disk.dinode i).type
  bytes : st'.disk.bytes i = st.disk.bytes i ++ p
  filled : Filled st'.disk.block (st'.disk.dinode i) (st'.disk.dinode i).size
  freeblock : st'.freeblock + blocksFor (st.disk.dinode i).size =
    st.freeblock + blocksFor (st'.disk.dinode i).size
  freeinode : st'.freeinode = st.freeinode
  written : ∀ j ∈ st'.written, j ∈ st.written ∨ j = i

theorem Grew.size (h : Grew st i p st') : (st'.disk.dinode i).size = (st.disk.dinode i).size + p.length := by
  have hlen := congrArg List.length h.bytes
  rw [List.length_append] at hlen
  simpa only [Disk.bytes, length_bytesOf] using hlen

theorem Grew.trans {st₁ : State} (h : Grew st i p st₁) (h' : Grew st₁ i q st') : Grew st i (p ++ q) st' where
  sound := h'.sound
  others j hj := (h'.others j hj).trans (h.others j hj)
  contents j hj ht := (h'.contents j hj (by rwa [h.others j hj])).trans (h.contents j hj ht)
  type := h'.type.trans h.type
  bytes := by rw [h'.bytes, h.bytes, List.append_assoc]
  filled := h'.filled
  freeblock := by
    have := h.freeblock
    have := h'.freeblock
    omega
  freeinode := h'.freeinode.trans h.freeinode
  written j hj := (h'.written j hj).elim (h.written j) .inr

theorem Extended.grew (h : Extended st i p st') (hs : Sound st st.disk.dinode) : Grew st i p st' := by
  obtain ⟨e, -, hrew⟩ := h.writei
  have hself : st'.disk.dinode i = e := by rw [hrew.dinode, update_self]
  have hothers : ∀ j, j ≠ i → st'.disk.dinode j = st.disk.dinode j := by
    intro j hj
    rw [hrew.dinode, update_of_ne hj]
  have hsize : (st'.disk.dinode i).size = (st.disk.dinode i).size + p.length := by
    have hlen := congrArg List.length h.bytes
    rw [List.length_append] at hlen
    simpa only [Disk.bytes, length_bytesOf] using hlen
  refine ⟨h.sound, hothers, fun j hj ht => ?_, ?_, h.bytes, h.filled, hsize ▸ h.freeblock, h.freeinode, fun j hj => ?_⟩
  · rw [Disk.bytes, hothers j hj]
    exact (hrew.others j hj ht).bytesOf (hs.good.dense j ht) rfl
  · rw [hself, hrew.info]
  · rw [h.written, List.mem_append, List.mem_singleton] at hj
    exact hj

theorem Grew.refl (h : Sound st st.disk.dinode) (hfill : Filled st.disk.block (st.disk.dinode i) (st.disk.dinode i).size) : Grew st i [] st :=
  ⟨h, fun _ _ => rfl, fun _ _ _ => rfl, rfl, (List.append_nil _).symm, hfill, rfl, rfl, fun _ => .inl⟩

theorem pieces_spec (pieces : List (List UInt8)) (h : Sound st st.disk.dinode) (hi : i < NINODES) (ht : (st.disk.dinode i).type ≠ .free)
    (hfill : Filled st.disk.block (st.disk.dinode i) (st.disk.dinode i).size) : Post (Refused st (st.disk.dinode i).size pieces.flatten.length)
      (pieces.foldlM (fun st buf => iappend st i buf) st) (Grew st i pieces.flatten) := by
  induction pieces generalizing st with
  | nil => exact Grew.refl h hfill
  | cons buf pieces ih =>
    have hspec := iappend_spec (p := buf) h hi ht hfill
    rw [List.flatten_cons, List.length_append]
    change Post _ (iappend st i buf >>= fun st => pieces.foldlM (fun st buf => iappend st i buf) st) _
    cases happ : iappend st i buf with
    | error err =>
      rcases hspec.of_error happ with ⟨rfl, hfull⟩ | ⟨rfl, hlong⟩
      · have := blocksFor_mono (show (st.disk.dinode i).size + buf.length ≤ (st.disk.dinode i).size + (buf.length + pieces.flatten.length) by omega)
        exact .inl ⟨rfl, by omega⟩
      · exact .inr ⟨rfl, by omega⟩
    | ok st₁ =>
      have hg := (hspec.of_ok happ).grew h
      have hrest := ih hg.sound (by rwa [hg.type]) hg.filled
      have hbal := hg.freeblock
      rw [hg.size] at hrest hbal
      change Post _ (pieces.foldlM (fun st buf => iappend st i buf) st₁) _
      cases hres : pieces.foldlM (fun st buf => iappend st i buf) st₁ with
      | error err =>
        rcases hrest.of_error hres with ⟨rfl, hfull⟩ | ⟨rfl, hlong⟩
        · rw [Nat.add_assoc] at hfull
          exact .inl ⟨rfl, by omega⟩
        · rw [Nat.add_assoc] at hlong
          exact .inr ⟨rfl, hlong⟩
      | ok st₂ => exact hg.trans (hrest.of_ok hres)

def newInode (type : IType) : Dinode := { Dinode.zero with type := type, nlink := 1 }

theorem filled_new {block : ℕ → Block} {type : IType} : Filled block (newInode type) 0 := by
  have hzero : ∀ bn, blockOf block (newInode type) bn = 0 := by
    intro bn
    rw [blockOf]
    split
    · rw [placeOf]
      split <;> rfl
    · rfl
  exact ⟨fun bn _ => by simp [hzero], by simp [newInode, Dinode.zero]⟩

theorem ialloc_spec (type : IType) (h : Sound st st.disk.dinode) (hi : st.freeinode < NINODES)
    (hone : 1 ≤ st.freeinode) (hfree : (st.disk.dinode st.freeinode).type = .free) :
    ∃ st', ialloc st type = .ok (st.freeinode, st') ∧ Sound st' st'.disk.dinode ∧
      st'.disk = FileSys.iupdate st.disk st.freeinode (newInode type) ∧ st'.freeblock = st.freeblock ∧
      st'.freeinode = st.freeinode + 1 ∧ st'.written = st.written ++ [st.freeinode] := by
  have hfits : (newInode type).Fits := ⟨Dinode.fits_zero.major, Dinode.fits_zero.minor,
    (by decide : (-2 ^ 15 : ℤ) ≤ 1 ∧ (1 : ℤ) < 2 ^ 15), Dinode.fits_zero.size, Dinode.fits_zero.addrs,
    Dinode.fits_zero.rest⟩
  obtain ⟨st', hw, hdisk, h1, h2, h3, h4, h5, h6⟩ :=
    winode_spec (show ({ st with freeinode := st.freeinode + 1 } : State).sect 1 = superBlock from h.super) h.nsect hi hfits
  refine ⟨st', ?_, ⟨⟨h1, h2, h3 ▸ h.lower, fun b hb => ?_⟩, h3 ▸ h.room, ?_⟩, hdisk, h3, h4, h5⟩
  · rw [ialloc]
    change (winode _ _ (newInode type) >>= _) = _
    rw [hw]
    rfl
  · rw [h6 b ((h3 ▸ h.lower : nmeta ≤ st'.freeblock).trans hb)]
    exact h.blank b (h3 ▸ hb)
  · rw [hdisk]
    refine Good.iupdate (h.good.setType (.inl hfree) (.inr ⟨fun q => ?_, rfl, hone, ?_⟩))
    · cases q <;> rfl
    · rw [h.disk_sb]
      exact hi

/-! ### All files -/

def entries (files : List Input) : List Dirent :=
  ⟨ROOTINO, dot⟩ :: ⟨ROOTINO, dotdot⟩ :: files.mapIdx fun j f => ⟨j + 2, f.name⟩

def need (files : List Input) : ℕ :=
  nmeta + blocksFor (DIRENT * (files.length + 2)) + (files.map fun f => blocksFor f.data.length).sum

/-- **The files are in the image.** -/
structure Holds (st : State) (files : List Input) : Prop where
  sound : Sound st st.disk.dinode
  freeinode : st.freeinode = files.length + 2
  free : ∀ j, j = 0 ∨ st.freeinode ≤ j → st.disk.dinode j = Dinode.zero
  rootType : (st.disk.dinode ROOTINO).type = .dir
  rootBytes : st.disk.bytes ROOTINO = (entries files).flatMap Dirent.encode
  rootFilled : Filled st.disk.block (st.disk.dinode ROOTINO) (st.disk.dinode ROOTINO).size
  file : ∀ j, ∀ hj : j < files.length,
    (st.disk.dinode (j + 2)).type = .file ∧ st.disk.bytes (j + 2) = files[j].data
  freeblock : st.freeblock = need files
  written : ∀ j ∈ st.written, 1 ≤ j ∧ j < st.freeinode

@[simp] theorem length_encode (de : Dirent) : de.encode.length = DIRENT := by
  have hlen : (cstr de.name).length ≤ DIRSIZ := by
    refine (List.IsPrefix.length_le (List.takeWhile_prefix _)).trans ?_
    rw [List.length_take]
    omega
  simp only [Dirent.encode, List.length_append, length_leBytes, List.length_replicate, DIRENT]
  omega

@[simp] theorem length_entries : (entries files).length = files.length + 2 := by
  simp [entries]

theorem Holds.rootSize (h : Holds st files) : (st.disk.dinode ROOTINO).size = DIRENT * (files.length + 2) := by
  have hlen := congrArg List.length h.rootBytes
  rw [length_flatMap_eq length_encode, length_entries] at hlen
  simpa only [Disk.bytes, length_bytesOf] using hlen

def Rejected (files : List Input) (err : Stop) : Prop :=
  err = .assertion ∧ (∃ f ∈ files, slash ∈ f.shortname ∨ MAXFILE * BSIZE < f.data.length) ∨
    err = .die ∧ ((∃ f ∈ files, f.reads = none) ∨ FSSIZE < need files)

theorem need_append_singleton : need (files ++ [f]) + blocksFor (DIRENT * (files.length + 2)) =
    need files + blocksFor (DIRENT * (files.length + 3)) + blocksFor f.data.length := by
  simp only [need, List.length_append, List.length_singleton, List.map_append, List.sum_append, List.map_cons, List.map_nil, List.sum_singleton]
  rw [show files.length + 1 + 2 = files.length + 3 from rfl]
  omega

theorem need_le_append (rest : List Input) : need files ≤ need (files ++ rest) := by
  have := blocksFor_mono (show DIRENT * (files.length + 2) ≤ DIRENT * ((files ++ rest).length + 2) by
    rw [List.length_append]
    exact Nat.mul_le_mul_left _ (by omega))
  simp only [need, List.map_append, List.sum_append]
  omega

theorem Rejected.append {err : Stop} (h : Rejected files err) (rest : List Input) : Rejected (files ++ rest) err := by
  rcases h with ⟨rfl, f, hf, hbad⟩ | ⟨rfl, ⟨f, hf, hnone⟩ | hfull⟩
  · exact .inl ⟨rfl, f, List.mem_append_left _ hf, hbad⟩
  · exact .inr ⟨rfl, .inl ⟨f, List.mem_append_left _ hf, hnone⟩⟩
  · exact .inr ⟨rfl, .inr (hfull.trans_le (need_le_append rest))⟩

theorem rootSize_le (hn : files.length + 2 < NINODES) : DIRENT * (files.length + 3) ≤ NDIRECT * BSIZE := by
  simp only [NINODES, DIRENT, DIRSIZ, NDIRECT, BSIZE] at hn ⊢
  omega

theorem entries_append_singleton : entries (files ++ [f]) = entries files ++ [⟨files.length + 2, f.name⟩] := by
  simp [entries, List.mapIdx_append]

structure Opened (st : State) (type : IType) (st' : State) : Prop where
  sound : Sound st' st'.disk.dinode
  disk : st'.disk = FileSys.iupdate st.disk st.freeinode (newInode type)
  freeblock : st'.freeblock = st.freeblock
  freeinode : st'.freeinode = st.freeinode + 1
  written : st'.written = st.written ++ [st.freeinode]

namespace Opened

variable {type : IType} (h : Opened st type st')

include h

theorem new : st'.disk.dinode st.freeinode = newInode type := by
  rw [h.disk, FileSys.iupdate]
  exact update_self ..

theorem old (hj : j ≠ st.freeinode) : st'.disk.dinode j = st.disk.dinode j := by
  rw [h.disk, FileSys.iupdate]
  exact update_of_ne hj ..

theorem old_bytes (hj : j ≠ st.freeinode) : st'.disk.bytes j = st.disk.bytes j := by
  rw [Disk.bytes, h.old hj, h.disk]
  rfl

end Opened

namespace Holds

variable {st₁ st₂ st₃ : State} (h : Holds st files)

include h

theorem root_ne : ROOTINO ≠ st.freeinode := by
  rw [h.freeinode, ROOTINO]
  omega

theorem root_opened (ho : Opened st .file st₁) : Filled st₁.disk.block (st₁.disk.dinode ROOTINO) (st₁.disk.dinode ROOTINO).size ∧
      (st₁.disk.dinode ROOTINO).size = DIRENT * (files.length + 2) := by
  rw [ho.old h.root_ne, h.rootSize, ho.disk]
  have hfilled := h.rootFilled
  rw [h.rootSize] at hfilled
  exact ⟨hfilled, rfl⟩

section

variable (ho : Opened st .file st₁) (hg : Grew st₁ ROOTINO (Dirent.encode ⟨st.freeinode, f.name⟩) st₂)

include ho hg

theorem root_entered :
    (st₂.disk.dinode ROOTINO).size = DIRENT * (files.length + 3) ∧ (st₂.disk.dinode ROOTINO).type = .dir := by
  constructor
  · rw [hg.size, (h.root_opened ho).2, length_encode]
    rfl
  · rw [hg.type, ho.old h.root_ne, h.rootType]

theorem new_entered :
    st₂.disk.dinode st.freeinode = newInode .file := (hg.others _ h.root_ne.symm).trans ho.new

end

/-- **The next file is in the image**: it has an inode, an entry in the root directory, and its bytes. -/
theorem added (hn : files.length + 2 < NINODES) (ho : Opened st .file st₁)
    (hg : Grew st₁ ROOTINO (Dirent.encode ⟨st.freeinode, f.name⟩) st₂) (hg' : Grew st₂ st.freeinode f.data st₃) : Holds st₃ (files ++ [f]) := by
  have hneed : need (files ++ [f]) + _ = _ := need_append_singleton
  have hsmall := rootSize_le hn
  have hroot := h.root_ne
  have hnew := h.new_entered ho hg
  obtain ⟨hrootSize, hrootType⟩ := h.root_entered ho hg
  have hothers : ∀ j, j ≠ st.freeinode → j ≠ ROOTINO → st₃.disk.dinode j = st.disk.dinode j := by
    intro j hj hjr
    rw [hg'.others j hj, hg.others j hjr, ho.old hj]
  have hcontents : ∀ j, j ≠ st.freeinode → j ≠ ROOTINO → (st.disk.dinode j).type ≠ .free → st₃.disk.bytes j = st.disk.bytes j := by
    intro j hj hjr ht
    rw [hg'.contents j hj (by rwa [hg.others j hjr, ho.old hj]), hg.contents j hjr (by rwa [ho.old hj]), ho.old_bytes hj]
  have hfi : st₃.freeinode = files.length + 3 := by
    rw [hg'.freeinode, hg.freeinode, ho.freeinode, h.freeinode]
  refine ⟨hg'.sound, ?_, fun j hj => ?_, ?_, ?_, ?_, fun j hj => ?_, ?_, fun j hj => ?_⟩
  · rw [hfi, List.length_append]
    rfl
  · rw [hfi] at hj
    rw [hothers j (by rw [h.freeinode]; omega) (by rw [ROOTINO]; omega)]
    exact h.free j (by rw [h.freeinode]; omega)
  · rw [hg'.others _ hroot, hrootType]
  · rw [hg'.contents _ hroot (by rw [hrootType]; decide), hg.bytes, ho.old_bytes hroot, h.rootBytes,
      entries_append_singleton, List.flatMap_append, List.flatMap_singleton, h.freeinode]
  · rw [hg'.others _ hroot]
    refine hg.filled.congr ?_
    by_contra h0
    have := hg.filled.indirect.mp h0
    omega
  · rw [List.length_append, List.length_singleton] at hj
    rcases Nat.lt_succ_iff_lt_or_eq.mp hj with hlt | rfl
    · have hfile := h.file j hlt
      have hj1 : j + 2 ≠ st.freeinode := by
        rw [h.freeinode]
        omega
      have hj2 : j + 2 ≠ ROOTINO := by
        rw [ROOTINO]
        omega
      rw [hothers _ hj1 hj2, hcontents _ hj1 hj2 (by rw [hfile.1]; decide), List.getElem_append_left hlt]
      exact hfile
    · rw [← h.freeinode, hg'.type, hnew, hg'.bytes, List.getElem_append_right le_rfl, Disk.bytes, hnew]
      refine ⟨rfl, ?_⟩
      simp [newInode, Dinode.zero, bytesOf]
  · have hbal := hg.freeblock
    rw [(h.root_opened ho).2, hrootSize, ho.freeblock, h.freeblock] at hbal
    have hbal' := hg'.freeblock
    have h0 : blocksFor 0 = 0 := by decide
    have hsz : (st₂.disk.dinode st.freeinode).size = 0 := by
      rw [hnew]
      rfl
    have hsz' : (st₃.disk.dinode st.freeinode).size = f.data.length := by
      rw [hg'.size, hsz, Nat.zero_add]
    rw [hsz, hsz', h0] at hbal'
    omega
  · rw [hfi]
    rcases hg'.written j hj with hj | rfl
    · rcases hg.written j hj with hj | rfl
      · rw [ho.written, List.mem_append, List.mem_singleton] at hj
        rcases hj with hj | rfl
        · have := h.written j hj
          rw [h.freeinode] at this
          omega
        · rw [h.freeinode]
          omega
      · rw [ROOTINO]
        omega
    · rw [h.freeinode]
      omega

end Holds

theorem addFile_spec (h : Holds st files) (hn : files.length + 2 < NINODES) :
    Post (Rejected (files ++ [f])) (addFile ROOTINO st f) fun st' => Holds st' (files ++ [f]) := by
  have hmem : f ∈ files ++ [f] := List.mem_append_right _ (List.mem_singleton_self f)
  have hneed : need (files ++ [f]) + _ = _ := need_append_singleton
  have hsmall := rootSize_le hn
  rw [addFile]
  split
  · next hs => exact .inl ⟨rfl, f, hmem, .inl hs⟩
  cases hreads : f.reads with
  | none => exact .inr ⟨rfl, .inl ⟨f, hmem, hreads⟩⟩
  | some pieces =>
    have hdata : f.data = pieces.flatten := by rw [Input.data, hreads, Option.getD_some]
    -- the new inode
    obtain ⟨st₁, hialloc, hs₁, hdisk₁, hfb₁, hfi₁, hw₁⟩ := ialloc_spec .file h.sound
      (h.freeinode ▸ hn) (by rw [h.freeinode]; omega) (by rw [h.free _ (.inr le_rfl)]; rfl)
    have ho : Opened st .file st₁ := ⟨hs₁, hdisk₁, hfb₁, hfi₁, hw₁⟩
    obtain ⟨hrootFilled, hrootSize⟩ := h.root_opened ho
    change Post _ (ialloc st .file >>= _) _
    rw [hialloc]
    change Post _ (iappend st₁ ROOTINO (Dirent.encode ⟨st.freeinode, f.name⟩) >>= fun st =>
      pieces.foldlM (fun st' buf => iappend st' _ buf) st) _
    -- the entry of the root directory
    have hentry := iappend_spec (p := Dirent.encode ⟨st.freeinode, f.name⟩) hs₁ (by decide) (by rw [ho.old h.root_ne, h.rootType]; decide) hrootFilled
    rw [hrootSize, length_encode] at hentry
    have hsucc : DIRENT * (files.length + 2) + DIRENT = DIRENT * (files.length + 3) := rfl
    cases happ : iappend st₁ ROOTINO (Dirent.encode ⟨st.freeinode, f.name⟩) with
    | error err =>
      rcases hentry.of_error happ with ⟨rfl, hfull⟩ | ⟨rfl, hlong⟩
      · refine .inr ⟨rfl, .inr ?_⟩
        rw [hfb₁, h.freeblock, hsucc] at hfull
        omega
      · rw [hsucc] at hlong
        simp only [NDIRECT, BSIZE, MAXFILE, NINDIRECT] at hsmall hlong
        omega
    | ok st₂ =>
      have hg := (hentry.of_ok happ).grew hs₁
      have hnew := h.new_entered ho hg
      have hbal := hg.freeblock
      rw [hrootSize, (h.root_entered ho hg).1, hfb₁, h.freeblock] at hbal
      -- the bytes of the file
      have hpieces := pieces_spec pieces hg.sound (h.freeinode ▸ hn : st.freeinode < NINODES)
        (by rw [hnew, newInode]; decide) (by rw [hnew]; exact filled_new)
      rw [hnew, show (newInode .file).size = 0 from rfl, ← hdata] at hpieces
      change Post _ (pieces.foldlM (fun st' buf => iappend st' st.freeinode buf) st₂) _
      cases hres : pieces.foldlM (fun st' buf => iappend st' st.freeinode buf) st₂ with
      | error err =>
        rcases hpieces.of_error hres with ⟨rfl, hfull⟩ | ⟨rfl, hlong⟩
        · rw [Nat.zero_add] at hfull
          have h0 : blocksFor 0 = 0 := by decide
          exact .inr ⟨rfl, .inr (by omega)⟩
        · exact .inl ⟨rfl, f, hmem, .inr (by omega)⟩
      | ok st₃ => exact h.added hn ho hg (hpieces.of_ok hres)

theorem addFiles_spec (rest : List Input) (h : Holds st files) (hn : files.length + rest.length + 1 < NINODES) :
    Post (Rejected (files ++ rest)) (rest.foldlM (addFile ROOTINO) st) fun st' => Holds st' (files ++ rest) := by
  induction rest generalizing st files with
  | nil =>
    rw [List.append_nil]
    exact h
  | cons f rest ih =>
    rw [List.length_cons] at hn
    have hstep := addFile_spec (f := f) h (by omega)
    have happ : files ++ f :: rest = files ++ [f] ++ rest := (List.append_cons ..)
    rw [happ]
    change Post _ (addFile ROOTINO st f >>= fun st => rest.foldlM (addFile ROOTINO) st) _
    cases hres : addFile ROOTINO st f with
    | error err => exact (hstep.of_error hres).append rest
    | ok st₁ =>
      refine ih (hstep.of_ok hres) ?_
      rw [List.length_append, List.length_singleton]
      omega

/-! ### The beginning and the end -/

theorem clear_eq : clear = ⟨update (fun _ => zeroes) 1 superBlock, FSSIZE, 1, nmeta, []⟩ := by
  have hclear : ∀ n, (List.range n).foldl (fun st i => wsect st i zeroes) ⟨fun _ => zeroes, 0, 1, nmeta, []⟩ =
      (⟨fun _ => zeroes, n, 1, nmeta, []⟩ : State) := by
    intro n
    induction n with
    | zero => rfl
    | succ n ih =>
      rw [List.range_succ, List.foldl_append, ih]
      simp [wsect]
  rw [clear, hclear]
  rfl

theorem dinodeAt_zeroes : dinodeAt zeroes i = Dinode.zero := by
  have hload : load zeroes (i % IPB * DINODE) DINODE = List.replicate DINODE 0 := by
    refine List.ext_getElem (by simp) fun k h1 h2 => ?_
    rw [getElem_load, List.getElem_replicate, byteAt]
    split <;> rfl
  have hfield : ∀ off w, field (List.replicate DINODE 0) off w = 0 := by
    intro off w
    have hzero : ∀ n, leNat (List.replicate n 0) = 0 := by
      intro n
      induction n with
      | zero => rfl
      | succ n ih => simp [List.replicate_succ, leNat, ih]
    rw [field, List.drop_replicate, List.take_replicate, hzero]
  rw [dinodeAt, hload, Dinode.decode]
  simp only [hfield]
  refine Dinode.ext rfl rfl rfl rfl rfl (funext fun k => ?_)
  exact ite_self 0

theorem clear_super : clear.sect 1 = superBlock := by
  rw [clear_eq]
  exact update_self 1 superBlock fun _ => zeroes

theorem clear_dinode : clear.disk.dinode i = Dinode.zero := by
  rw [disk_eq clear_super, clear_eq]
  dsimp only
  split
  · next hi =>
    have := (iblock_lt hi).1
    rw [update_of_ne (by omega), dinodeAt_zeroes]
  · rfl

theorem clear_sound : Sound clear clear.disk.dinode := by
  have hfree : ∀ i, (clear.disk.dinode i).type = .free := by
    intro i
    rw [clear_dinode]
    rfl
  have hfb : clear.freeblock = nmeta := by rw [clear_eq]
  have hused : ∀ b, clear.disk.Used b ↔ b < clear.disk.sb.nmeta := by
    intro b
    rw [Disk.Used, disk_eq clear_super, hfb, nmeta_sb]
    refine ⟨fun hb => of_decide_eq_true hb.2, fun hb => ⟨hb.trans (by decide), decide_eq_true hb⟩⟩
  have hsystem : ∀ {r b}, owner clear.disk.sb clear.disk.block clear.disk.dinode r = some b → r = .system b ∧ b < clear.disk.sb.nmeta := by
    intro r b hr
    cases r with
    | of j q => exact absurd (hfree j) (owner_of_eq hr).1
    | system b' =>
      rw [owner] at hr
      split at hr <;> cases hr
      rename_i hlt
      exact ⟨rfl, hlt⟩
  refine ⟨⟨clear_super, by rw [clear_eq], hfb.ge, fun b hb => ?_⟩, by rw [hfb]; decide, ?_, ⟨fun b => ?_, ?_⟩,
    fun j hj => absurd (hfree j) hj, fun j hj => absurd (hfree j) hj⟩
  · rw [hfb, nmeta_eq] at hb
    have hb1 : b ≠ 1 := by omega
    rw [clear_eq]
    exact update_of_ne hb1 superBlock fun _ => zeroes
  · rw [disk_eq clear_super]
    exact ⟨by decide, by decide, by decide, by decide⟩
  · rw [hused]
    refine ⟨fun hb => ⟨.system b, owner_system hb⟩, ?_⟩
    rintro ⟨r, hr⟩
    exact (hsystem hr).2
  · intro r r' b hr hr'
    rw [(hsystem hr).1, (hsystem hr').1]

theorem start_spec : ∃ st, Holds st [] ∧ ∀ inputs, main inputs = inputs.foldlM (addFile ROOTINO) st >>= finish ROOTINO := by
  have hfi : clear.freeinode = ROOTINO := by rw [clear_eq]; rfl
  have hfb : clear.freeblock = nmeta := by rw [clear_eq]
  obtain ⟨st₀, hialloc, hs₀, hdisk₀, hfb₀, hfi₀, hw₀⟩ := ialloc_spec .dir clear_sound (by rw [hfi]; decide) hfi.ge (by rw [clear_dinode]; rfl)
  rw [hfi] at hialloc hdisk₀ hfi₀ hw₀
  have hdinode : st₀.disk.dinode = update clear.disk.dinode ROOTINO (newInode .dir) := by
    rw [hdisk₀]
    rfl
  have hnew : st₀.disk.dinode ROOTINO = newInode .dir := by rw [hdinode, update_self]
  have hothers₀ : ∀ j, j ≠ ROOTINO → st₀.disk.dinode j = Dinode.zero := by
    intro j hj
    rw [hdinode, update_of_ne hj, clear_dinode]
  have hone : blocksFor DIRENT = 1 ∧ blocksFor (DIRENT + DIRENT) = 1 ∧ blocksFor 0 = 0 := by decide
  -- there is room for the two entries
  have hroot : ROOTINO < NINODES := by decide
  have hdot := iappend_spec (p := Dirent.encode ⟨ROOTINO, dot⟩) hs₀ hroot (by rw [hnew]; decide) (by rw [hnew]; exact filled_new)
  rw [hnew, show (newInode .dir).size = 0 from rfl, length_encode] at hdot
  cases happ : iappend st₀ ROOTINO (Dirent.encode ⟨ROOTINO, dot⟩) with
  | error err =>
    rcases hdot.of_error happ with ⟨rfl, hfull⟩ | ⟨rfl, hlong⟩
    · rw [Nat.zero_add, hone.1, hone.2.2, hfb₀, hfb, nmeta_eq] at hfull
      exact absurd hfull (by decide)
    · exact absurd hlong (by decide)
  | ok st₁ =>
    have hg := (hdot.of_ok happ).grew hs₀
    have hsize₁ : (st₁.disk.dinode ROOTINO).size = DIRENT := by
      rw [hg.size, hnew, length_encode]
      exact Nat.zero_add _
    have hbal₁ := hg.freeblock
    rw [hsize₁, hnew, show (newInode .dir).size = 0 from rfl, hone.1, hone.2.2, hfb₀, hfb] at hbal₁
    have hdotdot := iappend_spec (p := Dirent.encode ⟨ROOTINO, dotdot⟩) hg.sound hroot (by rw [hg.type, hnew]; decide) hg.filled
    rw [hsize₁, length_encode] at hdotdot
    cases happ' : iappend st₁ ROOTINO (Dirent.encode ⟨ROOTINO, dotdot⟩) with
    | error err =>
      rcases hdotdot.of_error happ' with ⟨rfl, hfull⟩ | ⟨rfl, hlong⟩
      · rw [hone.1, hone.2.1, FSSIZE] at hfull
        rw [nmeta_eq] at hbal₁
        omega
      · exact absurd hlong (by decide)
    | ok st₂ =>
      have hg' := (hdotdot.of_ok happ').grew hg.sound
      have hfi₂ : st₂.freeinode = 2 := by rw [hg'.freeinode, hg.freeinode, hfi₀]; rfl
      have hbal₂ := hg'.freeblock
      rw [hg'.size, hsize₁, length_encode, hone.1, hone.2.1] at hbal₂
      refine ⟨st₂, ⟨hg'.sound, hfi₂, fun j hj => ?_, ?_, ?_, hg'.filled,
        fun j hj => absurd hj (Nat.not_lt_zero j), ?_, fun j hj => ?_⟩, fun inputs => ?_⟩
      · have hj : j ≠ ROOTINO := by
          rw [ROOTINO]
          omega
        rw [hg'.others j hj, hg.others j hj, hothers₀ j hj]
      · rw [hg'.type, hg.type, hnew]
        rfl
      · rw [hg'.bytes, hg.bytes, Disk.bytes, hnew]
        simp [newInode, Dinode.zero, bytesOf, entries]
      · have h32 : blocksFor (DIRENT * (0 + 2)) = 1 := by decide
        simp only [need, List.length_nil, List.map_nil, List.sum_nil, h32]
        omega
      · rw [hfi₂]
        rcases hg'.written j hj with hj | rfl
        · rcases hg.written j hj with hj | rfl
          · rw [hw₀, clear_eq, List.nil_append, List.mem_singleton] at hj
            rw [hj]
            decide
          · decide
        · decide
      · rw [main, hialloc]
        change (iappend st₀ ROOTINO (Dirent.encode ⟨ROOTINO, dot⟩) >>= fun st =>
          iappend st ROOTINO (Dirent.encode ⟨ROOTINO, dotdot⟩) >>= fun st =>
            inputs.foldlM (addFile ROOTINO) st >>= finish ROOTINO) = _
        rw [happ]
        change (iappend st₁ ROOTINO (Dirent.encode ⟨ROOTINO, dotdot⟩) >>= fun st =>
          inputs.foldlM (addFile ROOTINO) st >>= finish ROOTINO) = _
        rw [happ']
        rfl

/-- What the last part of `main` does to the image. -/
structure Finished (st st' : State) : Prop where
  sb : (Disk.ofImage st'.sect).sb = st.disk.sb
  dinode : (Disk.ofImage st'.sect).dinode = update st.disk.dinode ROOTINO { st.disk.dinode ROOTINO with
    size := ((st.disk.dinode ROOTINO).size / BSIZE + 1) * BSIZE }
  block : (Disk.ofImage st'.sect).block = st.disk.block
  bitmap : ∀ b, b < FSSIZE → (Disk.ofImage st'.sect).bitmap b = decide (b < st.freeblock)
  freeinode : st'.freeinode = st.freeinode
  freeblock : st'.freeblock = st.freeblock
  written : st'.written = st.written ++ [ROOTINO]

theorem disk_wsect_bmap (h : st.sect 1 = superBlock) (v : Block) : (wsect st bmapstart v).disk = st.disk := by
  have hb : bmapstart = 45 := by decide
  have h1 : (wsect st bmapstart v).sect 1 = superBlock := by
    rw [wsect_sect, hb, update_of_ne (by decide), h]
  rw [disk_eq h1, disk_eq h, wsect_sect, hb]
  simp only [Disk.mk.injEq, true_and]
  refine ⟨rfl, funext fun inum => ?_, funext fun b => ?_⟩
  · split
    · next hi =>
      have := (iblock_lt hi).2
      rw [update_of_ne (by omega)]
    · rfl
  · split
    · rfl
    · next hlt =>
      rw [nmeta_eq] at hlt
      rw [update_of_ne (by omega)]

theorem finish_spec (h : Sound st st.disk.dinode) (hsize : (st.disk.dinode ROOTINO).size ≤ MAXFILE * BSIZE) :
    ∃ st', finish ROOTINO st = .ok st' ∧ Finished st st' := by
  have hfits : (st.disk.dinode ROOTINO).Fits := by
    rw [h.disk_dinode (by decide)]
    exact fits_dinodeAt
  have hlt : ((st.disk.dinode ROOTINO).size / BSIZE + 1) * BSIZE < 2 ^ 32 := by
    simp only [MAXFILE, NDIRECT, NINDIRECT, BSIZE] at hsize ⊢
    omega
  obtain ⟨st₁, hwin, hdisk, h1, h2, h3, h4, h5, -⟩ := winode_spec
    (e := { st.disk.dinode ROOTINO with size := ((st.disk.dinode ROOTINO).size / BSIZE + 1) * BSIZE })
    h.super h.nsect (show ROOTINO < NINODES by decide)
    { hfits with size := hlt }
  have hused : st₁.freeblock < BSIZE * 8 := by
    rw [h3]
    exact h.room.trans_lt (by decide)
  have hd := disk_wsect_bmap h1 ((List.range st₁.freeblock).foldl setBit zeroes)
  have hword : getWord superBlock 7 = bmapstart := by decide +kernel
  have hsect : (wsect st₁ bmapstart ((List.range st₁.freeblock).foldl setBit zeroes)).sect 1 = superBlock := by
    rw [wsect_sect, update_of_ne (show 1 ≠ bmapstart by decide), h1]
  refine ⟨wsect st₁ bmapstart ((List.range st₁.freeblock).foldl setBit zeroes), ?_, ?_, ?_, ?_, fun b hb => ?_, h4, h3, h5⟩
  · rw [finish, h.rinode_eq (by decide)]
    change (winode st ROOTINO _ >>= fun st => balloc st st.freeblock) = _
    rw [hwin]
    change balloc st₁ st₁.freeblock = _
    rw [balloc, if_pos hused]
  · change (wsect st₁ bmapstart _).disk.sb = _
    rw [hd, hdisk]
    rfl
  · change (wsect st₁ bmapstart _).disk.dinode = _
    rw [hd, hdisk]
    rfl
  · change (wsect st₁ bmapstart _).disk.block = _
    rw [hd, hdisk]
    rfl
  · have hdiv : b / (BSIZE * 8) = 0 ∧ b % (BSIZE * 8) = b := by
      rw [FSSIZE] at hb
      rw [BSIZE]
      omega
    rw [Disk.ofImage]
    dsimp only
    rw [hsect, hword, hdiv.1, hdiv.2, Nat.zero_add, wsect_sect, update_self, bitAt_foldl_setBit (by rw [Nat.mul_comm]; exact hused.le), h3]
    have hzero : bitAt zeroes b = false := bitAt_zero ..
    rw [hzero, Bool.false_or]

theorem main_spec (hn : inputs.length + 1 < NINODES) : (∃ err, main inputs = .error err ∧ Rejected inputs err) ∨
      ∃ st st', main inputs = .ok st' ∧ Holds st inputs ∧ Finished st st' := by
  obtain ⟨st₀, hempty, hmain⟩ := start_spec
  have hfiles := addFiles_spec inputs hempty (by rw [List.length_nil]; omega)
  rw [List.nil_append] at hfiles
  rw [hmain]
  cases hres : inputs.foldlM (addFile ROOTINO) st₀ with
  | error err => exact .inl ⟨err, rfl, hfiles.of_error hres⟩
  | ok st =>
    have h := hfiles.of_ok hres
    have hsize : (st.disk.dinode ROOTINO).size ≤ MAXFILE * BSIZE := (h.sound.good.dense ROOTINO (by
      rw [h.rootType]
      decide)).size
    obtain ⟨st', hfin, hf⟩ := finish_spec h.sound hsize
    exact .inr ⟨st, st', hfin, h, hf⟩

theorem exists_of_main (hn : inputs.length + 1 < NINODES) (h : main inputs = .ok st') : ∃ st, Holds st inputs ∧ Finished st st' := by
  rcases main_spec hn with ⟨err, herr, -⟩ | ⟨st, st'', hok, hspec⟩
  · exact absurd (h.symm.trans herr) (by simp)
  · obtain rfl := Except.ok.inj (h.symm.trans hok)
    exact ⟨st, hspec⟩

end Xv6.Mkfs
