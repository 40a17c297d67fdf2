import Xv6.Fs.Resolve
import Xv6.Mkfs.Fit

/-!
# The kernel reads what `mkfs` wrote

The image goes from one program to another. What `mkfs` has put under a name in the root directory, the kernel finds under this name, and
reads back byte by byte; and unless the root directory fills its blocks, the disk is in order as the kernel needs it, so that what is shown
of the file system holds from the first boot on.
-/

namespace Xv6.Mkfs

open Lib Function FileSys

variable {st st' : State} {i j k : ℕ} {e : Dinode} {inputs : List Input}

/-! ### The disk is in order -/

namespace Finished

variable (hf : Finished st st')

include hf

/-- At most the size of an inode has changed. -/
theorem dinode_same : ((Disk.ofImage st'.sect).dinode i).type = (st.disk.dinode i).type ∧
    ((Disk.ofImage st'.sect).dinode i).addrs = (st.disk.dinode i).addrs := by
  rw [hf.dinode]
  exact ⟨apply_update_of_eq Dinode.type (by rfl) i, apply_update_of_eq Dinode.addrs (by rfl) i⟩

theorem owner_eq (r : Role) : owner (Disk.ofImage st'.sect).sb (Disk.ofImage st'.sect).block (Disk.ofImage st'.sect).dinode r =
    owner st.disk.sb st.disk.block st.disk.dinode r := by
  rcases r with b | ⟨i, p⟩
  · rw [owner, owner, hf.sb]
  · have href : p.ref (Disk.ofImage st'.sect).block ((Disk.ofImage st'.sect).dinode i) = p.ref st.disk.block (st.disk.dinode i) := by
      rw [hf.block]
      cases p <;> simp only [Place.ref, hf.dinode_same.2]
    rw [owner, owner, hf.dinode_same.1, href]

theorem used_iff (h : Holds st inputs) (b : ℕ) : (Disk.ofImage st'.sect).Used b ↔ st.disk.Used b := by
  have hsize : st.disk.sb.size = FSSIZE := by rw [h.sound.disk_sb]
  rw [Disk.Used, Disk.Used, hf.sb, hsize]
  refine and_congr_right fun hb => ?_
  rw [hf.bitmap b hb]
  rfl

/-- **The disk is in order for the kernel**, unless the root directory fills its blocks. -/
theorem good (h : Holds st inputs) (hn : inputs.length + 1 < NINODES) (hround : (inputs.length + 2) % 64 ≠ 0) :
    Good (Disk.ofImage st'.sect) (Disk.ofImage st'.sect).dinode where
  layout := hf.sb ▸ h.sound.good.layout
  excl := h.sound.good.excl.congr hf.owner_eq (hf.used_iff h)
  range i hi := by
    rw [hf.dinode_same.1] at hi
    rw [hf.sb]
    exact h.sound.good.range i hi
  dense := (hf.dense_iff h hn).mpr hround

/-! ### The files -/

theorem file_dinode : (Disk.ofImage st'.sect).dinode (j + 2) = st.disk.dinode (j + 2) := by
  rw [hf.dinode, update_of_ne (by rw [ROOTINO]; omega)]

theorem readi_file (h : Holds st inputs) (hj : j < inputs.length) {off n : ℕ} (hlt : off + n < 2 ^ 32) :
    FileSys.readi (Disk.ofImage st'.sect) ((Disk.ofImage st'.sect).dinode (j + 2)) toKernel off n =
      .ok (some (inputs[j].data.drop off |>.take n), Disk.ofImage st'.sect, (Disk.ofImage st'.sect).dinode (j + 2)) := by
  obtain ⟨htype, hbytes⟩ := h.file j hj
  have hdense := h.sound.good.dense (j + 2) (by rw [htype]; decide)
  rw [← hf.file_dinode, ← hf.block] at hdense
  rw [readi_bytes hdense fun _ => hlt, ← hbytes, Disk.bytes, hf.file_dinode, hf.block]

/-! ### The root directory -/

omit hf in
theorem cstr_cstr_append (name : List UInt8) (m : ℕ) : cstr (cstr name ++ List.replicate m 0) = cstr name := by
  have hlen : (cstr name).length ≤ DIRSIZ := by
    refine (List.IsPrefix.length_le (List.takeWhile_prefix _)).trans ?_
    rw [List.length_take]
    omega
  have hne : ∀ c ∈ cstr name, decide (c ≠ 0) = true := by
    intro c hc
    rw [cstr] at hc
    have := List.mem_takeWhile_imp hc
    exact this
  change ((cstr name ++ List.replicate m 0).take DIRSIZ).takeWhile _ = _
  rw [List.take_append, List.take_of_length_le hlen, List.takeWhile_append_of_pos hne, List.take_replicate]
  cases min (DIRSIZ - (cstr name).length) m with
  | zero => rw [List.replicate_zero, List.takeWhile_nil, List.append_nil]
  | succ k =>
    rw [List.replicate_succ, List.takeWhile_cons_of_neg (by decide), List.append_nil]

omit hf in
/-- An entry is read back with its number, and with a name that `namecmp` cannot tell from the one it was given. -/
theorem wanted_decode_encode {name : List UInt8} {de : Dirent} (hi : de.inum < 2 ^ 16) :
    wanted name (Dirent.decode de.encode) = wanted name de ∧ (Dirent.decode de.encode).inum = de.inum := by
  have hlen : (leBytes 2 de.inum).length = 2 := length_leBytes ..
  have hinum : (Dirent.decode de.encode).inum = de.inum := by
    change leNat (de.encode.take 2) = _
    rw [Dirent.encode, List.take_left' hlen, leNat_leBytes]
    exact Nat.mod_eq_of_lt hi
  have hname : cstr (Dirent.decode de.encode).name = cstr de.name := by
    change cstr (de.encode.drop 2) = _
    rw [Dirent.encode, List.drop_left' hlen, cstr_cstr_append]
  refine ⟨?_, hinum⟩
  rw [wanted, wanted, sameName, sameName, hinum, hname]

/-- The entries that the kernel sees in the root directory begin with those that were written. -/
theorem root_entry (h : Holds st inputs) {de : Dirent} (hde : (entries inputs)[k]? = some de) :
    ((Disk.ofImage st'.sect).entries ROOTINO)[k]? = some (Dirent.decode de.encode) := by
  obtain ⟨hk', rfl⟩ := List.getElem?_eq_some_iff.mp hde
  have hk : k < inputs.length + 2 := by rwa [length_entries] at hk'
  have hsize := h.rootSize
  have hD : DIRENT = 16 := rfl
  have hB : BSIZE = 1024 := rfl
  have hroot : (Disk.ofImage st'.sect).dinode ROOTINO = { st.disk.dinode ROOTINO with
      size := ((st.disk.dinode ROOTINO).size / BSIZE + 1) * BSIZE } := by
    rw [hf.dinode, update_self]
  have hrounded : ((Disk.ofImage st'.sect).dinode ROOTINO).size = (DIRENT * (inputs.length + 2) / BSIZE + 1) * BSIZE := by
    rw [hroot, ← hsize]
  have hlen : k < ((Disk.ofImage st'.sect).dinode ROOTINO).size / DIRENT := by
    rw [hrounded, hD, hB]
    omega
  have hbytes : (((Disk.ofImage st'.sect).bytes ROOTINO).drop (k * DIRENT)).take DIRENT =
      ((st.disk.bytes ROOTINO).drop (DIRENT * k)).take DIRENT := by
    refine List.ext_getElem? fun x => ?_
    rw [List.getElem?_take, List.getElem?_take]
    split
    · next hx =>
      rw [List.getElem?_drop, List.getElem?_drop, Nat.mul_comm, Disk.bytes, Disk.bytes, hroot, hf.block, getElem?_bytesOf, getElem?_bytesOf]
      have hin : DIRENT * k + x < (st.disk.dinode ROOTINO).size := by
        rw [hsize, hD]
        omega
      have hin' : DIRENT * k + x < ((st.disk.dinode ROOTINO).size / BSIZE + 1) * BSIZE := by
        rw [hB]
        omega
      rw [if_pos hin, if_pos hin']
      rfl
    · rfl
  rw [Disk.entries, List.getElem?_map, List.getElem?_range hlen, Option.map_some, hbytes, h.rootBytes, take_drop_flatMap length_encode hk']

omit hf in
theorem entries_add_two (i : ℕ) : (entries inputs)[i + 2]? = (inputs[i]?).map fun f => ⟨i + 2, f.name⟩ := by
  simp [entries, List.getElem?_mapIdx]

/-- **A name is found** that is not the name of an earlier entry. -/
theorem lookup_root (h : Holds st inputs) (hn : inputs.length + 1 < NINODES) (hj : j < inputs.length)
    (hdot : cstr inputs[j].name ≠ dot) (hdotdot : cstr inputs[j].name ≠ dotdot)
    (hnew : ∀ i, ∀ hi : i < j, cstr inputs[i].name ≠ cstr inputs[j].name) :
    (Disk.ofImage st'.sect).lookup ROOTINO inputs[j].name = some (j + 2) := by
  have hN : NINODES = 200 := rfl
  have hat : ∀ i, ∀ hi : i < inputs.length, (entries inputs)[i + 2]? = some ⟨i + 2, inputs[i].name⟩ := by
    intro i hi
    rw [entries_add_two, List.getElem?_eq_getElem hi, Option.map_some]
  have hmine := @wanted_decode_encode inputs[j].name ⟨j + 2, inputs[j].name⟩ (show j + 2 < 2 ^ 16 by omega)
  obtain ⟨hlen, hget⟩ := List.getElem?_eq_some_iff.mp (hf.root_entry h (hat j hj))
  -- an earlier entry has another name
  have hother : ∀ k, k < j + 2 → ∃ de, (entries inputs)[k]? = some de ∧ de.inum < 2 ^ 16 ∧ cstr inputs[j].name ≠ cstr de.name := by
    intro k hk
    rcases k with _ | _ | i
    · exact ⟨_, rfl, by decide, fun heq => hdot (heq.trans (by decide))⟩
    · exact ⟨_, rfl, by decide, fun heq => hdotdot (heq.trans (by decide))⟩
    · exact ⟨_, hat i (by omega), show i + 2 < 2 ^ 16 by omega, fun heq => hnew i (by omega) heq.symm⟩
  have hfind : ((Disk.ofImage st'.sect).entries ROOTINO).find? (wanted inputs[j].name) =
      some (Dirent.decode (Dirent.encode ⟨j + 2, inputs[j].name⟩)) := by
    refine List.find?_eq_some_iff_getElem.mpr ⟨?_, j + 2, hlen, hget, fun k hk => ?_⟩
    · rw [hmine.1]
      simp [wanted, sameName]
    · obtain ⟨de, hde, hlt, hne⟩ := hother k hk
      obtain ⟨hlen', hget'⟩ := List.getElem?_eq_some_iff.mp (hf.root_entry h hde)
      rw [hget', (wanted_decode_encode hlt).1]
      simp [wanted, sameName, hne]
  rw [Disk.lookup, hfind, Option.map_some, hmine.2]

end Finished

/-- **The kernel reads what `mkfs` wrote.** Whatever files `mkfs` was given, if it did not give up: a name is found in the root directory, and its
inode is a file, any part of which is read back as it was; and unless the root directory fills its blocks, the disk is in order for the kernel. -/
theorem kernel_reads_image (hn : inputs.length + 1 < NINODES) (hmain : main inputs = .ok st) :
    ((inputs.length + 2) % 64 ≠ 0 → Good (Disk.ofImage st.sect) (Disk.ofImage st.sect).dinode) ∧
    ∀ j, ∀ hj : j < inputs.length, ((Disk.ofImage st.sect).dinode (j + 2)).type = .file ∧
      (∀ off n, off + n < 2 ^ 32 → FileSys.readi (Disk.ofImage st.sect) ((Disk.ofImage st.sect).dinode (j + 2)) toKernel off n =
        .ok (some (inputs[j].data.drop off |>.take n), Disk.ofImage st.sect, (Disk.ofImage st.sect).dinode (j + 2))) ∧
      (cstr inputs[j].name ≠ dot → cstr inputs[j].name ≠ dotdot → (∀ i, ∀ hi : i < j, cstr inputs[i].name ≠ cstr inputs[j].name) →
        (Disk.ofImage st.sect).lookup ROOTINO inputs[j].name = some (j + 2)) := by
  obtain ⟨st₀, h, hf⟩ := exists_of_main hn hmain
  refine ⟨hf.good h hn, fun j hj => ⟨?_, fun off n => hf.readi_file h hj, hf.lookup_root h hn hj⟩⟩
  rw [hf.dinode_same.1]
  exact (h.file j hj).1

/-- An image with a file of three bytes. -/
theorem kernel_reads_image_small : ∃ st, main [smallFile] = .ok st ∧ Good (Disk.ofImage st.sect) (Disk.ofImage st.sect).dinode ∧
    (Disk.ofImage st.sect).lookup ROOTINO smallFile.name = some 2 ∧ ((Disk.ofImage st.sect).dinode 2).type = .file ∧
    FileSys.readi (Disk.ofImage st.sect) ((Disk.ofImage st.sect).dinode 2) toKernel 1 9 =
      .ok (some [2, 3], Disk.ofImage st.sect, (Disk.ofImage st.sect).dinode 2) := by
  obtain ⟨st, hst⟩ := main_small
  obtain ⟨hgood, hfile⟩ := kernel_reads_image (by decide) hst
  obtain ⟨htype, hread, hname⟩ := hfile 0 (by decide)
  exact ⟨st, hst, hgood (by decide), hname (by decide) (by decide) fun i hi => absurd hi (Nat.not_lt_zero i), htype, hread 1 9 (by decide)⟩

end Xv6.Mkfs
