import Xv6.Fs.Coherent

/-!
# Every block has one owner

From a disk that is in order, the machine comes only to disks that are in order: the bitmap
marks the blocks that are in use, and each block for files is in use at one place of one inode.
This holds after every action, so in particular between operations, and after a crash.
-/

namespace Xv6.FileSys

open Lib Function

variable {d : Disk} {i b j : ℕ} {disk : Disk}

/-! ### Runs -/

/-- **The invariant of the machine**: the disk, the table of inodes and the drafts of the
processes go together, and so does the disk that a crash would leave. -/
def Sys.InOrder (n : ℕ) (s : Sys) : Prop :=
  (drafts n).Kept (Coherent n) (fun _ v => v = none) s.fs s.thr ∧
    Good s.image s.image.dinode ∧ s.image.sb.ninodes = n

variable {n : ℕ} {s t : Sys} {p : Pid}

theorem coherent_boot (hgood : Good disk disk.dinode) : Coherent disk.sb.ninodes (boot disk) fun _ => none where
  good := hgood
  ninodes := rfl
  cached k _ hv _ := by cases hv
  held k p hl := by cases hl
  own p k st hw := by cases hw

theorem inOrder_start (hgood : Good disk disk.dinode) : (start disk).InOrder disk.sb.ninodes :=
  ⟨⟨fun _ => none, coherent_boot hgood, fun _ => rfl⟩, hgood, rfl⟩

theorem inOrder_step {e : Event} (hbal : s.Balanced) (h : s.InOrder n) (hstep : step s e = some t) : t.InOrder n := by
  obtain ⟨hkept, himage, hn⟩ := h
  cases e with
  | call p c =>
    simp only [step] at hstep
    split at hstep <;> cases hstep
    rename_i hready
    obtain ⟨w, hw, hok⟩ := hkept
    have hp : w p = none := Sys.ok_of_outside (Q := fun v => v = none) (hok p) hready.1
    refine ⟨⟨w, hw, forall_update (P := fun q prog => Program.Ok (drafts n) prog (w q) _) ?_ fun q _ => hok q⟩, himage, hn⟩
    rw [hp, hw.ninodes]
    exact c.tidy n
  | act p =>
    simp only [step] at hstep
    split at hstep <;> cases hstep
    rename_i fs k hnext
    obtain ⟨w, ⟨hw, -⟩, hok⟩ := hbal
    exact ⟨Discipline.SoundUnder.step drafts_sound ⟨w, hw, hok⟩ hkept hnext, himage, hn⟩
  | commit =>
    simp only [step] at hstep
    split at hstep <;> cases hstep
    obtain ⟨w, hw, hok⟩ := hkept
    exact ⟨⟨w, hw, hok⟩, hw.good, hw.ninodes⟩
  | crash =>
    cases hstep
    exact hn ▸ inOrder_start himage

theorem inOrder_of_reach (hgood : Good disk disk.dinode) (h : Reach step (start disk) s) : s.InOrder disk.sb.ninodes := by
  have := h.invariant (I := fun s => s.Balanced ∧ s.InOrder disk.sb.ninodes)
    (fun hs hstep => ⟨balanced_step hs.1 hstep, inOrder_step hs.1 hs.2 hstep⟩)
    ⟨balanced_start disk, inOrder_start hgood⟩
  exact this.2

/-! ### Blocks -/

def Refers (d : Disk) (i : ℕ) (p : Place) (b : ℕ) : Prop :=
  (d.dinode i).type ≠ .free ∧ p.ref d.block (d.dinode i) = b ∧ b ≠ 0

theorem owner_of_iff {p : Place} : owner d.sb d.block d.dinode (.of i p) = some b ↔ Refers d i p b := by
  constructor
  · exact owner_of_eq
  · rintro ⟨htype, rfl, h0⟩
    exact owner_of htype h0

theorem Good.bitmap_iff (h : Good d d.dinode) (hb : b < d.sb.size) : d.bitmap b = true ↔ b < d.sb.nmeta ∨ ∃ i p, Refers d i p b := by
  rw [show d.bitmap b = true ↔ d.Used b from ⟨fun h => ⟨hb, h⟩, fun h => h.2⟩, h.excl.used_iff]
  constructor
  · rintro ⟨r, hr⟩
    cases r with
    | system b' =>
      rw [owner] at hr
      split at hr <;> cases hr
      exact .inl ‹_›
    | of i p => exact .inr ⟨i, p, owner_of_iff.mp hr⟩
  · rintro (hm | ⟨i, p, hr⟩)
    · exact ⟨_, owner_system hm⟩
    · exact ⟨_, owner_of_iff.mpr hr⟩

theorem Good.refers_inj (h : Good d d.dinode) {p q : Place} (hp : Refers d i p b) (hq : Refers d j q b) : i = j ∧ p = q := by
  have := h.excl.inj (owner_of_iff.mpr hp) (owner_of_iff.mpr hq)
  injection this with hij hpq
  exact ⟨hij, hpq⟩

theorem Good.itrunc_frees (h : Good d d.dinode) (hi : (d.dinode i).type ≠ .free) :
    ∃ d' c, itrunc d i (d.dinode i) = .ok (d', c) ∧ ∀ p b, Refers d i p b → d'.bitmap b = false := by
  have hgood : Good d (update d.dinode i (d.dinode i)) := by rwa [update_eq_self]
  have hspec := itrunc_spec hgood hi
  cases htrunc : itrunc d i (d.dinode i) with
  | error e => exact absurd (hspec.of_error htrunc) id
  | ok r =>
    obtain ⟨d', c⟩ := r
    obtain ⟨-, d₁, hclear, rfl⟩ := hspec.of_ok htrunc
    refine ⟨_, c, rfl, fun p b hr => ?_⟩
    by_contra hset
    have := (hclear.bitmap b).mp ((Bool.not_eq_false _).mp hset)
    exact this.2 p trivial (hr.2.1 ▸ hr.2.2) hr.2.1

theorem next_ne_freeing {fs : Fs} {u : Pid → View} {w : Pid → Draft} {k : Prog Unit}
    (hu : Rights fs u) (hw : Coherent n fs w) (hok : k.Ok rights (u p) fun _ => View.Idle) (hok' : k.Ok (drafts n) (w p) fun _ v => v = none) :
    k.next exec p fs ≠ .error .freeingFreeBlock := by
  intro herr
  obtain ⟨β, r, rest, rfl, hmem, hpre', hexec⟩ := of_next_eq_error hok' (not_not.mpr rfl) herr
  cases r
  case itrunc j =>
    have hlock := ((hu.each p).locks j).mp hok.1.1
    obtain ⟨-, hm⟩ := hw.held j p hlock
    rw [show w p = none from hpre'] at hm
    obtain ⟨hc, htype⟩ := hm
    obtain ⟨d', c, htrunc, -⟩ := hw.good.itrunc_frees (hc ▸ htype)
    have herr := of_map_eq_error hexec
    rw [Fs.itrunc, hc, htrunc] at herr
    cases herr
  all_goals simp [Act.panics] at hmem

/-- **Every block has one owner.** From a disk that is in order and has no holes, whatever the
processes do and also after crashes: the bitmap marks the blocks of the file system itself and
those some inode refers to; no block is referred to twice; `balloc` gives out only blocks that
are not in use; `itrunc` gives back all blocks of an inode, and `bfree` never panics. -/
theorem blocks_owned (disk : Disk) (hgood : Good disk disk.dinode) (s : Sys) (h : Reach step (start disk) s) :
    (∀ b, b < s.fs.disk.sb.size → (s.fs.disk.bitmap b = true ↔ b < s.fs.disk.sb.nmeta ∨ ∃ i p, Refers s.fs.disk i p b)) ∧
    (∀ i j p q b, Refers s.fs.disk i p b → Refers s.fs.disk j q b → i = j ∧ p = q) ∧
    (∀ i p b, Refers s.fs.disk i p b → s.fs.disk.sb.nmeta ≤ b ∧ b < s.fs.disk.sb.size) ∧ (∀ b d, balloc s.fs.disk = .ok (b, d) →
      s.fs.disk.sb.nmeta ≤ b ∧ ∀ i p, ¬Refers s.fs.disk i p b) ∧ (∀ i, (s.fs.disk.dinode i).type ≠ .free → ∃ d c,
      itrunc s.fs.disk i (s.fs.disk.dinode i) = .ok (d, c) ∧ ∀ p b, Refers s.fs.disk i p b → d.bitmap b = false) ∧
    ∀ p, s.next p ≠ .error .freeingFreeBlock := by
  obtain ⟨u, ⟨hu, -⟩, hok⟩ := balanced_of_reach h
  obtain ⟨⟨w, hw, hok'⟩, -, -⟩ := inOrder_of_reach hgood h
  refine ⟨fun b hb => hw.good.bitmap_iff hb, fun i j p q b => hw.good.refers_inj,
    fun i p b hr => hw.good.data (owner_of_iff.mpr hr), fun b d hb => ?_,
    fun i hi => hw.good.itrunc_frees hi, fun p => next_ne_freeing hu hw (hok p) (hok' p)⟩
  obtain ⟨hfree, hlt, -⟩ := (balloc_spec (E := fun _ => True) trivial).of_ok hb
  have hclear : ¬(b < s.fs.disk.sb.nmeta ∨ ∃ i p, Refers s.fs.disk i p b) := fun hor =>
    hfree ⟨hlt, (hw.good.bitmap_iff hlt).mpr hor⟩
  exact ⟨Nat.le_of_not_lt fun hb => hclear (.inl hb), fun i p hr => hclear (.inr ⟨i, p, hr⟩)⟩

theorem refers_emptyImage {p : Place} : Refers emptyImage i p b ↔ i = ROOTINO ∧ p = .direct ⟨0, by decide⟩ ∧ b = 6 := by
  constructor
  · rintro ⟨htype, rfl, h0⟩
    obtain rfl : i = ROOTINO := by
      by_contra hi
      exact htype (congrArg Dinode.type (if_neg hi))
    have haddrs : ∀ m, (emptyImage.dinode ROOTINO).addrs m = if m = 0 then 6 else 0 := fun _ => rfl
    cases p with
    | direct m =>
      rw [Place.ref, haddrs] at h0 ⊢
      by_cases hm : (m : ℕ) = 0
      · exact ⟨rfl, congrArg Place.direct (Fin.ext hm), if_pos hm⟩
      · exact absurd (if_neg hm) h0
    | indirect | entry k => exact absurd rfl h0
  · rintro ⟨rfl, rfl, rfl⟩
    exact ⟨by decide, rfl, by decide⟩

theorem good_emptyImage : Good emptyImage emptyImage.dinode := by
  have htype : ∀ i, (emptyImage.dinode i).type ≠ .free → i = ROOTINO := by
    intro i hi
    by_contra hne
    exact hi (congrArg Dinode.type (if_neg hne))
  refine ⟨⟨by decide, by decide, by decide, by decide⟩, ⟨fun b => ⟨fun hb => ?_, ?_⟩, ?_⟩, fun i hi => htype i hi ▸ by decide, fun i hi => ?_⟩
  · have hb7 : b < 7 := of_decide_eq_true hb.2
    by_cases hb6 : b = 6
    · exact ⟨_, owner_of_iff.mpr (refers_emptyImage.mpr ⟨rfl, rfl, hb6⟩)⟩
    · exact ⟨_, owner_system (show b < 6 by omega)⟩
  · rintro ⟨r, hr⟩
    cases r with
    | system b' =>
      rw [owner] at hr
      split at hr <;> cases hr
      have hlt : b < 6 := ‹_›
      exact ⟨show b < 60 by omega, decide_eq_true (show b < 7 by omega)⟩
    | of i p =>
      obtain ⟨-, -, rfl⟩ := refers_emptyImage.mp (owner_of_iff.mp hr)
      exact ⟨by decide, by decide⟩
  · intro r r' b hr hr'
    have hsys : ∀ {b'}, owner emptyImage.sb emptyImage.block emptyImage.dinode (.system b') = some b → b' = b ∧ b < 6 := by
      intro b' hb'
      rw [owner] at hb'
      split at hb'
      · cases hb'
        exact ⟨rfl, ‹_›⟩
      · cases hb'
    cases r with
    | system b₁ =>
      cases r' with
      | system b₂ => rw [(hsys hr).1, (hsys hr').1]
      | of j q =>
        have := (refers_emptyImage.mp (owner_of_iff.mp hr')).2.2
        have := (hsys hr).2
        omega
    | of i p =>
      obtain ⟨rfl, rfl, hb⟩ := refers_emptyImage.mp (owner_of_iff.mp hr)
      cases r' with
      | system b₂ =>
        have := (hsys hr').2
        omega
      | of j q =>
        obtain ⟨rfl, rfl, -⟩ := refers_emptyImage.mp (owner_of_iff.mp hr')
        rfl
  · rw [htype i hi]
    refine ⟨by decide, fun bn hbn => ?_⟩
    obtain rfl : bn = 0 := by
      have : bn * 1024 < 32 := hbn
      omega
    decide

/-- The first process makes a directory, whose entries are in block 7. -/
theorem blocks_owned_mkdir : ∃ s, Reach step (start emptyImage) s ∧ Refers s.fs.disk 2 (.direct ⟨0, by decide⟩) 7 ∧ s.fs.disk.bitmap 7 = true := by
  have hplay : ((start emptyImage).play [⟨0, some (.mkdir (some [97])), 200⟩]).any
      (fun s => (s.fs.disk.dinode 2).type ≠ .free ∧ (s.fs.disk.dinode 2).addrs 0 = 7 ∧ 7 < s.fs.disk.sb.size) = true := by decide +kernel
  obtain ⟨s, hs, hp⟩ := Sys.exists_reach hplay
  obtain ⟨htype, haddr, hlt⟩ := of_decide_eq_true hp
  have hr : Refers s.fs.disk 2 (.direct ⟨0, by decide⟩) 7 := ⟨htype, haddr, by decide⟩
  exact ⟨s, hs, hr, ((blocks_owned emptyImage good_emptyImage s hs).1 7 hlt).mpr (.inr ⟨2, _, hr⟩)⟩

end Xv6.FileSys
