import Xv6.Fs.Panics
import Xv6.Fs.Draft
import Xv6.Fs.Contents

/-!
# The disk and the table of inodes

The two belong together: an inode in the table whose lock is free is the one on the disk, and
one that is locked differs from it as the draft of its holder says. So every action on an inode
starts from what is on the disk, and the disk is in order after each of them.
-/

namespace Xv6.FileSys

open Lib Function

/-! ### The invariant -/

def Matches (d : Disk) (inum : ℕ) (c : Dinode) : Option Stage → Prop
  | none => c = d.dinode inum ∧ c.type ≠ .free
  | some .dirty => c.type = (d.dinode inum).type ∧ c.size = (d.dinode inum).size ∧
      c.addrs = (d.dinode inum).addrs ∧ c.type ≠ .free
  | some .empty => c = d.dinode inum ∧ c.type ≠ .free ∧ (∀ m ≤ NDIRECT, c.addrs m = 0) ∧ c.size = 0
  | some .dying => c = Draft.setFree (d.dinode inum) ∧ (d.dinode inum).type ≠ .free ∧
      ∀ m ≤ NDIRECT, c.addrs m = 0
  | some .freed => True

/-- **The table of inodes and the disk agree**, but for drafts, and the disk is in order. -/
structure Coherent (ninodes : ℕ) (s : Fs) (w : Pid → Draft) : Prop where
  good : Good s.disk s.disk.dinode
  ninodes : s.disk.sb.ninodes = ninodes
  cached : ∀ k, 0 < (s.itable k).ref → (s.itable k).valid = true → (s.itable k).lock = none →
    Matches s.disk (s.itable k).inum (s.copy k) none
  held : ∀ k p, (s.itable k).lock = some p → (s.itable k).valid = true ∧
    Matches s.disk (s.itable k).inum (s.copy k) ((w p).stage k)
  own : ∀ p k st, w p = some (.edit k st) → (s.itable k).lock = some p

variable {n : ℕ} {s s' : Fs} {w : Pid → Draft} {u : Pid → View} {p q : Pid} {k j : Slot}
  {d d' : Disk} {c : Dinode} {inum : ℕ} {st : Option Stage} {v : Draft} {off m : ℕ}

namespace Matches

theorem type_ne (h : Matches d inum c st) (hst : st ≠ some .freed) : (d.dinode inum).type ≠ .free := by
  rcases st with _ | ⟨_ | _ | _ | _⟩
  · exact h.1 ▸ h.2
  · exact h.1 ▸ h.2.2.2
  · exact h.1 ▸ h.2.1
  · exact h.2.1
  · exact absurd rfl hst

theorem congr (h : Matches d inum c st) (hd : d'.dinode inum = d.dinode inum) : Matches d' inum c st := by
  rcases st with _ | ⟨_ | _ | _ | _⟩
  · exact ⟨hd ▸ h.1, h.2⟩
  · exact ⟨hd ▸ h.1, hd ▸ h.2.1, hd ▸ h.2.2.1, h.2.2.2⟩
  · exact ⟨hd ▸ h.1, h.2⟩
  · exact ⟨hd ▸ h.1, hd ▸ h.2.1, h.2.2⟩
  · trivial

theorem settled (h : Matches d inum c (v.stage k)) (hv : v.Settled) : Matches d inum c none := by
  rcases hv with rfl | ⟨j, rfl⟩
  · exact h
  · unfold Draft.stage at h
    dsimp only at h
    split at h
    · exact ⟨h.1, h.2.1⟩
    · exact h

end Matches

namespace Draft

theorem stage_self {st : Stage} : stage (some (.edit k st)) k = some st := if_pos rfl

theorem stage_of_ne {st : Stage} (h : k ≠ j) : stage (some (.edit k st)) j = none := if_neg h

theorem stage_other (h : v = none ∨ ∃ st, v = some (.edit k st)) (hj : j ≠ k) : v.stage j = none := by
  rcases h with rfl | ⟨st, rfl⟩
  · rfl
  · exact stage_of_ne hj.symm

end Draft

namespace Coherent

variable (h : Coherent n s w)

include h

theorem frame (hdisk : s'.disk = s.disk) (hitable : s'.itable = s.itable) : Coherent n s' w := by
  obtain ⟨disk, itable, ftable, procs, ops⟩ := s
  obtain ⟨disk', itable', ftable', procs', ops'⟩ := s'
  obtain rfl : disk' = disk := hdisk
  obtain rfl : itable' = itable := hitable
  exact { h with }

theorem modify (hu : Rights s u) {e : Inode} (hgood : Good d' d'.dinode) (hsb : d'.sb = s.disk.sb)
    (hd : ∀ i, i ≠ (s.itable k).inum → d'.dinode i = s.disk.dinode i)
    (hfree : ∀ q, q ≠ p → (s.itable k).lock ≠ some q) (hlock : e.lock = none ∨ e.lock = some p)
    (href : 0 < (s.itable k).ref) (hv : v = none ∨ ∃ st, v = some (.edit k st))
    (hw : (w p).Settled ∨ ∃ st, w p = some (.edit k st)) (hown : v ≠ none → e.lock = some p)
    (hcached : 0 < e.ref → e.valid = true → e.lock = none → Matches d' e.inum e.toDinode none)
    (hheld : e.lock = some p → e.valid = true ∧ Matches d' e.inum e.toDinode (v.stage k)) :
    Coherent n ({ s with disk := d' }.setInode k e) (update w p v) := by
  have hk : ({ s with disk := d' }.setInode k e).itable k = e := update_self ..
  have hne : ∀ j, j ≠ k → ({ s with disk := d' }.setInode k e).itable j = s.itable j :=
    fun j hj => update_of_ne hj ..
  -- other inodes in the table have other numbers
  have hother : ∀ j, j ≠ k → 0 < (s.itable j).ref → d'.dinode (s.itable j).inum = s.disk.dinode (s.itable j).inum :=
    fun j hj hpos => hd _ fun heq => hj (hu.distinct j k hpos href heq)
  refine ⟨hgood, hsb ▸ h.ninodes, fun j hj hvalid hl => ?_, fun j q hl => ?_, fun q j st hq => ?_⟩
  · by_cases hjk : j = k
    · subst hjk
      rw [Fs.copy]
      rw [hk] at *
      exact hcached hj hvalid hl
    · rw [Fs.copy]
      rw [hne j hjk] at *
      exact (h.cached j hj hvalid hl).congr (hother j hjk hj)
  · by_cases hjk : j = k
    · subst hjk
      rw [Fs.copy]
      rw [hk] at *
      obtain rfl : q = p := by
        rcases hlock with h0 | h0
        · rw [h0] at hl
          cases hl
        · exact (Option.some.inj (h0.symm.trans hl)).symm
      rw [update_self]
      exact hheld hl
    · rw [Fs.copy]
      rw [hne j hjk] at *
      have hpos : 0 < (s.itable j).ref := hu.ref_pos_of_lock hl
      obtain ⟨hvalid, hm⟩ := h.held j q hl
      refine ⟨hvalid, ?_⟩
      by_cases hqp : q = p
      · rw [hqp] at hm
        rw [hqp, update_self, Draft.stage_other hv hjk]
        refine Matches.congr ?_ (hother j hjk hpos)
        rcases hw with hw | hw
        · exact hm.settled hw
        · rwa [Draft.stage_other (.inr hw) hjk] at hm
      · rw [update_of_ne hqp]
        exact hm.congr (hother j hjk hpos)
  · by_cases hqp : q = p
    · rw [hqp, update_self] at hq
      rw [hqp]
      rcases hv with hv | ⟨st', hv⟩
      · rw [hv] at hq
        cases hq
      · obtain rfl : k = j := (Work.edit.inj (Option.some.inj (hv.symm.trans hq))).1
        rw [hk]
        exact hown (by rw [hv]; simp)
    · rw [update_of_ne hqp] at hq
      have hjk : j ≠ k := by
        rintro rfl
        exact hfree q hqp (h.own q j st hq)
      rw [hne j hjk]
      exact h.own q j st hq

theorem setRef {m : ℕ} (hm : 0 < m → 0 < (s.itable k).ref) : Coherent n (s.setInode k { s.itable k with ref := m }) w := by
  have hk : (s.setInode k { s.itable k with ref := m }).itable k = { s.itable k with ref := m } :=
    update_self ..
  have hfield : ∀ {γ : Type} (g : Inode → γ), g { s.itable k with ref := m } = g (s.itable k) →
      ∀ j, g ((s.setInode k { s.itable k with ref := m }).itable j) = g (s.itable j) := fun g => apply_update_of_eq g
  have hlock := hfield Inode.lock rfl
  have hvalid := hfield Inode.valid rfl
  have hinum := hfield Inode.inum rfl
  have hcopy := hfield Inode.toDinode rfl
  refine ⟨h.good, h.ninodes, fun j hj hv hl => ?_, fun j q hl => ?_, fun q j st hq => ?_⟩
  · rw [Fs.copy, hinum, hcopy]
    rw [hlock] at hl
    rw [hvalid] at hv
    refine h.cached j ?_ hv hl
    by_cases hjk : j = k
    · subst hjk
      rw [hk] at hj
      exact hm hj
    · exact Nat.lt_of_lt_of_eq hj (congrArg Inode.ref (update_of_ne hjk ..))
  · rw [hlock] at hl
    rw [Fs.copy, hinum, hcopy, hvalid]
    exact h.held j q hl
  · rw [hlock]
    exact h.own q j st hq

theorem recycle (hu : Rights s u) (hk : (s.itable k).ref = 0) :
    Coherent n (s.setInode k { s.itable k with inum := inum, ref := 1, valid := false }) w := by
  have hself : (s.setInode k { s.itable k with inum := inum, ref := 1, valid := false }).itable k =
      { s.itable k with inum := inum, ref := 1, valid := false } := update_self ..
  have hne : ∀ j, j ≠ k → (s.setInode k { s.itable k with
      inum := inum, ref := 1, valid := false }).itable j = s.itable j :=
    fun j hj => update_of_ne hj ..
  have hlock : ∀ q, (s.itable k).lock ≠ some q := by
    intro q hq
    have := hu.ref_pos_of_lock hq
    omega
  refine ⟨h.good, h.ninodes, fun j hj hv hl => ?_, fun j q hl => ?_, fun q j st hq => ?_⟩
  · by_cases hjk : j = k
    · rw [hjk, hself] at hv
      cases hv
    · rw [Fs.copy]
      rw [hne j hjk] at *
      exact h.cached j hj hv hl
  · by_cases hjk : j = k
    · rw [hjk, hself] at hl
      exact absurd hl (hlock q)
    · rw [Fs.copy]
      rw [hne j hjk] at *
      exact h.held j q hl
  · have hjk : j ≠ k := by
      rintro rfl
      exact hlock q (h.own q j st hq)
    rw [hne j hjk]
    exact h.own q j st hq

theorem iclaim {type : IType} (hfree : (s.disk.dinode inum).type = .free) (hone : 1 ≤ inum) (hn : inum < n) :
    Coherent n { s with disk := FileSys.iupdate s.disk inum { Dinode.zero with type := type } } w := by
  -- whoever has the inode in memory has freed it
  have hother : ∀ {i c st}, Matches s.disk i c st → Matches (FileSys.iupdate s.disk inum { Dinode.zero with type := type }) i c st := by
    intro i c st hm
    by_cases hst : st = some .freed
    · rw [hst]
      trivial
    · refine hm.congr (update_of_ne ?_ ..)
      rintro rfl
      exact hm.type_ne hst hfree
  refine ⟨?_, h.ninodes, fun k hk hv hl => hother (h.cached k hk hv hl), fun k q hl => ?_, h.own⟩
  · refine Good.iupdate (h.good.setType (.inl hfree) (.inr ⟨fun p => ?_, rfl, hone, ?_⟩))
    · cases p <;> rfl
    · rwa [h.ninodes]
  · exact ⟨(h.held k q hl).1, hother (h.held k q hl).2⟩

end Coherent

/-! ### The actions -/

theorem Good.setInode {i : ℕ} (hgood : Good d d.dinode) (htype : c.type = (d.dinode i).type)
    (hsize : c.size = (d.dinode i).size) (haddrs : c.addrs = (d.dinode i).addrs) : Good (FileSys.iupdate d i c) (FileSys.iupdate d i c).dinode := by
  exact (hgood.congr (apply_update_of_eq _ htype) (apply_update_of_eq _ hsize) (apply_update_of_eq _ haddrs)).iupdate

def Act.aside : {β : Type} → Act β → Bool
  | _, .iget _ | _, .dupCwd | _, .ilock _ | _, .iunlock _ | _, .iput _ | _, .invalidate _
  | _, .unref _ | _, .iclaim _ _ | _, .assign _ _ | _, .iupdate _ | _, .itrunc _
  | _, .readi _ _ _ _ | _, .writei _ _ _ _ => false
  | _, _ => true

theorem exec_aside {β : Type} {r : Act β} {b : β} (hr : r.aside = true)
    (h : exec r p s = .ok (some (b, s'))) : s'.disk = s.disk ∧ s'.itable = s.itable := by
  cases r
  case filealloc =>
    rcases Fs.of_filealloc (Option.some.inj (Except.ok.inj h)) with ⟨f, -, -, rfl⟩ | ⟨-, rfl⟩
    all_goals exact ⟨rfl, rfl⟩
  case fdalloc f | allocproc q =>
    have heq := Option.some.inj (Except.ok.inj h)
    split at heq <;> cases heq <;> exact ⟨rfl, rfl⟩
  case fileclose f =>
    obtain ⟨a, ha, heq⟩ := of_map_eq_ok h
    cases heq
    rcases Fs.of_fileclose ha with ⟨-, -, rfl⟩ | ⟨-, -, rfl⟩
    all_goals exact ⟨rfl, rfl⟩
  case dup fd | filedup fd =>
    dsimp only [exec] at h
    split at h
    · obtain ⟨a, ha, heq⟩ := of_map_eq_ok h
      cases heq
      rw [Fs.of_filedup ha]
      exact ⟨rfl, rfl⟩
    · cases h
      exact ⟨rfl, rfl⟩
  case takeCwd =>
    obtain ⟨k, -, heq⟩ := Option.map_eq_some_iff.mp (Except.ok.inj h)
    cases heq
    exact ⟨rfl, rfl⟩
  all_goals first
    | exact absurd hr Bool.false_ne_true
    | cases h
      exact ⟨rfl, rfl⟩

namespace Coherent

variable (h : Coherent n s w) (hu : Rights s u)

include h

theorem stage_of_free (hk : (s.itable k).lock = none) (p : Pid) : (w p).stage k = none := by
  rcases hw : w p with _ | ⟨j, st⟩ | _
  · rfl
  · refine Draft.stage_of_ne ?_
    rintro rfl
    have := h.own p j st hw
    rw [hk] at this
    cases this
  · rfl

theorem relabel (hw : ∀ j, (w p).stage j = none) (hv : ∀ j, v.stage j = none) : Coherent n s (update w p v) := by
  refine ⟨h.good, h.ninodes, h.cached, fun j q hl => ?_, fun q j st hq => ?_⟩
  · rw [apply_update_of_eq (fun v => Draft.stage v j) ((hv j).trans (hw j).symm)]
    exact h.held j q hl
  by_cases hqp : q = p
  · rw [hqp, update_self] at hq
    have := hv j
    rw [hq, Draft.stage_self] at this
    cases this
  · rw [update_of_ne hqp] at hq
    exact h.own q j st hq

theorem take {e : Inode} (hk : (s.itable k).lock = none) (he : e.lock = some p)
    (hvalid : e.valid = true) (hm : Matches s.disk e.inum e.toDinode none) : Coherent n (s.setInode k e) w := by
  have hself : (s.setInode k e).itable k = e := update_self ..
  have hne : ∀ j, j ≠ k → (s.setInode k e).itable j = s.itable j := fun j hj => update_of_ne hj ..
  refine ⟨h.good, h.ninodes, fun j hj hv hl => ?_, fun j q hl => ?_, fun q j st hq => ?_⟩
  · have hjk : j ≠ k := by
      rintro rfl
      rw [hself, he] at hl
      cases hl
    rw [Fs.copy]
    rw [hne j hjk] at *
    exact h.cached j hj hv hl
  · by_cases hjk : j = k
    · subst hjk
      rw [Fs.copy]
      rw [hself] at *
      rw [h.stage_of_free hk q]
      exact ⟨hvalid, hm⟩
    · rw [Fs.copy]
      rw [hne j hjk] at *
      exact h.held j q hl
  · have hjk : j ≠ k := by
      rintro rfl
      have := h.own q j st hq
      rw [hk] at this
      cases this
    rw [hne j hjk]
    exact h.own q j st hq

include hu

theorem ilock (hk : 0 < (u p).refs k ∨ ∃ f, (u p).known f = some k) (hlock : s.ilock p k = .ok (some s')) : Coherent n s' w := by
  obtain ⟨hnone, ⟨rfl, hvalid⟩ | ⟨-, htype, rfl⟩⟩ := Fs.of_ilock hlock
  · exact h.take hnone rfl hvalid (h.cached k (hu.ref_pos hk) hvalid hnone)
  have hk : (s.setLock k (some p)).itable k = { s.itable k with lock := some p } := update_self ..
  rw [hk]
  have := h.take (e := { s.itable k with
    lock := some p, toDinode := s.disk.dinode (s.itable k).inum, valid := true }) hnone rfl rfl
    ⟨rfl, htype⟩
  convert this using 1
  simp [Fs.setLock, Fs.setInode]

theorem iunlock (hk : (s.itable k).lock = some p) (hset : (w p).Settled) : Coherent n (s.setLock k none) (update w p none) := by
  obtain ⟨hvalid, hm⟩ := h.held k p hk
  refine h.modify hu h.good rfl (fun _ _ => rfl) (fun q hq hl => ?_) (.inl rfl)
    (hu.ref_pos_of_lock hk) (.inl rfl) (.inl hset)
    (fun hne => absurd rfl hne) (fun _ _ _ => hm.settled hset) (fun hl => ?_)
  · exact hq (Option.some.inj (hl.symm.trans hk))
  · cases hl

theorem invalidate (hw : w p = some (.edit k .freed)) : Coherent n (s.invalidate k) (update w p none) := by
  have hk := h.own p k _ hw
  refine h.modify hu h.good rfl (fun _ _ => rfl) (fun q hq hl => ?_) (.inl rfl)
    (hu.ref_pos_of_lock hk) (.inl rfl) (.inr ⟨_, hw⟩)
    (fun hne => absurd rfl hne) (fun _ hv _ => ?_) (fun hl => ?_)
  · exact hq (Option.some.inj (hl.symm.trans hk))
  · cases hv
  · cases hl

theorem rewrite (hk : (s.itable k).lock = some p) (hgood : Good d' d'.dinode) (hsb : d'.sb = s.disk.sb)
    (hd : ∀ i, i ≠ (s.itable k).inum → d'.dinode i = s.disk.dinode i)
    (hv : v = none ∨ ∃ st, v = some (.edit k st)) (hw : (w p).Settled ∨ ∃ st, w p = some (.edit k st))
    (hm : Matches d' (s.itable k).inum c (v.stage k)) : Coherent n ({ s with disk := d' }.setCopy k c) (update w p v) := by
  refine h.modify hu hgood hsb hd (fun q hq hl => ?_) (.inr hk) (hu.ref_pos_of_lock hk) hv hw (fun _ => hk)
    (fun _ _ hl => ?_) (fun _ => ⟨(h.held k p hk).1, hm⟩)
  · exact hq (Option.some.inj (hl.symm.trans hk))
  · rw [show (s.itable k).lock = none from hl] at hk
    cases hk

end Coherent

/-! ### The contents of inodes -/

section Contents

variable (h : Coherent n s w) (hk : (s.itable k).lock = some p)

include h hk

theorem Coherent.of_readi {dst : ℕ → ℕ → Bool} {r : Option (List UInt8)}
    (hw : (w p).Settled) (hm : m < UINT) (hexec : s.readi k dst off m = .ok (r, s')) :
    s' = s ∧ FileSys.readi s.disk (s.copy k) dst off m = .ok (r, s.disk, s.copy k) := by
  obtain ⟨hc, htype⟩ := (h.held k p hk).2.settled hw
  obtain ⟨d', c', hread, rfl⟩ := Fs.of_readi hexec
  have hdense : Dense s.disk.block (s.copy k) := by
    rw [hc]
    exact h.good.dense _ (hc ▸ htype)
  obtain ⟨r, hr⟩ := readi_spec dst off hdense hm
  rw [hr] at hread
  cases hread
  refine ⟨?_, hr⟩
  simp [Fs.setCopy, Fs.setInode, Fs.copy]

theorem Coherent.of_writei {src : ℕ → ℕ → List UInt8 × Bool} {r : Option ℕ}
    (hw : w p = none) (hm : m < UINT) (hexec : s.writei k src off m = .ok (r, s')) :
    ∃ d' c, FileSys.writei s.disk (s.itable k).inum (s.disk.dinode (s.itable k).inum) src off m =
        .ok (r, d', c) ∧ Rewritten (s.itable k).inum s.disk d' c ∧
      c.type = (s.copy k).type ∧ c.type ≠ .free ∧ s' = { s with disk := d' }.setCopy k c := by
  obtain ⟨-, hmatch⟩ := h.held k p hk
  rw [hw] at hmatch
  obtain ⟨hc, htype⟩ := hmatch
  obtain ⟨d', c, hwrite, rfl⟩ := Fs.of_writei hexec
  rw [hc] at hwrite
  have hspec := (writei_spec h.good (hc ▸ htype) hm).of_ok hwrite
  have hctype : c.type = (s.copy k).type := by rw [hspec.info, hc]
  exact ⟨d', c, hwrite, hspec, hctype, hctype ▸ htype, rfl⟩

theorem Coherent.of_itrunc (hw : w p = none) (hexec : s.itrunc k = .ok s') :
    ∃ d₁, (s.copy k).type ≠ .free ∧ s.copy k = s.disk.dinode (s.itable k).inum ∧ Cleared (fun _ => True) (s.copy k) s.disk d₁ ∧
      s' = { s with disk := FileSys.iupdate d₁ (s.itable k).inum (s.copy k).truncated }.setCopy k (s.copy k).truncated := by
  obtain ⟨-, hm⟩ := h.held k p hk
  rw [hw] at hm
  obtain ⟨hc, htype⟩ := hm
  obtain ⟨d', c', htrunc, rfl⟩ := Fs.of_itrunc hexec
  have hgood : Good s.disk (update s.disk.dinode (s.itable k).inum (s.copy k)) := by
    rw [hc, update_eq_self]
    exact h.good
  obtain ⟨rfl, d₁, hclear, rfl⟩ := (itrunc_spec hgood htype).of_ok htrunc
  exact ⟨d₁, htype, hc, hclear, rfl⟩

end Contents

theorem drafts_sound : (drafts n).SoundUnder (Coherent n) rights Rights exec := by
  intro β r p s u w b s' hu hpre h hpre' hexec
  have hstay : Coherent n s' w → Coherent n s' (update w p (w p)) := by
    rw [update_eq_self]
    exact id
  cases r
  case iget inum =>
    have hget : Coherent n s' w := by
      rcases Fs.of_iget (ok_of_map_some hexec) with ⟨hk, -, rfl⟩ | ⟨hk, -, rfl⟩
      · exact h.setRef fun _ => hk
      · exact h.recycle hu hk
    refine ⟨_, rfl, ?_⟩
    rcases hpre' with hquiet | ⟨type, hw⟩
    · split
      · rename_i hw
        rw [hw] at hquiet
        cases hquiet
      · exact hstay hget
    · rw [hw]
      exact hget.relabel (fun j => by rw [hw]; rfl) fun j => rfl
  case dupCwd =>
    obtain ⟨k, hk, heq⟩ := Option.map_eq_some_iff.mp (Except.ok.inj hexec)
    cases heq
    exact ⟨_, rfl, hstay (h.setRef fun _ => hu.ref_pos_of_cwd hk)⟩
  case ilock k =>
    have hlock := h.ilock hu hpre (ok_of_map_map hexec)
    refine ⟨_, rfl, ?_⟩
    split
    · exact hstay hlock
    · rename_i hquiet
      obtain ⟨inum, type, hw⟩ := hpre'.resolve_left hquiet
      exact hlock.relabel (fun j => by rw [hw]; rfl) fun j => rfl
  case iunlock k =>
    rw [Fs.of_iunlock (ok_of_map_unit hexec)]
    exact ⟨_, rfl, h.iunlock hu (hu.locked hpre) hpre'⟩
  case iput k =>
    refine ⟨_, rfl, hstay ?_⟩
    rcases Fs.of_iput (Except.ok.inj hexec) with ⟨hlast, hvalid, hlock, -, rfl⟩ | ⟨-, rfl⟩
    · exact h.take hlock rfl hvalid (h.cached k (by omega) hvalid hlock)
    · exact h.setRef fun h0 => by omega
  case invalidate k =>
    cases hexec
    exact ⟨_, rfl, h.invalidate hu hpre'⟩
  case unref k =>
    cases hexec
    exact ⟨_, rfl, hstay (h.setRef fun h0 => by omega)⟩
  case iclaim inum type =>
    obtain ⟨hw, hone, hn, -⟩ := hpre'
    have hstage : ∀ j, (w p).stage j = none := fun j => by rw [hw]; rfl
    refine ⟨_, rfl, ?_⟩
    rcases Fs.of_iclaim (Option.some.inj (Except.ok.inj hexec)) with ⟨hfree, rfl, rfl⟩ | ⟨-, rfl, rfl⟩
    · exact (h.iclaim hfree hone hn).relabel hstage fun _ => rfl
    · exact h.relabel hstage fun _ => rfl
  case assign k g =>
    cases hexec
    have hk := hu.locked hpre.1
    obtain ⟨-, hm⟩ := h.held k p hk
    rcases hpre' with ⟨hw, hg⟩ | ⟨hw, rfl⟩
    · rw [hw] at hm
      refine ⟨some (.edit k .dirty), ?_, h.rewrite hu hk h.good rfl (fun _ _ => rfl) (.inr ⟨_, rfl⟩) (.inl (.inl hw)) ?_⟩
      · change _ = some (Work.edit k (if w p = none then .dirty else .dying))
        rw [if_pos hw]
      · obtain ⟨hc, ht⟩ := hm
        obtain ⟨h₁, h₂, h₃⟩ := hg (s.copy k)
        rw [Draft.stage_self]
        exact ⟨hc ▸ h₁, hc ▸ h₂, hc ▸ h₃, h₁ ▸ ht⟩
    · rw [hw, Draft.stage_self] at hm
      refine ⟨some (.edit k .dying), ?_, h.rewrite hu hk h.good rfl (fun _ _ => rfl) (.inr ⟨_, rfl⟩) (.inr ⟨_, hw⟩) ?_⟩
      · change _ = some (Work.edit k (if w p = none then .dirty else .dying))
        rw [if_neg (by simp [hw])]
      · obtain ⟨hc, ht, haddrs, -⟩ := hm
        rw [Draft.stage_self]
        exact ⟨congrArg Draft.setFree hc, hc ▸ ht, haddrs⟩
  case iupdate k =>
    cases hexec
    have hk := hu.locked hpre.1
    obtain ⟨-, hm⟩ := h.held k p hk
    -- the copy stays as it is
    have hcopy : s.iupdate k = { s with disk := (s.iupdate k).disk }.setCopy k (s.copy k) := by
      simp [Fs.iupdate, Fs.setCopy, Fs.setInode, Fs.copy]
    have hd : ∀ i, i ≠ (s.itable k).inum → (s.iupdate k).disk.dinode i = s.disk.dinode i :=
      fun i hi => iupdate_dinode_of_ne hi
    rcases hpre' with hw | hw
    · rw [hw, Draft.stage_self] at hm
      obtain ⟨htype, hsize, haddrs, hfree⟩ := hm
      refine ⟨none, ?_, hcopy ▸ h.rewrite hu hk (h.good.setInode htype hsize haddrs) rfl hd
        (.inl rfl) (.inr ⟨_, hw⟩) ⟨iupdate_dinode_self.symm, hfree⟩⟩
      change none = if w p = some (.edit k .dying) then some (Work.edit k .freed) else none
      rw [if_neg (by simp [hw])]
    rw [hw, Draft.stage_self] at hm
    obtain ⟨hc, -, haddrs⟩ := hm
    have hgood : Good (s.iupdate k).disk (s.iupdate k).disk.dinode := by
      refine Good.iupdate (h.good.setType (.inr fun q => Place.ref_eq_zero fun m hmle => ?_) (.inl ?_))
      · rw [← haddrs m hmle, hc]
        rfl
      · rw [hc]
        rfl
    refine ⟨some (.edit k .freed), ?_, hcopy ▸ h.rewrite hu hk hgood rfl hd (.inr ⟨_, rfl⟩) (.inr ⟨_, hw⟩) ?_⟩
    · change _ = if w p = some (.edit k .dying) then some (Work.edit k .freed) else none
      rw [if_pos hw]
    · rw [Draft.stage_self]
      trivial
  case itrunc k =>
    have hk := hu.locked hpre.1
    obtain ⟨d₁, htype, hc, hclear, rfl⟩ := h.of_itrunc hk hpre' (ok_of_map_unit hexec)
    have hgood : Good s.disk (update s.disk.dinode (s.itable k).inum (s.copy k)) := by
      rw [hc, update_eq_self]
      exact h.good
    have hdin : d₁.dinode = s.disk.dinode := by rw [hclear.rest]
    refine ⟨some (.edit k .empty), rfl, h.rewrite hu hk ?_ ?_ (fun i hi => ?_) (.inr ⟨_, rfl⟩) (.inl (.inl hpre')) ?_⟩
    · refine Good.iupdate ?_
      rw [FileSys.iupdate, hdin]
      exact hgood.cleared htype hclear
    · rw [FileSys.iupdate, hclear.rest]
    · rw [FileSys.iupdate, hdin]
      exact update_of_ne hi ..
    · rw [Draft.stage_self]
      exact ⟨iupdate_dinode_self.symm, htype, fun m hmle => truncated_addrs hmle, rfl⟩
  case readi k dst off m =>
    obtain ⟨rfl, -⟩ := h.of_readi (hu.locked hpre) hpre'.1 hpre'.2 (ok_of_map_some hexec)
    exact ⟨_, rfl, hstay h⟩
  case writei k src off m =>
    have hk := hu.locked hpre.1
    obtain ⟨d', c', -, hw, -, htype, rfl⟩ := h.of_writei hk hpre'.1 hpre'.2 (ok_of_map_some hexec)
    refine ⟨none, hpre'.1.symm, h.rewrite hu hk hw.good hw.sb (fun i hi => ?_) (.inl rfl) (.inl (.inl hpre'.1)) ⟨?_, htype⟩⟩
    · rw [hw.dinode, update_of_ne hi]
    · rw [hw.dinode, update_self]
  all_goals exact ⟨_, rfl, hstay (h.frame (exec_aside rfl hexec).1 (exec_aside rfl hexec).2)⟩

end Xv6.FileSys
