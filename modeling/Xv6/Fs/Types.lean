import Xv6.Fs.Kinds
import Xv6.Fs.Fresh

/-!
# Writing to a file never reaches a directory

An inode in the table is of the type that `sys_open` has found it to be, for as long as somebody refers to it: it changes
its type only when `iput` frees it. So an open file that can be written to is of a plain file. The one way around this is
an inode that another process locks while it is still being allocated: then it can be freed, and allocated again as
something else.
-/

namespace Xv6.FileSys

open Lib Function

variable {n : ℕ} {s s' : Fs} {w : Pid → Kinds} {u : Pid → View} {d : Pid → Draft} {p q : Pid}
  {k j : Slot} {f : FileId} {v v' : Kinds} {disk : Disk}

/-! ### The invariant -/

structure Known (s : Fs) (p : Pid) (v : Kinds) : Prop where
  held : ∀ k T, v.held k = some T →
    (s.itable k).lock = some p ∧ (s.itable k).valid = true ∧ (s.itable k).type = T
  doomed : ∀ k, v.doomed = some k → (s.itable k).lock = some p ∧
    ∀ f, (s.ftable f).type ≠ .none → (s.ftable f).ip ≠ k
  writes : ∀ f k, v.writes f = some k → 0 < fdsAt f (s.procs p) ∧
    (s.ftable f).type = .inode ∧ (s.ftable f).writable = true ∧ (s.ftable f).ip = k

structure Typed (s : Fs) (w : Pid → Kinds) : Prop where
  each : ∀ p, Known s p (w p)
  files : ∀ f, (s.ftable f).type = .inode → (s.itable (s.ftable f).ip).valid = true ∧
    ((s.ftable f).writable = true → (s.itable (s.ftable f).ip).type = .file)

namespace Typed

variable (h : Typed s w)

include h

theorem entry {e : Inode} (hitable : s'.itable = update s.itable k e) (hftable : s'.ftable = s.ftable)
    (hprocs : s'.procs = s.procs) (hlock : ∀ q, q ≠ p → (s.itable k).lock ≠ some q)
    (hself : ∀ T, v.held k = some T → e.lock = some p ∧ e.valid = true ∧ e.type = T) (hheld : ∀ j, j ≠ k → v.held j = (w p).held j)
    (hfiles : ∀ f, (s.ftable f).type = .inode → (s.ftable f).ip = k → e.valid = true ∧ ((s.ftable f).writable = true → e.type = .file))
    (hdoomed : ∀ j, v.doomed = some j → j ≠ k ∧ (w p).doomed = some j ∨
      j = k ∧ e.lock = some p ∧ ∀ f, (s.ftable f).type ≠ .none → (s.ftable f).ip ≠ k)
    (hwrites : v.writes = (w p).writes) : Typed s' (update w p v) := by
  have hk : s'.itable k = e := by rw [hitable, update_self]
  have hne : ∀ j, j ≠ k → s'.itable j = s.itable j := fun j hj => by rw [hitable, update_of_ne hj]
  refine ⟨forall_update ⟨fun j T hj => ?_, fun j hj => ?_, fun f j hj => ?_⟩ fun q hq =>
    ⟨fun j T hj => ?_, fun j hj => ?_, fun f j hj => ?_⟩, fun f hf => ?_⟩
  · by_cases hjk : j = k
    · subst hjk
      rw [hk]
      exact hself T hj
    · rw [hne j hjk]
      exact (h.each p).held j T (hheld j hjk ▸ hj)
  · rw [hftable]
    rcases hdoomed j hj with ⟨hjk, hold⟩ | ⟨rfl, he, hno⟩
    · rw [hne j hjk]
      exact (h.each p).doomed j hold
    · rw [hk]
      exact ⟨he, hno⟩
  · rw [hftable, hprocs]
    exact (h.each p).writes f j (hwrites ▸ hj)
  · have hjk : j ≠ k := by
      rintro rfl
      exact hlock q hq ((h.each q).held j T hj).1
    rw [hne j hjk]
    exact (h.each q).held j T hj
  · have hjk : j ≠ k := by
      rintro rfl
      exact hlock q hq ((h.each q).doomed j hj).1
    rw [hftable, hne j hjk]
    exact (h.each q).doomed j hj
  · rw [hftable, hprocs]
    exact (h.each q).writes f j hj
  · rw [hftable] at hf ⊢
    by_cases hip : (s.ftable f).ip = k
    · rw [hip, hk]
      exact hfiles f hf hip
    · rw [hne _ hip]
      exact h.files f hf

theorem frame (hitable : ∀ k, (s'.itable k).lock = (s.itable k).lock ∧
      (s'.itable k).valid = (s.itable k).valid ∧ (s'.itable k).type = (s.itable k).type)
    (hftable : ∀ f, (s'.ftable f).type = (s.ftable f).type ∧ (s'.ftable f).ip = (s.ftable f).ip ∧ (s'.ftable f).writable = (s.ftable f).writable)
    (hprocs : ∀ q f, (∃ k, (w q).writes f = some k) → 0 < fdsAt f (s.procs q) → 0 < fdsAt f (s'.procs q)) : Typed s' w := by
  refine ⟨fun p => ⟨fun k T hk => ?_, fun k hk => ?_, fun f k hk => ?_⟩, fun f hf => ?_⟩
  · obtain ⟨hlock, hvalid, htype⟩ := hitable k
    rw [hlock, hvalid, htype]
    exact (h.each p).held k T hk
  · rw [(hitable k).1]
    refine ⟨((h.each p).doomed k hk).1, fun f hf => ?_⟩
    obtain ⟨htype, hip, -⟩ := hftable f
    rw [htype] at hf
    rw [hip]
    exact ((h.each p).doomed k hk).2 f hf
  · obtain ⟨htype, hip, hw⟩ := hftable f
    obtain ⟨hfds, hrest⟩ := (h.each p).writes f k hk
    rw [htype, hip, hw]
    exact ⟨hprocs p f ⟨k, hk⟩ hfds, hrest⟩
  · obtain ⟨htype, hip, hw⟩ := hftable f
    obtain ⟨-, hvalid, hT⟩ := hitable (s.ftable f).ip
    rw [htype] at hf
    rw [hip, hw, hvalid, hT]
    exact h.files f hf

theorem file {e : File} (hitable : s'.itable = s.itable) (hftable : s'.ftable = update s.ftable f e)
    (hprocs : s'.procs = s.procs) (hidle : ∀ q k, (w q).writes f ≠ some k) (hfile : e.type = .inode → (s.itable e.ip).valid = true ∧
      (e.writable = true → (s.itable e.ip).type = .file)) (hdoomed : e.type ≠ .none → ∀ q, (w q).doomed ≠ some e.ip) : Typed s' w := by
  have hf : s'.ftable f = e := by rw [hftable, update_self]
  have hne : ∀ g, g ≠ f → s'.ftable g = s.ftable g := fun g hg => by rw [hftable, update_of_ne hg]
  refine ⟨fun q => ⟨hitable ▸ (h.each q).held, fun k hk => ?_, fun g k hk => ?_⟩, fun g hg => ?_⟩
  · rw [hitable]
    refine ⟨((h.each q).doomed k hk).1, fun g hg => ?_⟩
    by_cases hgf : g = f
    · rw [hgf, hf] at hg ⊢
      rintro rfl
      exact hdoomed hg q hk
    · rw [hne g hgf] at hg ⊢
      exact ((h.each q).doomed k hk).2 g hg
  · have hgf : g ≠ f := by
      rintro rfl
      exact hidle q k hk
    rw [hne g hgf, hprocs]
    exact (h.each q).writes g k hk
  · rw [hitable]
    by_cases hgf : g = f
    · rw [hgf, hf] at hg ⊢
      exact hfile hg
    · rw [hne g hgf] at hg ⊢
      exact h.files g hg

theorem unlocked (hk : (s.itable k).lock = none) : (w p).held k = none ∧ ∀ j, (w p).doomed = some j → j ≠ k := by
  refine ⟨Option.eq_none_iff_forall_ne_some.mpr fun T hT => ?_, ?_⟩
  · exact absurd (hk.symm.trans ((h.each p).held k T hT).1) (by simp)
  · rintro j hj rfl
    exact absurd (hk.symm.trans ((h.each p).doomed j hj).1) (by simp)

theorem setRef {m : ℕ} : Typed (s.setInode k { s.itable k with ref := m }) w := by
  refine h.frame (fun j => ?_) (fun _ => ⟨rfl, rfl, rfl⟩) fun _ _ _ hf => hf
  by_cases hjk : j = k
  · subst hjk
    simp [Fs.setInode]
  · simp [Fs.setInode, update_of_ne hjk]

theorem procs (hitable : s'.itable = s.itable) (hftable : s'.ftable = s.ftable)
    (hprocs : ∀ q f, (∃ k, (w q).writes f = some k) → 0 < fdsAt f (s.procs q) → 0 < fdsAt f (s'.procs q)) : Typed s' w :=
  h.frame (fun k => by rw [hitable]; exact ⟨rfl, rfl, rfl⟩) (fun f => by rw [hftable]; exact ⟨rfl, rfl, rfl⟩) hprocs

theorem relabel (hheld : v.held = (w p).held) (hdoomed : v.doomed = (w p).doomed) (hwrites : v.writes = (w p).writes) : Typed s (update w p v) := by
  refine ⟨forall_update ⟨?_, ?_, ?_⟩ fun q _ => h.each q, h.files⟩
  · rw [hheld]
    exact (h.each p).held
  · rw [hdoomed]
    exact (h.each p).doomed
  · rw [hwrites]
    exact (h.each p).writes

theorem setFile {e : File} (htype : e.type = (s.ftable f).type) (hip : e.ip = (s.ftable f).ip)
    (hw : e.writable = (s.ftable f).writable) : Typed (s.setFile f e) w := by
  refine h.frame (fun _ => ⟨rfl, rfl, rfl⟩) (fun g => ?_) fun _ _ _ hf => hf
  by_cases hgf : g = f
  · subst hgf
    simp only [Fs.setFile, update_self]
    exact ⟨htype, hip, hw⟩
  · simp only [Fs.setFile, update_of_ne hgf, and_self]

theorem learn (hf : 0 < fdsAt f (s.procs p)) : Typed s (update w p ((w p).learn f (s.ftable f))) := by
  unfold Kinds.learn
  split
  · next hfile =>
    refine ⟨forall_update ⟨(h.each p).held, (h.each p).doomed, fun g k hk => ?_⟩ fun q _ => h.each q, h.files⟩
    by_cases hgf : g = f
    · subst hgf
      refine ⟨hf, hfile.1, hfile.2, ?_⟩
      change update (w p).writes g (some (s.ftable g).ip) g = some k at hk
      rw [update_self] at hk
      exact Option.some.inj hk
    · change update (w p).writes f (some (s.ftable f).ip) g = some k at hk
      rw [update_of_ne hgf] at hk
      exact (h.each p).writes g k hk
  · rw [update_eq_self]
    exact h

theorem setCopy {c : Dinode} (hk : (s.itable k).lock = some p) (htype : c.type = (s.itable k).type) :
    Typed ({ s with disk := disk }.setCopy k c) (update w p (w p)) := by
  refine h.entry (k := k) rfl rfl rfl (fun q hq hl => hq ?_) (fun T hT => ?_) (fun _ _ => rfl) (fun f hf hip => ?_) (fun j hj => ?_) rfl
  · exact Option.some.inj (hl.symm.trans hk)
  · obtain ⟨hl, hv, hT⟩ := (h.each p).held k T hT
    exact ⟨hl, hv, htype.trans hT⟩
  · have := h.files f hf
    rw [hip] at this
    exact ⟨this.1, fun hw => htype.trans (this.2 hw)⟩
  · by_cases hjk : j = k
    · subst hjk
      exact .inr ⟨rfl, (h.each p).doomed j hj⟩
    · exact .inl ⟨hjk, hj⟩

end Typed

/-! ### Actions -/

theorem Rights.no_file (hu : Rights s u) (hk : (s.itable k).ref = 0) (hf : (s.ftable f).type ≠ .none) : (s.ftable f).ip ≠ k := by
  intro hip
  have := hu.at_le f k
  rw [File.at, if_pos ⟨hf, hip⟩] at this
  omega

theorem Rights.no_file_of_last (hu : Rights s u) (hk : (s.itable k).ref = 1) (hp : 0 < (u p).refs k)
    (hf : (s.ftable f).type ≠ .none) : (s.ftable f).ip ≠ k := by
  intro hip
  have hfile := le_sum (fun e : File => e.at k) s.ftable f
  have hself := le_sum (fun v : View => v.refs k) u p
  have hsum := hu.refs k
  have hone : (s.ftable f).at k = 1 := if_pos ⟨hf, hip⟩
  omega

theorem Rights.fds_of_last (hu : Rights s u) (hf : (s.ftable f).ref = 1) (hp : 0 < (u p).files f) : fdsAt f (s.procs q) = 0 := by
  by_cases hqp : q = p
  · have := hu.files_le p f
    rw [hqp]
    omega
  · have := hu.files_add_le hqp f
    omega

theorem Rights.lock_of_ref (hu : Rights s u) (hk : (s.itable k).ref = 0) : (s.itable k).lock = none := by
  refine Option.eq_none_iff_forall_ne_some.mpr fun q hq => ?_
  have := hu.ref_pos_of_lock hq
  omega

theorem fdsAt_update {o : Option Proc} (hqp : q ≠ p) (hf : 0 < fdsAt f (s.procs q)) : 0 < fdsAt f (update s.procs p o q) := by
  rwa [update_of_ne hqp]

theorem fdsAt_setOfile {fd : Fd} {o : Option FileId} (hfd : s.ofile p fd = none ∨ q ≠ p)
    (hf : 0 < fdsAt f (s.procs q)) : 0 < fdsAt f ((s.setOfile p fd o).procs q) := by
  by_cases hqp : q = p
  · subst hqp
    have hnone := hfd.resolve_right (fun h => h rfl)
    change 0 < fdsAt f (update s.procs q ((s.procs q).map _) q)
    rw [update_self]
    cases hpr : s.procs q with
    | none =>
      rw [hpr] at hf
      exact hf
    | some pr =>
      rw [hpr] at hf
      rw [Fs.ofile, hpr] at hnone
      have := pr.fds_update fd o f
      rw [show pr.ofile fd = none from hnone, if_neg (by simp)] at this
      change 0 < Proc.fds f pr at hf
      change 0 < Proc.fds f { pr with ofile := update pr.ofile fd o }
      omega
  · exact fdsAt_update hqp hf

theorem fdsAt_setCwd {cwd : Option Slot} (hf : 0 < fdsAt f (s.procs q)) : 0 < fdsAt f ((s.setCwd p cwd).procs q) := by
  by_cases hqp : q = p
  · subst hqp
    change 0 < fdsAt f (update s.procs q ((s.procs q).map _) q)
    rw [update_self]
    cases hpr : s.procs q with
    | none | some pr =>
      rw [hpr] at hf
      exact hf
  · exact fdsAt_update hqp hf

theorem typed_exec {β : Type} {r : Act β} {b : β} (hu : Rights s u) (hd : Coherent n s d)
    (h : Typed s w) (hpre : rights.pre r (u p)) (hpre' : (drafts n).pre r (d p))
    (hknown : kinds.pre r (w p)) (hexec : exec r p s = .ok (some (b, s')))
    (hclaim : ∀ k T, r.locks = some k → (w p).claimed = some T → (s'.itable k).type = T) : ∃ v, kinds.post r (w p) b v ∧ Typed s' (update w p v) := by
  have hstay : Typed s' w → Typed s' (update w p (w p)) := by
    rw [update_eq_self]
    exact id
  have hfree : ∀ {k}, (s.itable k).lock = none → ∀ q, q ≠ p → (s.itable k).lock ≠ some q := by
    intro k hk q _ hq
    rw [hk] at hq
    cases hq
  have hmine : ∀ {k}, (s.itable k).lock = some p → ∀ q, q ≠ p → (s.itable k).lock ≠ some q := by
    intro k hk q hqp hq
    exact hqp (Option.some.inj (hq.symm.trans hk))
  cases r
  case iget inum =>
    refine ⟨_, rfl, ?_⟩
    rcases Fs.of_iget (ok_of_map_some hexec) with ⟨-, -, rfl⟩ | ⟨hk, -, rfl⟩
    · exact hstay h.setRef
    · have hlock := hu.lock_of_ref hk
      obtain ⟨hnone, hdoomed⟩ := h.unlocked (p := p) hlock
      exact h.entry rfl rfl rfl (hfree hlock) (fun T hT => absurd (hnone.symm.trans hT) (by simp)) (fun _ _ => rfl)
        (fun f hf hip => absurd hip (hu.no_file hk (by rw [hf]; decide))) (fun j hj => .inl ⟨hdoomed j hj, hj⟩) rfl
  case dupCwd =>
    obtain ⟨k, -, heq⟩ := Option.map_eq_some_iff.mp (Except.ok.inj hexec)
    cases heq
    exact ⟨_, rfl, hstay h.setRef⟩
  case look k =>
    cases hexec
    exact ⟨_, ⟨rfl, fun T hT => ((h.each p).held k T hT).2.2⟩, hstay h⟩
  case ilock k =>
    obtain ⟨hlock, hcase⟩ := Fs.of_ilock (ok_of_map_map hexec)
    obtain ⟨hnone, hdoomed⟩ := h.unlocked (p := p) hlock
    -- the entry after it, of whatever type
    obtain ⟨e, hitable, hftable, hprocs, he, hvalid, htype, hsame⟩ : ∃ e : Inode,
        s'.itable = update s.itable k e ∧ s'.ftable = s.ftable ∧ s'.procs = s.procs ∧
        e.lock = some p ∧ e.valid = true ∧ e.type ≠ .free ∧
        ((s.itable k).valid = true → e.type = (s.itable k).type) := by
      rcases hcase with ⟨rfl, hvalid⟩ | ⟨hvalid, hne, rfl⟩
      · refine ⟨_, rfl, rfl, rfl, rfl, hvalid, ?_, fun _ => rfl⟩
        exact (hd.cached k (hu.ref_pos hpre) hvalid hlock).2
      · refine ⟨{ s.itable k with
            toDinode := s.disk.dinode (s.itable k).inum, valid := true, lock := some p },
          ?_, rfl, rfl, rfl, rfl, hne, fun hv => ?_⟩
        · simp [Fs.setLock, Fs.setInode]
        · exact absurd (hv.symm.trans hvalid) (by decide)
    refine ⟨_, ⟨hnone, e.type, htype, fun T hT => ?_, rfl⟩, ?_⟩
    · rw [← hclaim k T rfl hT, hitable, update_self]
    refine h.entry hitable hftable hprocs (hfree hlock) (fun T hT => ?_) (fun j hj => ?_)
      (fun f hf hip => ?_) (fun j hj => .inl ⟨hdoomed j hj, hj⟩) rfl
    · exact ⟨he, hvalid, Option.some.inj (Kinds.lock_held.symm.trans hT)⟩
    · exact Kinds.lock_held_of_ne hj
    · have hfile := h.files f hf
      rw [hip] at hfile
      exact ⟨hvalid, fun hw => (hsame hfile.1).trans (hfile.2 hw)⟩
  case iunlock k =>
    rw [Fs.of_iunlock (ok_of_map_unit hexec)]
    have hk := hu.locked hpre
    refine ⟨_, rfl, h.entry (k := k) rfl rfl rfl (hmine hk) (fun T hT => ?_) (fun j hj => ?_) (fun f hf hip => ?_) (fun j hj => ?_) rfl⟩
    · exact absurd ((update_self ..).symm.trans hT) (by simp)
    · exact update_of_ne hj ..
    · exact hip ▸ h.files f hf
    · exact absurd ((show (w p).doomed = none from hknown).symm.trans hj) (by simp)
  case iput k =>
    rcases Fs.of_iput (Except.ok.inj hexec) with ⟨hlast, hvalid, hlock, rfl, rfl⟩ | ⟨rfl, rfl⟩
    · have hno : ∀ f, (s.ftable f).type ≠ .none → (s.ftable f).ip ≠ k :=
        fun f hf => hu.no_file_of_last hlast hpre.1 hf
      refine ⟨_, ⟨(h.unlocked hlock).1, (s.itable k).type, rfl⟩, h.entry (k := k) rfl rfl rfl (hfree hlock)
        (fun T hT => ?_) (fun j hj => ?_) (fun f hf hip => ?_) (fun j hj => .inr ⟨?_, rfl, hno⟩) rfl⟩
      · exact ⟨rfl, hvalid, Option.some.inj (Kinds.lock_held.symm.trans hT)⟩
      · exact Kinds.lock_held_of_ne hj
      · exact absurd hip (hno f (by rw [hf]; decide))
      · exact (Option.some.inj hj).symm
    · exact ⟨_, rfl, hstay h.setRef⟩
  case invalidate k =>
    cases hexec
    have hk := hu.locked hpre
    obtain ⟨-, hno⟩ := (h.each p).doomed k hknown
    refine ⟨_, rfl, h.entry (k := k) rfl rfl rfl (hmine hk) (fun T hT => ?_) (fun j hj => ?_) (fun f hf hip => ?_) (fun j hj => ?_) rfl⟩
    · exact absurd ((update_self ..).symm.trans hT) (by simp)
    · exact update_of_ne hj ..
    · exact absurd hip (hno f (by rw [hf]; decide))
    · cases hj
  case unref k =>
    cases hexec
    exact ⟨_, rfl, hstay h.setRef⟩
  case iclaim inum T =>
    refine ⟨_, rfl, ?_⟩
    rcases Fs.of_iclaim (Option.some.inj (Except.ok.inj hexec)) with ⟨-, rfl, rfl⟩ | ⟨-, rfl, rfl⟩
    · have hrest : Typed { s with disk := iupdate s.disk inum { Dinode.zero with type := T } } w :=
        h.procs rfl rfl fun _ _ _ hf => hf
      exact hrest.relabel rfl rfl rfl
    · exact hstay h
  case assign k g =>
    cases hexec
    have hk := hu.locked hpre.1
    refine ⟨_, rfl, ?_⟩
    rcases hknown with ⟨hdoomed, hg⟩ | ⟨hdoomed, rfl⟩
    · rw [if_neg (by rw [hdoomed]; simp)]
      exact h.setCopy hk (hg _).1
    obtain ⟨-, hno⟩ := (h.each p).doomed k hdoomed
    rw [if_pos hdoomed]
    refine h.entry (k := k) rfl rfl rfl (hmine hk) (fun T hT => ?_) (fun j hj => ?_) (fun f hf hip => ?_) (fun j hj => .inr ⟨?_, hk, hno⟩) rfl
    · refine ⟨hk, (hd.held k p hk).1, ?_⟩
      exact Option.some.inj (Kinds.lock_held.symm.trans hT)
    · exact Kinds.lock_held_of_ne hj
    · exact absurd hip (hno f (by rw [hf]; decide))
    · exact (Option.some.inj (hdoomed.symm.trans hj)).symm
  case iupdate k | beginOp | endOp =>
    cases hexec
    exact ⟨_, rfl, hstay (h.procs rfl rfl fun _ _ _ hf => hf)⟩
  case itrunc k =>
    have hk := hu.locked hpre.1
    obtain ⟨d₁, -, -, -, rfl⟩ := hd.of_itrunc hk hpre' (ok_of_map_unit hexec)
    exact ⟨_, rfl, h.setCopy hk rfl⟩
  case readi k dst off m =>
    obtain ⟨rfl, -⟩ := hd.of_readi (hu.locked hpre) hpre'.1 hpre'.2 (ok_of_map_some hexec)
    exact ⟨_, rfl, hstay h⟩
  case writei k src off m =>
    have hk := hu.locked hpre.1
    obtain ⟨d', c, -, -, htype, -, rfl⟩ := hd.of_writei hk hpre'.1 hpre'.2 (ok_of_map_some hexec)
    exact ⟨_, rfl, h.setCopy hk htype⟩
  case filealloc =>
    refine ⟨_, rfl, hstay ?_⟩
    rcases Fs.of_filealloc (Option.some.inj (Except.ok.inj hexec)) with ⟨f, -, -, rfl⟩ | ⟨-, rfl⟩
    · exact h.setFile rfl rfl rfl
    · exact h
  case fdalloc f =>
    have heq := Option.some.inj (Except.ok.inj hexec)
    refine ⟨_, rfl, hstay ?_⟩
    split at heq
    · next fd hfd =>
      cases heq
      exact h.procs rfl rfl fun q g _ hg => fdsAt_setOfile (.inl (Fs.ofile_of_fdalloc hfd)) hg
    · cases heq
      exact h
  case openFile f k omode =>
    cases hexec
    obtain ⟨hdoomed, T, hT, hfits⟩ := hknown
    obtain ⟨hk, hvalid, rfl⟩ := (h.each p).held k T hT
    have hnone := ((hu.each p).fresh f hpre.1).1
    refine ⟨_, rfl, hstay (h.file rfl rfl rfl (fun q j hj => ?_) (fun htype => ⟨hvalid, fun hw => ?_⟩) fun _ q hq => ?_)⟩
    · exact absurd (hnone.symm.trans ((h.each q).writes f j hj).2.1) (by decide)
    · -- a device would have been opened as one
      refine (hfits hw).resolve_right fun hdev => ?_
      dsimp only at htype
      rw [if_pos (decide_eq_true hdev)] at htype
      cases htype
    · have hq' := ((h.each q).doomed k hq).1
      obtain rfl : p = q := Option.some.inj (hk.symm.trans hq')
      exact absurd (hdoomed.symm.trans hq) (by simp)
  case fileclose f =>
    refine ⟨_, rfl, hstay ?_⟩
    rcases Fs.of_fileclose (ok_of_map_some hexec) with ⟨-, -, rfl⟩ | ⟨hf, -, rfl⟩
    · exact h.setFile rfl rfl rfl
    · refine h.file rfl rfl rfl (fun q j hj => ?_) (fun htype => FdType.noConfusion htype) (fun hne => absurd rfl hne)
      have := ((h.each q).writes f j hj).1
      rw [hu.fds_of_last hf hpre.1] at this
      exact absurd this (lt_irrefl 0)
  case argfd fd =>
    cases hexec
    refine ⟨_, rfl, ?_⟩
    cases hfd : s.ofile p fd with
    | none => exact hstay h
    | some f => exact h.learn (fdsAt_pos hfd)
  case offset f =>
    cases hexec
    exact ⟨_, rfl, hstay h⟩
  case advance f m =>
    cases hexec
    exact ⟨_, rfl, hstay (h.setFile rfl rfl rfl)⟩
  case clearFd fd =>
    cases hexec
    refine ⟨_, rfl, hstay (h.procs rfl rfl fun q f hwrites hf => fdsAt_setOfile (.inr ?_) hf)⟩
    rintro rfl
    obtain ⟨k, hk⟩ := hwrites
    exact absurd ((hknown f).symm.trans hk) (by simp)
  case dup fd =>
    dsimp only [exec] at hexec
    refine ⟨_, rfl, hstay ?_⟩
    split at hexec
    · next f fd' hf hfd' =>
      obtain ⟨a, ha, heq⟩ := of_map_eq_ok hexec
      cases heq
      rw [Fs.of_filedup ha]
      have hrest : Typed (s.setFile f { s.ftable f with ref := (s.ftable f).ref + 1 }) w :=
        h.setFile rfl rfl rfl
      exact hrest.procs rfl rfl fun q g _ hg => fdsAt_setOfile (.inl (Fs.ofile_of_fdalloc hfd')) hg
    · cases hexec
      exact h
  case filedup fd =>
    dsimp only [exec] at hexec
    refine ⟨_, rfl, hstay ?_⟩
    split at hexec
    · obtain ⟨a, ha, heq⟩ := of_map_eq_ok hexec
      cases heq
      rw [Fs.of_filedup ha]
      exact h.setFile rfl rfl rfl
    · cases hexec
      exact h
  case takeCwd =>
    obtain ⟨k, -, heq⟩ := Option.map_eq_some_iff.mp (Except.ok.inj hexec)
    cases heq
    exact ⟨_, rfl, hstay (h.procs rfl rfl fun q f _ hf => fdsAt_setCwd hf)⟩
  case setCwd k =>
    cases hexec
    exact ⟨_, rfl, hstay (h.procs rfl rfl fun q f _ hf => fdsAt_setCwd hf)⟩
  case allocproc q =>
    have heq := Option.some.inj (Except.ok.inj hexec)
    refine ⟨_, rfl, hstay ?_⟩
    split at heq
    · next hq =>
      cases heq
      refine h.procs rfl rfl fun q' f _ hf => fdsAt_update ?_ hf
      rintro rfl
      rw [hq] at hf
      exact absurd hf (lt_irrefl 0)
    · cases heq
      exact h
  case spawn q k =>
    cases hexec
    refine ⟨_, rfl, hstay (h.procs rfl rfl fun q' f _ hf => fdsAt_update ?_ hf)⟩
    -- the child had no files before
    rintro rfl
    rw [(hu.each p).child q' hpre.1] at hf
    simp [fdsAt, Proc.embryo, Proc.fds] at hf
  case zombie =>
    cases hexec
    refine ⟨_, rfl, hstay (h.procs rfl rfl fun q f hwrites hf => fdsAt_update ?_ hf)⟩
    rintro rfl
    obtain ⟨k, hk⟩ := hwrites
    exact absurd ((hknown f).symm.trans hk) (by simp)

/-! ### Runs -/

variable {x y : Sys}

theorem post_call {β : Type} {r : Act β} {rest : β → Prog Unit} {b : β}
    (hthr : x.thr p = .act r rest) (hclaim : v.claimed = (x.claim p).map Prod.snd)
    (hpre : kinds.pre r v) (hexec : exec r p x.fs = .ok (some (b, s'))) (h : kinds.post r v b v') :
    v'.claimed = (x.claimNext p).map Prod.snd ∧ v'.user = v.user := by
  unfold Sys.claimNext
  rw [hthr]
  cases r
  case look k => exact ⟨(congrArg Kinds.claimed h.1).trans hclaim, congrArg Kinds.user h.1⟩
  case ilock k =>
    obtain ⟨-, T, -, -, rfl⟩ := h
    exact ⟨rfl, rfl⟩
  case iput k =>
    cases b with
    | false => exact ⟨(congrArg Kinds.claimed h :).trans hclaim, (congrArg Kinds.user h :)⟩
    | true =>
      obtain ⟨-, T, rfl⟩ := h
      exact ⟨hclaim, rfl⟩
  case iclaim i T =>
    rw [show v' = _ from h]
    rcases Fs.of_iclaim (Option.some.inj (Except.ok.inj hexec)) with ⟨hfree, rfl, -⟩ | ⟨hfree, rfl, -⟩
    · simp only [if_pos hfree]
      exact ⟨rfl, rfl⟩
    · simp only [if_neg hfree]
      exact ⟨hpre, rfl⟩
  case assign k g =>
    rw [show v' = _ from h]
    split <;> exact ⟨hclaim, rfl⟩
  case argfd fd =>
    rw [show v' = _ from h]
    rcases b with _ | ⟨f, file⟩
    · exact ⟨hclaim, rfl⟩
    · unfold Kinds.learn
      dsimp only
      split <;> exact ⟨hclaim, rfl⟩
  all_goals exact ⟨(congrArg Kinds.claimed h :).trans hclaim, (congrArg Kinds.user h :)⟩

/-- **The invariant of the machine**: the processes know the types of what they work on. -/
structure Guarded (x : Sys) (w : Pid → Kinds) : Prop where
  typed : Typed x.fs w
  ok : ∀ p, (x.thr p).Ok kinds (w p) fun _ => Kinds.Clear
  claim : ∀ p, (w p).claimed = (x.claim p).map Prod.snd
  user : ∀ p, (w p).user = (x.call p).any Call.writes

theorem guarded_start (disk : Disk) : Guarded (start disk) fun _ => .idle false where
  typed :=
    { each := fun _ => ⟨fun _ _ h => (nomatch h), fun _ h => (nomatch h), fun _ _ h => (nomatch h)⟩
      files := fun _ h => nomatch h }
  ok _ := ⟨fun _ => rfl, rfl, rfl⟩
  claim _ := rfl
  user _ := rfl

theorem guarded_step {e : Event} (hbal : x.Balanced) (hd : Claims n x d) (h : Guarded x w) (hstep : step x e = some y) : ∃ w', Guarded y w' := by
  obtain ⟨u, ⟨hu, -⟩, hok⟩ := hbal
  cases e with
  | call p c =>
    simp only [step] at hstep
    split at hstep <;> cases hstep
    rename_i hready
    have hclear := Sys.ok_of_outside (h.ok p) hready.1
    refine ⟨update w p (.idle c.writes), ⟨forall_update ⟨?_, ?_, ?_⟩ fun q _ => h.typed.each q, h.typed.files⟩,
      forall_update₂ (P := fun _ prog v => Program.Ok kinds prog v fun _ => Kinds.Clear) (c.knows _) fun q _ => h.ok q,
      forall_update (P := fun q v => Kinds.claimed v = (x.claim q).map Prod.snd) ?_ fun q _ => h.claim q,
      forall_update₂ (P := fun _ v o => Kinds.user v = Option.any Call.writes o) rfl fun q _ => h.user q⟩
    · exact fun _ _ h => absurd h.symm (Option.some_ne_none _)
    · exact fun _ h => absurd h.symm (Option.some_ne_none _)
    · exact fun _ _ h => absurd h.symm (Option.some_ne_none _)
    · rw [← h.claim p, hclear.claimed]
      rfl
  | act p =>
    simp only [step] at hstep
    split at hstep <;> cases hstep
    rename_i fs prog hnext
    obtain ⟨β, r, rest, b, hthr, hexec, rfl⟩ := Program.of_next hnext
    have hpre := hok p
    have hpre' := hd.ok p
    have hknown := h.ok p
    rw [hthr] at hpre hpre' hknown
    have hclaim : ∀ k T, r.locks = some k → (w p).claimed = some T → (fs.itable k).type = T := by
      intro k T hr hT
      rw [h.claim p] at hT
      obtain ⟨⟨inum, type⟩, hc, rfl⟩ := Option.map_eq_some_iff.mp hT
      cases r
      case ilock j =>
        cases hr
        exact congrArg Dinode.type (hd.found hu hpre.1 hc hthr hexec).2
      all_goals cases hr
    obtain ⟨v, hpost, htyped⟩ := typed_exec hu hd.coherent h.typed hpre.1 hpre'.1 hknown.1 hexec hclaim
    obtain ⟨hclaimed, huser⟩ := post_call hthr (h.claim p) hknown.1 hexec hpost
    exact ⟨update w p v, htyped, Program.Ok.update h.ok hthr hpost,
      forall_update₂ (P := fun _ v o => Kinds.claimed v = Option.map Prod.snd o) hclaimed fun q _ => h.claim q,
      forall_update (P := fun q v => Kinds.user v = (x.call q).any Call.writes) (huser.trans (h.user p)) fun q _ => h.user q⟩
  | commit =>
    simp only [step] at hstep
    split at hstep <;> cases hstep
    exact ⟨w, h.typed, h.ok, h.claim, h.user⟩
  | crash =>
    cases hstep
    exact ⟨_, guarded_start _⟩

theorem guarded_of_run (hgood : Good disk disk.dinode) {es : List Event}
    (hal : Along step Apart (start disk) es) (hrun : run step (start disk) es = some x) : ∃ w, Guarded x w := by
  have := hal.invariant (I := fun x => x.Balanced ∧ x.InOrder disk.sb.ninodes ∧ (∃ d, Claims disk.sb.ninodes x d) ∧ ∃ w, Guarded x w) ?_
    ⟨balanced_start disk, inOrder_start hgood, ⟨_, claims_start hgood⟩, _, guarded_start disk⟩ hrun
  · exact this.2.2.2
  · rintro x e y ⟨hbal, hord, ⟨d, hd⟩, w, hw⟩ hapart hstep
    exact ⟨balanced_step hbal hstep, inOrder_step hbal hord hstep, claims_step hbal hord hd hapart hstep, guarded_step hbal hd hw hstep⟩

def Prog.truncating (ip : Slot) : Prog Unit := do
  itrunc ip
  iunlock ip
  endOp

/-- **User writes reach plain files only**, in a run in which nobody locks what another process has just got from `ialloc`: an open file
that can be written to is of a plain file, `sys_open` truncates plain files, `write` writes to them, and all that is written to a
directory are directory entries from the kernel. -/
theorem writes_reach_plain_files (disk : Disk) (hgood : Good disk disk.dinode) (es : List Event) (s : Sys)
    (hrun : run step (start disk) es = some s) (hal : Along step Apart (start disk) es) :
    (∀ f, 0 < (s.fs.ftable f).ref → (s.fs.ftable f).type = .inode → (s.fs.ftable f).writable = true → (s.fs.itable (s.fs.ftable f).ip).type = .file) ∧
    (∀ p k, s.thr p = Prog.truncating k → (s.fs.itable k).type = .file) ∧
    (∀ p k rest, s.thr p = .act (.itrunc k) rest → (s.fs.itable k).type = .file ∨ ∀ f, (s.fs.ftable f).type ≠ .none → (s.fs.ftable f).ip ≠ k) ∧
    (∀ p k src off m rest, s.thr p = .act (.writei k src off m) rest → (s.fs.itable k).type = .file ∨
        (∀ fd user addr n, s.call p ≠ some (.write fd user addr n)) ∧ m = DIRENT ∧ ∃ bs, src = fromKernel bs) := by
  obtain ⟨w, hw⟩ := guarded_of_run hgood hal hrun
  refine ⟨fun f _ htype hwritable => (hw.typed.files f htype).2 hwritable, fun p k hthr => ?_,
    fun p k rest hthr => ?_, fun p k src off m rest hthr => ?_⟩
  · have hok := hw.ok p
    rw [hthr] at hok
    -- what comes after it is not the end of `iput`
    have hnot : (w p).doomed = none := (hok.2 () (w p) rfl).1
    rcases hok.1 with hheld | hdoomed
    · exact ((hw.typed.each p).held k .file hheld).2.2
    · exact absurd (hnot.symm.trans hdoomed) (fun h => nomatch h)
  · have hok := hw.ok p
    rw [hthr] at hok
    rcases hok.1 with hheld | hdoomed
    · exact .inl ((hw.typed.each p).held k .file hheld).2.2
    · exact .inr ((hw.typed.each p).doomed k hdoomed).2
  · have hok := hw.ok p
    rw [hthr] at hok
    have hpre : if (w p).user then ∃ f, (w p).writes f = some k
      else m = DIRENT ∧ ∃ bs, src = fromKernel bs := hok.1
    split at hpre
    · obtain ⟨f, hf⟩ := hpre
      obtain ⟨-, htype, hwritable, rfl⟩ := (hw.typed.each p).writes f k hf
      exact .inl ((hw.typed.files f htype).2 hwritable)
    · next huser =>
      refine .inr ⟨fun fd user addr m hcall => huser ?_, hpre⟩
      rw [hw.user p, hcall]
      rfl

def rdwrCreate : Omode := ⟨false, true, true, false, false⟩

/-- The first process makes a file and has it open for writing. -/
theorem writes_reach_plain_files_open : ∃ es s, run step (start emptyImage) es = some s ∧
    Along step Apart (start emptyImage) es ∧ (s.fs.ftable 0).ref = 1 ∧ (s.fs.ftable 0).type = .inode ∧ (s.fs.ftable 0).writable = true ∧
    (s.fs.itable (s.fs.ftable 0).ip).type = .file := by
  let es : List Event := .call 0 (.«open» [120] rdwrCreate) :: List.replicate 38 (.act 0)
  have hal : Along step Apart (start emptyImage) es := by decide +kernel
  have hend : (run step (start emptyImage) es).any (fun s => (s.fs.ftable 0).ref = 1 ∧
      (s.fs.ftable 0).type = .inode ∧ (s.fs.ftable 0).writable = true) = true := by decide +kernel
  obtain ⟨s, hrun, hs⟩ := (Option.any_eq_true _ _).mp hend
  obtain ⟨href, htype, hwritable⟩ := of_decide_eq_true hs
  have := (writes_reach_plain_files emptyImage good_emptyImage es s hrun hal).1 0 (by rw [href]; decide) htype hwritable
  exact ⟨es, s, hrun, hal, href, htype, hwritable, this⟩

/-! ### An inode allocated twice -/

/-- The second process works in a directory that is removed with its parent, whose inode has number 2. When the first process has got
inode 2 from `ialloc` for a file, the second looks for a name in the parent of its own directory, and so frees inode 2. It makes a
directory then, which gets inode 2 again, before the first process goes on. -/
def doubleRace : List Turn :=
  [⟨0, some (.mkdir (some [97])), 200⟩, ⟨0, some (.mkdir (some [97, 47, 98])), 200⟩,
    ⟨0, some (.fork 1), 100⟩, ⟨1, some (.chdir (some [97, 47, 98])), 200⟩,
    ⟨0, some (.unlink [97, 47, 98]), 200⟩, ⟨0, some (.unlink [97]), 200⟩,
    ⟨0, some (.«open» [120] rdwrCreate), 16⟩,
    ⟨1, some (.«open» [46, 46, 47, 102] .rdonly), 200⟩, ⟨1, some (.mkdir (some [99])), 200⟩,
    ⟨0, none, 200⟩]

/-- The first process has a directory open for writing. -/
theorem directory_open_for_writing : ∃ s, Reach step (start emptyImage) s ∧
    0 < (s.fs.ftable 0).ref ∧ (s.fs.ftable 0).type = .inode ∧ (s.fs.ftable 0).writable = true ∧
    (s.fs.itable (s.fs.ftable 0).ip).type = .dir ∧ ∃ fd, s.fs.ofile 0 fd = some 0 := by
  have hplay : ((start emptyImage).play doubleRace).any (fun s => 0 < (s.fs.ftable 0).ref ∧
      (s.fs.ftable 0).type = .inode ∧ (s.fs.ftable 0).writable = true ∧
      (s.fs.itable (s.fs.ftable 0).ip).type = .dir ∧ ∃ fd, s.fs.ofile 0 fd = some 0) = true := by
    decide +kernel
  obtain ⟨s, hs, hp⟩ := Sys.exists_reach hplay
  exact ⟨s, hs, of_decide_eq_true hp⟩

end Xv6.FileSys
