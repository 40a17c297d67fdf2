import Xv6.Fs.Blocks

/-!
# Inodes that have just been allocated

`ialloc` marks an inode as used on the disk, and leaves it to its caller to lock it. In between
the inode belongs to nobody: if another process knows its number, from the `..` of a directory
that outlived its parent, it can lock the inode first and write to it. If nobody does, the
caller finds the inode as `ialloc` has written it.
-/

namespace Xv6.FileSys

open Lib Function

variable {β : Type} {e : Inode} {disk : Disk}

variable {n : ℕ} {s s' : Fs} {w : Pid → Draft} {u : Pid → View} {p q : Pid} {k j : Slot}
  {d' : Disk} {inum : ℕ} {type : IType} {v : Draft}

/-- **An inode is as `ialloc` has written it**, and nobody has it in memory but for those who
have freed the file that had the number before. -/
structure Fresh (s : Fs) (w : Pid → Draft) (inum : ℕ) (type : IType) : Prop where
  dinode : s.disk.dinode inum = { Dinode.zero with type := type }
  type_ne : type ≠ .free
  idle : ∀ k, 0 < (s.itable k).ref → (s.itable k).inum = inum → (s.itable k).lock = none →
    (s.itable k).valid = false
  held : ∀ k q, (s.itable k).inum = inum → (s.itable k).lock = some q →
    w q = some (.edit k .freed)

namespace Fresh

variable (h : Fresh s w inum type)

include h

theorem inum_ne (hw : ∀ j, w p ≠ some (.edit j .freed)) (hk : (s.itable k).lock = some p) : (s.itable k).inum ≠ inum :=
  fun heq => hw k (h.held k p heq hk)

theorem frame (hdisk : s'.disk = s.disk) (hitable : s'.itable = s.itable) : Fresh s' w inum type := by
  obtain ⟨disk, itable, ftable, procs, ops⟩ := s
  obtain ⟨disk', itable', ftable', procs', ops'⟩ := s'
  obtain rfl : disk' = disk := hdisk
  obtain rfl : itable' = itable := hitable
  exact { h with }

theorem relabel (hw : ∀ j, w p ≠ some (.edit j .freed)) : Fresh s (update w p v) inum type := by
  refine { h with held := fun k q hk hl => ?_ }
  have hqp : q ≠ p := by
    rintro rfl
    exact h.inum_ne hw hl hk
  rw [update_of_ne hqp]
  exact h.held k q hk hl

theorem other (hk : (s.itable k).inum ≠ inum) (he : e.inum = (s.itable k).inum) (hd : d'.dinode inum = s.disk.dinode inum) :
    Fresh ({ s with disk := d' }.setInode k e) w inum type := by
  have hself : ({ s with disk := d' }.setInode k e).itable k = e := update_self ..
  have hne : ∀ j, (({ s with disk := d' }.setInode k e).itable j).inum = inum → ({ s with disk := d' }.setInode k e).itable j = s.itable j := by
    intro j hj
    refine update_of_ne ?_ ..
    rintro rfl
    rw [hself, he] at hj
    exact hk hj
  refine ⟨hd.trans h.dinode, h.type_ne, fun j href hj hl => ?_, fun j q hj hl => ?_⟩
  · have hsame := hne j hj
    rw [hsame] at href hj hl ⊢
    exact h.idle j href hj hl
  · have hsame := hne j hj
    rw [hsame] at hj hl
    exact h.held j q hj hl

theorem setRef {m : ℕ} (hm : 0 < m → 0 < (s.itable k).ref) : Fresh (s.setInode k { s.itable k with ref := m }) w inum type := by
  have hself : (s.setInode k { s.itable k with ref := m }).itable k = { s.itable k with ref := m } :=
    update_self ..
  have hne : ∀ j, j ≠ k → (s.setInode k { s.itable k with ref := m }).itable j = s.itable j :=
    fun j hj => update_of_ne hj ..
  refine ⟨h.dinode, h.type_ne, fun j href hj hl => ?_, fun j q hj hl => ?_⟩
  · by_cases hjk : j = k
    · subst hjk
      rw [hself] at *
      exact h.idle j (hm href) hj hl
    · rw [hne j hjk] at *
      exact h.idle j href hj hl
  · by_cases hjk : j = k
    · subst hjk
      rw [hself] at *
      exact h.held j q hj hl
    · rw [hne j hjk] at *
      exact h.held j q hj hl

theorem empty (hvalid : e.valid = false) (hlock : e.lock = none) : Fresh (s.setInode k e) w inum type := by
  have hself : (s.setInode k e).itable k = e := update_self ..
  have hne : ∀ j, j ≠ k → (s.setInode k e).itable j = s.itable j := fun j hj => update_of_ne hj ..
  refine ⟨h.dinode, h.type_ne, fun j href hj hl => ?_, fun j q hj hl => ?_⟩
  · by_cases hjk : j = k
    · rw [hjk, hself]
      exact hvalid
    · rw [hne j hjk] at *
      exact h.idle j href hj hl
  · have hjk : j ≠ k := by
      rintro rfl
      rw [hself, hlock] at hl
      cases hl
    rw [hne j hjk] at *
    exact h.held j q hj hl

end Fresh

/-! ### Actions -/

namespace Draft

theorem eq_of_stage {st : Stage} (h : v.stage k = some st) : v = some (.edit k st) := by
  rcases v with _ | ⟨j, st'⟩ | _
  · cases h
  · simp only [stage] at h
    split at h <;> cases h
    rename_i hjk
    rw [hjk]
  · cases h

theorem Settled.ne_freed (h : v.Settled) (j : Slot) : v ≠ some (.edit j .freed) := by
  rcases h with rfl | ⟨k, rfl⟩ <;> exact fun h => nomatch h

theorem Settled.quiet (h : v.Settled) : v.claim = none := by
  rcases h with rfl | ⟨k, rfl⟩ <;> rfl

end Draft

def Act.locks : {β : Type} → Act β → Option Slot
  | _, .ilock k => some k
  | _, _ => none

variable {b : β} {r : Act β}

theorem Fresh.exec (h : Fresh s w inum type) (hu : Rights s u)
    (hw : Coherent n s w) (hpre : rights.pre r (u p)) (hpre' : (drafts n).pre r (w p))
    (hexec : FileSys.exec r p s = .ok (some (b, s'))) (hpost : (drafts n).post r (w p) b v)
    (hskip : ∀ k, r.locks = some k → (s.itable k).inum ≠ inum) : Fresh s' (update w p v) inum type := by
  -- changing an inode takes a draft, and not one of a freed inode
  have hmine : ∀ {k}, (u p).locks k = true → (∀ j, w p ≠ some (.edit j .freed)) →
      (s.itable k).inum ≠ inum := fun hk hfreed => h.inum_ne hfreed (hu.locked hk)
  have hstay : Fresh s' w inum type → v = w p → Fresh s' (update w p v) inum type := by
    rintro hf rfl
    rwa [update_eq_self]
  cases r
  case iget i =>
    have hget : Fresh s' w inum type := by
      rcases Fs.of_iget (ok_of_map_some hexec) with ⟨hk, -, rfl⟩ | ⟨hk, -, rfl⟩
      · exact h.setRef fun _ => hk
      · refine h.empty rfl ?_
        refine Option.eq_none_iff_forall_ne_some.mpr fun q hq => ?_
        have := hu.ref_pos_of_lock hq
        omega
    rcases hpre' with hquiet | ⟨T, hclaim⟩
    · refine hstay hget (hpost.trans ?_)
      split
      · rename_i hw'
        rw [hw'] at hquiet
        cases hquiet
      · rfl
    · exact hget.relabel fun j => by rw [hclaim]; exact fun h => nomatch h
  case dupCwd =>
    obtain ⟨k, hk, heq⟩ := Option.map_eq_some_iff.mp (Except.ok.inj hexec)
    cases heq
    exact hstay (h.setRef fun _ => hu.ref_pos_of_cwd hk) hpost
  case ilock k =>
    have hk := hskip k rfl
    have hlock : Fresh s' w inum type := by
      obtain ⟨-, ⟨rfl, -⟩ | ⟨-, -, rfl⟩⟩ := Fs.of_ilock (ok_of_map_map hexec)
      · exact h.other hk rfl rfl
      · have hself : (s.setLock k (some p)).itable k = { s.itable k with lock := some p } :=
          update_self ..
        refine Fresh.other (s := s.setLock k (some p)) (h.other hk rfl rfl) ?_ rfl rfl
        rw [hself]
        exact hk
    rcases hpre' with hquiet | ⟨i, T, hclaim⟩
    · exact hstay hlock (hpost.trans (if_pos hquiet))
    · exact hlock.relabel fun j => by rw [hclaim]; exact fun h => nomatch h
  case iunlock k =>
    rw [Fs.of_iunlock (ok_of_map_unit hexec)]
    have hfreed := Draft.Settled.ne_freed hpre'
    exact Fresh.relabel (h.other (hmine hpre hfreed) rfl rfl) hfreed
  case iput k =>
    refine hstay ?_ hpost
    rcases Fs.of_iput (Except.ok.inj hexec) with ⟨hlast, hvalid, hlock, -, rfl⟩ | ⟨-, rfl⟩
    · refine h.other (fun hk => ?_) rfl rfl
      exact absurd (hvalid.symm.trans (h.idle k (by omega) hk hlock)) (by decide)
    · exact h.setRef fun h0 => by omega
  case invalidate k =>
    cases hexec
    obtain rfl : v = none := hpost
    refine ⟨(h.empty rfl rfl).dinode, h.type_ne, (h.empty rfl rfl).idle, fun j q hj hl => ?_⟩
    have hold := (h.empty (k := k) (e := { s.itable k with valid := false, lock := none })
      rfl rfl).held j q hj hl
    have hqp : q ≠ p := by
      rintro rfl
      -- the lock that is let go is the only one of an inode that was freed
      have hjk : k = j := (Work.edit.inj (Option.some.inj (hpre'.symm.trans hold))).1
      subst hjk
      rw [show ((s.invalidate k).itable k) = { s.itable k with valid := false, lock := none } from update_self ..] at hl
      cases hl
    rw [update_of_ne hqp]
    exact hold
  case unref k =>
    cases hexec
    exact hstay (h.setRef fun h0 => by omega) hpost
  case iclaim i T =>
    have hfreed := Draft.Settled.ne_freed (.inl hpre'.1)
    rcases Fs.of_iclaim (Option.some.inj (Except.ok.inj hexec)) with ⟨hfree, -, rfl⟩ | ⟨-, -, rfl⟩
    · have hi : inum ≠ i := by
        rintro rfl
        rw [h.dinode] at hfree
        exact h.type_ne hfree
      refine Fresh.relabel ⟨?_, h.type_ne, h.idle, h.held⟩ hfreed
      exact (iupdate_dinode_of_ne hi).trans h.dinode
    · exact h.relabel hfreed
  case assign k g =>
    cases hexec
    have hfreed := Draft.Settled.ne_freed (hpre'.imp And.left fun h => ⟨k, h.1⟩)
    exact Fresh.relabel (h.other (hmine hpre.1 hfreed) rfl rfl) hfreed
  case iupdate k =>
    cases hexec
    have hfreed : ∀ j, w p ≠ some (.edit j .freed) := by
      intro j
      rcases hpre' with hw' | hw' <;> simp [hw']
    have hk := hmine hpre.1 hfreed
    refine Fresh.relabel ⟨?_, h.type_ne, h.idle, h.held⟩ hfreed
    exact (iupdate_dinode_of_ne hk.symm).trans h.dinode
  case itrunc k =>
    have hfreed := Draft.Settled.ne_freed (.inl hpre')
    have hk := hmine hpre.1 hfreed
    obtain ⟨d₁, -, -, hclear, rfl⟩ := hw.of_itrunc (hu.locked hpre.1) hpre' (ok_of_map_unit hexec)
    refine Fresh.relabel (h.other hk rfl ?_) hfreed
    rw [iupdate_dinode_of_ne hk.symm, hclear.rest]
  case readi k dst off m =>
    obtain ⟨rfl, -⟩ := hw.of_readi (hu.locked hpre) hpre'.1 hpre'.2 (ok_of_map_some hexec)
    exact hstay h hpost
  case writei k src off m =>
    have hk := hmine hpre.1 (Draft.Settled.ne_freed (.inl hpre'.1))
    obtain ⟨d', c', -, hspec, -, -, rfl⟩ := hw.of_writei (hu.locked hpre.1) hpre'.1 hpre'.2 (ok_of_map_some hexec)
    refine hstay (h.other hk rfl ?_) hpost
    rw [hspec.dinode, update_of_ne hk.symm]
  all_goals exact hstay (h.frame (exec_aside rfl hexec).1 (exec_aside rfl hexec).2) hpost

theorem Coherent.fresh (hw : Coherent n s w) (hfree : (s.disk.dinode inum).type = .free) (htype : type ≠ .free) (hp : w p = none) :
    Fresh { s with disk := iupdate s.disk inum { Dinode.zero with type := type } } (update w p v) inum type := by
  refine ⟨iupdate_dinode_self, htype, fun k href hk hl => ?_, fun k q hk hl => ?_⟩
  · by_contra hvalid
    refine (hw.cached k href ((Bool.not_eq_false _).mp hvalid) hl).type_ne (fun h => nomatch h) ?_
    rw [show (s.itable k).inum = inum from hk]
    exact hfree
  have hstage : (w q).stage k = some .freed := by
    by_contra hne
    refine (hw.held k q hl).2.type_ne hne ?_
    rw [show (s.itable k).inum = inum from hk]
    exact hfree
  have hq := Draft.eq_of_stage hstage
  have hqp : q ≠ p := by
    rintro rfl
    rw [hp] at hq
    cases hq
  rw [update_of_ne hqp]
  exact hq

theorem inum_setInode (he : e.inum = (s.itable j).inum) : ((s.setInode j e).itable k).inum = (s.itable k).inum :=
  apply_update_of_eq Inode.inum he k

theorem copy_setInode : (s.setInode k e).copy k = e.toDinode := by
  change (update s.itable k e k).toDinode = e.toDinode
  rw [update_self]

theorem exec_inum (hexec : exec r p s = .ok (some (b, s')))
    (hk : 0 < (s.itable k).ref) : (s'.itable k).inum = (s.itable k).inum := by
  cases r
  case iget i =>
    rcases Fs.of_iget (ok_of_map_some hexec) with ⟨-, -, rfl⟩ | ⟨h0, -, rfl⟩
    · exact inum_setInode rfl
    · have hkb : k ≠ b := by
        rintro rfl
        omega
      exact congrArg Inode.inum (update_of_ne hkb ..)
  case dupCwd =>
    obtain ⟨j, -, heq⟩ := Option.map_eq_some_iff.mp (Except.ok.inj hexec)
    cases heq
    exact inum_setInode rfl
  case ilock j =>
    obtain ⟨-, ⟨rfl, -⟩ | ⟨-, -, rfl⟩⟩ := Fs.of_ilock (ok_of_map_map hexec)
    · exact inum_setInode rfl
    · have hset : ((s.setLock j (some p)).itable k).inum = (s.itable k).inum := inum_setInode rfl
      rw [← hset]
      exact inum_setInode rfl
  case iunlock j =>
    rw [Fs.of_iunlock (ok_of_map_unit hexec)]
    exact inum_setInode rfl
  case iput j =>
    rcases Fs.of_iput (Except.ok.inj hexec) with ⟨-, -, -, -, rfl⟩ | ⟨-, rfl⟩ <;> exact inum_setInode rfl
  case iclaim i T =>
    rcases Fs.of_iclaim (Option.some.inj (Except.ok.inj hexec)) with ⟨-, -, rfl⟩ | ⟨-, -, rfl⟩ <;> rfl
  case itrunc j =>
    obtain ⟨d', c', -, rfl⟩ := Fs.of_itrunc (ok_of_map_unit hexec)
    exact inum_setInode rfl
  case readi j dst off m =>
    obtain ⟨d', c', -, rfl⟩ := Fs.of_readi (ok_of_map_some hexec)
    exact inum_setInode rfl
  case writei j src off m =>
    obtain ⟨d', c', -, rfl⟩ := Fs.of_writei (ok_of_map_some hexec)
    exact inum_setInode rfl
  case invalidate j | unref j | assign j g =>
    cases hexec
    exact inum_setInode rfl
  case iupdate j =>
    cases hexec
    rfl
  all_goals exact congrArg (fun t => (t k).inum) (exec_aside rfl hexec).2

/-! ### Runs -/

variable {x y : Sys}

/-- Nobody locks an inode that another process has got from `ialloc` and not locked yet. -/
def Apart (s : Sys) : Event → Prop
  | .act q =>
    match s.thr q with
    | .act (.ilock k) _ => ∀ p, p ≠ q → (s.claim p).map Prod.fst ≠ some (s.fs.itable k).inum
    | _ => True
  | _ => True

def Sys.nextLock (s : Sys) (q : Pid) : Option Slot :=
  match s.thr q with
  | .act (.ilock k) _ => some k
  | _ => none

theorem apart_act {s : Sys} {q : Pid} : Apart s (.act q) ↔ ∀ k ∈ s.nextLock q, ∀ p, p ≠ q → (s.claim p).map Prod.fst ≠ some (s.fs.itable k).inum := by
  rw [Apart, Sys.nextLock]
  split <;> simp

instance (s : Sys) : ∀ e, Decidable (Apart s e)
  | .act _ => decidable_of_iff _ apart_act.symm
  | .call _ _ | .commit | .crash => inferInstanceAs (Decidable True)

/-- **The invariant**: what processes have from `ialloc` is fresh, and is what they are about to
lock. -/
structure Claims (n : ℕ) (s : Sys) (w : Pid → Draft) : Prop where
  coherent : Coherent n s.fs w
  ok : ∀ p, (s.thr p).Ok (drafts n) (w p) fun _ v => v = none
  claim : ∀ p, s.claim p = (w p).claim
  fresh : ∀ p inum type, (w p).claim = some (inum, type) → Fresh s.fs w inum type
  got : ∀ p inum type k rest, w p = some (.claim inum type (some k)) →
    s.thr p = .act (.ilock k) rest → (s.fs.itable k).inum = inum

def Act.allocates : {β : Type} → Act β → Bool
  | _, .iget _ | _, .iclaim _ _ => true
  | _, _ => false

theorem quiet_of_pre (hr : r.allocates = false) (hlocks : r.locks = none) (hpre : (drafts n).pre r v) : v.claim = none := by
  cases r
  case iunlock k => exact Draft.Settled.quiet hpre
  case invalidate k => exact (show v = _ from hpre) ▸ rfl
  case assign k g => exact Draft.Settled.quiet (hpre.imp And.left fun h => ⟨k, h.1⟩)
  case iupdate k =>
    rcases hpre with rfl | rfl
    · rfl
    · rfl
  case itrunc k => exact Draft.Settled.quiet (.inl hpre)
  case readi k dst off m => exact Draft.Settled.quiet hpre.1
  case writei k src off m => exact Draft.Settled.quiet (.inl hpre.1)
  case iget i | iclaim i T => cases hr
  case ilock k => cases hlocks
  all_goals exact hpre

theorem quiet_of_post {v' : Draft} (hr : r.allocates = false)
    (hpre : (drafts n).pre r v) (hpost : (drafts n).post r v b v') : v'.claim = none := by
  cases r
  case ilock k =>
    rw [show v' = _ from hpost]
    split
    · assumption
    · rfl
  case iupdate k =>
    rw [show v' = _ from hpost]
    split
    · rfl
    · rfl
  case iunlock k | invalidate k | assign k g | itrunc k =>
    exact congrArg Draft.claim (show v' = _ from hpost)
  case iget i | iclaim i T => cases hr
  all_goals exact (congrArg Draft.claim (show v' = v from hpost)).trans (quiet_of_pre rfl rfl hpre)

theorem claimNext_eq {rest : β → Prog Unit} (hthr : x.thr p = .act r rest) (hclaim : x.claim p = (w p).claim)
    (hpre : (drafts n).pre r (w p)) (hexec : exec r p x.fs = .ok (some (b, s'))) (hpost : (drafts n).post r (w p) b v) : x.claimNext p = v.claim := by
  unfold Sys.claimNext
  rw [hthr]
  cases r
  case iget i =>
    refine hclaim.trans ?_
    rw [show v = _ from hpost]
    rcases w p with _ | _ | _ <;> rfl
  case ilock k => exact (quiet_of_post rfl hpre hpost).symm
  case iclaim i T =>
    rw [show v = _ from hpost]
    dsimp only
    rcases Fs.of_iclaim (Option.some.inj (Except.ok.inj hexec)) with ⟨hfree, rfl, -⟩ | ⟨hfree, rfl, -⟩
    · rw [if_pos hfree]
      rfl
    · rw [if_neg hfree]
      rfl
  all_goals exact (hclaim.trans (quiet_of_pre rfl rfl hpre)).trans (quiet_of_post rfl hpre hpost).symm

theorem fresh_own (hu : Rights s u) (hw : Coherent n s w) (hpre : rights.pre r (u p)) (hpre' : (drafts n).pre r (w p))
    (hexec : exec r p s = .ok (some (b, s'))) (hpost : (drafts n).post r (w p) b v)
    (hfresh : ∀ inum type, (w p).claim = some (inum, type) → Fresh s w inum type)
    (hv : v.claim = some (inum, type)) : Fresh s' (update w p v) inum type := by
  cases r
  case iget i =>
    have hclaim : (w p).claim = v.claim := by
      rw [show v = _ from hpost]
      rcases w p with _ | _ | _ <;> rfl
    exact (hfresh inum type (hclaim.trans hv)).exec hu hw hpre hpre' hexec hpost fun k hk => by cases hk
  case iclaim i T =>
    obtain rfl : v = _ := hpost
    rcases Fs.of_iclaim (Option.some.inj (Except.ok.inj hexec)) with ⟨hfree, rfl, rfl⟩ | ⟨-, rfl, -⟩
    · cases hv
      exact hw.fresh hfree hpre'.2.2.2 hpre'.1
    · cases hv
  all_goals exact absurd ((quiet_of_post rfl hpre' hpost).symm.trans hv) (fun h => nomatch h)

theorem inum_of_got (hpre : (drafts n).pre r (w p))
    (hexec : exec r p s = .ok (some (b, s'))) (hpost : (drafts n).post r (w p) b v)
    (hv : v = some (.claim inum type (some k))) : (s'.itable k).inum = inum := by
  have hclaim : v.claim = some (inum, type) := by rw [hv]; rfl
  cases r
  case iget i =>
    -- the process was waiting for this entry
    obtain ⟨T, hw⟩ : ∃ T, w p = some (.claim i T none) := by
      refine hpre.resolve_left fun hquiet => ?_
      have hsame : v.claim = (w p).claim := by
        rw [show v = _ from hpost]
        rcases w p with _ | _ | _ <;> rfl
      exact absurd ((hsame.trans hquiet).symm.trans hclaim) (fun h => nomatch h)
    have hpost : v = _ := hpost
    rw [hw, hv] at hpost
    obtain ⟨rfl, -, hk⟩ := Work.claim.inj (Option.some.inj hpost)
    obtain rfl := Option.some.inj hk
    rcases Fs.of_iget (ok_of_map_some hexec) with ⟨-, hi, rfl⟩ | ⟨-, -, rfl⟩
    · rw [← hi]
      exact inum_setInode rfl
    · simp [Fs.setInode]
  case iclaim i T =>
    have hpost : v = _ := hpost
    rw [hv] at hpost
    cases b <;> cases hpost
  all_goals exact absurd ((quiet_of_post rfl hpre hpost).symm.trans hclaim) (fun h => nomatch h)

theorem claims_start (hgood : Good disk disk.dinode) : Claims disk.sb.ninodes (start disk) fun _ => none where
  coherent := coherent_boot hgood
  ok _ := rfl
  claim _ := rfl
  fresh _ _ _ h := nomatch h
  got _ _ _ _ _ h := nomatch h

theorem locks_eq (rest : β → Prog Unit) (hr : r.locks = some k) : ∃ rest', (Program.act r rest : Prog Unit) = .act (.ilock k) rest' := by
  cases r
  case ilock j =>
    cases hr
    exact ⟨rest, rfl⟩
  all_goals cases hr

theorem claims_step {e : Event} (hbal : x.Balanced) (hord : x.InOrder n) (h : Claims n x w)
    (hapart : Apart x e) (hstep : step x e = some y) : ∃ w', Claims n y w' := by
  obtain ⟨u, ⟨hu, -⟩, hok⟩ := hbal
  cases e with
  | call p c =>
    simp only [step] at hstep
    split at hstep <;> cases hstep
    rename_i hready
    have hp : w p = none := Sys.ok_of_outside (Q := fun v => v = none) (h.ok p) hready.1
    refine ⟨w, h.coherent, forall_update (P := fun q prog => Program.Ok (drafts n) prog (w q) _) ?_ fun q _ => h.ok q,
      h.claim, h.fresh, fun q inum type k rest hq hthr => ?_⟩
    · rw [hp, h.coherent.ninodes]
      exact c.tidy n
    have hqp : q ≠ p := by
      rintro rfl
      rw [hp] at hq
      cases hq
    simp only [update_of_ne hqp] at hthr
    exact h.got q inum type k rest hq hthr
  | act p =>
    simp only [step] at hstep
    split at hstep <;> cases hstep
    rename_i fs prog hnext
    obtain ⟨β, r, rest, b, hthr, hexec, rfl⟩ := Program.of_next hnext
    have hpre := hok p
    have hpre' := h.ok p
    rw [hthr] at hpre hpre'
    obtain ⟨v, hpost, hcoherent⟩ := drafts_sound r p x.fs u w b fs hu hpre.1 h.coherent hpre'.1 hexec
    refine ⟨update w p v, hcoherent, Program.Ok.update h.ok hthr hpost,
      forall_update₂ (P := fun _ o v => o = Draft.claim v) (claimNext_eq hthr (h.claim p) hpre'.1 hexec hpost) fun q _ => h.claim q,
      forall_update (P := fun _ v => ∀ inum type, Draft.claim v = some (inum, type) → Fresh fs (update w p _) inum type) ?_
        fun q hqp inum type hq => ?_, fun q inum type k rest' hq hthr' => ?_⟩
    · exact fun _ _ hq => fresh_own hu h.coherent hpre.1 hpre'.1 hexec hpost (h.fresh p) hq
    · refine (h.fresh q inum type hq).exec hu h.coherent hpre.1 hpre'.1 hexec hpost fun k hk heq => ?_
      -- another process would lock what `q` has claimed
      obtain ⟨rest', hrest⟩ := locks_eq rest hk
      rw [Apart, hthr, hrest] at hapart
      refine hapart q hqp ?_
      rw [h.claim q, hq, heq]
      rfl
    · by_cases hqp : q = p
      · subst hqp
        rw [update_self] at hq
        exact inum_of_got hpre'.1 hexec hpost hq
      · rw [update_of_ne hqp] at hq
        simp only [update_of_ne hqp] at hthr'
        have hq' := hok q
        rw [hthr'] at hq'
        exact (exec_inum hexec (hu.ref_pos hq'.1)).trans (h.got q inum type k rest' hq hthr')
  | commit =>
    simp only [step] at hstep
    split at hstep <;> cases hstep
    exact ⟨w, h.coherent, h.ok, h.claim, h.fresh, h.got⟩
  | crash =>
    cases hstep
    obtain ⟨-, himage, hn⟩ := hord
    exact ⟨_, hn ▸ claims_start himage⟩

/-- **A process finds the inode it has got from `ialloc` as it was written.** -/
theorem Claims.found {rest : Unit → Prog Unit} (hw : Claims n x w) (hu : Rights x.fs u)
    (hpre : rights.pre (.ilock k) (u p)) (hclaim : x.claim p = some (inum, type))
    (hthr : x.thr p = .act (.ilock k) rest) (hexec : exec (.ilock k) p x.fs = .ok (some ((), s'))) :
    (s'.itable k).inum = inum ∧ s'.copy k = { Dinode.zero with type := type } := by
  have hpre' := hw.ok p
  rw [hthr] at hpre'
  rw [hw.claim p] at hclaim
  -- the process has claimed the inode it is about to lock
  obtain ⟨i, T, hwp⟩ := hpre'.1.resolve_left fun hquiet =>
    absurd (hquiet.symm.trans hclaim) (fun h => nomatch h)
  have hfresh := hw.fresh p inum type hclaim
  rw [hwp] at hclaim
  cases hclaim
  have hinum := hw.got p inum type k rest hwp hthr
  have href := hu.ref_pos hpre
  refine ⟨(exec_inum hexec href).trans hinum, ?_⟩
  obtain ⟨hlock, ⟨-, hvalid⟩ | ⟨-, -, rfl⟩⟩ := Fs.of_ilock (ok_of_map_map hexec)
  · exact absurd (hvalid.symm.trans (hfresh.idle k href hinum hlock)) (by decide)
  · rw [copy_setInode]
    exact hinum ▸ hfresh.dinode

theorem claims_of_run (hgood : Good disk disk.dinode) {es : List Event}
    (hal : Along step Apart (start disk) es) (hrun : run step (start disk) es = some x) : ∃ w, Claims disk.sb.ninodes x w := by
  have := hal.invariant (I := fun x => x.Balanced ∧ x.InOrder disk.sb.ninodes ∧ ∃ w, Claims disk.sb.ninodes x w) ?_
    ⟨balanced_start disk, inOrder_start hgood, _, claims_start hgood⟩ hrun
  · exact this.2.2
  · rintro x e y ⟨hbal, hord, w, hw⟩ hapart hstep
    exact ⟨balanced_step hbal hstep, inOrder_step hbal hord hstep, claims_step hbal hord hw hapart hstep⟩


/-- **The table of inodes and the disk**, from a disk that is in order. In every run no inode is in the table twice, and the copy of an
inode that nobody has locked is what is on the disk. If nobody locks what another process has just got from `ialloc`, that process finds
it as `ialloc` wrote it. -/
theorem inodes_coherent (disk : Disk) (hgood : Good disk disk.dinode) (es : List Event) (s : Sys) (hrun : run step (start disk) es = some s) :
    (∀ j k, 0 < (s.fs.itable j).ref → 0 < (s.fs.itable k).ref → (s.fs.itable j).inum = (s.fs.itable k).inum → j = k) ∧
    (∀ k, 0 < (s.fs.itable k).ref → (s.fs.itable k).valid = true → (s.fs.itable k).lock = none →
      s.fs.copy k = s.fs.disk.dinode (s.fs.itable k).inum) ∧
    (Along step Apart (start disk) es → ∀ p inum type k rest fs, s.claim p = some (inum, type) →
      s.thr p = .act (.ilock k) rest → exec (.ilock k) p s.fs = .ok (some ((), fs)) →
      (fs.itable k).inum = inum ∧ fs.copy k = { Dinode.zero with type := type }) := by
  have hreach : Reach step (start disk) s := ⟨es, hrun⟩
  obtain ⟨u, ⟨hu, -⟩, hok⟩ := balanced_of_reach hreach
  obtain ⟨⟨w, hw, -⟩, -, -⟩ := inOrder_of_reach hgood hreach
  refine ⟨hu.distinct, fun k href hvalid hlock => (hw.cached k href hvalid hlock).1, ?_⟩
  intro hal p inum type k rest fs hclaim hthr hexec
  obtain ⟨w, hw⟩ := claims_of_run hgood hal hrun
  have hpre := hok p
  rw [hthr] at hpre
  exact hw.found hu hpre.1 hclaim hthr hexec

/-- The process is about to lock an inode and need not wait, and the state after it has a
property. -/
def Sys.locking (s : Sys) (p : Pid) (P : Slot → Fs → Bool) : Bool :=
  match s.thr p with
  | .act (.ilock k) _ =>
    match exec (.ilock k) p s.fs with
    | .ok (some (_, fs)) => P k fs
    | _ => false
  | _ => false

theorem Sys.of_locking {P : Slot → Fs → Bool} (h : x.locking p P = true) :
    ∃ k rest fs, x.thr p = .act (.ilock k) rest ∧ exec (.ilock k) p x.fs = .ok (some ((), fs)) ∧ P k fs = true := by
  unfold Sys.locking at h
  split at h
  · rename_i k rest hthr
    split at h
    · rename_i fs hexec
      exact ⟨k, rest, fs, hthr, hexec, h⟩
    · cases h
  · cases h

/-- The first process makes a directory, with nobody else around. -/
theorem inodes_coherent_mkdir : ∃ es s k fs, run step (start emptyImage) es = some s ∧
    Along step Apart (start emptyImage) es ∧ s.claim 0 = some (2, .dir) ∧ exec (.ilock k) 0 s.fs = .ok (some ((), fs)) ∧ (fs.itable k).inum = 2 ∧
    fs.copy k = { Dinode.zero with type := .dir } := by
  let es : List Event := .call 0 (.mkdir (some [97])) :: List.replicate 15 (.act 0)
  have hal : Along step Apart (start emptyImage) es := by decide +kernel
  have hend : (run step (start emptyImage) es).any (fun s =>
      s.claim 0 = some (2, .dir) ∧ s.locking 0 (fun _ _ => true) = true) = true := by decide +kernel
  cases hrun : run step (start emptyImage) es with
  | none =>
    rw [hrun] at hend
    cases hend
  | some s =>
    rw [hrun] at hend
    obtain ⟨hclaim, hnext⟩ := of_decide_eq_true hend
    obtain ⟨k, rest, fs, hthr, hexec, -⟩ := Sys.of_locking hnext
    have := (inodes_coherent emptyImage good_emptyImage es s hrun).2.2 hal 0 2 .dir k rest fs hclaim hthr hexec
    exact ⟨es, s, k, fs, hrun, hal, hclaim, hexec, this⟩

/-! ### A directory that outlives its parent -/

/-- The second process works in a directory that is removed with its parent, whose inode has number 2. When the first process has got
inode 2 from `ialloc` for a new directory, the second makes a file in the parent of its own directory. -/
def race : List Turn :=
  [⟨0, some (.mkdir (some [97])), 200⟩, ⟨0, some (.mkdir (some [97, 47, 98])), 200⟩,
    ⟨0, some (.fork 1), 100⟩, ⟨1, some (.chdir (some [97, 47, 98])), 200⟩,
    ⟨0, some (.unlink [97, 47, 98]), 200⟩, ⟨0, some (.unlink [97]), 200⟩,
    ⟨0, some (.mkdir (some [99])), 17⟩,
    ⟨1, some (.«open» [46, 46, 47, 102] ⟨false, true, true, false, false⟩), 200⟩]

/-- The first process locks the inode it got from `ialloc`, and finds the entry of the second in
it. -/
theorem claimed_inode_written : ∃ s k rest fs, Reach step (start emptyImage) s ∧ s.claim 0 = some (2, .dir) ∧ s.thr 0 = .act (.ilock k) rest ∧
    exec (.ilock k) 0 s.fs = .ok (some ((), fs)) ∧ (fs.itable k).inum = 2 ∧ (fs.copy k).size = DIRENT ∧ (fs.copy k).addrs 0 ≠ 0 := by
  have hplay : ((start emptyImage).play race).any (fun s => s.claim 0 = some (2, .dir) ∧
      s.locking 0 (fun k fs => (fs.itable k).inum = 2 ∧ (fs.copy k).size = DIRENT ∧ (fs.copy k).addrs 0 ≠ 0) = true) = true := by decide +kernel
  obtain ⟨s, hs, hp⟩ := Sys.exists_reach hplay
  obtain ⟨hclaim, hnext⟩ := of_decide_eq_true hp
  obtain ⟨k, rest, fs, hthr, hexec, hfs⟩ := Sys.of_locking hnext
  exact ⟨s, k, rest, fs, hs, hclaim, hthr, hexec, of_decide_eq_true hfs⟩

end Xv6.FileSys
