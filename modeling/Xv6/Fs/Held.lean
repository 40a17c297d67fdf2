import Xv6.Fs.Rights
import Xv6.Fs.Script
import Xv6.Lib.Outcome

/-!
# Every call is balanced

The actions keep the tables in line with the rights of the processes, and the system calls
keep to their rights. So in every state that the machine comes to, a process outside a system
call has no lock, no transaction and no reference of its own: what refers to an inode then are
the open files and the working directories.
-/

namespace Xv6.FileSys

open Lib Function

variable {s s' : Fs} {w : Pid → View} {p : Pid} {v : View} {k : Slot} {f : FileId} {b : Bool} {off n : ℕ}

/-! ### What the actions do -/

theorem Fs.of_iget {inum : ℕ} (h : s.iget inum = .ok (k, s')) : 0 < (s.itable k).ref ∧ (s.itable k).inum = inum ∧ s' = s.incRef k ∨
    (s.itable k).ref = 0 ∧ (∀ j, 0 < (s.itable j).ref → (s.itable j).inum ≠ inum) ∧
      s' = s.setInode k { s.itable k with inum := inum, ref := 1, valid := false } := by
  unfold Fs.iget at h
  split at h
  · rename_i ip hfind
    cases h
    have := List.find?_some hfind
    exact .inl ⟨(of_decide_eq_true this).1, (of_decide_eq_true this).2, rfl⟩
  · rename_i hnone
    split at h <;> cases h
    rename_i ip hfind
    refine .inr ⟨of_decide_eq_true (List.find?_some hfind :), fun j hj heq => ?_, rfl⟩
    have := List.find?_eq_none.mp hnone j (List.mem_finRange j)
    simp [hj, heq] at this

theorem Fs.of_ilock (h : s.ilock p k = .ok (some s')) : (s.itable k).lock = none ∧ (s' = s.setLock k (some p) ∧ (s.itable k).valid = true ∨
        (s.itable k).valid = false ∧ (s.disk.dinode (s.itable k).inum).type ≠ .free ∧
        s' = (s.setLock k (some p)).setInode k { (s.setLock k (some p)).itable k with
          toDinode := s.disk.dinode (s.itable k).inum, valid := true }) := by
  have hk : (s.setLock k (some p)).itable k = { s.itable k with lock := some p } := update_self ..
  unfold Fs.ilock at h
  split at h
  · cases h
  split at h
  · cases h
  rename_i hlock
  refine ⟨not_not.mp hlock, ?_⟩
  dsimp only at h
  split at h
  · rename_i hvalid
    cases h
    rw [hk] at hvalid
    exact .inl ⟨rfl, hvalid⟩
  · rename_i hvalid
    split at h <;> cases h
    rename_i htype
    rw [hk] at hvalid htype
    refine .inr ⟨by simpa using hvalid, htype, ?_⟩
    rw [hk]
    rfl

theorem Fs.of_iunlock (h : s.iunlock p k = .ok s') : s' = s.setLock k none := by
  unfold Fs.iunlock at h
  split at h
  · cases h
  · exact (Except.ok.inj h).symm

theorem Fs.of_iput (h : s.iput p k = some (b, s')) : (s.itable k).ref = 1 ∧ (s.itable k).valid = true ∧
    (s.itable k).lock = none ∧ b = true ∧ s' = s.setLock k (some p) ∨ b = false ∧ s' = s.decRef k := by
  unfold Fs.iput at h
  split at h
  · rename_i hlast
    split at h <;> cases h
    rename_i hlock
    exact .inl ⟨hlast.1, hlast.2.1, not_not.mp hlock, rfl, rfl⟩
  · cases h
    exact .inr ⟨rfl, rfl⟩

theorem Fs.of_iclaim {inum : ℕ} {type : IType} (h : s.iclaim inum type = (b, s')) :
    (s.disk.dinode inum).type = .free ∧ b = true ∧ s' = { s with disk := FileSys.iupdate s.disk inum { Dinode.zero with type := type } } ∨
    (s.disk.dinode inum).type ≠ .free ∧ b = false ∧ s' = s := by
  unfold Fs.iclaim at h
  split at h <;> cases h
  · exact .inl ⟨‹_›, rfl, rfl⟩
  · exact .inr ⟨‹_›, rfl, rfl⟩

theorem Fs.of_readi {dst : ℕ → ℕ → Bool} {r : Option (List UInt8)} (h : s.readi k dst off n = .ok (r, s')) :
    ∃ d c, FileSys.readi s.disk (s.copy k) dst off n = .ok (r, d, c) ∧ s' = { s with disk := d }.setCopy k c := by
  obtain ⟨⟨_, d, c⟩, hr, heq⟩ := of_bind_eq_ok h
  cases heq
  exact ⟨d, c, hr, rfl⟩

theorem Fs.of_writei {src : ℕ → ℕ → List UInt8 × Bool} {r : Option ℕ} (h : s.writei k src off n = .ok (r, s')) :
    ∃ d c, FileSys.writei s.disk (s.itable k).inum (s.copy k) src off n = .ok (r, d, c) ∧ s' = { s with disk := d }.setCopy k c := by
  obtain ⟨⟨_, d, c⟩, hr, heq⟩ := of_bind_eq_ok h
  cases heq
  exact ⟨d, c, hr, rfl⟩

theorem Fs.of_itrunc (h : s.itrunc k = .ok s') : ∃ d c, FileSys.itrunc s.disk (s.itable k).inum (s.copy k) = .ok (d, c) ∧
      s' = { s with disk := d }.setCopy k c := by
  obtain ⟨⟨d, c⟩, hr, heq⟩ := of_bind_eq_ok h
  cases heq
  exact ⟨d, c, hr, rfl⟩

theorem Fs.of_filealloc {r : Option FileId} (h : s.filealloc = (r, s')) :
    (∃ f, r = some f ∧ (s.ftable f).ref = 0 ∧ s' = s.setFile f { s.ftable f with ref := 1 }) ∨ r = none ∧ s' = s := by
  unfold Fs.filealloc at h
  split at h
  · rename_i f hfind
    cases h
    exact .inl ⟨f, rfl, of_decide_eq_true (List.find?_some hfind :), rfl⟩
  · cases h
    exact .inr ⟨rfl, rfl⟩

theorem Fs.of_fileclose {r : Option Slot} (h : s.fileclose f = .ok (r, s')) : 1 < (s.ftable f).ref ∧ r = none ∧
      s' = s.setFile f { s.ftable f with ref := (s.ftable f).ref - 1 } ∨
    (s.ftable f).ref = 1 ∧ r = (if (s.ftable f).type = .none then none else some (s.ftable f).ip) ∧
      s' = s.setFile f { s.ftable f with ref := 0, type := .none } := by
  unfold Fs.fileclose at h
  split at h
  · cases h
  · split at h
    · cases h
      exact .inl ⟨by omega, rfl, rfl⟩
    · cases h
      exact .inr ⟨by omega, rfl, rfl⟩

theorem Fs.of_filedup (h : s.filedup f = .ok s') : s' = s.setFile f { s.ftable f with ref := (s.ftable f).ref + 1 } := by
  unfold Fs.filedup at h
  split at h
  · cases h
  · exact (Except.ok.inj h).symm

theorem Fs.of_fdalloc {pr : Proc} {fd : Fd} (h : Fs.fdalloc pr = some fd) : pr.ofile fd = none :=
  Option.isNone_iff_eq_none.mp (List.find?_some h :)

theorem Fs.ofile_of_fdalloc {fd : Fd} (h : (s.procs p).bind Fs.fdalloc = some fd) : s.ofile p fd = none := by
  obtain ⟨pr, hpr, hfd⟩ := Option.bind_eq_some_iff.mp h
  rw [Fs.ofile, hpr]
  exact Fs.of_fdalloc hfd

/-! ### The actions and the rights -/

namespace Rights

variable (h : Rights s w)

include h

theorem setTxn {n : ℤ} (hn : n = if b then 1 else 0) : Rights { s with ops := update s.ops p n } (update w p ((w p).setTxn b)) := by
  refine h.rebuild (update_eq_self 0 s.ftable).symm (update_eq_self p s.procs).symm { h.each p with ops := (update_self ..).trans hn }
    (fun q hq => (h.each q).congr (update_of_ne hq ..) (fun _ => Iff.rfl) rfl (fun _ _ => rfl) (fun _ _ _ => rfl) (fun _ _ => rfl))
    (fun _ => rfl) (fun _ => rfl) h.free h.distinct .inl (h.child p)

theorem setCopy {d : Disk} {c : Dinode} : Rights ({ s with disk := d }.setInode k { s.itable k with toDinode := c, valid := b }) w := by
  have hk : ∀ {γ : Type} (g : Inode → γ), g { s.itable k with toDinode := c, valid := b } = g (s.itable k) → ∀ j, g (({ s with disk := d }.setInode k
        { s.itable k with toDinode := c, valid := b }).itable j) = g (s.itable j) := by
    intro γ g hg
    exact apply_update_of_eq g hg
  exact h.disk rfl rfl rfl (hk Inode.inum rfl) (hk Inode.ref rfl) (hk Inode.lock rfl)

end Rights

theorem update_view : update w p (w p) = w := update_eq_self ..

theorem rights_sound : rights.Sound exec Rights := by
  intro β r p s w b s' h hpre hexec
  cases r with
  | beginOp =>
    cases hexec
    have hops := (h.each p).ops
    rw [show (w p).txn = false from hpre] at hops
    refine ⟨_, rfl, h.setTxn ?_⟩
    rw [hops]
    rfl
  | endOp =>
    cases hexec
    have hops := (h.each p).ops
    rw [show (w p).txn = true from hpre] at hops
    refine ⟨_, rfl, h.setTxn ?_⟩
    rw [hops]
    rfl
  | iget inum =>
    refine ⟨_, rfl, ?_⟩
    rcases Fs.of_iget (ok_of_map_some hexec) with ⟨hk, -, rfl⟩ | ⟨hk, hnew, rfl⟩
    · exact h.incRef hk hpre
    · exact h.recycle hk hnew hpre
  | dupCwd =>
    obtain ⟨k, hk, heq⟩ := Option.map_eq_some_iff.mp (Except.ok.inj hexec)
    cases heq
    exact ⟨_, rfl, h.incRef (h.ref_pos_of_cwd hk) hpre⟩
  | look k | offset f =>
    cases hexec
    exact ⟨_, rfl, update_view ▸ h⟩
  | ilock k =>
    obtain ⟨hlock, ⟨rfl, -⟩ | ⟨-, -, rfl⟩⟩ := Fs.of_ilock (ok_of_map_map hexec)
    · exact ⟨_, ⟨h.locks_of_free hlock p, rfl⟩, h.setLock hlock hpre⟩
    · exact ⟨_, ⟨h.locks_of_free hlock p, rfl⟩, (h.setLock hlock hpre).setCopy⟩
  | iunlock k =>
    rw [Fs.of_iunlock (ok_of_map_unit hexec)]
    exact ⟨_, rfl, h.unlock hpre⟩
  | iput k =>
    rcases Fs.of_iput (Except.ok.inj hexec) with ⟨-, -, hlock, rfl, rfl⟩ | ⟨rfl, rfl⟩
    · exact ⟨_, ⟨h.locks_of_free hlock p, rfl⟩, h.setLock hlock (.inl hpre.1)⟩
    · exact ⟨_, rfl, h.decRef hpre.1 hpre.2.1⟩
  | invalidate k =>
    cases hexec
    refine ⟨_, rfl, ?_⟩
    have := (h.unlock hpre).setCopy (k := k) (d := s.disk) (c := s.copy k) (b := false)
    convert this using 1
    simp [Fs.invalidate, Fs.setInode, Fs.setLock, Fs.copy]
  | unref k =>
    cases hexec
    refine ⟨_, rfl, h.decRef hpre.1 fun hl => ?_⟩
    rw [hpre.2] at hl
    cases hl
  | iclaim inum type =>
    refine ⟨_, rfl, ?_⟩
    rw [update_view]
    rcases Fs.of_iclaim (Option.some.inj (Except.ok.inj hexec)) with ⟨-, -, rfl⟩ | ⟨-, -, rfl⟩
    · exact h.disk rfl rfl rfl (fun _ => rfl) (fun _ => rfl) (fun _ => rfl)
    · exact h
  | assign k g =>
    cases hexec
    exact ⟨_, rfl, update_view ▸ h.setCopy⟩
  | iupdate k =>
    cases hexec
    exact ⟨_, rfl, update_view ▸ h.disk rfl rfl rfl (fun _ => rfl) (fun _ => rfl) (fun _ => rfl)⟩
  | itrunc k =>
    obtain ⟨d, c, -, rfl⟩ := Fs.of_itrunc (ok_of_map_unit hexec)
    exact ⟨_, rfl, update_view ▸ h.setCopy⟩
  | readi k dst off n =>
    obtain ⟨d, c, -, rfl⟩ := Fs.of_readi (ok_of_map_some hexec)
    exact ⟨_, rfl, update_view ▸ h.setCopy⟩
  | writei k src off n =>
    obtain ⟨d, c, -, rfl⟩ := Fs.of_writei (ok_of_map_some hexec)
    exact ⟨_, rfl, update_view ▸ h.setCopy⟩
  | filealloc =>
    rcases Fs.of_filealloc (Option.some.inj (Except.ok.inj hexec)) with
      ⟨f, rfl, hf, rfl⟩ | ⟨rfl, rfl⟩
    · have := h.files_le p f
      exact ⟨_, ⟨by omega, rfl⟩, h.filealloc hf⟩
    · exact ⟨_, rfl, update_view ▸ h⟩
  | fdalloc f =>
    obtain ⟨hf, pr, hpr⟩ := hpre
    have hproc := (h.each p).proc pr hpr
    have heq := Option.some.inj (Except.ok.inj hexec)
    rw [hproc] at heq
    dsimp only [Option.bind_some] at heq
    split at heq
    · rename_i fd hfd
      cases heq
      refine ⟨_, ⟨pr, hpr, rfl⟩, ?_⟩
      have := h.fdalloc hpr (Fs.of_fdalloc hfd) hf
      rwa [Fs.setOfile, hproc]
    · cases heq
      exact ⟨_, rfl, update_view ▸ h⟩
  | openFile f k omode =>
    cases hexec
    refine ⟨_, rfl, h.openFile hpre.1 hpre.2.1 hpre.2.2 ?_ rfl rfl⟩
    dsimp only
    split <;> simp
  | fileclose f =>
    rcases Fs.of_fileclose (ok_of_map_some hexec) with ⟨hf, rfl, rfl⟩ | ⟨hf, rfl, rfl⟩
    · exact ⟨_, rfl, h.fileclose hpre.1 hf⟩
    split
    · rename_i htype
      refine ⟨_, rfl, ?_⟩
      refine h.filefree (w p).refs hpre.1 hf (fun k => ?_) hpre.2
      simp [File.at, htype]
    rename_i htype
    have hfresh : (w p).fresh f = false := by
      by_contra hfr
      exact htype ((h.each p).fresh f (by simpa using hfr)).1
    refine ⟨_, ⟨hfresh, rfl⟩, ?_⟩
    convert h.filefree (update (w p).refs (s.ftable f).ip
      ((w p).refs (s.ftable f).ip + 1)) hpre.1 hf (fun k => ?_) hpre.2 using 2
    · ext g <;> try rfl
      change (w p).fresh g = update (w p).fresh f false g
      rw [← hfresh, update_eq_self]
    by_cases hk : k = (s.ftable f).ip
    · rw [hk, update_self]
      simp [File.at, htype]
      omega
    · rw [update_of_ne hk]
      simp [File.at, Ne.symm hk]
  | argfd fd =>
    cases hexec
    cases hfd : s.ofile p fd with
    | none => exact ⟨_, rfl, update_view ▸ h⟩
    | some f =>
      refine ⟨_, rfl, ?_⟩
      split
      · rwa [update_view]
      · rename_i htype
        exact h.learn (fdsAt_pos hfd) htype
  | advance f n =>
    cases hexec
    exact ⟨_, rfl, h.advance⟩
  | clearFd fd =>
    cases hexec
    obtain ⟨⟨pr, hpr⟩, hnone⟩ := hpre
    have hproc := (h.each p).proc pr hpr
    have hfd : s.ofile p fd = pr.ofile fd := by rw [Fs.ofile, hproc]; rfl
    rw [hfd, Fs.setOfile, hproc]
    refine ⟨_, ⟨pr, hpr, rfl, rfl⟩, ?_⟩
    cases hf : pr.ofile fd with
    | none =>
      have hsame : (Option.map (fun pr : Proc => { pr with ofile := update pr.ofile fd none }) (some pr)) = s.procs p := by
        rw [hproc, ← hf]
        simp
      rw [update_view, hsame]
      convert h using 1
      simp [Fs.setProc]
    | some f => exact h.clearFd hpr hf fun g => (hnone g).1
  | dup fd =>
    obtain ⟨⟨pr, hpr⟩, hfresh⟩ := hpre
    have hproc := (h.each p).proc pr hpr
    dsimp only [exec] at hexec
    split at hexec
    · rename_i f fd' hf hfd'
      obtain ⟨a, ha, heq⟩ := of_map_eq_ok hexec
      cases heq
      rw [Fs.of_filedup ha]
      rw [hproc] at hfd'
      refine ⟨_, ⟨pr, hpr, fd', f, ?_, rfl⟩, ?_⟩
      · rwa [Fs.ofile, hproc] at hf
      -- the new reference goes from the process to the descriptor
      have hdup := (h.filedup (fdsAt_pos hf) (hfresh f)).fdalloc (p := p) (f := f) (by rw [update_self]; exact hpr) (Fs.of_fdalloc hfd')
        (by rw [update_self]; simp [View.addFile])
      rw [update_idem, update_self, View.dropFile_addFile] at hdup
      rw [Fs.setOfile, show (s.setFile _ _).procs p = some pr from hproc]
      exact hdup
    · cases hexec
      exact ⟨_, ⟨pr, hpr, rfl⟩, update_view ▸ h⟩
  | filedup fd =>
    obtain ⟨⟨pr, hpr⟩, hfresh⟩ := hpre
    have hproc := (h.each p).proc pr hpr
    have hfd : s.ofile p fd = pr.ofile fd := by rw [Fs.ofile, hproc]; rfl
    dsimp only [exec] at hexec
    refine ⟨_, ⟨pr, hpr, rfl⟩, ?_⟩
    cases hf : pr.ofile fd with
    | none =>
      rw [hfd, hf] at hexec
      cases hexec
      rwa [update_view]
    | some f =>
      rw [hfd, hf] at hexec
      obtain ⟨a, ha, heq⟩ := of_map_eq_ok hexec
      cases heq
      rw [Fs.of_filedup ha]
      exact h.filedup (fdsAt_pos (hfd.trans hf)) (hfresh f)
  | takeCwd =>
    obtain ⟨⟨pr, hpr⟩, hl⟩ := hpre
    have hproc := (h.each p).proc pr hpr
    obtain ⟨k, hk, heq⟩ := Option.map_eq_some_iff.mp (Except.ok.inj hexec)
    cases heq
    rw [hproc] at hk
    refine ⟨_, ⟨pr, hpr, hk, rfl⟩, ?_⟩
    rw [Fs.setCwd, hproc]
    exact h.takeCwd hpr hk hl
  | setCwd k =>
    obtain ⟨⟨pr, hpr, hcwd⟩, hk, hlock⟩ := hpre
    cases hexec
    refine ⟨_, ⟨pr, hpr, rfl⟩, ?_⟩
    rw [Fs.setCwd, (h.each p).proc pr hpr]
    exact h.setCwd hpr hcwd hk hlock
  | allocproc q =>
    obtain ⟨⟨pr, hpr⟩, -⟩ := hpre
    have heq := Option.some.inj (Except.ok.inj hexec)
    split at heq
    · rename_i hq
      cases heq
      refine ⟨_, rfl, h.allocproc hq ?_⟩
      rintro rfl
      rw [(h.each q).proc pr hpr] at hq
      cases hq
    · cases heq
      exact ⟨_, rfl, update_view ▸ h⟩
  | spawn q k =>
    obtain ⟨hq, hk, hlock, pr, hpr, hfiles⟩ := hpre
    cases hexec
    refine ⟨_, rfl, ?_⟩
    have hofile : s.ofile p = pr.ofile := funext fun fd => by
      rw [Fs.ofile, (h.each p).proc pr hpr]
      rfl
    rw [hofile]
    exact h.spawn hq hpr hk hlock hfiles
  | zombie =>
    obtain ⟨⟨pr, hpr, hbare⟩, -⟩ := hpre
    cases hexec
    exact ⟨_, rfl, h.zombie hpr hbare⟩

/-! ### The references of a call -/

/-- The inode that an action leaves a new reference to with the call. -/
def Act.takes : {β : Type} → Act β → β → Option Slot
  | _, .iget _, ip => some ip
  | _, .dupCwd, ip => some ip
  | _, .takeCwd, ip => some ip
  -- the file was the last one that had the inode open
  | _, .fileclose _, ip => ip
  | _, _, _ => none

/-- The inode that the call has a reference less to after an action. -/
def Act.gives : {β : Type} → Act β → β → Option Slot
  -- the last reference is kept for `itrunc`
  | _, .iput ip, last => if last then none else some ip
  | _, .unref ip, _ => some ip
  | _, .openFile _ ip _, _ => some ip
  | _, .setCwd ip, _ => some ip
  | _, .spawn _ ip, _ => some ip
  | _, _, _ => none

/-- **The references that a call holds** after an action that has given the answer `b`. -/
def Act.counted {β : Type} (r : Act β) (b : β) (x : Slot → ℕ) : Slot → ℕ :=
  let y := (r.takes b).elim x fun k => update x k (x k + 1)
  (r.gives b).elim y fun k => update y k (y k - 1)

/-- The references that the calls hold after an event. -/
def Sys.charge (s : Sys) (x : Pid → Slot → ℕ) : Event → Pid → Slot → ℕ
  | .act p =>
    match s.thr p with
    | .act r _ =>
      match exec r p s.fs with
      | .ok (some (b, _)) => update x p (r.counted b (x p))
      | _ => x
    | _ => x
  | .crash => fun _ _ => 0
  | _ => x

theorem post_frame {β : Type} (r : Act β) (v : View) (b : β) (u : View) (h : rights.post r v b u) :
    u.light = v.light ∧ u.refs = r.counted b v.refs := by
  cases r
  case ilock k => exact h.2 ▸ ⟨rfl, rfl⟩
  case iput k | filealloc | fileclose f =>
    cases b
    · exact ⟨(congrArg View.light h :), (congrArg View.refs h :)⟩
    · exact h.2 ▸ ⟨rfl, rfl⟩
  case fdalloc f =>
    cases b with
    | some fd =>
      obtain ⟨pr, -, rfl⟩ := h
      exact ⟨rfl, rfl⟩
    | none => exact ⟨(congrArg View.light h :), (congrArg View.refs h :)⟩
  case argfd fd =>
    rcases b with _ | ⟨f, file⟩
    · exact ⟨(congrArg View.light h :), (congrArg View.refs h :)⟩
    · obtain rfl : u = if file.type = .none then v else _ := h
      split <;> exact ⟨rfl, rfl⟩
  case clearFd fd =>
    obtain ⟨pr, -, -, rfl⟩ := h
    cases b <;> exact ⟨rfl, rfl⟩
  case dup fd =>
    obtain ⟨pr, -, h⟩ := h
    cases b with
    | true =>
      obtain ⟨fd', f, -, rfl⟩ := h
      exact ⟨rfl, rfl⟩
    | false =>
      obtain rfl : u = v := h
      exact ⟨rfl, rfl⟩
  case filedup fd =>
    obtain ⟨pr, -, rfl⟩ := h
    cases pr.ofile fd <;> exact ⟨rfl, rfl⟩
  case takeCwd =>
    obtain ⟨pr, -, -, rfl⟩ := h
    exact ⟨rfl, rfl⟩
  case setCwd k =>
    obtain ⟨pr, -, rfl⟩ := h
    exact ⟨rfl, rfl⟩
  case allocproc q =>
    obtain rfl : u = if b then _ else v := h
    cases b <;> exact ⟨rfl, rfl⟩
  all_goals exact ⟨(congrArg View.light h :), (congrArg View.refs h :)⟩

/-! ### Runs -/

/-- Whether the call of a process is one that has no references of its own. -/
def Sys.light (s : Sys) (p : Pid) : Bool := (s.call p).any Call.Light

/-- **The invariant of the machine**: all processes keep to their rights. -/
def Sys.Balanced (s : Sys) : Prop :=
  rights.Kept (fun fs w => Rights fs w ∧ ∀ p, (w p).light = s.light p) (fun _ => View.Idle)
    s.fs s.thr

theorem Rights.enter {pr : Proc} (h : Rights s w) (hidle : (w p).Idle) (hpr : s.procs p = some pr) (hready : pr.ready = true) :
    Rights s (update w p (View.idle (some pr) b)) := by
  have hp := h.each p
  obtain ⟨htxn, hrefs, hlocks, hfiles, hfresh, hchild⟩ := hidle
  -- a process that runs is nobody's child that does not run yet
  have hnew : ∀ r, (w r).child ≠ some p := by
    intro r hr
    have := (h.each r).child p hr
    rw [hpr] at this
    cases this
    cases hready
  refine h.rebuild (update_eq_self 0 s.ftable).symm (update_eq_self p s.procs).symm ?_ (fun q _ => h.each q)
    (fun k => by rw [hrefs k]; rfl) (fun f => by rw [hfiles f]; rfl) h.free h.distinct (fun _ => .inr fun r => ⟨hnew r, by simp [View.idle]⟩) fun q hq => by cases hq
  refine ⟨?_, fun k => ?_, fun k hk => ?_, fun f k hf => ?_, fun f hf => ?_, fun pr' hpr' => ?_, fun c hc => ?_, fun _ _ => rfl⟩
  · rw [hp.ops, htxn]
    rfl
  · rw [← hp.locks k, hlocks]
    rfl
  · cases hk
  · cases hf
  · cases hf
  · exact hpr.trans hpr'
  · cases hc

theorem rights_boot (disk : Disk) : Rights (boot disk) fun _ => View.idle none false where
  each p :=
    { ops := rfl
      locks := fun k => ⟨fun h => (by cases h), fun h => (by cases h)⟩
      held := fun k h => (by cases h)
      known := fun f k h => (by cases h)
      fresh := fun f h => (by cases h)
      proc := fun pr h => (by cases h)
      child := fun q h => (by cases h)
      light := fun h => (by cases h) }
  refs k := by
    have hcwd : ∀ p, cwdAt k ((boot disk).procs p) = if p = 0 ∧ k = 0 then 1 else 0 := by
      intro p
      by_cases hp : p = 0
      · simp [cwdAt, boot, hp, eq_comm]
      · simp [cwdAt, boot, hp]
    simp only [hcwd]
    by_cases hk : k = 0
    all_goals simp [boot, File.at, View.idle, hk]
  frefs f := by
    have hfds : ∀ p, fdsAt f ((boot disk).procs p) = 0 := by
      intro p
      by_cases hp : p = 0
      · simp [fdsAt, boot, hp, Proc.fds]
      · simp [fdsAt, boot, hp]
    simp only [hfds]
    simp [boot, View.idle]
  free f _ := rfl
  distinct k j hk hj _ := by
    have hzero : ∀ i : Slot, 0 < ((boot disk).itable i).ref → i = 0 := by
      intro i hi
      by_contra hne
      simp [boot, hne] at hi
    rw [hzero k hk, hzero j hj]
  child p q h := by cases h

theorem View.idle_idle {o : Option Proc} : (View.idle o b).Idle :=
  ⟨rfl, fun _ => rfl, fun _ => rfl, fun _ => rfl, fun _ => rfl, rfl⟩

theorem balanced_start (disk : Disk) : (start disk).Balanced :=
  ⟨fun _ => View.idle none false, ⟨rights_boot disk, fun _ => rfl⟩, fun _ => View.idle_idle⟩

/-- **Every event** leaves the processes to their rights; the references of the calls are those it is charged with. -/
theorem kept_step {s t : Sys} {e : Event} (hw : Rights s.fs w) (hlight : ∀ p, (w p).light = s.light p)
    (hok : ∀ p, (s.thr p).Ok rights (w p) fun _ => View.Idle) (hstep : step s e = some t) :
    ∃ w', (Rights t.fs w' ∧ ∀ p, (w' p).light = t.light p) ∧ (∀ p, (t.thr p).Ok rights (w' p) fun _ => View.Idle) ∧
      (fun p => (w' p).refs) = s.charge (fun p => (w p).refs) e := by
  cases e with
  | call p c =>
    simp only [step] at hstep
    split at hstep <;> cases hstep
    rename_i hready
    obtain ⟨houtside, hready⟩ := hready
    cases hpr : s.fs.procs p with
    | none => simp [hpr] at hready
    | some pr =>
      rw [hpr] at hready
      have hidle := Sys.ok_of_outside (hok p) houtside
      refine ⟨update w p (View.idle (some pr) c.Light), ⟨hw.enter hidle hpr hready,
        forall_update₂ (P := fun _ v o => View.light v = Option.any Call.Light o) rfl fun q _ => hlight q⟩,
        forall_update₂ (P := fun _ prog v => Program.Ok rights prog v fun _ => View.Idle) (Call.ok c _ pr) fun q _ => hok q,
        funext (apply_update_of_eq View.refs (funext hidle.2.1).symm)⟩
  | act p =>
    simp only [step] at hstep
    split at hstep <;> cases hstep
    rename_i fs k hnext
    obtain ⟨β, r, rest, b, v, hthr, hexec, hpost, hw', hok'⟩ := rights_sound.stepView hw hok hnext
    obtain ⟨hl, hrefs⟩ := post_frame r (w p) b v hpost
    refine ⟨update w p v, ⟨hw', fun q => (apply_update_of_eq View.light hl q).trans (hlight q)⟩, hok', ?_⟩
    simp only [Sys.charge, hthr, hexec]
    exact funext (forall_update₂ (P := fun _ v o => View.refs v = o) hrefs fun _ _ => rfl)
  | commit =>
    simp only [step] at hstep
    split at hstep <;> cases hstep
    exact ⟨w, ⟨hw, hlight⟩, hok, rfl⟩
  | crash =>
    cases hstep
    exact ⟨fun _ => View.idle none false, ⟨rights_boot s.image, fun _ => rfl⟩, fun _ => View.idle_idle, rfl⟩

theorem balanced_step {s t : Sys} {e : Event} (h : s.Balanced) (hstep : step s e = some t) : t.Balanced := by
  obtain ⟨w, ⟨hw, hlight⟩, hok⟩ := h
  obtain ⟨w', hw', hok', -⟩ := kept_step hw hlight hok hstep
  exact ⟨w', hw', hok'⟩

theorem balanced_of_reach {disk : Disk} {s : Sys} (h : Reach step (start disk) s) : s.Balanced :=
  h.invariant balanced_step (balanced_start disk)

/-! ### What refers to an inode -/

def Fs.files (s : Fs) (k : Slot) : Finset FileId :=
  {f | 0 < (s.ftable f).ref ∧ ((s.ftable f).type = .inode ∨ (s.ftable f).type = .device) ∧
    (s.ftable f).ip = k}

def Fs.cwds (s : Fs) (k : Slot) : Finset Pid := {p | ((s.procs p).bind fun pr => pr.cwd) = some k}

theorem Fs.card_cwds (s : Fs) (k : Slot) : ∑ p, cwdAt k (s.procs p) = (s.cwds k).card := by
  rw [Fs.cwds, Finset.card_filter]
  rfl

theorem Rights.card_files (h : Rights s w) (k : Slot) : ∑ f, (s.ftable f).at k = (s.files k).card := by
  rw [Fs.files, Finset.card_filter]
  refine Finset.sum_congr rfl fun f _ => ?_
  have hfree := h.free f
  unfold File.at
  congr 1
  refine propext ⟨fun ⟨htype, hip⟩ => ⟨?_, ?_, hip⟩, fun ⟨_, htype, hip⟩ => ⟨?_, hip⟩⟩
  · by_contra h0
    exact htype (hfree (by omega))
  · cases ht : (s.ftable f).type with
    | none => exact absurd ht htype
    | inode => exact .inl rfl
    | device => exact .inr rfl
  · rcases htype with ht | ht <;> simp [ht]

/-- **Every file-system call is balanced.** Whatever the disk looks like and however the
processes take turns, a process outside a system call holds no lock and is in no transaction.
If those inside one only read, write or look at files, then all that refers to an inode is open
files and working directories. -/
theorem calls_balanced (disk : Disk) (s : Sys) (h : Reach step (start disk) s) :
    (∀ p, ¬s.Inside p → s.fs.ops p = 0 ∧ ∀ k, (s.fs.itable k).lock ≠ some p) ∧ ((∀ p, s.Inside p → (s.call p).any Call.Light = true) →
        ∀ k, (s.fs.itable k).ref = (s.fs.files k).card + (s.fs.cwds k).card) := by
  obtain ⟨w, ⟨hw, hlight⟩, hok⟩ := balanced_of_reach h
  refine ⟨fun p hp => ?_, fun hcalls k => ?_⟩
  · have hidle := Sys.ok_of_outside (hok p) hp
    refine ⟨?_, fun k hk => ?_⟩
    · rw [(hw.each p).ops, hidle.1]
      rfl
    · rw [← (hw.each p).locks k, hidle.2.2.1] at hk
      cases hk
  · have hnone : ∀ p, (w p).refs k = 0 := by
      intro p
      by_cases hp : s.Inside p
      · exact (hw.each p).light ((hlight p).trans (hcalls p hp)) k
      · exact (Sys.ok_of_outside (hok p) hp).2.1 k
    rw [hw.refs k, hw.card_files, Fs.card_cwds]
    simp [hnone]

/-- The first process opens the root directory, which is its working directory too. -/
theorem calls_balanced_open : ∃ s, Reach step (start emptyImage) s ∧ (s.fs.itable 0).ref = 2 ∧
    (s.fs.files 0).card + (s.fs.cwds 0).card = 2 ∧ s.fs.ops 0 = 0 := by
  have hplay : ((start emptyImage).play [⟨0, some (.open dot .rdonly), 100⟩]).any
      (fun s => (s.fs.itable 0).ref = 2 && decide (∀ p, ¬s.Inside p)) = true := by decide +kernel
  obtain ⟨s, hs, hp⟩ := Sys.exists_reach hplay
  rw [Bool.and_eq_true, decide_eq_true_iff, decide_eq_true_iff] at hp
  obtain ⟨href, hout⟩ := hp
  obtain ⟨hops, hrefs⟩ := calls_balanced emptyImage s hs
  refine ⟨s, hs, href, ?_, (hops 0 (hout 0)).1⟩
  rw [← hrefs (fun p hp => absurd hp (hout p)) 0, href]

end Xv6.FileSys
