import Xv6.Fs.Calls

/-!
# Changes of an inode that are not on the disk yet

The fields of an inode in memory are assigned to first, and written to the disk by `iupdate` after that. In between the
process has a `Xv6.FileSys.Draft`. The discipline `Xv6.FileSys.drafts` says that nobody lets go of an inode they have a
draft of, that whoever frees an inode does it in the order of `iput`, and that an inode from `ialloc` is locked next. Who
has locked what is the business of `Xv6.FileSys.rights`.
-/

namespace Xv6.FileSys

open Lib Function

/-- What the copy of an inode is like, by comparison with the inode on the disk. -/
inductive Stage
  /-- Counts and device numbers may differ. -/
  | dirty
  /-- It is the same, and has no blocks. -/
  | empty
  /-- It has no blocks, and its type has been set to 0. -/
  | dying
  /-- The inode on the disk has been freed. -/
  | freed
  deriving DecidableEq, Repr

inductive Work
  /-- It changes the inode, which it has locked. -/
  | edit (k : Slot) (st : Stage)
  /-- It has got the inode from `ialloc`, and is about to look for it in the table and to lock it.
  The place in the table is known after `iget`. -/
  | claim (inum : ℕ) (type : IType) (k : Option Slot)
  deriving DecidableEq, Repr

abbrev Draft : Type := Option Work

namespace Draft

def Settled (v : Draft) : Prop := v = none ∨ ∃ k, v = some (.edit k .empty)

def stage (v : Draft) (k : Slot) : Option Stage :=
  match v with
  | some (.edit j st) => if j = k then some st else none
  | _ => none

def claim : Draft → Option (ℕ × IType)
  | some (.claim inum type _) => some (inum, type)
  | _ => none

def Quiet (v : Draft) : Prop := v.claim = none

instance (v : Draft) : Decidable v.Quiet := inferInstanceAs (Decidable (v.claim = none))

/-- An assignment that leaves the type and the blocks as they are. -/
def Mild (f : Dinode → Dinode) : Prop :=
  ∀ c, (f c).type = c.type ∧ (f c).size = c.size ∧ (f c).addrs = c.addrs

def setFree (c : Dinode) : Dinode := { c with type := .free }

/-- What an action asks of the draft, on a disk with `ninodes` inodes. -/
def Pre (ninodes : ℕ) : {β : Type} → Act β → Draft → Prop
  | _, .iget inum, v => v.Quiet ∨ ∃ type, v = some (.claim inum type none)
  | _, .ilock k, v => v.Quiet ∨ ∃ inum type, v = some (.claim inum type (some k))
  | _, .iunlock _, v => v.Settled
  | _, .invalidate k, v => v = some (.edit k .freed)
  | _, .iclaim inum type, v => v = none ∧ 1 ≤ inum ∧ inum < ninodes ∧ type ≠ .free
  | _, .assign k f, v => v = none ∧ Mild f ∨ v = some (.edit k .empty) ∧ f = setFree
  | _, .iupdate k, v => v = some (.edit k .dirty) ∨ v = some (.edit k .dying)
  | _, .itrunc _, v => v = none
  | _, .readi _ _ _ n, v => v.Settled ∧ n < UINT
  | _, .writei _ _ _ n, v => v = none ∧ n < UINT
  | _, _, v => v.Quiet

def Post : {β : Type} → Act β → Draft → β → Draft → Prop
  | _, .iget _, v, k, w =>
    w = match v with
      | some (.claim inum type _) => some (.claim inum type (some k))
      | v => v
  | _, .ilock _, v, _, w => w = if v.Quiet then v else none
  | _, .iunlock _, _, _, w => w = none
  | _, .invalidate _, _, _, w => w = none
  | _, .iclaim inum type, _, b, w => w = if b then some (.claim inum type none) else none
  | _, .assign k _, v, _, w => w = some (.edit k (if v = none then .dirty else .dying))
  | _, .iupdate k, v, _, w =>
    w = if v = some (.edit k .dying) then some (.edit k .freed) else none
  | _, .itrunc k, _, _, w => w = some (.edit k .empty)
  | _, _, v, _, w => w = v

end Draft

/-- The discipline. `freeing free block` is never a program's own panic. -/
def drafts (ninodes : ℕ) : Discipline Act Panic Draft where
  pre := Draft.Pre ninodes
  post := Draft.Post
  stop e _ := e ≠ .freeingFreeBlock

/-- **A program that leaves no drafts behind**, if it begins with none. -/
def Tidy {α : Type} (ninodes : ℕ) (p : Prog α) : Prop :=
  p.Ok (drafts ninodes) none fun _ v => v = none

namespace Tidy

variable {α β : Type} {n : ℕ} {p : Prog α} {f : α → Prog β}

theorem done {a : α} : Tidy n (pure a : Prog α) := (rfl : (none : Draft) = none)

theorem stop {e : Panic} (he : e ≠ .freeingFreeBlock) : Tidy n (Prog.panic e : Prog α) := he

theorem bind (hp : Tidy n p) (hf : ∀ a, Tidy n (f a)) : Tidy n (p >>= f) := .seq hp hf

theorem seq {q : Prog β} (hp : Tidy n p) (hq : Tidy n q) : Tidy n (p >>= fun _ => q) := hp.bind fun _ => hq

theorem perform {r : Act α} (hpre : Draft.Pre n r none) (hpost : ∀ b w, Draft.Post r none b w → w = none) : Tidy n (.perform r) :=
  Program.Ok.perform hpre hpost

/-- An action that needs no draft, and makes none. -/
theorem still {r : Act α} (hpre : Draft.Pre n r none) (hpost : Draft.Post r none = fun _ w => w = none) : Tidy n (.perform r) :=
  .perform hpre fun _ _ h => by rwa [hpost] at h

theorem ite {c : Prop} [Decidable c] {q : Prog α} (hp : c → Tidy n p) (hq : ¬c → Tidy n q) : Tidy n (if c then p else q) := by
  split
  · exact hp ‹_›
  · exact hq ‹_›

theorem forM {γ : Type} {g : γ → Prog PUnit} (hg : ∀ c, Tidy n (g c)) (l : List γ) : Tidy n (l.forM g) := by
  induction l with
  | nil => exact done
  | cons c l ih => exact (hg c).bind fun _ => ih

end Tidy

namespace Prog

open Tidy

variable {path name : List UInt8} {f : FileId} {type : IType} {e : Panic} {omode : Omode} {off : ℕ} {file : File} {major minor : ℤ} {mem : ℕ → Bool}

variable {n : ℕ} {ip dp : Slot}

/-! ### Actions -/

theorem tidy_look : Tidy n (look ip) := .still rfl rfl

theorem tidy_ilock : Tidy n (ilock ip) := .still (.inl rfl) rfl

theorem tidy_iunlock : Tidy n (iunlock ip) := .still (.inl rfl) rfl

theorem tidy_iget {inum : ℕ} : Tidy n (iget inum) := .still (.inl rfl) rfl

theorem tidy_beginOp : Tidy n beginOp := .still rfl rfl

theorem tidy_endOp : Tidy n endOp := .still rfl rfl

theorem tidy_dupCwd : Tidy n dupCwd := .still rfl rfl

variable {dst : ℕ → ℕ → Bool} {m fuel : ℕ} {src : ℕ → ℕ → List UInt8 × Bool}

theorem tidy_readi {off : ℕ} (hm : m < UINT) : Tidy n (readi ip dst off m) :=
  .perform ⟨.inl rfl, hm⟩ fun _ _ h => h

theorem tidy_writei {off : ℕ} (hm : m < UINT) : Tidy n (writei ip src off m) :=
  .perform ⟨rfl, hm⟩ fun _ _ h => h

theorem tidy_assign {f : Dinode → Dinode} (hf : Draft.Mild f) : Tidy n (assign ip f >>= fun _ => iupdate ip) := by
  refine Program.Ok.act (.inl ⟨rfl, hf⟩) ?_
  rintro _ w rfl
  refine Program.Ok.perform (.inl rfl) ?_
  rintro _ w rfl
  exact if_neg (by simp)

/-! ### Inodes -/

theorem tidy_iput : Tidy n (iput ip) := by
  refine Program.Ok.act rfl ?_
  rintro b w rfl
  cases b with
  | false => exact (rfl : (none : Draft) = none)
  | true =>
    refine Program.Ok.act rfl ?_
    rintro _ w rfl
    refine Program.Ok.act (.inr ⟨rfl, rfl⟩) ?_
    rintro _ w rfl
    refine Program.Ok.act (.inr (by simp)) ?_
    rintro _ w rfl
    refine Program.Ok.act (by simp [drafts, Draft.Pre]) ?_
    rintro _ w rfl
    exact Program.Ok.perform rfl fun _ _ h => h

theorem tidy_iunlockput : Tidy n (iunlockput ip) := tidy_iunlock.seq tidy_iput

theorem claims_ialloc (htype : type ≠ .free) : (ialloc n type).Ok (drafts n) none fun ip v => ∃ inum, v = some (.claim inum type (some ip)) := by
  have hloop : ∀ l : List ℕ, (∀ inum ∈ l, 1 ≤ inum ∧ inum < n) → (iallocLoop type l).Ok (drafts n) none
        fun ip v => ∃ inum, v = some (.claim inum type (some ip)) := by
    intro l hl
    induction l with
    | nil => exact (by decide : Panic.ialloc ≠ .freeingFreeBlock)
    | cons inum l ih =>
      obtain ⟨hone, hn⟩ := hl inum List.mem_cons_self
      refine Program.Ok.act ⟨rfl, hone, hn, htype⟩ ?_
      rintro b w rfl
      cases b with
      | true =>
        refine Program.Ok.perform (.inr ⟨type, rfl⟩) ?_
        rintro ip w rfl
        exact ⟨inum, rfl⟩
      | false => exact ih fun m hm => hl m (List.mem_cons_of_mem _ hm)
  refine hloop _ fun inum hinum => ?_
  have := List.mem_range'_1.mp hinum
  omega

/-! ### Directories -/

theorem tidy_readDirent (he : e ≠ .freeingFreeBlock) : Tidy n (readDirent e dp off) := by
  refine Tidy.bind (tidy_readi (by decide)) fun r => ?_
  cases r with
  | none => exact stop he
  | some bs => exact .ite (fun _ => done) fun _ => stop he

theorem tidy_scan {p : Dirent → Bool} {off : ℕ} (he : e ≠ .freeingFreeBlock) : Tidy n (scan e p dp fuel off) := by
  induction fuel generalizing off with
  | zero => exact done
  | succ fuel ih =>
    refine tidy_look.bind fun d => .ite (fun _ => ?_) fun _ => done
    exact (tidy_readDirent he).bind fun de => .ite (fun _ => done) fun _ => ih

theorem tidy_dirlookup : Tidy n (dirlookup dp name) := by
  refine tidy_look.bind fun d => .ite (fun _ => stop (by decide)) fun _ => ?_
  refine (tidy_scan (by decide)).bind fun r => ?_
  rcases r with _ | ⟨off, de⟩
  · exact done
  · exact tidy_iget.bind fun _ => done

theorem tidy_writeDirent {bs : List UInt8} (he : e ≠ .freeingFreeBlock) : Tidy n (writeDirent e dp bs off) :=
  (tidy_writei (by decide)).bind fun _ => .ite (fun _ => done) fun _ => stop he

theorem tidy_dirlink {inum : ℕ} : Tidy n (dirlink dp name inum) := by
  refine tidy_dirlookup.bind fun r => ?_
  rcases r with _ | ⟨ip, off⟩
  · refine tidy_look.bind fun d => (tidy_scan (by decide)).bind fun r => ?_
    rcases r with _ | ⟨off, de⟩
    all_goals exact (tidy_writeDirent (by decide)).seq done
  · exact tidy_iput.seq done

theorem tidy_isdirempty : Tidy n (isdirempty dp) :=
  tidy_look.bind fun _ => (tidy_scan (by decide)).bind fun _ => done

/-! ### Paths -/

theorem tidy_namexLoop {parent : Bool} {path name : List UInt8} : Tidy n (namexLoop parent fuel ip path name) := by
  induction fuel generalizing ip path name with
  | zero => exact done
  | succ fuel ih =>
    unfold namexLoop
    split
    · exact .ite (fun _ => tidy_iput.seq done) fun _ => done
    refine tidy_ilock.seq (tidy_look.bind fun i => .ite (fun _ => ?_) fun _ => ?_)
    · exact tidy_iunlockput.seq done
    · refine .ite (fun _ => tidy_iunlock.seq done) fun _ => ?_
      refine tidy_dirlookup.bind fun r => ?_
      rcases r with _ | ⟨next, off⟩
      · exact tidy_iunlockput.seq done
      · exact tidy_iunlockput.seq ih

theorem tidy_namex {parent : Bool} : Tidy n (namex path parent) :=
  Tidy.bind (.ite (fun _ => tidy_iget) fun _ => tidy_dupCwd) fun _ => tidy_namexLoop

theorem tidy_namei : Tidy n (namei path) := tidy_namex.bind fun _ => done

/-! ### Files -/

theorem tidy_fileclose : Tidy n (fileclose f) := by
  refine Tidy.bind (.still rfl rfl) fun r => ?_
  cases r with
  | none => exact done
  | some ip => exact tidy_beginOp.seq (tidy_iput.seq tidy_endOp)

theorem tidy_filestat : Tidy n (filestat file) := by
  refine .ite (fun _ => done) fun _ => ?_
  exact tidy_ilock.seq (tidy_look.seq (tidy_iunlock.seq done))

theorem tidy_advance {r : Option ℕ} : Tidy n (advance f r) := by
  cases r with
  | none => exact done
  | some r => exact .still rfl rfl

theorem tidy_fileread (hm : m < UINT) : Tidy n (fileread f file dst m) := by
  refine .ite (fun _ => done) fun _ => ?_
  split
  · exact done
  · refine tidy_ilock.seq (Tidy.bind (.still rfl rfl) fun off => ?_)
    exact (tidy_readi hm).bind fun r => tidy_advance.seq tidy_iunlock
  · exact stop (by decide)

theorem tidy_writeChunk (hm : m < UINT) : Tidy n (writeChunk f ip src m) := by
  refine tidy_beginOp.bind fun _ => tidy_ilock.bind fun _ =>
    Tidy.bind (.still rfl rfl) fun off => (tidy_writei hm).bind fun r => ?_
  exact tidy_advance.seq (tidy_iunlock.seq (tidy_endOp.seq done))

theorem tidy_filewrite {user : ℕ → Option Logging.Page} {addr : ℕ} : Tidy n (filewrite f file user addr m) := by
  have hloop : ∀ fuel i m, Tidy n (filewriteLoop f file.ip user addr fuel i m) := by
    intro fuel
    induction fuel with
    | zero => exact fun _ _ => done
    | succ fuel ih =>
      intro i m
      refine .ite (fun _ => done) fun _ => ?_
      have hm : min m maxChunk < UINT :=
        Nat.lt_of_le_of_lt (Nat.min_le_right ..) (by decide)
      exact (tidy_writeChunk hm).bind fun r => .ite (fun _ => ih _ _) fun _ => done
  refine .ite (fun _ => done) fun _ => ?_
  split
  · exact done
  · exact hloop _ _ _
  · exact stop (by decide)

/-! ### Names -/

theorem mild_addLink {k : ℤ} : Draft.Mild fun c => { c with nlink := wrapInt 16 (c.nlink + k) } :=
  fun _ => ⟨rfl, rfl, rfl⟩

theorem tidy_addLink {k : ℤ} {α : Type} {g : Unit → Prog α} (hg : Tidy n (g ())) : Tidy n (addLink ip k >>= fun _ => iupdate ip >>= g) :=
  Tidy.bind (p := addLink ip k >>= fun _ => iupdate ip) (tidy_assign mild_addLink) fun _ => hg

theorem tidy_linkBad : Tidy n (linkBad ip) :=
  tidy_ilock.seq (tidy_addLink (tidy_iunlockput.seq tidy_endOp))

theorem tidy_linkNew {new : List UInt8} : Tidy n (linkNew ip new) := by
  refine tidy_namex.bind fun r => ?_
  rcases r with _ | ⟨dp, name⟩
  · exact tidy_linkBad
  · refine tidy_ilock.seq (tidy_look.bind fun i => tidy_dirlink.bind fun made => ?_)
    cases made with
    | true => exact tidy_iunlockput.seq (tidy_iput.seq tidy_endOp)
    | false => exact tidy_iunlockput.seq tidy_linkBad

theorem tidy_sysLink {old new : List UInt8} : Tidy n (sysLink old new) := by
  refine tidy_beginOp.seq (tidy_namei.bind fun r => ?_)
  rcases r with _ | ip
  · exact tidy_endOp
  · refine tidy_ilock.seq (tidy_look.bind fun i => .ite (fun _ => ?_) fun _ => ?_)
    · exact tidy_iunlockput.seq tidy_endOp
    · exact tidy_addLink (tidy_iunlock.seq tidy_linkNew)

theorem tidy_unlinkParent : Tidy n (unlinkParent dp ip) :=
  tidy_look.bind fun _ => .ite (fun _ => tidy_assign mild_addLink) fun _ => done

theorem tidy_unlinkEntry : Tidy n (unlinkEntry dp ip off) := by
  refine (tidy_writeDirent (by decide)).seq (tidy_unlinkParent.seq ?_)
  exact tidy_iunlockput.seq (tidy_addLink (tidy_iunlockput.seq tidy_endOp))

theorem tidy_unlinkBad : Tidy n (unlinkBad dp) := tidy_iunlockput.seq tidy_endOp

theorem tidy_sysUnlink : Tidy n (sysUnlink path) := by
  refine tidy_beginOp.seq (tidy_namex.bind fun r => ?_)
  rcases r with _ | ⟨dp, name⟩
  · exact tidy_endOp
  refine tidy_ilock.seq (.ite (fun _ => tidy_unlinkBad) fun _ => ?_)
  refine tidy_dirlookup.bind fun r => ?_
  rcases r with _ | ⟨ip, off⟩
  · exact tidy_unlinkBad
  refine tidy_ilock.seq (tidy_look.bind fun i => ?_)
  refine .ite (fun _ => stop (by decide)) fun _ => .ite (fun _ => ?_) fun _ => tidy_unlinkEntry
  refine tidy_isdirempty.bind fun empty => ?_
  cases empty with
  | true => exact tidy_unlinkEntry
  | false => exact tidy_iunlockput.seq tidy_unlinkBad

theorem tidy_createDots : Tidy n (createDots type dp ip) := by
  refine .ite (fun _ => ?_) fun _ => done
  refine tidy_addLink (tidy_look.bind fun i => tidy_dirlink.bind fun made => ?_)
  cases made with
  | false => exact stop (by decide)
  | true =>
    refine tidy_look.bind fun d => tidy_dirlink.bind fun made => ?_
    cases made with
    | false => exact stop (by decide)
    | true => exact done

theorem tidy_createNew (htype : type ≠ .free) : Tidy n (createNew n dp name type major minor) := by
  refine Program.Ok.bind (claims_ialloc htype) ?_
  rintro ip _ ⟨inum, rfl⟩
  refine Program.Ok.act (.inr ⟨inum, type, rfl⟩) ?_
  rintro _ w rfl
  refine Tidy.bind (p := assign ip _ >>= fun _ => iupdate ip) (tidy_assign fun _ => ⟨rfl, rfl, rfl⟩) fun _ => ?_
  refine tidy_createDots.seq (tidy_look.bind fun i => tidy_dirlink.bind fun made => ?_)
  cases made with
  | false => exact stop (by decide)
  | true => exact tidy_iunlockput.seq done

theorem tidy_create (htype : type ≠ .free) : Tidy n (create n path type major minor) := by
  refine tidy_namex.bind fun r => ?_
  rcases r with _ | ⟨dp, name⟩
  · exact done
  · refine tidy_ilock.seq (tidy_dirlookup.bind fun r => ?_)
    rcases r with _ | ⟨ip, off⟩
    · exact (tidy_createNew htype).bind fun _ => done
    · refine tidy_iunlockput.seq (tidy_ilock.seq (tidy_look.bind fun i => ?_))
      exact .ite (fun _ => done) fun _ => tidy_iunlockput.seq done

theorem tidy_openInode : Tidy n (openInode n path omode) := by
  refine .ite (fun _ => tidy_create (by decide)) fun _ => tidy_namei.bind fun r => ?_
  rcases r with _ | ip
  · exact done
  · refine tidy_ilock.seq (tidy_look.bind fun i => ?_)
    exact .ite (fun _ => tidy_iunlockput.seq done) fun _ => done

theorem tidy_truncate_iunlock {α : Type} {g : Unit → Prog α} (hg : Tidy n (g ())) : Tidy n (truncate ip omode >>= fun _ => iunlock ip >>= g) := by
  refine Program.Ok.bind (Q := fun _ v => v.Settled) ?_ fun _ v hv => ?_
  · refine Program.Ok.act rfl ?_
    rintro i w rfl
    split
    · refine Program.Ok.perform rfl ?_
      rintro _ w rfl
      exact .inr ⟨ip, rfl⟩
    · exact .inl rfl
  · refine Program.Ok.act hv ?_
    rintro _ w rfl
    exact hg

theorem tidy_openFd : Tidy n (openFd ip omode) := by
  refine Tidy.bind (.still rfl rfl) fun r => ?_
  rcases r with _ | f
  · exact tidy_iunlockput.seq tidy_endOp
  · refine Tidy.bind (.still rfl rfl) fun r => ?_
    rcases r with _ | fd
    · exact tidy_fileclose.seq (tidy_iunlockput.seq tidy_endOp)
    · refine Tidy.bind (.still rfl rfl) fun _ => ?_
      exact tidy_truncate_iunlock tidy_endOp

theorem tidy_sysOpen : Tidy n (sysOpen n path omode) := by
  refine tidy_beginOp.seq (tidy_openInode.bind fun r => ?_)
  rcases r with _ | ip
  · exact tidy_endOp
  · refine tidy_look.bind fun i => .ite (fun _ => ?_) fun _ => tidy_openFd
    exact tidy_iunlockput.seq tidy_endOp

theorem tidy_withPath {path : Option (List UInt8)} {k : List UInt8 → Prog Unit} (hk : ∀ path, Tidy n (k path)) : Tidy n (withPath path k) := by
  refine tidy_beginOp.seq ?_
  cases path with
  | none => exact tidy_endOp
  | some path => exact hk path

theorem tidy_sysMake {path : Option (List UInt8)} (htype : type ≠ .free) : Tidy n (sysMake n path type major minor) := by
  refine tidy_withPath fun path => (tidy_create htype).bind fun r => ?_
  rcases r with _ | ip
  · exact tidy_endOp
  · exact tidy_iunlockput.seq tidy_endOp

theorem tidy_sysChdir {path : Option (List UInt8)} : Tidy n (sysChdir path) := by
  refine tidy_withPath fun path => tidy_namei.bind fun r => ?_
  rcases r with _ | ip
  · exact tidy_endOp
  · refine tidy_ilock.seq (tidy_look.bind fun i => .ite (fun _ => ?_) fun _ => ?_)
    · exact tidy_iunlockput.seq tidy_endOp
    · refine tidy_iunlock.seq (Tidy.bind (.still rfl rfl) fun cwd => ?_)
      exact tidy_iput.seq (tidy_endOp.seq (.still rfl rfl))

/-! ### Programs and processes -/

theorem tidy_loadseg {offset sz i : ℕ} : Tidy n (loadseg ip offset sz fuel i) := by
  induction fuel generalizing i with
  | zero => exact done
  | succ fuel ih =>
    refine .ite (fun _ => ?_) fun _ => done
    have hm : min (sz - i) PGSIZE < UINT := Nat.lt_of_le_of_lt (Nat.min_le_right ..) (by decide)
    refine Tidy.bind (tidy_readi hm) fun r => ?_
    cases r with
    | none => exact done
    | some bs => exact .ite (fun _ => ih) fun _ => done

theorem tidy_loadAll {off : ℕ} : Tidy n (loadAll ip mem fuel off) := by
  induction fuel generalizing off with
  | zero => exact done
  | succ fuel ih =>
    refine Tidy.bind (tidy_readi (by decide)) fun r => ?_
    cases r with
    | none => exact done
    | some ph =>
      refine .ite (fun _ => done) fun _ => .ite (fun _ => ih) fun _ => .ite (fun _ => done) fun _ =>
        .ite (fun _ => done) fun _ => .ite (fun _ => done) fun _ => tidy_loadseg.bind fun loaded => ?_
      cases loaded with
      | true => exact ih
      | false => exact done

theorem tidy_load : Tidy n (load ip mem) := by
  refine Tidy.bind (tidy_readi (by decide)) fun r => ?_
  cases r with
  | none => exact done
  | some elf => exact .ite (fun _ => done) fun _ => tidy_loadAll

theorem tidy_exec : Tidy n (exec path mem) := by
  refine tidy_beginOp.seq (tidy_namei.bind fun r => ?_)
  rcases r with _ | ip
  · exact tidy_endOp
  · exact tidy_ilock.seq (tidy_load.seq (tidy_iunlockput.seq tidy_endOp))

theorem tidy_fork {q : Pid} : Tidy n (fork q) := by
  refine Tidy.bind (.still rfl rfl) fun b => ?_
  cases b with
  | false => exact done
  | true =>
    refine Tidy.bind (Tidy.forM (fun fd => ?_) _) fun _ => ?_
    · exact .still rfl rfl
    · exact tidy_dupCwd.bind fun _ => .still rfl rfl

theorem tidy_sysClose {fd : Fd} : Tidy n (sysClose fd) := by
  refine Tidy.bind (.still rfl rfl) fun r => ?_
  cases r with
  | none => exact done
  | some f => exact tidy_fileclose

theorem tidy_exit : Tidy n exit := by
  refine Tidy.bind (Tidy.forM (fun fd => tidy_sysClose) _) fun _ => tidy_beginOp.seq ?_
  refine Tidy.bind (.still rfl rfl) fun cwd => tidy_iput.seq ?_
  exact tidy_endOp.seq (.still rfl rfl)

theorem tidy_withFile {fd : Fd} {k : FileId → File → Prog Unit} (hk : ∀ f file, Tidy n (k f file)) : Tidy n (withFile fd k) := by
  refine Tidy.bind (.still rfl rfl) fun r => ?_
  rcases r with _ | ⟨f, file⟩
  · exact done
  · exact hk f file

end Prog

theorem Call.tidy (c : Call) (n : ℕ) : Tidy n (c.prog n) := by
  cases c with
  | «open» path omode => exact Prog.tidy_sysOpen
  | mkdir path | mknod path major minor => exact Prog.tidy_sysMake (by decide)
  | link old new => exact Prog.tidy_sysLink
  | unlink path => exact Prog.tidy_sysUnlink
  | chdir path => exact Prog.tidy_sysChdir
  | exec path mem => exact Prog.tidy_exec
  | read fd dst m => exact Prog.tidy_withFile fun _ _ => Prog.tidy_fileread (Nat.mod_lt _ (by decide))
  | write fd user addr m => exact Prog.tidy_withFile fun _ _ => Prog.tidy_filewrite
  | fstat fd => exact Prog.tidy_withFile fun _ _ => Prog.tidy_filestat.seq .done
  | close fd => exact Prog.tidy_sysClose
  | dup fd => exact Tidy.bind (.still rfl rfl) fun _ => .done
  | fork q => exact Prog.tidy_fork
  | exit => exact Prog.tidy_exit

end Xv6.FileSys
