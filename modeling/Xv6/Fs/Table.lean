import Xv6.Fs.Disk
import Xv6.Lib.Program

/-!
# The tables of the file system, and what is atomic

The state that file-system calls of several processes share: the disk, as the cache shows it, the table of inodes, the
table of open files, and the part of each process that refers to them. A pointer to an inode or a file is its place in the
table.

`Xv6.FileSys.Act` lists the atomic actions. Each is a critical section of a lock of the source, or works on an inode that
its caller has locked, or on what belongs to the caller alone. `ilock` waits for the lock of the inode and reads it from
the disk in one action, for nobody else can see a difference; `iput` is several actions, because it lets go of the lock of
the table while it frees the inode. There is one device; pipes and drivers are not part of this model.
-/

namespace Xv6.FileSys

open Lib Function

/-! ### The state -/

abbrev Slot : Type := Fin NINODE

abbrev FileId : Type := Fin NFILE

abbrev Fd : Type := Fin NOFILE

abbrev Pid : Type := Fin NPROC

instance : NeZero NINODE := ⟨by decide⟩

instance : NeZero NPROC := ⟨by decide⟩

instance : NeZero NFILE := ⟨by decide⟩

structure Inode extends Dinode where
  inum : ℕ
  ref : ℕ
  lock : Option Pid
  valid : Bool

inductive FdType
  | none
  | inode
  | device
  deriving DecidableEq, Repr

structure File where
  type : FdType
  ref : ℕ
  readable : Bool
  writable : Bool
  ip : Slot
  off : ℕ
  major : ℤ

structure Proc where
  cwd : Option Slot
  ofile : Fd → Option FileId
  /-- The process runs; `fork` has finished it. -/
  ready : Bool

structure Fs where
  disk : Disk
  itable : Slot → Inode
  ftable : FileId → File
  procs : Pid → Option Proc
  /-- How many more times a process has called `begin_op` than `end_op`. -/
  ops : Pid → ℤ

namespace Fs

def setInode (s : Fs) (ip : Slot) (e : Inode) : Fs := { s with itable := update s.itable ip e }

def setCopy (s : Fs) (ip : Slot) (c : Dinode) : Fs :=
  s.setInode ip { s.itable ip with toDinode := c }

def copy (s : Fs) (ip : Slot) : Dinode := (s.itable ip).toDinode

def setFile (s : Fs) (f : FileId) (e : File) : Fs := { s with ftable := update s.ftable f e }

def setProc (s : Fs) (p : Pid) (pr : Option Proc) : Fs := { s with procs := update s.procs p pr }

/-! ### The table of inodes -/

def incRef (s : Fs) (ip : Slot) : Fs :=
  s.setInode ip { s.itable ip with ref := (s.itable ip).ref + 1 }

def decRef (s : Fs) (ip : Slot) : Fs :=
  s.setInode ip { s.itable ip with ref := (s.itable ip).ref - 1 }

def setLock (s : Fs) (ip : Slot) (holder : Option Pid) : Fs :=
  s.setInode ip { s.itable ip with lock := holder }

def iget (s : Fs) (inum : ℕ) : Except Panic (Slot × Fs) :=
  match (List.finRange NINODE).find? fun k => 0 < (s.itable k).ref ∧ (s.itable k).inum = inum with
  | some ip => .ok (ip, s.incRef ip)
  | none =>
    match (List.finRange NINODE).find? fun k => (s.itable k).ref = 0 with
    | some ip => .ok (ip, s.setInode ip { s.itable ip with inum := inum, ref := 1, valid := false })
    | none => .error .iget

def ilock (s : Fs) (p : Pid) (ip : Slot) : Except Panic (Option Fs) :=
  if (s.itable ip).ref < 1 then .error .ilock
  else if (s.itable ip).lock ≠ none then .ok none
  else
    let s := s.setLock ip (some p)
    if (s.itable ip).valid then .ok (some s)
    else
      let c := s.disk.dinode (s.itable ip).inum
      if c.type = .free then .error .noType
      else .ok (some (s.setInode ip { s.itable ip with toDinode := c, valid := true }))

def iunlock (s : Fs) (p : Pid) (ip : Slot) : Except Panic Fs :=
  if (s.itable ip).lock ≠ some p ∨ (s.itable ip).ref < 1 then .error .iunlock
  else .ok (s.setLock ip none)

/-- `iput`, up to the `release` of the lock of the table: the answer tells whether the inode, which has no links either, is locked to be
freed. -/
def iput (s : Fs) (p : Pid) (ip : Slot) : Option (Bool × Fs) :=
  if (s.itable ip).ref = 1 ∧ (s.itable ip).valid = true ∧ (s.itable ip).nlink = 0 then
    if (s.itable ip).lock ≠ none then none
    else some (true, s.setLock ip (some p))
  else some (false, s.decRef ip)

/-- `ip->valid = 0; releasesleep(&ip->lock)`, in `iput`. -/
def invalidate (s : Fs) (ip : Slot) : Fs :=
  s.setInode ip { s.itable ip with valid := false, lock := none }

/-! ### Inodes on the disk -/

def iclaim (s : Fs) (inum : ℕ) (type : IType) : Bool × Fs :=
  if (s.disk.dinode inum).type = .free then
    (true, { s with disk := FileSys.iupdate s.disk inum { Dinode.zero with type := type } })
  else (false, s)

def iupdate (s : Fs) (ip : Slot) : Fs :=
  { s with disk := FileSys.iupdate s.disk (s.itable ip).inum (s.copy ip) }

def readi (s : Fs) (ip : Slot) (dst : ℕ → ℕ → Bool) (off n : ℕ) :
    Except Panic (Option (List UInt8) × Fs) := do
  let (r, d, c) ← FileSys.readi s.disk (s.copy ip) dst off n
  .ok (r, { s with disk := d }.setCopy ip c)

def writei (s : Fs) (ip : Slot) (src : ℕ → ℕ → List UInt8 × Bool) (off n : ℕ) :
    Except Panic (Option ℕ × Fs) := do
  let (r, d, c) ← FileSys.writei s.disk (s.itable ip).inum (s.copy ip) src off n
  .ok (r, { s with disk := d }.setCopy ip c)

def itrunc (s : Fs) (ip : Slot) : Except Panic Fs := do
  let (d, c) ← FileSys.itrunc s.disk (s.itable ip).inum (s.copy ip)
  .ok ({ s with disk := d }.setCopy ip c)

/-! ### The table of files -/

def filealloc (s : Fs) : Option FileId × Fs :=
  match (List.finRange NFILE).find? fun f => (s.ftable f).ref = 0 with
  | some f => (some f, s.setFile f { s.ftable f with ref := 1 })
  | none => (none, s)

/-- `fileclose`, up to the `release` of the lock of the table. The answer is the inode that
is left to be put. -/
def fileclose (s : Fs) (f : FileId) : Except Panic (Option Slot × Fs) :=
  if (s.ftable f).ref < 1 then .error .fileclose
  else if (s.ftable f).ref - 1 > 0 then
    .ok (none, s.setFile f { s.ftable f with ref := (s.ftable f).ref - 1 })
  else
    .ok (if (s.ftable f).type = .none then none else some (s.ftable f).ip,
      s.setFile f { s.ftable f with ref := 0, type := .none })

def filedup (s : Fs) (f : FileId) : Except Panic Fs :=
  if (s.ftable f).ref < 1 then .error .filedup
  else .ok (s.setFile f { s.ftable f with ref := (s.ftable f).ref + 1 })

def fdalloc (pr : Proc) : Option Fd := (List.finRange NOFILE).find? fun fd => (pr.ofile fd).isNone

def ofile (s : Fs) (p : Pid) (fd : Fd) : Option FileId := (s.procs p).bind fun pr => pr.ofile fd

def setOfile (s : Fs) (p : Pid) (fd : Fd) (f : Option FileId) : Fs :=
  s.setProc p ((s.procs p).map fun pr => { pr with ofile := update pr.ofile fd f })

def setCwd (s : Fs) (p : Pid) (cwd : Option Slot) : Fs :=
  s.setProc p ((s.procs p).map fun pr => { pr with cwd := cwd })

end Fs

/-! ### Actions -/

/-- How a file is opened: the bits of the mode of `open`. -/
structure Omode where
  wronly : Bool
  rdwr : Bool
  create : Bool
  trunc : Bool
  /-- Some other bit is set. -/
  other : Bool
  deriving DecidableEq, Repr

def Omode.rdonly : Omode := ⟨false, false, false, false, false⟩

/-- **The atomic actions**, by the type of their answers. -/
inductive Act : Type → Type
  | beginOp : Act Unit
  | endOp : Act Unit
  | iget (inum : ℕ) : Act Slot
  /-- `idup(myproc()->cwd)`. -/
  | dupCwd : Act Slot
  /-- The fields of an inode. -/
  | look (ip : Slot) : Act Inode
  | ilock (ip : Slot) : Act Unit
  | iunlock (ip : Slot) : Act Unit
  /-- `iput`, up to the point where it frees the inode. -/
  | iput (ip : Slot) : Act Bool
  /-- `ip->valid = 0; releasesleep(&ip->lock)`. -/
  | invalidate (ip : Slot) : Act Unit
  /-- `ip->ref--`, at the end of `iput`. -/
  | unref (ip : Slot) : Act Unit
  /-- A round of the loop of `ialloc`. -/
  | iclaim (inum : ℕ) (type : IType) : Act Bool
  /-- Assignments to fields of an inode. -/
  | assign (ip : Slot) (f : Dinode → Dinode) : Act Unit
  | iupdate (ip : Slot) : Act Unit
  | itrunc (ip : Slot) : Act Unit
  | readi (ip : Slot) (dst : ℕ → ℕ → Bool) (off n : ℕ) : Act (Option (List UInt8))
  | writei (ip : Slot) (src : ℕ → ℕ → List UInt8 × Bool) (off n : ℕ) : Act (Option ℕ)
  | filealloc : Act (Option FileId)
  | fdalloc (f : FileId) : Act (Option Fd)
  /-- The assignments of `sys_open` to the new file. -/
  | openFile (f : FileId) (ip : Slot) (omode : Omode) : Act Unit
  /-- `fileclose`, up to the point where it puts the inode. -/
  | fileclose (f : FileId) : Act (Option Slot)
  | argfd (fd : Fd) : Act (Option (FileId × File))
  /-- `f->off`, of a file whose inode is locked. -/
  | offset (f : FileId) : Act ℕ
  | advance (f : FileId) (r : ℕ) : Act Unit
  /-- `myproc()->ofile[fd]` is read and set to 0. -/
  | clearFd (fd : Fd) : Act (Option FileId)
  /-- `fdalloc(f)` and `filedup(f)`, for `f = myproc()->ofile[fd]`. -/
  | dup (fd : Fd) : Act Bool
  /-- `filedup(myproc()->ofile[fd])`, for a child. -/
  | filedup (fd : Fd) : Act Unit
  /-- `myproc()->cwd`, which is about to be put or replaced. -/
  | takeCwd : Act Slot
  | setCwd (ip : Slot) : Act Unit
  /-- `allocproc`, if the entry `q` of the table of processes is unused. -/
  | allocproc (q : Pid) : Act Bool
  /-- The child gets the files of its parent and the given working directory, and runs. -/
  | spawn (q : Pid) (cwd : Slot) : Act Unit
  /-- The process becomes a zombie, and is reaped. -/
  | zombie : Act Unit

/-- **What an action does**: it panics, it has to wait, or it gives an answer. -/
def exec : Exec Act Panic Pid Fs
  | _, .beginOp, p, s => .ok (some ((), { s with ops := update s.ops p (s.ops p + 1) }))
  | _, .endOp, p, s => .ok (some ((), { s with ops := update s.ops p (s.ops p - 1) }))
  | _, .iget inum, _, s => (s.iget inum).map some
  | _, .dupCwd, p, s =>
    .ok (((s.procs p).bind fun pr => pr.cwd).map fun ip => (ip, s.incRef ip))
  | _, .look ip, _, s => .ok (some (s.itable ip, s))
  | _, .ilock ip, p, s => (s.ilock p ip).map fun o => o.map fun s => ((), s)
  | _, .iunlock ip, p, s => (s.iunlock p ip).map fun s => some ((), s)
  | _, .iput ip, p, s => .ok (s.iput p ip)
  | _, .invalidate ip, _, s => .ok (some ((), s.invalidate ip))
  | _, .unref ip, _, s => .ok (some ((), s.decRef ip))
  | _, .iclaim inum type, _, s => .ok (some (s.iclaim inum type))
  | _, .assign ip f, _, s => .ok (some ((), s.setCopy ip (f (s.copy ip))))
  | _, .iupdate ip, _, s => .ok (some ((), s.iupdate ip))
  | _, .itrunc ip, _, s => (s.itrunc ip).map fun s => some ((), s)
  | _, .readi ip dst off n, _, s => (s.readi ip dst off n).map some
  | _, .writei ip src off n, _, s => (s.writei ip src off n).map some
  | _, .filealloc, _, s => .ok (some s.filealloc)
  | _, .fdalloc f, p, s =>
    .ok (some (match (s.procs p).bind Fs.fdalloc with
      | some fd => (some fd, s.setOfile p fd (some f))
      | none => (none, s)))
  | _, .openFile f ip omode, _, s =>
    let dev : Bool := (s.itable ip).type = .device
    .ok (some ((), s.setFile f { s.ftable f with
      type := if dev then .device else .inode
      major := if dev then (s.itable ip).major else (s.ftable f).major
      off := if dev then (s.ftable f).off else 0
      ip := ip
      readable := !omode.wronly
      writable := omode.wronly || omode.rdwr }))
  | _, .fileclose f, _, s => (s.fileclose f).map some
  | _, .argfd fd, p, s => .ok (some ((s.ofile p fd).map fun f => (f, s.ftable f), s))
  | _, .offset f, _, s => .ok (some ((s.ftable f).off, s))
  | _, .advance f r, _, s =>
    .ok (some ((), s.setFile f { s.ftable f with off := ((s.ftable f).off + r) % UINT }))
  | _, .clearFd fd, p, s => .ok (some (s.ofile p fd, s.setOfile p fd none))
  | _, .dup fd, p, s =>
    match s.ofile p fd, (s.procs p).bind Fs.fdalloc with
    | some f, some fd' => (s.filedup f).map fun s => some (true, s.setOfile p fd' (some f))
    | _, _ => .ok (some (false, s))
  | _, .filedup fd, p, s =>
    match s.ofile p fd with
    | some f => (s.filedup f).map fun s => some ((), s)
    | none => .ok (some ((), s))
  | _, .takeCwd, p, s =>
    .ok (((s.procs p).bind fun pr => pr.cwd).map fun ip => (ip, s.setCwd p none))
  | _, .setCwd ip, p, s => .ok (some ((), s.setCwd p (some ip)))
  | _, .allocproc q, _, s =>
    .ok (some (match s.procs q with
      | none => (true, s.setProc q (some ⟨none, fun _ => none, false⟩))
      | some _ => (false, s)))
  | _, .spawn q cwd, p, s =>
    .ok (some ((), s.setProc q (some ⟨some cwd, s.ofile p, true⟩)))
  | _, .zombie, p, s => .ok (some ((), s.setProc p none))

end Xv6.FileSys
