import Xv6.Fs.Table
import Xv6.Fs.Names
import Xv6.Log.System

/-!
# The system calls of the file system

The rest of `fs.c`, the part of `file.c` that concerns inodes, `sysfile.c`, and what `fork`,
`exec` and `exit` do to files and working directories, as programs over the atomic actions.

A call whose arguments cannot be fetched from user memory does nothing and is left out,
unless it has begun a transaction by then. A loop over the bytes of a file or of a path is given as many rounds as it can need.
-/

namespace Xv6.FileSys

open Lib Function

abbrev Prog : Type → Type 1 := Program Act Panic

namespace Prog

/-! ### The actions -/

def panic {α : Type} (e : Panic) : Prog α := Program.panic e

def beginOp : Prog Unit := .perform .beginOp

def endOp : Prog Unit := .perform .endOp

def iget (inum : ℕ) : Prog Slot := .perform (.iget inum)

def dupCwd : Prog Slot := .perform .dupCwd

def look (ip : Slot) : Prog Inode := .perform (.look ip)

def ilock (ip : Slot) : Prog Unit := .perform (.ilock ip)

def iunlock (ip : Slot) : Prog Unit := .perform (.iunlock ip)

def assign (ip : Slot) (f : Dinode → Dinode) : Prog Unit := .perform (.assign ip f)

def iupdate (ip : Slot) : Prog Unit := .perform (.iupdate ip)

def itrunc (ip : Slot) : Prog Unit := .perform (.itrunc ip)

def readi (ip : Slot) (dst : ℕ → ℕ → Bool) (off n : ℕ) : Prog (Option (List UInt8)) :=
  .perform (.readi ip dst off n)

def writei (ip : Slot) (src : ℕ → ℕ → List UInt8 × Bool) (off n : ℕ) : Prog (Option ℕ) :=
  .perform (.writei ip src off n)

/-! ### Inodes -/

def iput (ip : Slot) : Prog Unit := do
  if ← .perform (.iput ip) then
    itrunc ip
    assign ip fun c => { c with type := .free }
    iupdate ip
    .perform (.invalidate ip)
    .perform (.unref ip)

def iunlockput (ip : Slot) : Prog Unit := do
  iunlock ip
  iput ip

def iallocLoop (type : IType) : List ℕ → Prog Slot
  | [] => panic .ialloc
  | inum :: inums => do
    if ← .perform (.iclaim inum type) then iget inum
    else iallocLoop type inums

def ialloc (ninodes : ℕ) (type : IType) : Prog Slot := iallocLoop type (List.range' 1 (ninodes - 1))

/-! ### Directories -/

/-- `readi` of a directory entry, and the panic if there is less to read. -/
def readDirent (e : Panic) (dp : Slot) (off : ℕ) : Prog Dirent := do
  match ← readi dp toKernel off DIRENT with
  | some bs => if bs.length = DIRENT then pure (Dirent.decode bs) else panic e
  | none => panic e

/-- The loops of `dirlookup`, `dirlink` and `isdirempty` over a directory, in at most `fuel`
rounds: the offset of the first entry from `off` on that satisfies `p`, and the entry. -/
def scan (e : Panic) (p : Dirent → Bool) (dp : Slot) : ℕ → ℕ → Prog (Option (ℕ × Dirent))
  | 0, _ => pure none
  | fuel + 1, off => do
    if off < (← look dp).size then
      let de ← readDirent e dp off
      if p de then pure (some (off, de)) else scan e p dp fuel (off + DIRENT)
    else pure none

def rounds (size : ℕ) : ℕ := size / DIRENT + 1

def dirlookup (dp : Slot) (name : List UInt8) : Prog (Option (Slot × ℕ)) := do
  let d ← look dp
  if d.type ≠ .dir then panic .dirlookupNotDir
  else
    match ← scan .dirlookupRead (fun de => de.inum ≠ 0 && sameName name de.name) dp
        (rounds d.size) 0 with
    | none => pure none
    | some (off, de) => do
      let ip ← iget de.inum
      pure (some (ip, off))

def writeDirent (e : Panic) (dp : Slot) (bs : List UInt8) (off : ℕ) : Prog Unit := do
  if (← writei dp (fromKernel bs) off DIRENT) = some DIRENT then pure () else panic e

/-- `dirlink`; the answer says whether the entry could be made. -/
def dirlink (dp : Slot) (name : List UInt8) (inum : ℕ) : Prog Bool := do
  match ← dirlookup dp name with
  | some (ip, _) => do
    iput ip
    pure false
  | none => do
    let d ← look dp
    match ← scan .dirlinkRead (fun de => de.inum = 0) dp (rounds d.size) 0 with
    | some (off, _) => writeDirent .dirlink dp (Dirent.encode ⟨inum, name⟩) off
    | none => writeDirent .dirlink dp (Dirent.encode ⟨inum, name⟩) d.size
    pure true

def isdirempty (dp : Slot) : Prog Bool := do
  let d ← look dp
  let r ← scan .isdirempty (fun de => de.inum ≠ 0) dp (rounds d.size) (2 * DIRENT)
  pure r.isNone

/-! ### Paths -/

def namexLoop (parent : Bool) : ℕ → Slot → List UInt8 → List UInt8 →
    Prog (Option (Slot × List UInt8))
  | 0, ip, _, name => pure (some (ip, name))
  | fuel + 1, ip, path, name =>
    match skipelem path with
    | none =>
      if parent then do
        iput ip
        pure none
      else pure (some (ip, name))
    | some (name, path) => do
      ilock ip
      if (← look ip).type ≠ .dir then
        iunlockput ip
        pure none
      else if parent ∧ path = [] then
        iunlock ip
        pure (some (ip, name))
      else
        match ← dirlookup ip name with
        | none => do
          iunlockput ip
          pure none
        | some (next, _) => do
          iunlockput ip
          namexLoop parent fuel next path name

def namexRoot (path : List UInt8) : Prog Slot :=
  if path.head? = some slash then iget ROOTINO else dupCwd

/-- `namex`: the inode, and the last element of the path. An element is at least one
character, so as many rounds as there are characters are enough, and one more. -/
def namex (path : List UInt8) (parent : Bool) : Prog (Option (Slot × List UInt8)) := do
  let ip ← namexRoot path
  namexLoop parent (path.length + 1) ip path []

def namei (path : List UInt8) : Prog (Option Slot) := do
  pure ((← namex path false).map Prod.fst)

def nameiparent (path : List UInt8) : Prog (Option (Slot × List UInt8)) := namex path true

/-! ### Files -/

def fileclose (f : FileId) : Prog Unit := do
  match ← .perform (.fileclose f) with
  | some ip => do
    beginOp
    iput ip
    endOp
  | none => pure ()

/-- `filestat`; the answer says whether there is anything to copy to the user. -/
def filestat (file : File) : Prog Bool :=
  if file.type = .none then pure false
  else do
    ilock file.ip
    let _ ← look file.ip
    iunlock file.ip
    pure true

def advance (f : FileId) : Option ℕ → Prog Unit
  | some r => .perform (.advance f r)
  | none => pure ()

def fileread (f : FileId) (file : File) (dst : ℕ → ℕ → Bool) (n : ℕ) : Prog Unit :=
  if file.readable = false then pure ()
  else
    match file.type with
    | .device => pure ()
    | .inode => do
      ilock file.ip
      let off ← .perform (.offset f)
      let r ← readi file.ip dst off n
      advance f (r.map List.length)
      iunlock file.ip
    | .none => panic .fileread

/-- The number of bytes `filewrite` writes in a transaction. -/
def maxChunk : ℕ := (MAXOPBLOCKS - 1 - 1 - 2) / 2 * BSIZE

/-- A round of the loop of `filewrite`. -/
def writeChunk (f : FileId) (ip : Slot) (src : ℕ → ℕ → List UInt8 × Bool) (n : ℕ) :
    Prog (Option ℕ) := do
  beginOp
  ilock ip
  let off ← .perform (.offset f)
  let r ← writei ip src off n
  advance f r
  iunlock ip
  endOp
  pure r

/-- The loop of `filewrite`, in at most `fuel` rounds, with `n` bytes still to write. -/
def filewriteLoop (f : FileId) (ip : Slot) (user : ℕ → Option Logging.Page) (addr : ℕ) :
    ℕ → ℕ → ℕ → Prog Unit
  | 0, _, _ => pure ()
  | fuel + 1, i, n =>
    if n = 0 then pure ()
    else do
      let r ← writeChunk f ip (fun tot m => Logging.copyin user (addr + i + tot) m)
        (min n maxChunk)
      if r = some (min n maxChunk) then
        filewriteLoop f ip user addr fuel (i + min n maxChunk) (n - min n maxChunk)
      else pure ()

def filewrite (f : FileId) (file : File) (user : ℕ → Option Logging.Page) (addr n : ℕ) : Prog Unit :=
  if file.writable = false then pure ()
  else
    match file.type with
    | .device => pure ()
    | .inode => filewriteLoop f file.ip user addr n 0 n
    | .none => panic .filewrite

/-! ### Names -/

def addLink (ip : Slot) (k : ℤ) : Prog Unit :=
  assign ip fun c => { c with nlink := wrapInt 16 (c.nlink + k) }

/-- The end of `sys_link` if the new name could not be made. -/
def linkBad (ip : Slot) : Prog Unit := do
  ilock ip
  addLink ip (-1)
  iupdate ip
  iunlockput ip
  endOp

/-- `sys_link`, from where the link count has been raised. -/
def linkNew (ip : Slot) (new : List UInt8) : Prog Unit := do
  match ← nameiparent new with
  | none => linkBad ip
  | some (dp, name) => do
    ilock dp
    if ← dirlink dp name (← look ip).inum then
      iunlockput dp
      iput ip
      endOp
    else
      iunlockput dp
      linkBad ip

def sysLink (old new : List UInt8) : Prog Unit := do
  beginOp
  match ← namei old with
  | none => endOp
  | some ip => do
    ilock ip
    if (← look ip).type = .dir then
      iunlockput ip
      endOp
    else
      addLink ip 1
      iupdate ip
      iunlock ip
      linkNew ip new

/-- The link of a directory `ip` to its parent `dp` goes with it. -/
def unlinkParent (dp ip : Slot) : Prog Unit := do
  if (← look ip).type = .dir then
    addLink dp (-1)
    iupdate dp

/-- `sys_unlink`, from where the entry at `off` of `dp` is to be erased, which is for `ip`. -/
def unlinkEntry (dp ip : Slot) (off : ℕ) : Prog Unit := do
  writeDirent .unlinkWritei dp (List.replicate DIRENT 0) off
  unlinkParent dp ip
  iunlockput dp
  addLink ip (-1)
  iupdate ip
  iunlockput ip
  endOp

/-- The end of `sys_unlink` if the name cannot be removed. -/
def unlinkBad (dp : Slot) : Prog Unit := do
  iunlockput dp
  endOp

def sysUnlink (path : List UInt8) : Prog Unit := do
  beginOp
  match ← nameiparent path with
  | none => endOp
  | some (dp, name) => do
    ilock dp
    if sameName name dot ∨ sameName name dotdot then unlinkBad dp
    else
      match ← dirlookup dp name with
      | none => unlinkBad dp
      | some (ip, off) => do
        ilock ip
        let i ← look ip
        if i.nlink < 1 then panic .unlinkNlink
        else if i.type = .dir then
          if ← isdirempty ip then unlinkEntry dp ip off
          else
            iunlockput ip
            unlinkBad dp
        else unlinkEntry dp ip off

def createDots (type : IType) (dp ip : Slot) : Prog Unit :=
  if type = .dir then do
    addLink dp 1
    iupdate dp
    if ← dirlink ip dot (← look ip).inum then
      if ← dirlink ip dotdot (← look dp).inum then pure () else panic .createDots
    else panic .createDots
  else pure ()

/-- The part of `create` that makes a new inode, in the directory `dp`. -/
def createNew (ninodes : ℕ) (dp : Slot) (name : List UInt8) (type : IType) (major minor : ℤ) :
    Prog Slot := do
  let ip ← ialloc ninodes type
  ilock ip
  assign ip fun c => { c with
    major := wrapInt 16 major, minor := wrapInt 16 minor, nlink := 1 }
  iupdate ip
  createDots type dp ip
  if ← dirlink dp name (← look ip).inum then
    iunlockput dp
    pure ip
  else panic .createDirlink

/-- `create`. The inode is locked. -/
def create (ninodes : ℕ) (path : List UInt8) (type : IType) (major minor : ℤ) :
    Prog (Option Slot) := do
  match ← nameiparent path with
  | none => pure none
  | some (dp, name) => do
    ilock dp
    match ← dirlookup dp name with
    | some (ip, _) => do
      iunlockput dp
      ilock ip
      let t := (← look ip).type
      if type = .file ∧ (t = .file ∨ t = .device) then pure (some ip)
      else
        iunlockput ip
        pure none
    | none => do
      let ip ← createNew ninodes dp name type major minor
      pure (some ip)

/-- The part of `sys_open` that finds the inode, and locks it. -/
def openInode (ninodes : ℕ) (path : List UInt8) (omode : Omode) : Prog (Option Slot) :=
  if omode.create then create ninodes path .file 0 0
  else do
    match ← namei path with
    | none => pure none
    | some ip => do
      ilock ip
      if (← look ip).type = .dir ∧ omode ≠ .rdonly then
        iunlockput ip
        pure none
      else pure (some ip)

/-- The part of `sys_open` for `O_TRUNC`. -/
def truncate (ip : Slot) (omode : Omode) : Prog Unit := do
  if omode.trunc ∧ (← look ip).type = .file then itrunc ip

/-- The part of `sys_open` that makes a file of the inode. -/
def openFd (ip : Slot) (omode : Omode) : Prog Unit := do
  match ← .perform .filealloc with
  | none => do
    iunlockput ip
    endOp
  | some f => do
    match ← .perform (.fdalloc f) with
    | none => do
      fileclose f
      iunlockput ip
      endOp
    | some _ => do
      .perform (.openFile f ip omode)
      truncate ip omode
      iunlock ip
      endOp

def sysOpen (ninodes : ℕ) (path : List UInt8) (omode : Omode) : Prog Unit := do
  beginOp
  match ← openInode ninodes path omode with
  | none => endOp
  | some ip => do
    let i ← look ip
    if i.type = .device ∧ (i.major < 0 ∨ (NDEV : ℤ) ≤ i.major) then
      iunlockput ip
      endOp
    else openFd ip omode

/-- A call that fetches its path inside the transaction, which may fail. -/
def withPath (path : Option (List UInt8)) (k : List UInt8 → Prog Unit) : Prog Unit := do
  beginOp
  match path with
  | none => endOp
  | some path => k path

def sysMake (ninodes : ℕ) (path : Option (List UInt8)) (type : IType) (major minor : ℤ) : Prog Unit :=
  withPath path fun path => do
    match ← create ninodes path type major minor with
    | none => endOp
    | some ip => do
      iunlockput ip
      endOp

def sysChdir (path : Option (List UInt8)) : Prog Unit := withPath path fun path => do
  match ← namei path with
  | none => endOp
  | some ip => do
    ilock ip
    if (← look ip).type ≠ .dir then
      iunlockput ip
      endOp
    else
      iunlock ip
      iput (← .perform .takeCwd)
      endOp
      .perform (.setCwd ip)

/-! ### Programs to execute -/

/-- `loadseg`, in at most `fuel` rounds; page `i` of the segment is read next. -/
def loadseg (ip : Slot) (offset sz : ℕ) : ℕ → ℕ → Prog Bool
  | 0, _ => pure true
  | fuel + 1, i =>
    if i < sz then do
      let n := min (sz - i) PGSIZE
      match ← readi ip toKernel ((offset + i) % UINT) n with
      | some bs => if bs.length = n then loadseg ip offset sz fuel (i + PGSIZE) else pure false
      | none => pure false
    else pure true

def field (bs : List UInt8) (off n : ℕ) : ℕ := leNat ((bs.drop off).take n)

/-- The loop of `exec` over the program headers, with `fuel` of them left. `mem` says whether
there is memory for the segments. -/
def loadAll (ip : Slot) (mem : ℕ → Bool) : ℕ → ℕ → Prog Bool
  | 0, _ => pure true
  | fuel + 1, off => do
    match ← readi ip toKernel (off % UINT) 56 with
    | none => pure false
    | some ph =>
      if ph.length ≠ 56 then pure false
      else if field ph 0 4 ≠ 1 then loadAll ip mem fuel (off + 56)
      else if field ph 40 8 < field ph 32 8 then pure false
      else if (field ph 16 8 + field ph 40 8) % 2 ^ 64 < field ph 16 8 then pure false
      else if mem (fuel + 1) = false ∨ field ph 16 8 % PGSIZE ≠ 0 then pure false
      else
        let sz := field ph 32 8 % UINT
        if ← loadseg ip (field ph 8 8 % UINT) sz (sz / PGSIZE + 1) 0 then
          loadAll ip mem fuel (off + 56)
        else pure false

/-- The part of `exec` that reads the program; the answer says whether it could be loaded. -/
def load (ip : Slot) (mem : ℕ → Bool) : Prog Bool := do
  match ← readi ip toKernel 0 64 with
  | none => pure false
  | some elf =>
    if elf.length ≠ 64 ∨ field elf 0 4 ≠ 0x464C457F ∨ mem 0 = false then pure false
    else loadAll ip mem (field elf 56 2) (field elf 32 8)

def exec (path : List UInt8) (mem : ℕ → Bool) : Prog Unit := do
  beginOp
  match ← namei path with
  | none => endOp
  | some ip => do
    ilock ip
    let _ ← load ip mem
    iunlockput ip
    endOp

/-! ### Processes -/

/-- What `fork` does to files and the working directory, if the entry `q` of the table of
processes is the one that `allocproc` finds. -/
def fork (q : Pid) : Prog Unit := do
  if ← .perform (.allocproc q) then
    (List.finRange NOFILE).forM fun fd => .perform (.filedup fd)
    let cwd ← dupCwd
    .perform (.spawn q cwd)

def sysClose (fd : Fd) : Prog Unit := do
  match ← .perform (.clearFd fd) with
  | some f => fileclose f
  | none => pure ()

def exit : Prog Unit := do
  (List.finRange NOFILE).forM sysClose
  beginOp
  iput (← .perform .takeCwd)
  endOp
  .perform .zombie

def withFile (fd : Fd) (k : FileId → File → Prog Unit) : Prog Unit := do
  match ← .perform (.argfd fd) with
  | some (f, file) => k f file
  | none => pure ()

end Prog

/-! ### Calls -/

inductive Call
  | open (path : List UInt8) (omode : Omode)
  | mkdir (path : Option (List UInt8))
  | mknod (path : Option (List UInt8)) (major minor : ℤ)
  | link (old new : List UInt8)
  | unlink (path : List UInt8)
  | chdir (path : Option (List UInt8))
  | exec (path : List UInt8) (mem : ℕ → Bool)
  | read (fd : Fd) (dst : ℕ → ℕ → Bool) (n : ℕ)
  | write (fd : Fd) (user : ℕ → Option Logging.Page) (addr n : ℕ)
  | fstat (fd : Fd)
  | close (fd : Fd)
  | dup (fd : Fd)
  | fork (q : Pid)
  | exit

/-- **The program of a system call**, on a disk with `ninodes` inodes. -/
def Call.prog (ninodes : ℕ) : Call → Prog Unit
  | .open path omode => Prog.sysOpen ninodes path omode
  | .mkdir path => Prog.sysMake ninodes path .dir 0 0
  | .mknod path major minor => Prog.sysMake ninodes path .device major minor
  | .link old new => Prog.sysLink old new
  | .unlink path => Prog.sysUnlink path
  | .chdir path => Prog.sysChdir path
  | .exec path mem => Prog.exec path mem
  | .read fd dst n => Prog.withFile fd fun f file => Prog.fileread f file dst (n % UINT)
  | .write fd user addr n => Prog.withFile fd fun f file => Prog.filewrite f file user addr n
  | .fstat fd => Prog.withFile fd fun _ file => do
    let _ ← Prog.filestat file
  | .close fd => Prog.sysClose fd
  | .dup fd => do
    let _ ← .perform (.dup fd)
  | .fork q => Prog.fork q
  | .exit => Prog.exit

end Xv6.FileSys
