import Xv6.Lib.Program
import Xv6.Lib.Run
import Xv6.Param
import Mathlib.Data.List.FinRange

/-!
# Open files, descriptors and pipes

`file.c`, `pipe.c` and the descriptor calls of `sysfile.c`: a descriptor points to an entry of the table of open files, an
entry of type `FD_PIPE` points to a page that holds the pipe, and two such entries share each pipe. `open`, `pipe`, `dup`,
`close`, `fork` and `exit` each move references between local variables and descriptors in their own order.

The calls are programs (`Xv6.Lib.Program`) of atomic actions: what is done under `ftable.lock`, or under the lock of a
pipe, is one action. A process's own descriptor table, and that of a child that `fork` is still making, is read and
written by nobody else, so writing to it belongs to the action next to it.

The inode of a file is left out: a failed lookup is a parameter of `open`, and so are the running out of memory in
`kalloc`, the bad address in `copyout`, and which page `kalloc` hands out: any page that is not in use as a pipe.
-/

namespace Xv6.Descriptors

open Lib Function

/-! ### The state -/

abbrev Pid : Type := Fin NPROC

abbrev FileId : Type := Fin NFILE

abbrev Fd : Type := Fin NOFILE

/-- The descriptor table of a process, `ofile`. -/
abbrev Table : Type := Fd → Option FileId

inductive FdType
  | none
  | pipe
  | inode
  | device
  deriving DecidableEq

/-- An open file. The null pointer is no pipe. -/
structure File (Page : Type) where
  type : FdType
  ref : ℕ
  readable : Bool
  writable : Bool
  pipe : Option Page

/-- The part of a pipe that says who uses it. -/
structure Pipe where
  readopen : Bool
  writeopen : Bool
  deriving DecidableEq

structure Proc where
  ofile : Table
  ready : Bool

/-- The memory of the kernel, as far as it is about open files. A page that is a pipe is in `pages`. The last two fields record the last
call of each process: the descriptors it began with, if it was `open` or `pipe`, and whether that failed. -/
structure Files (Page : Type) where
  ftable : FileId → File Page
  pages : Page → Option Pipe
  procs : Pid → Option Proc
  before : Pid → Option Table
  failed : Pid → Bool

/-- What must not happen: the panics of `filedup` and `fileclose`, and the use of a page as a
pipe that is not one, because it has been freed. -/
inductive Err
  | filedup
  | fileclose
  | stale
  deriving DecidableEq

section State

variable {Page : Type} [DecidableEq Page]

def File.tip (e : File Page) : Option (Page × Bool) :=
  if e.type = .pipe then e.pipe.map (·, e.writable) else none

def Pipe.isOpen (P : Pipe) (writable : Bool) : Bool :=
  if writable then P.writeopen else P.readopen

namespace Files

def setFile (s : Files Page) (f : FileId) (e : File Page) : Files Page :=
  { s with ftable := update s.ftable f e }

def setPage (s : Files Page) (pi : Page) (P : Option Pipe) : Files Page :=
  { s with pages := update s.pages pi P }

def setProc (s : Files Page) (p : Pid) (pr : Option Proc) : Files Page :=
  { s with procs := update s.procs p pr }

def ofile (s : Files Page) (p : Pid) (fd : Fd) : Option FileId :=
  (s.procs p).bind fun pr => pr.ofile fd

def setFd (s : Files Page) (p : Pid) (fd : Fd) (f : Option FileId) : Files Page :=
  s.setProc p ((s.procs p).map fun pr => { pr with ofile := update pr.ofile fd f })

def filealloc (s : Files Page) : Option FileId × Files Page :=
  match (List.finRange NFILE).find? fun f => (s.ftable f).ref = 0 with
  | some f => (some f, s.setFile f { s.ftable f with ref := 1 })
  | none => (none, s)

def freeFd (s : Files Page) (p : Pid) : Option Fd :=
  (List.finRange NOFILE).find? fun fd => s.ofile p fd = none

def filedup (s : Files Page) (f : FileId) : Except Err (Files Page) :=
  if (s.ftable f).ref < 1 then
    .error .filedup
  else
    .ok (s.setFile f { s.ftable f with ref := (s.ftable f).ref + 1 })

/-- The part of `fileclose` under `ftable.lock`. If this was the last reference to an end of a
pipe, that is to be closed next. -/
def fileclose (s : Files Page) (f : FileId) : Except Err (Option (Page × Bool) × Files Page) :=
  if (s.ftable f).ref < 1 then
    .error .fileclose
  else if 0 < (s.ftable f).ref - 1 then
    .ok (none, s.setFile f { s.ftable f with ref := (s.ftable f).ref - 1 })
  else
    .ok ((s.ftable f).tip, s.setFile f { s.ftable f with ref := 0, type := .none })

def pipeclose (s : Files Page) (pi : Page) (writable : Bool) : Except Err (Files Page) :=
  match s.pages pi with
  | none => .error .stale
  | some P =>
    let P' := if writable then { P with writeopen := false } else { P with readopen := false }
    -- the last one frees the page
    .ok (s.setPage pi (if P'.readopen = false ∧ P'.writeopen = false then none else some P'))

/-- `pipealloc` once it has two files: the page is a pipe, and the files are its ends. -/
def makePipe (s : Files Page) (pi : Page) (f₀ f₁ : FileId) : Files Page :=
  let s := s.setPage pi (some ⟨true, true⟩)
  let s := s.setFile f₀ { s.ftable f₀ with
    type := .pipe, readable := true, writable := false, pipe := some pi }
  s.setFile f₁ { s.ftable f₁ with
    type := .pipe, readable := false, writable := true, pipe := some pi }

end Files

/-! ### The actions -/

inductive Act (Page : Type) : Type → Type
  | filealloc : Act Page (Option FileId)
  | fdalloc (f : FileId) : Act Page (Option Fd)
  /-- `sys_open` fills a file in -/
  | openFile (f : FileId) (device readable writable : Bool) : Act Page Unit
  /-- `pipealloc` from `kalloc` on, which offers this page, or none -/
  | kalloc (page : Option Page) (f₀ f₁ : FileId) : Act Page Bool
  | fileclose (f : FileId) : Act Page (Option (Page × Bool))
  | pipeclose (pi : Page) (writable : Bool) : Act Page Unit
  /-- `p->ofile[fd] = 0` -/
  | clearFd (fd : Fd) : Act Page Unit
  /-- a slot is cleared and what it pointed to is closed; a free slot is left alone -/
  | closeFd (fd : Fd) : Act Page (Option (Page × Bool))
  | dup (fd : Fd) : Act Page (Option Fd)
  /-- `piperead` and `pipewrite` look at the pipe of a descriptor -/
  | access (fd : Fd) : Act Page Unit
  | allocproc (np : Pid) : Act Page Bool
  | freeproc (np : Pid) : Act Page Unit
  /-- `if(p->ofile[i]) np->ofile[i] = filedup(p->ofile[i])` -/
  | copyFd (np : Pid) (fd : Fd) : Act Page Unit
  /-- `np->state = RUNNABLE` -/
  | spawn (np : Pid) : Act Page Unit
  | zombie : Act Page Unit
  /-- `open` or `pipe` returns, and says whether it failed -/
  | leave (failed : Bool) : Act Page Unit

def exec : Exec (Act Page) Err Pid (Files Page)
  | _, .filealloc, _, s => .ok (some s.filealloc)
  | _, .fdalloc f, p, s =>
    .ok (some (match s.freeFd p with
      | some fd => (some fd, s.setFd p fd (some f))
      | none => (none, s)))
  | _, .openFile f device readable writable, _, s =>
    .ok (some ((), s.setFile f { s.ftable f with
      type := if device then .device else .inode
      readable := readable
      writable := writable }))
  | _, .kalloc page f₀ f₁, _, s =>
    .ok (some (match page with
      | some pi => if s.pages pi = none then (true, s.makePipe pi f₀ f₁) else (false, s)
      | none => (false, s)))
  | _, .fileclose f, _, s => (s.fileclose f).map some
  | _, .pipeclose pi writable, _, s => (s.pipeclose pi writable).map fun s => some ((), s)
  | _, .clearFd fd, p, s => .ok (some ((), s.setFd p fd none))
  | _, .closeFd fd, p, s =>
    match s.ofile p fd with
    | some f => (s.fileclose f).map fun q => some (q.1, q.2.setFd p fd none)
    | none => .ok (some (none, s))
  | _, .dup fd, p, s =>
    match s.ofile p fd, s.freeFd p with
    | some f, some fd' => (s.filedup f).map fun s => some (some fd', s.setFd p fd' (some f))
    | _, _ => .ok (some (none, s))
  | _, .access fd, p, s =>
    match (s.ofile p fd).bind fun f => (s.ftable f).tip with
    | some e => if s.pages e.1 = none then .error .stale else .ok (some ((), s))
    | none => .ok (some ((), s))
  | _, .allocproc np, _, s =>
    if s.procs np = none then
      .ok (some (true, s.setProc np (some ⟨fun _ => none, false⟩)))
    else
      .ok (some (false, s))
  | _, .freeproc np, _, s => .ok (some ((), s.setProc np none))
  | _, .copyFd np fd, p, s =>
    match s.ofile p fd with
    | some f => (s.filedup f).map fun s => some ((), s.setFd np fd (some f))
    | none => .ok (some ((), s))
  | _, .spawn np, _, s =>
    .ok (some ((), s.setProc np ((s.procs np).map fun pr => { pr with ready := true })))
  | _, .zombie, p, s => .ok (some ((), s.setProc p none))
  | _, .leave failed, p, s => .ok (some ((), { s with failed := update s.failed p failed }))

end State

/-! ### The system calls -/

abbrev Prog (Page α : Type) : Type 1 := Program (Act Page) Err α

section Calls

variable {Page : Type}

open Program

/-- What `fileclose` does after it has released `ftable.lock`: only an end of a pipe matters
here. -/
def closeTip : Option (Page × Bool) → Prog Page Unit
  | some (pi, writable) => perform (.pipeclose pi writable)
  | none => pure ()

def fileclose (f : FileId) : Prog Page Unit := do
  closeTip (← perform (.fileclose f))

/-- `pipealloc`. It runs out of memory last, so the page need never be freed on the way out. -/
def pipealloc (page : Option Page) : Prog Page (Option (FileId × FileId)) := do
  let some f₀ ← perform .filealloc | pure none
  let some f₁ ← perform .filealloc | do
    fileclose f₀
    pure none
  if ← perform (.kalloc page f₀ f₁) then
    pure (some (f₀, f₁))
  else
    fileclose f₀
    fileclose f₁
    pure none

/-- `sys_pipe`, where `copied` says whether the user's address was good. -/
def sysPipe (page : Option Page) (copied : Bool) : Prog Page Unit := do
  let some (rf, wf) ← pipealloc page | perform (.leave true)
  let some fd₀ ← perform (.fdalloc rf) | do
    fileclose rf
    fileclose wf
    perform (.leave true)
  let some fd₁ ← perform (.fdalloc wf) | do
    perform (.clearFd fd₀)
    fileclose rf
    fileclose wf
    perform (.leave true)
  if copied then
    perform (.leave false)
  else
    perform (.clearFd fd₀)
    perform (.clearFd fd₁)
    fileclose rf
    fileclose wf
    perform (.leave true)

/-- `sys_open`, where `found` says whether there was an inode to open. -/
def sysOpen (found device readable writable : Bool) : Prog Page Unit := do
  if found then
    let some f ← perform .filealloc | perform (.leave true)
    let some _ ← perform (.fdalloc f) | do
      fileclose f
      perform (.leave true)
    perform (.openFile f device readable writable)
    perform (.leave false)
  else
    perform (.leave true)

def sysClose (fd : Fd) : Prog Page Unit := do
  closeTip (← perform (.closeFd fd))

def sysDup (fd : Fd) : Prog Page Unit := do
  let _ ← perform (.dup fd)

def sysAccess (fd : Fd) : ℕ → Prog Page Unit
  | 0 => pure ()
  | n + 1 => do
    perform (.access fd)
    sysAccess fd n

/-- `fork`, where `copied` says whether there was memory for the child. -/
def fork (np : Pid) (copied : Bool) : Prog Page Unit := do
  if ← perform (.allocproc np) then
    if copied then
      (List.finRange NOFILE).forM fun fd => perform (.copyFd np fd)
      perform (.spawn np)
    else
      perform (.freeproc np)

def exit : Prog Page Unit := do
  (List.finRange NOFILE).forM fun fd => sysClose fd
  perform .zombie

inductive Call (Page : Type)
  | open (found device readable writable : Bool)
  | pipe (page : Option Page) (copied : Bool)
  | dup (fd : Fd)
  | close (fd : Fd)
  | access (fd : Fd) (times : ℕ)
  | fork (np : Pid) (copied : Bool)
  /-- leaves the descriptors alone -/
  | exec
  | exit

def Call.prog : Call Page → Prog Page Unit
  | .open found device readable writable => sysOpen found device readable writable
  | .pipe page copied => sysPipe page copied
  | .dup fd => sysDup fd
  | .close fd => sysClose fd
  | .access fd times => sysAccess fd times
  | .fork np copied => Descriptors.fork np copied
  | .exec => pure ()
  | .exit => Descriptors.exit

def Call.opens : Call Page → Bool
  | .open .. | .pipe .. => true
  | _ => false

end Calls

/-! ### The machine -/

/-- The kernel and what each process has still to do in it. -/
structure Sys (Page : Type) where
  fs : Files Page
  thr : Pid → Prog Page Unit

inductive Event (Page : Type)
  | call (p : Pid) (c : Call Page)
  | act (p : Pid)

section Machine

variable {Page : Type} [DecidableEq Page]

def Sys.outside (s : Sys Page) (p : Pid) : Bool :=
  match s.thr p with
  | .ret _ => true
  | _ => false

def Files.enter (s : Files Page) (p : Pid) (c : Call Page) : Files Page :=
  { s with
    before := update s.before p (if c.opens then (s.procs p).map (·.ofile) else none)
    failed := update s.failed p false }

def step (s : Sys Page) : Event Page → Option (Sys Page)
  | .call p c =>
    if s.outside p = true ∧ (s.fs.procs p).any (·.ready) = true then
      some ⟨s.fs.enter p c, update s.thr p c.prog⟩
    else
      none
  | .act p =>
    match (s.thr p).next exec p s.fs with
    | .ok (some (fs, q)) => some ⟨fs, update s.thr p q⟩
    | _ => none

def initproc : Pid := ⟨0, by decide⟩

def boot : Sys Page where
  fs :=
    { ftable := fun _ => ⟨.none, 0, false, false, none⟩
      pages := fun _ => none
      procs := fun p => if p = initproc then some ⟨fun _ => none, true⟩ else none
      before := fun _ => none
      failed := fun _ => false }
  thr := fun _ => .ret ()

end Machine

end Xv6.Descriptors
