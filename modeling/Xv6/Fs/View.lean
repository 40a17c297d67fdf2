import Xv6.Fs.Calls
import Mathlib.Data.Fintype.BigOperators

/-!
# What a process has a right to

Inside a system call a process holds locks of inodes, and references to inodes and files that are in none of its tables:
this is its `Xv6.FileSys.View`. The discipline `Xv6.FileSys.rights` says for each action which rights it needs, gives and
takes. It does not depend on what the actions read from the disk, nor on the other processes.
-/

namespace Xv6.FileSys

open Lib Function

/-- The rights of a process inside a system call. -/
@[ext] structure View where
  txn : Bool
  /-- References to inodes that no file and no working directory stands for. -/
  refs : Slot → ℕ
  locks : Slot → Bool
  /-- References to files that no descriptor stands for. -/
  files : FileId → ℕ
  /-- Files it has allocated and not filled in. -/
  fresh : FileId → Bool
  /-- The inodes of files it has open. -/
  known : FileId → Option Slot
  proc : Option Proc
  /-- A child that does not run yet. -/
  child : Option Pid
  /-- The call is one that has no references of its own. -/
  light : Bool

namespace View

variable (v : View) (k j : Slot) (f : FileId)

def idle (proc : Option Proc) (light : Bool) : View where
  txn := false
  refs _ := 0
  locks _ := false
  files _ := 0
  fresh _ := false
  known _ := none
  proc := proc
  child := none
  light := light

def addRef : View := { v with refs := update v.refs k (v.refs k + 1) }

def dropRef : View := { v with refs := update v.refs k (v.refs k - 1) }

def lock : View := { v with locks := update v.locks k true }

def unlock : View := { v with locks := update v.locks k false }

def addFile : View := { v with files := update v.files f (v.files f + 1) }

def dropFile : View := { v with files := update v.files f (v.files f - 1) }

def setFresh (b : Bool) : View := { v with fresh := update v.fresh f b }

def setTxn (b : Bool) : View := { v with txn := b }

def setOfile (pr : Proc) (fd : Fd) (f : Option FileId) : View :=
  { v with proc := some { pr with ofile := update pr.ofile fd f } }

def setCwd (pr : Proc) (cwd : Option Slot) : View := { v with proc := some { pr with cwd := cwd } }

end View

def Proc.fds (f : FileId) (pr : Proc) : ℕ := ∑ fd, if pr.ofile fd = some f then 1 else 0

def Proc.embryo : Proc := ⟨none, fun _ => none, false⟩

def Proc.Bare (pr : Proc) : Prop := pr.cwd = none ∧ ∀ fd, pr.ofile fd = none

namespace View

def Pre : {β : Type} → Act β → View → Prop
  | _, .beginOp, v => v.txn = false
  | _, .endOp, v => v.txn = true
  | _, .iget _, v => v.light = false
  | _, .dupCwd, v => v.light = false
  | _, .look _, _ => True
  | _, .ilock ip, v => 0 < v.refs ip ∨ ∃ f, v.known f = some ip
  | _, .iunlock ip, v => v.locks ip = true
  | _, .iput ip, v => 0 < v.refs ip ∧ (v.locks ip = true → 2 ≤ v.refs ip) ∧ v.txn = true
  | _, .invalidate ip, v => v.locks ip = true
  | _, .unref ip, v => 0 < v.refs ip ∧ v.locks ip = false
  | _, .iclaim _ _, v => v.txn = true
  | _, .assign ip _, v => v.locks ip = true ∧ v.txn = true
  | _, .iupdate ip, v => v.locks ip = true ∧ v.txn = true
  | _, .itrunc ip, v => v.locks ip = true ∧ v.txn = true
  | _, .readi ip _ _ _, v => v.locks ip = true
  | _, .writei ip _ _ _, v => v.locks ip = true ∧ v.txn = true
  | _, .filealloc, _ => True
  | _, .fdalloc f, v => 0 < v.files f ∧ ∃ pr, v.proc = some pr
  | _, .openFile f ip _, v => v.fresh f = true ∧ v.files f = 0 ∧ 0 < v.refs ip
  | _, .fileclose f, v => 0 < v.files f ∧ v.light = false
  | _, .argfd _, _ => True
  | _, .offset f, v => ∃ ip, v.known f = some ip ∧ v.locks ip = true
  | _, .advance f _, v => ∃ ip, v.known f = some ip ∧ v.locks ip = true
  | _, .clearFd _, v => (∃ pr, v.proc = some pr) ∧ ∀ f, v.known f = none ∧ v.fresh f = false
  | _, .dup _, v => (∃ pr, v.proc = some pr) ∧ ∀ f, v.fresh f = false
  | _, .filedup _, v => (∃ pr, v.proc = some pr) ∧ ∀ f, v.fresh f = false
  | _, .takeCwd, v => (∃ pr, v.proc = some pr) ∧ v.light = false
  | _, .setCwd ip, v => (∃ pr, v.proc = some pr ∧ pr.cwd = none) ∧ 0 < v.refs ip ∧ v.locks ip = false
  | _, .allocproc _, v => (∃ pr, v.proc = some pr) ∧ v.child = none
  | _, .spawn q cwd, v =>
    v.child = some q ∧ 0 < v.refs cwd ∧ v.locks cwd = false ∧
      ∃ pr, v.proc = some pr ∧ ∀ f, v.files f = pr.fds f
  | _, .zombie, v => (∃ pr, v.proc = some pr ∧ pr.Bare) ∧ v.child = none

def Post : {β : Type} → Act β → View → β → View → Prop
  | _, .beginOp, v, _, w => w = v.setTxn true
  | _, .endOp, v, _, w => w = v.setTxn false
  | _, .iget _, v, ip, w => w = v.addRef ip
  | _, .dupCwd, v, ip, w => w = v.addRef ip
  | _, .look _, v, _, w => w = v
  | _, .ilock ip, v, _, w => v.locks ip = false ∧ w = v.lock ip
  | _, .iunlock ip, v, _, w => w = v.unlock ip
  | _, .iput ip, v, last, w =>
    if last then v.locks ip = false ∧ w = v.lock ip else w = v.dropRef ip
  | _, .invalidate ip, v, _, w => w = v.unlock ip
  | _, .unref ip, v, _, w => w = v.dropRef ip
  | _, .iclaim _ _, v, _, w => w = v
  | _, .assign _ _, v, _, w => w = v
  | _, .iupdate _, v, _, w => w = v
  | _, .itrunc _, v, _, w => w = v
  | _, .readi _ _ _ _, v, _, w => w = v
  | _, .writei _ _ _ _, v, _, w => w = v
  | _, .filealloc, v, r, w =>
    match r with
    | some f => v.files f = 0 ∧ w = (v.addFile f).setFresh f true
    | none => w = v
  | _, .fdalloc f, v, r, w =>
    match r with
    | some fd => ∃ pr, v.proc = some pr ∧ w = (v.dropFile f).setOfile pr fd (some f)
    | none => w = v
  | _, .openFile f ip _, v, _, w =>
    w = { (v.dropRef ip).setFresh f false with known := update v.known f (some ip) }
  | _, .fileclose f, v, r, w =>
    match r with
    | some ip => v.fresh f = false ∧ w = (v.dropFile f).addRef ip
    | none => w = (v.dropFile f).setFresh f false
  | _, .argfd _, v, r, w =>
    match r with
    | some (f, file) =>
      w = if file.type = .none then v else { v with known := update v.known f (some file.ip) }
    | none => w = v
  | _, .offset _, v, _, w => w = v
  | _, .advance _ _, v, _, w => w = v
  | _, .clearFd fd, v, r, w =>
    ∃ pr, v.proc = some pr ∧ pr.ofile fd = r ∧
      w = match r with
        | some f => (v.addFile f).setOfile pr fd none
        | none => v
  | _, .dup fd, v, r, w =>
    ∃ pr, v.proc = some pr ∧
      if r then ∃ fd' f, pr.ofile fd = some f ∧ w = v.setOfile pr fd' (some f) else w = v
  | _, .filedup fd, v, _, w =>
    ∃ pr, v.proc = some pr ∧
      w = match pr.ofile fd with
        | some f => v.addFile f
        | none => v
  | _, .takeCwd, v, ip, w =>
    ∃ pr, v.proc = some pr ∧ pr.cwd = some ip ∧ w = (v.addRef ip).setCwd pr none
  | _, .setCwd ip, v, _, w =>
    ∃ pr, v.proc = some pr ∧ w = (v.dropRef ip).setCwd pr (some ip)
  | _, .allocproc q, v, r, w => w = if r then { v with child := some q } else v
  | _, .spawn _ cwd, v, _, w =>
    w = { v.dropRef cwd with files := fun _ => 0, child := none }
  | _, .zombie, v, _, w => w = { v with proc := none }

end View

/-- **The discipline.** A panic ends everything, so that any rights will do. The panic of `iget` is
never the program's own. -/
def rights : Discipline Act Panic View where
  pre := View.Pre
  post := View.Post
  stop e _ := e ≠ .iget

def View.Idle (v : View) : Prop :=
  v.txn = false ∧ (∀ k, v.refs k = 0) ∧ (∀ k, v.locks k = false) ∧ (∀ f, v.files f = 0) ∧
    (∀ f, v.fresh f = false) ∧ v.child = none

end Xv6.FileSys
