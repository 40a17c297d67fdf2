import Xv6.Log.Basic
import Xv6.Log.Header
import Xv6.Lib.Run

/-!
# The log, the cache and the disk

A disk, the buffer cache over it, the log, and any number of processes. A step is what one process does to one buffer or to
the log, or one iteration of the thread that commits or recovers; an iteration writes at most one block of the disk, so that
every state of the machine is one a crash can find, and `crash` is itself a step.

* A process takes a buffer in two steps, `bget` and then, once the sleep lock is free, the lock and the read of the disk.
  In between it is in the `queue` of the buffer.
* Only inside an operation does a process change a buffer, and only one it holds. It has to pass it to `log_write` before
  it releases it, unless it is in `writei` and the user memory it copies from turns out invalid: then what `copyin` has
  copied remains in the buffer, and the buffer is released as it is (`Event.copyin`).
* Recovery and commit are driven by `Xv6.Logging.Stage`. An iteration reads, copies, writes and releases its buffers in one
  step, and has to wait while one of them is locked. During recovery there is nobody else.

The operations change only home blocks, those that are not part of the log. Four fields of the state are not in the source.
`dirty` marks the buffers that were changed and not yet logged; `cur` lists the updates since the last commit, `txns` those
of the commits before, and `durable` counts the commits whose header has reached the disk.
-/

namespace Xv6.Logging

open Lib Function

/-! ### States -/

structure Update where
  block : ℕ
  f : Block → Block

def applyUpdates : List Update → (ℕ → Block) → ℕ → Block
  | [], c => c
  | u :: us, c => applyUpdates us (update c u.block (u.f (c u.block)))

/-- How far recovery or a commit has come. -/
inductive Stage
  /-- About to `read_head`. -/
  | readHead
  /-- In `install_trans(1)`. -/
  | replay (tail : ℕ)
  | idle
  /-- In `write_log`. -/
  | writeLog (tail : ℕ)
  /-- In `install_trans(0)`. -/
  | install (tail : ℕ)
  /-- Back in `end_op`, about to clear `log.committing`. -/
  | done
  deriving DecidableEq, Repr

structure Sys where
  disk : ℕ → Block
  cache : Cache
  /-- The processes that wait for the lock of a buffer. -/
  queue : BufId → List Pid
  log : Log
  stage : Stage
  worker : Pid
  /-- The processes inside an operation. -/
  ops : List Pid
  dirty : BufId → Bool
  cur : List Update
  txns : List (List Update)
  durable : ℕ

def Stage.Up : Stage → Prop
  | .readHead | .replay _ => False
  | _ => True

instance : DecidablePred Stage.Up := fun c => by
  cases c <;> unfold Stage.Up <;> infer_instance

/-- A block outside the log, with a number that fits a `uint`. -/
def Log.Home (l : Log) (b : ℕ) : Prop := (b < l.start ∨ l.start + l.size ≤ b) ∧ b < 2 ^ 32

instance (l : Log) : DecidablePred l.Home := fun b => by
  unfold Log.Home
  infer_instance

/-- The machine when it starts, on a disk with a log of `size` blocks from `start` on. -/
def start (start size : ℕ) (disk : ℕ → Block) : Sys where
  disk := disk
  cache := binit
  queue := fun _ => []
  log := { start := start, size := size, outstanding := 0, committing := false, lh := [] }
  stage := .readHead
  worker := 1
  ops := []
  dirty := fun _ => false
  cur := []
  txns := []
  durable := 0

namespace Sys

def buf (s : Sys) (i : BufId) : Buf := s.cache.buf i

def setLh (s : Sys) (lh : List ℕ) : Sys := { s with log := { s.log with lh := lh } }

end Sys

/-! ### The functions of `bio.c` on the machine -/

def bget (s : Sys) (p : Pid) (b : ℕ) : Option (BufId × Sys) :=
  (s.cache.bget ROOTDEV b).map fun r =>
    (r.1, { s with cache := r.2, queue := update s.queue r.1 (s.queue r.1 ++ [p]) })

/-- The rest of `bread`: the process gets the lock, and reads the disk if it has to. -/
def lock (s : Sys) (p : Pid) (i : BufId) : Option Sys :=
  if p ∈ s.queue i ∧ (s.buf i).holder = none then
    some { s with
      queue := update s.queue i ((s.queue i).erase p)
      cache := s.cache.set i { s.buf i with
        holder := some p
        valid := true
        data := if (s.buf i).valid then (s.buf i).data else s.disk (s.buf i).blockno } }
  else none

def bread (s : Sys) (p : Pid) (b : ℕ) : Option (BufId × Sys) :=
  (bget s p b).bind fun r => (lock r.2 p r.1).map fun s => (r.1, s)

def bwrite (s : Sys) (i : BufId) (v : Block) : Sys :=
  { s with
    cache := s.cache.set i { s.buf i with data := v }
    disk := update s.disk (s.buf i).blockno v }

def brelse (s : Sys) (i : BufId) : Sys := { s with cache := s.cache.brelse i }

def bunpin (s : Sys) (i : BufId) : Sys := { s with cache := s.cache.bunpin i }

/-! ### Copies from user memory -/

abbrev Page := Bytes PGSIZE

/-- The loop of `copyin`, in at most `fuel` rounds: what it has copied when it ends, and
whether that is all. `user` is what `walkaddr` finds for a page. -/
def copyinLoop (user : ℕ → Option Page) : ℕ → ℕ → ℕ → List UInt8 × Bool
  | 0, _, len => ([], decide (len = 0))
  | fuel + 1, src, len =>
    if len = 0 then ([], true)
    else
      let va0 := src / PGSIZE * PGSIZE
      match user (src / PGSIZE) with
      | none => ([], false)
      | some page =>
        let n := min (PGSIZE - (src - va0)) len
        let r := copyinLoop user fuel (va0 + PGSIZE) (len - n)
        (load page (src - va0) n ++ r.1, r.2)

/-- `copyin`. Every round copies a byte at least, so `len` rounds are enough. -/
def copyin (user : ℕ → Option Page) (src len : ℕ) : List UInt8 × Bool :=
  copyinLoop user len src len

/-! ### Commit and recovery -/

def readHead (s : Sys) : Option Sys :=
  (bread s s.worker s.log.start).map fun r =>
    brelse (r.2.setLh (header (r.2.buf r.1).data)) r.1

def writeHead (s : Sys) : Option Sys :=
  (bread s s.worker s.log.start).map fun r =>
    brelse (bwrite r.2 r.1 (setHeader r.2.log.lh (r.2.buf r.1).data)) r.1

def writeLogBlock (s : Sys) (tail b : ℕ) : Option Sys :=
  (bread s s.worker (s.log.start + tail + 1)).bind fun r =>
    (bread r.2 s.worker b).map fun r' =>
      brelse (brelse (bwrite r'.2 r.1 (r'.2.buf r'.1).data) r'.1) r.1

def installBlock (s : Sys) (recovering : Bool) (tail b : ℕ) : Option Sys :=
  (bread s s.worker (s.log.start + tail + 1)).bind fun r =>
    (bread r.2 s.worker b).map fun r' =>
      let s := bwrite r'.2 r'.1 (r'.2.buf r.1).data
      let s := if recovering then s else bunpin s r'.1
      brelse (brelse s r.1) r'.1

def logStep (s : Sys) : Option Sys :=
  match s.stage with
  | .readHead => (readHead s).map fun s => { s with stage := .replay 0 }
  | .replay tail =>
    match s.log.lh[tail]? with
    | some b => (installBlock s true tail b).map fun s => { s with stage := .replay (tail + 1) }
    | none => (writeHead (s.setLh [])).map fun s => { s with stage := .idle }
  | .idle => none
  | .writeLog tail =>
    match s.log.lh[tail]? with
    | some b => (writeLogBlock s tail b).map fun s => { s with stage := .writeLog (tail + 1) }
    | none => (writeHead s).map fun s =>
      { s with stage := .install 0, durable := s.txns.length }
  | .install tail =>
    match s.log.lh[tail]? with
    | some b => (installBlock s false tail b).map fun s => { s with stage := .install (tail + 1) }
    | none => (writeHead (s.setLh [])).map fun s => { s with stage := .done }
  | .done => some { s with log := { s.log with committing := false }, stage := .idle }

/-- A crash: the disk remains, and the commits whose header it has. -/
def crash (s : Sys) : Sys :=
  { start s.log.start s.log.size s.disk with txns := s.txns.take s.durable, durable := s.durable }

/-! ### The machine -/

inductive Event
  | begin (p : Pid)
  | bget (p : Pid) (b : ℕ)
  | lock (p : Pid) (i : BufId)
  | modify (p : Pid) (i : BufId) (f : Block → Block)
  | logWrite (p : Pid) (i : BufId)
  | brelse (p : Pid) (i : BufId)
  /-- In `writei`, `p` copies `len` bytes of user memory into a buffer, and releases it if
  not all of them could be copied. -/
  | copyin (p : Pid) (i : BufId) (off : ℕ) (user : ℕ → Option Page) (src len : ℕ)
  | leave (p : Pid)
  /-- The next iteration of recovery or commit. -/
  | log
  | crash

/-- `p` may change the buffer: it holds it, it is inside an operation, and the block is
a home block. -/
def Owns (s : Sys) (p : Pid) (i : BufId) : Prop :=
  (s.buf i).holder = some p ∧ p ∈ s.ops ∧ s.log.Home (s.buf i).blockno

instance (s : Sys) (p : Pid) (i : BufId) : Decidable (Owns s p i) := by
  unfold Owns
  infer_instance

def modify (s : Sys) (i : BufId) (f : Block → Block) (mark : Bool) : Sys :=
  { s with
    cache := s.cache.set i { s.buf i with data := f (s.buf i).data }
    dirty := update s.dirty i mark
    cur := s.cur ++ [⟨(s.buf i).blockno, f⟩] }

/-- The last `end_op` of a transaction turns to the commit. There is nothing to do if no
block was logged. -/
def startCommit (s : Sys) (p : Pid) : Sys :=
  let s := { s with worker := p, cur := [], txns := s.txns ++ [s.cur] }
  if s.log.lh = [] then { s with stage := .done, durable := s.txns.length }
  else { s with stage := .writeLog 0 }

def step (s : Sys) : Event → Option Sys
  | .begin p =>
    if s.stage.Up then (beginOp s.log).map fun l => { s with log := l, ops := p :: s.ops }
    else none
  | .bget p b => if s.stage.Up then (bget s p b).map Prod.snd else none
  | .lock p i => if s.stage.Up then lock s p i else none
  | .modify p i f =>
    if Owns s p i then some (modify s i f true) else none
  | .logWrite p i =>
    if Owns s p i then
      match logWrite s.log (s.buf i).blockno with
      | .error _ => none
      | .ok (new, l) => some { s with
          log := l
          cache := if new then s.cache.bpin i else s.cache
          dirty := update s.dirty i false }
    else none
  | .brelse p i =>
    if (s.buf i).holder = some p ∧ s.dirty i = false then some (brelse s i) else none
  | .copyin p i off user src len =>
    if Owns s p i ∧ s.dirty i = false ∧ off + len ≤ BSIZE then
      let (bs, ok) := copyin user src len
      let t := modify s i (fun v => store v off bs) ok
      some (if ok then t else brelse t i)
    else none
  | .leave p =>
    if p ∈ s.ops ∧ ∀ i, (s.buf i).holder = some p → s.dirty i = false then
      match endOp s.log with
      | .error _ => none
      | .ok (commit, l) =>
        let s := { s with log := l, ops := s.ops.erase p }
        some (if commit then startCommit s p else s)
    else none
  | .log => logStep s
  | .crash => some (crash s)

end Xv6.Logging
