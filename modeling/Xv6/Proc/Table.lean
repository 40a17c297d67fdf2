import Xv6.Lib.Run
import Xv6.Lib.Word
import Xv6.Param
import Mathlib.Data.List.FinRange

/-!
# The process table and its critical sections

`proc.c` seen from the locks it takes. The table is an array of `NPROC` slots; `p->lock` protects one slot, `wait_lock`
protects the parent pointers. A step is one critical section of a `p->lock`, executed whole, or the acquisition of
`wait_lock`; `wait_lock` itself is held across several steps, so its holder is part of the state, and so is the place every
process has reached in the code (`Xv6.Procs.Pc`).

* `exit` wakes its parent *before* it becomes a zombie, and scans the table twice to do so (`reparent` and `wakeup`), one
  slot at a time. Only `wait_lock`, which it keeps until the very end, makes that order harmless.
* `sleep` takes `p->lock` before it gives up `wait_lock`, and the scheduler, not the sleeper, releases it. Hence giving up
  `wait_lock` and becoming `SLEEPING` are one step here.
* `allocproc` sets `pid` and `state` and leaves the other fields of the slot as `freeproc` left them.

What the model leaves to the events: whether the memory allocations of `fork` succeed, whether `copyout` succeeds in
`wait`, which process a CPU picks, and the sleeping and waking on channels other than a process. The pages, the open files
and the trap frame of a process are not represented.
-/

namespace Xv6.Procs

open Lib Function

/-! ### Slots and processes -/

/-- An index into `proc[NPROC]`; it stands for a `struct proc *`. -/
abbrev Slot := Fin NPROC

instance : NeZero NPROC := ⟨by decide⟩

/-- `enum procstate`. -/
inductive ProcState
  | unused | used | sleeping | runnable | running | zombie
  deriving DecidableEq, Repr

/-- The address a process sleeps on: a process, as in `wait`, or something
else. -/
inductive Chan
  /-- `sleep(p, &wait_lock)`. -/
  | proc (p : Slot)
  | other (addr : ℕ)
  deriving DecidableEq, Repr

/-- `struct proc`, without its memory and its files. A null pointer is `none`. -/
structure Proc where
  state : ProcState
  chan : Option Chan
  killed : Bool
  xstate : ℤ
  pid : ℤ
  parent : Option Slot
  deriving DecidableEq, Repr

/-- What `freeproc` leaves behind; the slots of a table that was just cleared. -/
def freeproc : Proc where
  state := .unused
  chan := none
  killed := false
  xstate := 0
  pid := 0
  parent := none

/-- What `allocproc` makes of a free slot: it takes a process number and sets the
state, and touches nothing else. -/
def allocproc (q : Proc) (pid : ℤ) : Proc := { q with pid := pid, state := .used }

/-- What `allocpid` leaves in `nextpid`, an `int`; it returns the old value. -/
def allocpid (nextpid : ℤ) : ℤ := wrapInt 32 (nextpid + 1)

/-! ### The places a process can have reached -/

/-- Where the kernel thread of a process stands, between two critical
sections. -/
inductive Pc
  /-- In user space, or in a system call that does not concern the table. -/
  | user
  /-- In `sleep` on a channel that is not a process. -/
  | slept
  /-- In `allocproc` called from `fork`, about to look at slot `i`. -/
  | forkScan (i : ℕ)
  /-- In `fork`, about to set the parent of the child `np`. -/
  | forkLink (np : Slot)
  /-- In `fork`, about to make the child `np` runnable. -/
  | forkReady (np : Slot)
  /-- In `exit`, about to take `wait_lock`. -/
  | exitAcquire (status : ℤ)
  /-- In `reparent`, about to look at slot `i`. -/
  | exitReparent (status : ℤ) (i : ℕ)
  /-- In the `wakeup(initproc)` that `reparent` makes for slot `i`, about to look
  at slot `j`. -/
  | exitWakeInit (status : ℤ) (i j : ℕ)
  /-- In `wakeup(p->parent)`, about to look at slot `j`. -/
  | exitWakeParent (status : ℤ) (j : ℕ)
  /-- In `exit`, about to become a zombie. -/
  | exitDie (status : ℤ)
  /-- Out of `exit`: this thread never runs again. -/
  | dead
  /-- In `wait`, about to take `wait_lock`, for the first time or after a
  sleep. -/
  | waitAcquire (addr : ℕ)
  /-- In the scan of `wait`, about to look at slot `i`. -/
  | waitScan (addr : ℕ) (i : ℕ) (havekids : Bool)
  /-- In `wait`, past the test of `havekids` and `p->killed`, about to sleep. -/
  | waitIdle (addr : ℕ)
  /-- In the `sleep(p, &wait_lock)` of `wait`. -/
  | waitSlept (addr : ℕ)
  deriving DecidableEq, Repr

/-- An entry of the history the machine keeps of what processes did and were
told. -/
inductive Obs
  /-- The `gen`-th process of slot `i`, of number `pid`, called `exit(status)`. -/
  | exited (i : Slot) (gen : ℕ) (pid status : ℤ)
  /-- A `wait` of the process in slot `p` returned `pid`, and stored `status`
  unless its argument was null; the child was the `gen`-th process of slot `i`. -/
  | reaped (p : Slot) (pid : ℤ) (status : Option ℤ) (i : Slot) (gen : ℕ)
  deriving DecidableEq, Repr

def Pc.holds : Pc → Bool
  | .exitReparent .. | .exitWakeInit .. | .exitWakeParent .. | .exitDie .. | .waitScan ..
  | .waitIdle .. => true
  | _ => false

/-- The state of the machine. The last two fields are not in the source: `gen` counts the processes a slot has been given to, and `hist`
is the history, latest entry first. -/
@[ext] structure Sys where
  proc : Slot → Proc
  pc : Slot → Pc
  nextpid : ℤ
  initproc : Slot
  waitLock : Option Slot
  gen : Slot → ℕ
  hist : List Obs

/-- The machine after `userinit`: slot `0` holds the first process, every other
slot is free. -/
def boot : Sys where
  proc := update (fun _ => freeproc) 0 { freeproc with pid := 1, state := .runnable }
  pc := fun _ => .user
  nextpid := 2
  initproc := 0
  waitLock := none
  gen := fun _ => 0
  hist := []

namespace Sys

def setProc (s : Sys) (i : Slot) (q : Proc) : Sys := { s with proc := update s.proc i q }

def setPc (s : Sys) (p : Slot) (c : Pc) : Sys := { s with pc := update s.pc p c }

section Fields

variable (s : Sys) (i j p : Slot) (q : Proc) (c : Pc)

@[simp, grind =] theorem setProc_proc : (s.setProc i q).proc j = if j = i then q else s.proc j := update_apply ..

@[simp, grind =] theorem setProc_pc : (s.setProc i q).pc j = s.pc j := rfl

@[simp, grind =] theorem setProc_initproc : (s.setProc i q).initproc = s.initproc := rfl

@[simp, grind =] theorem setProc_waitLock : (s.setProc i q).waitLock = s.waitLock := rfl

@[simp, grind =] theorem setProc_gen : (s.setProc i q).gen j = s.gen j := rfl

@[simp, grind =] theorem setProc_hist : (s.setProc i q).hist = s.hist := rfl

@[simp, grind =] theorem setPc_pc : (s.setPc p c).pc j = if j = p then c else s.pc j :=
  update_apply ..

@[simp, grind =] theorem setPc_proc : (s.setPc p c).proc j = s.proc j := rfl

@[simp, grind =] theorem setPc_initproc : (s.setPc p c).initproc = s.initproc := rfl

@[simp, grind =] theorem setPc_waitLock : (s.setPc p c).waitLock = s.waitLock := rfl

@[simp, grind =] theorem setPc_gen : (s.setPc p c).gen j = s.gen j := rfl

@[simp, grind =] theorem setPc_hist : (s.setPc p c).hist = s.hist := rfl

theorem setProc_self : s.setProc i (s.proc i) = s := by
  rw [setProc, update_eq_self]

theorem setPc_self : s.setPc p (s.pc p) = s := by
  rw [setPc, update_eq_self]

end Fields

end Sys

/-! ### The functions of `proc.c` -/

/-- The body of the loop of `wakeup(chan)`: the process of the slot is made
runnable if it sleeps on `chan`. -/
def wakeup1 (chan : Chan) (q : Proc) : Proc :=
  if q.state = .sleeping ∧ q.chan = some chan then { q with state := .runnable } else q

def kill1 (q : Proc) : Proc :=
  { q with killed := true, state := if q.state = .sleeping then .runnable else q.state }

/-- The body of the loop of `kill(pid)`. It does not look at the state. -/
def killAt (pid : ℤ) (q : Proc) : Proc := if q.pid = pid then kill1 q else q

/-- One probe of the `allocproc` called by `fork`, and, if the slot is free, the rest up to `release(&np->lock)`. If a page cannot be
allocated, `freeproc` undoes it. -/
def forkProbe (s : Sys) (p : Slot) (i : ℕ) (ok : Bool) : Sys :=
  if h : i < NPROC then
    let np : Slot := ⟨i, h⟩
    if (s.proc np).state = .unused then
      if ok then
        { s with
          nextpid := allocpid s.nextpid
          proc := update s.proc np (allocproc (s.proc np) s.nextpid)
          pc := update (update s.pc np .user) p (.forkLink np)
          gen := update s.gen np (s.gen np + 1) }
      else { (s.setProc np freeproc).setPc p .user with nextpid := allocpid s.nextpid }
    else s.setPc p (.forkScan (i + 1))
  else s.setPc p .user

def reparent1 (s : Sys) (p : Slot) (status : ℤ) (i : ℕ) : Sys :=
  if h : i < NPROC then
    let pp : Slot := ⟨i, h⟩
    if (s.proc pp).parent = some p then
      (s.setProc pp { s.proc pp with parent := some s.initproc }).setPc p (.exitWakeInit status i 0)
    else s.setPc p (.exitReparent status (i + 1))
  else s.setPc p (.exitWakeParent status 0)

/-- One iteration of a `wakeup` made by `p`: its own slot is passed over. -/
def wakeupAt (s : Sys) (p : Slot) (chan : Option Chan) (j : Slot) : Sys :=
  match chan with
  | some c => if j = p then s else s.setProc j (wakeup1 c (s.proc j))
  | none => s

/-- One iteration of the scan of `wait`, or the test that follows it; `ok` is what `copyout` answers. The test reads `p->killed` without
`p->lock`. -/
def waitProbe (s : Sys) (p : Slot) (addr i : ℕ) (havekids ok : Bool) : Sys :=
  if h : i < NPROC then
    let np : Slot := ⟨i, h⟩
    if (s.proc np).parent = some p then
      if (s.proc np).state = .zombie then
        if addr ≠ 0 ∧ ok = false then
          { s.setPc p .user with waitLock := none }
        else
          { (s.setProc np freeproc).setPc p .user with
            waitLock := none
            hist := .reaped p (s.proc np).pid (if addr = 0 then none else some (s.proc np).xstate)
              np (s.gen np) :: s.hist }
      else s.setPc p (.waitScan addr (i + 1) true)
    else s.setPc p (.waitScan addr (i + 1) havekids)
  else if havekids = false ∨ (s.proc p).killed then
    { s.setPc p .user with waitLock := none }
  else s.setPc p (.waitIdle addr)

/-- The next critical section of the thread of `p`. The choice `ok` settles the
allocations of `fork` and the `copyout` of `wait`. -/
def advance (s : Sys) (p : Slot) (ok : Bool) : Option Sys :=
  match s.pc p with
  | .forkScan i => some (forkProbe s p i ok)
  | .forkLink np =>
    if s.waitLock = none then
      some ((s.setProc np { s.proc np with parent := some p }).setPc p (.forkReady np))
    else none
  | .forkReady np => some ((s.setProc np { s.proc np with state := .runnable }).setPc p .user)
  | .exitAcquire status =>
    if s.waitLock = none then
      some { s.setPc p (.exitReparent status 0) with waitLock := some p }
    else none
  | .exitReparent status i => some (reparent1 s p status i)
  | .exitWakeInit status i j =>
    if h : j < NPROC then
      some ((wakeupAt s p (some (.proc s.initproc)) ⟨j, h⟩).setPc p
        (.exitWakeInit status i (j + 1)))
    else some (s.setPc p (.exitReparent status (i + 1)))
  | .exitWakeParent status j =>
    if h : j < NPROC then
      some ((wakeupAt s p ((s.proc p).parent.map .proc) ⟨j, h⟩).setPc p
        (.exitWakeParent status (j + 1)))
    else some (s.setPc p (.exitDie status))
  | .exitDie status =>
    some { (s.setProc p { s.proc p with xstate := status, state := .zombie }).setPc p .dead with
      waitLock := none }
  | .waitAcquire addr =>
    if s.waitLock = none then
      some { s.setPc p (.waitScan addr 0 false) with waitLock := some p }
    else none
  | .waitScan addr i havekids => some (waitProbe s p addr i havekids ok)
  | .waitIdle addr =>
    some { (s.setProc p { s.proc p with chan := some (.proc p), state := .sleeping }).setPc p
      (.waitSlept addr) with waitLock := none }
  | .user | .slept | .dead | .waitSlept _ => none

/-- What a thread does first when the scheduler resumes it: a sleeper clears its
channel, still inside the critical section of its lock. -/
def resume (q : Proc) : Pc → Proc × Pc
  | .slept => ({ q with state := .running, chan := none }, .user)
  | .waitSlept addr => ({ q with state := .running, chan := none }, .waitAcquire addr)
  | c => ({ q with state := .running }, c)

/-! ### The machine -/

inductive Event
  | schedule (p : Slot)
  /-- The timer takes the CPU from `p`. -/
  | yield (p : Slot)
  | sleep (p : Slot) (addr : ℕ)
  /-- A `wakeup` on such an address reaches slot `i`. -/
  | wake (i : Slot) (addr : ℕ)
  | fork (p : Slot)
  | exit (p : Slot) (status : ℤ)
  | wait (p : Slot) (addr : ℕ)
  /-- The `kill(pid)` of `p` reaches slot `i`. -/
  | kill (p : Slot) (pid : ℤ) (i : Slot)
  /-- `p` takes an unexpected trap: `usertrap` kills it. -/
  | fault (p : Slot)
  | advance (p : Slot) (ok : Bool)
  deriving DecidableEq, Repr

def InUser (s : Sys) (p : Slot) : Prop := (s.proc p).state = .running ∧ s.pc p = .user

instance (s : Sys) (p : Slot) : Decidable (InUser s p) := by unfold InUser; infer_instance

/-- **One step of the machine.** Interrupts are off while a thread holds
`wait_lock`, so it is not preempted there; the first process may not exit. -/
def step (s : Sys) : Event → Option Sys
  | .schedule p =>
    if (s.proc p).state = .runnable then
      let r := resume (s.proc p) (s.pc p)
      some ((s.setProc p r.1).setPc p r.2)
    else none
  | .yield p =>
    if (s.proc p).state = .running ∧ (s.pc p).holds = false then
      some (s.setProc p { s.proc p with state := .runnable })
    else none
  | .sleep p addr =>
    if InUser s p then
      some ((s.setProc p { s.proc p with chan := some (.other addr), state := .sleeping }).setPc p
        .slept)
    else none
  | .wake i addr => some (s.setProc i (wakeup1 (.other addr) (s.proc i)))
  | .fork p => if InUser s p then some (s.setPc p (.forkScan 0)) else none
  | .exit p status =>
    if InUser s p ∧ p ≠ s.initproc then
      some { s.setPc p (.exitAcquire status) with
        hist := .exited p (s.gen p) (s.proc p).pid status :: s.hist }
    else none
  | .wait p addr => if InUser s p then some (s.setPc p (.waitAcquire addr)) else none
  | .kill p pid i => if InUser s p then some (s.setProc i (killAt pid (s.proc i))) else none
  | .fault p =>
    if InUser s p then some (s.setProc p { s.proc p with killed := true }) else none
  | .advance p ok => if (s.proc p).state = .running then advance s p ok else none

end Xv6.Procs
