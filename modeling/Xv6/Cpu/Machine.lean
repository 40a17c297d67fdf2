import Xv6.Proc.Table

/-!
# CPUs and the locks of processes

The machine of `Xv6.Proc.Table` takes a critical section of a `p->lock` for one step. But two of them are not executed by
one thread: a process that gives up its CPU takes its own lock, which the scheduler releases; and the scheduler takes the
lock of the process it has chosen, which that process releases. In between the CPU changes stacks. Here these sections
are taken apart, for any number of CPUs, and `p->lock` is held by a CPU.

* What a CPU is executing is a value of `Xv6.Cpus.At`: the loop of `scheduler`, or the kernel thread of some process.
  Taking the lock, setting the state and `swtch` are steps of their own, and so are those of `scheduler` after `swtch`.
* The other critical sections are steps of `Xv6.Procs.step` and need their lock to be free. The loops of `wakeup` and
  `kill` visit one slot at a time.
* `sleep(chan, lk)` gives up `lk` after it has taken `p->lock`, and before it sets the state. A channel goes with one
  lock, `guard chan`, which callers of `sleep` and `wakeup` hold; for the channel of a process this is `wait_lock`. A
  wakeup can also come from a device, on a CPU that holds no lock.
* `sched` panics if the CPU holds a spin lock besides `p->lock`; `held` lists those, apart from `wait_lock`.

Which slot `scheduler` looks at next is left open.
-/

namespace Xv6.Cpus

open Lib Function

open Procs (Slot Chan Pc resume wakeup1 kill1 InUser)

/-! ### States -/

inductive Why
  | yield
  /-- From `sleep` on an address that is not a process. -/
  | sleep (addr : ℕ)
  | wait (addr : ℕ)
  | exit (status : ℤ)
  deriving DecidableEq, Repr

inductive At
  /-- The loop of `scheduler`, between two slots. -/
  | scan
  /-- `scheduler`, which has acquired `p->lock`. -/
  | picked (p : Slot)
  /-- The thread of `p`, to which `scheduler` has just switched. -/
  | resumed (p : Slot)
  | thread (p : Slot)
  /-- The thread of `p`, which has acquired `p->lock` to give up the CPU. -/
  | entered (p : Slot) (why : Why)
  /-- The thread of `p` in `sleep`, which has released `lk`. -/
  | unlocked (p : Slot) (why : Why)
  /-- The thread of `p` in `sched`, with `p->state` set. -/
  | parted (p : Slot)
  /-- `scheduler`, just after `swtch`. -/
  | back (p : Slot)
  /-- `scheduler`, which has cleared `c->proc`. -/
  | cleared (p : Slot)
  deriving DecidableEq, Repr

def At.locks : At → Option Slot
  | .scan | .thread _ => none
  | .picked p | .resumed p | .entered p _ | .unlocked p _ | .parted p | .back p | .cleared p => some p

def At.stack : At → Option Slot
  | .scan | .picked _ | .back _ | .cleared _ => none
  | .resumed p | .thread p | .entered p _ | .unlocked p _ | .parted p => some p

structure Sys (κ : Type) where
  table : Procs.Sys
  proc : κ → Option Slot
  now : κ → At
  /-- The spin locks it holds, other than those of processes and `wait_lock`. -/
  held : κ → List ℕ
  /-- The `wakeup` it executes, and the slot that comes next. -/
  wake : κ → Option (ℕ × ℕ)
  lock : Slot → Option κ
  /-- The CPU that holds another spin lock. -/
  spin : ℕ → Option κ
  /-- The `kill` a process executes, and the slot that comes next. -/
  killing : Slot → Option (ℤ × ℕ)

def boot (κ : Type) : Sys κ where
  table := Procs.boot
  proc := fun _ => none
  now := fun _ => .scan
  held := fun _ => []
  wake := fun _ => none
  lock := fun _ => none
  spin := fun _ => none
  killing := fun _ => none

variable {κ : Type} [DecidableEq κ]

namespace Sys

def setNow (s : Sys κ) (c : κ) (a : At) : Sys κ := { s with now := update s.now c a }

def setLock (s : Sys κ) (p : Slot) (o : Option κ) : Sys κ := { s with lock := update s.lock p o }

def setTable (s : Sys κ) (t : Procs.Sys) : Sys κ := { s with table := t }

def setProc (s : Sys κ) (c : κ) (o : Option Slot) : Sys κ := { s with proc := update s.proc c o }

def acquire (s : Sys κ) (c : κ) (l : ℕ) : Sys κ :=
  { s with spin := update s.spin l (some c), held := update s.held c (l :: s.held c) }

def release (s : Sys κ) (c : κ) (l : ℕ) : Sys κ :=
  { s with spin := update s.spin l none, held := update s.held c ((s.held c).erase l) }

def setWake (s : Sys κ) (c : κ) (w : Option (ℕ × ℕ)) : Sys κ := { s with wake := update s.wake c w }

def setKilling (s : Sys κ) (p : Slot) (k : Option (ℤ × ℕ)) : Sys κ :=
  { s with killing := update s.killing p k }

def Free (s : Sys κ) : Option Slot → Prop
  | none => True
  | some i => s.lock i = none

instance (s : Sys κ) (o : Option Slot) : Decidable (s.Free o) := by
  cases o <;> unfold Free <;> infer_instance

end Sys

/-! ### The thread of a process -/

def slotAt (i : ℕ) : Option Slot := if h : i < NPROC then some ⟨i, h⟩ else none

/-- The process whose lock the next critical section of the thread of `p` is a section
of. `wait` looks at `np->parent` before it takes `np->lock`. -/
def needs (s : Procs.Sys) (p : Slot) : Option Slot :=
  match s.pc p with
  | .forkScan i => slotAt i
  | .forkReady np => some np
  | .exitWakeInit _ _ j | .exitWakeParent _ j => (slotAt j).filter fun i => i ≠ p
  | .waitScan _ i _ => (slotAt i).filter fun np => (s.proc np).parent = some p
  | _ => none

/-- The next critical section of a thread ends in `sched`. -/
def parts : Pc → Bool
  | .exitDie _ | .waitIdle _ => true
  | _ => false

/-- The thread of `p`, on CPU `c`, may turn to giving up the CPU. A process does not sleep
in the middle of `kill`, but it can be preempted there. -/
def MayEnter (guard : ℕ → ℕ) (s : Sys κ) (c : κ) (p : Slot) : Why → Prop
  | .yield => (s.table.pc p).holds = false ∧ s.held c = []
  | .sleep addr => s.table.pc p = .user ∧ s.killing p = none ∧ s.held c = [guard addr]
  | .wait addr => s.table.pc p = .waitIdle addr ∧ s.held c = []
  | .exit status => s.table.pc p = .exitDie status ∧ s.held c = []

instance (guard : ℕ → ℕ) (s : Sys κ) (c : κ) (p : Slot) (why : Why) : Decidable (MayEnter guard s c p why) := by
  cases why <;> unfold MayEnter <;> infer_instance

/-- A system call that concerns the table, or an unexpected trap. -/
inductive Call
  | fork
  | wait (addr : ℕ)
  | exit (status : ℤ)
  | fault
  deriving DecidableEq, Repr

def Call.event (p : Slot) : Call → Procs.Event
  | .fork => .fork p
  | .wait addr => .wait p addr
  | .exit status => .exit p status
  | .fault => .fault p

/-! ### The machine -/

inductive Act
  /-- `scheduler` acquires `p->lock`. -/
  | pick (p : Slot)
  /-- `scheduler` finds the process not runnable, and releases the lock. -/
  | skip
  /-- `scheduler` switches to the process. -/
  | dispatch
  /-- The process goes on where it was, and releases its lock. -/
  | settle
  /-- The process acquires its own lock in `yield`, `sleep` or `exit`. -/
  | enter (why : Why)
  /-- `sleep` releases `lk`. -/
  | unlock
  | part
  /-- `sched` switches to `scheduler`. -/
  | swtch
  /-- `scheduler` sets `c->proc = 0`. -/
  | clear
  /-- `scheduler` releases `p->lock`. -/
  | drop
  /-- A thread, or the handler of an interrupt, acquires a spin lock. -/
  | acquire (l : ℕ)
  | release (l : ℕ)
  | wakeup (addr : ℕ)
  | wakeNext
  | kill (pid : ℤ)
  | killNext
  | call (k : Call)
  | advance (ok : Bool)
  deriving DecidableEq, Repr

/-- The thread of the CPU can be interrupted, or executes kernel code of its own. -/
def At.Open : At → Prop
  | .scan | .thread _ => True
  | _ => False

instance : DecidablePred At.Open := fun a => by
  cases a <;> unfold At.Open <;> infer_instance

def setSleeping (t : Procs.Sys) (p : Slot) (chan : Chan) (c : Pc) : Procs.Sys :=
  (t.setProc p { t.proc p with chan := some chan, state := .sleeping }).setPc p c

def part (t : Procs.Sys) (p : Slot) : Why → Procs.Sys
  | .yield => t.setProc p { t.proc p with state := .runnable }
  | .sleep addr => setSleeping t p (.other addr) .slept
  | .wait addr => setSleeping t p (.proc p) (.waitSlept addr)
  | .exit status =>
    { (t.setProc p { t.proc p with xstate := status, state := .zombie }).setPc p .dead with
      waitLock := none }

/-- An iteration of `wakeup` on CPU `c`; `myproc()` is passed over. -/
def wakeNext (s : Sys κ) (c : κ) (addr j : ℕ) : Option (Sys κ) :=
  match slotAt j with
  | none => some (s.setWake c none)
  | some i =>
    if s.proc c = some i then some (s.setWake c (some (addr, j + 1)))
    else if s.lock i = none then
      some ((s.setTable (s.table.setProc i (wakeup1 (.other addr) (s.table.proc i)))).setWake c
        (some (addr, j + 1)))
    else none

/-- An iteration of `kill`, called by the process in slot `p`: what `kill` returns, if it is the last one. -/
def killNext (s : Sys κ) (p : Slot) (pid : ℤ) (j : ℕ) : Option (Option ℤ × Sys κ) :=
  match slotAt j with
  | none => some (some (-1), s.setKilling p none)
  | some i =>
    if s.lock i = none then
      if (s.table.proc i).pid = pid then
        some (some 0, (s.setTable (s.table.setProc i (kill1 (s.table.proc i)))).setKilling p none)
      else some (none, s.setKilling p (some (pid, j + 1)))
    else none

/-- A step of CPU `c` that is not part of a `wakeup`. -/
def act (guard : ℕ → ℕ) (s : Sys κ) (c : κ) : Act → Option (Sys κ)
  | .pick p =>
    if s.now c = .scan ∧ s.held c = [] ∧ s.lock p = none then
      some ((s.setLock p (some c)).setNow c (.picked p))
    else none
  | .skip =>
    match s.now c with
    | .picked p =>
      if (s.table.proc p).state = .runnable then none
      else some ((s.setLock p none).setNow c .scan)
    | _ => none
  | .dispatch =>
    match s.now c with
    | .picked p =>
      if (s.table.proc p).state = .runnable then
        some (((s.setTable (s.table.setProc p { s.table.proc p with state := .running })).setProc c
          (some p)).setNow c (.resumed p))
      else none
    | _ => none
  | .settle =>
    match s.now c with
    | .resumed p =>
      let r := resume (s.table.proc p) (s.table.pc p)
      some (((s.setTable ((s.table.setProc p r.1).setPc p r.2)).setLock p none).setNow c (.thread p))
    | _ => none
  | .enter why =>
    match s.now c with
    | .thread p =>
      if s.lock p = none ∧ MayEnter guard s c p why then
        some ((s.setLock p (some c)).setNow c (.entered p why))
      else none
    | _ => none
  | .unlock =>
    match s.now c with
    | .entered p (.sleep addr) =>
      some ((s.release c (guard addr)).setNow c (.unlocked p (.sleep addr)))
    | .entered p (.wait addr) =>
      some ((s.setTable { s.table with waitLock := none }).setNow c (.unlocked p (.wait addr)))
    | _ => none
  | .part =>
    match s.now c with
    | .entered p .yield => some ((s.setTable (part s.table p .yield)).setNow c (.parted p))
    | .entered p (.exit status) =>
      some ((s.setTable (part s.table p (.exit status))).setNow c (.parted p))
    | .unlocked p why => some ((s.setTable (part s.table p why)).setNow c (.parted p))
    | _ => none
  | .swtch =>
    match s.now c with
    | .parted p => some (s.setNow c (.back p))
    | _ => none
  | .clear =>
    match s.now c with
    | .back p => some ((s.setProc c none).setNow c (.cleared p))
    | _ => none
  | .drop =>
    match s.now c with
    | .cleared p => some ((s.setLock p none).setNow c .scan)
    | _ => none
  | .acquire l =>
    if (s.now c).Open ∧ s.spin l = none then some (s.acquire c l) else none
  | .release l =>
    if (s.now c).Open ∧ l ∈ s.held c then some (s.release c l) else none
  | .wakeup addr =>
    if (s.now c).Open ∧ guard addr ∈ s.held c then some (s.setWake c (some (addr, 0)))
    else none
  | .wakeNext => none
  | .kill pid =>
    match s.now c with
    | .thread p =>
      if s.table.pc p = .user ∧ s.killing p = none then some (s.setKilling p (some (pid, 0)))
      else none
    | _ => none
  | .killNext =>
    match s.now c with
    | .thread p => (s.killing p).bind fun k => (killNext s p k.1 k.2).map Prod.snd
    | _ => none
  | .call k =>
    match s.now c with
    | .thread p =>
      if s.killing p = none then (Procs.step s.table (k.event p)).map s.setTable else none
    | _ => none
  | .advance ok =>
    match s.now c with
    | .thread p =>
      if parts (s.table.pc p) = false ∧ s.Free (needs s.table p) then
        (Procs.step s.table (.advance p ok)).map s.setTable
      else none
    | _ => none

/-- **One step of a CPU.** A CPU that executes a `wakeup` does nothing else, because it holds
a lock and so has its interrupts off. -/
def step (guard : ℕ → ℕ) (s : Sys κ) (e : κ × Act) : Option (Sys κ) :=
  match s.wake e.1 with
  | some (addr, j) => if e.2 = .wakeNext then wakeNext s e.1 addr j else none
  | none => act guard s e.1 e.2

local instance two_cpus : NeZero 2 := ⟨by decide⟩

end Xv6.Cpus
