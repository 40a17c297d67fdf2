import Mathlib.Data.Int.Notation
import Xv6.Param
import Xv6.Lib.Run
import Xv6.Lib.Circular

/-!
# Pipes

`pipe.c`: one pipe, and any number of processes that write to it, read from it, close its ends and kill each other.

`pi->lock` is held from `acquire` to `release`, except while a process sleeps. One turn of the loop of `pipewrite`, or of
the two loops of `piperead`, is one step, so that processes may be interleaved, and killed, anywhere. Going to sleep gives
up the lock and marks the process `SLEEPING` at once, and `wakeup` finds everyone who sleeps on the channel: this is what
`Xv6.Cpus` shows of `sleep` and `wakeup` when the caller of `wakeup` holds the condition lock.

The lists `put` and `got` record the bytes stored and taken, in order. Nothing reads them.
-/

namespace Xv6.Pipes

open Function

def PIPESIZE : ℕ := 512

instance : NeZero PIPESIZE := ⟨by decide⟩

/-! ### The pipe -/

structure Pipe where
  data : Fin PIPESIZE → UInt8
  nread : ℕ
  /-- Number of bytes written. -/
  nwrite : ℕ
  /-- Read fd is still open. -/
  readopen : Bool
  writeopen : Bool

def pipealloc (page : Fin PIPESIZE → UInt8) : Pipe where
  data := page
  nread := 0
  nwrite := 0
  readopen := true
  writeopen := true

namespace Pipe

variable (pi : Pipe)

def Empty : Prop := pi.nread = pi.nwrite

def Full : Prop := pi.nwrite = (pi.nread + PIPESIZE) % UINT

instance : Decidable pi.Empty := inferInstanceAs (Decidable (_ = _))

instance : Decidable pi.Full := inferInstanceAs (Decidable (_ = _))

/-- `pi->data[pi->nwrite++ % PIPESIZE] = ch`. -/
def store (ch : UInt8) : Pipe :=
  { pi with
    data := update pi.data (Fin.ofNat PIPESIZE pi.nwrite) ch
    nwrite := (pi.nwrite + 1) % UINT }

/-- The byte that `ch = pi->data[pi->nread++ % PIPESIZE]` reads. -/
def next : UInt8 := pi.data (Fin.ofNat PIPESIZE pi.nread)

def take : Pipe := { pi with nread := (pi.nread + 1) % UINT }

def close (writable : Bool) : Pipe :=
  if writable then { pi with writeopen := false } else { pi with readopen := false }

end Pipe

/-! ### Processes -/

/-- The two addresses processes sleep on. -/
inductive Chan
  | nread
  | nwrite
  deriving DecidableEq

/-- Where in the pipe's code a process is. A user buffer is given by what `copyin` gets for each of its bytes, if anything, or by which of
the bytes `copyout` can put there. -/
inductive At
  /-- In neither call; the last one returned `r`. -/
  | out (r : ℤ)
  /-- In `pipewrite`, about to take the lock with `i` bytes written. -/
  | writeAcquire (src : ℕ → Option UInt8) (n : ℤ) (i : ℕ)
  /-- At the head of its loop. The flag tells whether it stored a byte since it took the
  lock; it is there for statements only. -/
  | writeLoop (src : ℕ → Option UInt8) (n : ℤ) (i : ℕ) (stored : Bool)
  | writeDone (i : ℕ)
  /-- In `piperead`, about to take the lock. -/
  | readAcquire (dst : ℕ → Bool) (n : ℤ)
  | readWait (dst : ℕ → Bool) (n : ℤ)
  /-- At the head of the loop that copies them. -/
  | readCopy (dst : ℕ → Bool) (n : ℤ) (i : ℕ)
  | readDone (i : ℕ)

variable {ι : Type*} [DecidableEq ι] {dst : ℕ → Bool} {n : ℤ}

structure Sys (ι : Type*) where
  pipe : Pipe
  lock : Option ι
  pc : ι → At
  /-- What a `SLEEPING` process sleeps on. -/
  asleep : ι → Option Chan
  killed : ι → Bool
  /-- Whether the pipe's page was given back. -/
  freed : Bool
  put : List UInt8
  got : List UInt8

def start (ι : Type*) (page : Fin PIPESIZE → UInt8) : Sys ι where
  pipe := pipealloc page
  lock := none
  pc _ := .out 0
  asleep _ := none
  killed _ := false
  freed := false
  put := []
  got := []

namespace Sys

variable (s : Sys ι) (p : ι)

def goto (l : At) : Sys ι := { s with pc := update s.pc p l }

def acquire (l : At) : Option (Sys ι) :=
  if s.lock = none then some { s with lock := some p, pc := update s.pc p l } else none

/-- `release(&pi->lock); return r`. -/
def leave (r : ℤ) : Sys ι := { s with lock := none, pc := update s.pc p (.out r) }

omit [DecidableEq ι] in
def wakeup (chan : Chan) : Sys ι :=
  { s with asleep := fun q => if s.asleep q = some chan then none else s.asleep q }

/-- `sleep(chan, &pi->lock)`, after which the process has to take the lock again. -/
def sleep (chan : Chan) (l : At) : Sys ι :=
  { s with
    lock := none
    pc := update s.pc p l
    asleep := update s.asleep p (some chan) }

/-! ### The calls -/

def writeTurn (src : ℕ → Option UInt8) (n : ℤ) (i : ℕ) : Sys ι :=
  if (i : ℤ) < n then
    if s.pipe.readopen = false ∨ s.killed p = true then s.leave p (-1)
    else if s.pipe.Full then (s.wakeup .nread).sleep p .nwrite (.writeAcquire src n i)
    else
      match src i with
      | none => s.goto p (.writeDone i)
      | some ch =>
        { s with
          pipe := s.pipe.store ch
          put := s.put ++ [ch]
          pc := update s.pc p (.writeLoop src n (i + 1) true) }
  else s.goto p (.writeDone i)

def waitTurn (dst : ℕ → Bool) (n : ℤ) : Sys ι :=
  if s.pipe.Empty ∧ s.pipe.writeopen = true then
    if s.killed p = true then s.leave p (-1)
    else s.sleep p .nread (.readAcquire dst n)
  else s.goto p (.readCopy dst n 0)

/-- One turn of the loop in which it copies. A byte that `copyout` cannot deliver has been
taken all the same. -/
def copyTurn (dst : ℕ → Bool) (n : ℤ) (i : ℕ) : Sys ι :=
  if (i : ℤ) < n then
    if s.pipe.Empty then s.goto p (.readDone i)
    else
      { s with
        pipe := s.pipe.take
        got := s.got ++ [s.pipe.next]
        pc := update s.pc p (if dst i then .readCopy dst n (i + 1) else .readDone i) }
  else s.goto p (.readDone i)

def turn : Option (Sys ι) :=
  match s.pc p with
  | .out _ => none
  | .writeAcquire src n i => s.acquire p (.writeLoop src n i false)
  | .writeLoop src n i _ => some (s.writeTurn p src n i)
  | .writeDone i => some ((s.wakeup .nread).leave p i)
  | .readAcquire dst n => s.acquire p (.readWait dst n)
  | .readWait dst n => some (s.waitTurn p dst n)
  | .readCopy dst n i => some (s.copyTurn p dst n i)
  | .readDone i => some ((s.wakeup .nwrite).leave p i)

omit [DecidableEq ι] in
def pipeclose (writable : Bool) : Sys ι :=
  { s.wakeup (if writable then .nread else .nwrite) with
    pipe := s.pipe.close writable
    freed := !(s.pipe.close writable).readopen && !(s.pipe.close writable).writeopen }

def kill : Sys ι :=
  { s with killed := update s.killed p true, asleep := update s.asleep p none }

end Sys

/-! ### Runs -/

inductive Event (ι : Type*)
  | write (p : ι) (src : ℕ → Option UInt8) (n : ℤ)
  | read (p : ι) (dst : ℕ → Bool) (n : ℤ)
  | turn (p : ι)
  | close (writable : Bool)
  | kill (p : ι)

def enter (s : Sys ι) (p : ι) (l : At) : Option (Sys ι) :=
  match s.pc p with
  | .out _ => some (s.goto p l)
  | _ => none

/-- Nothing happens any more to a pipe whose page was given back. -/
def step (s : Sys ι) (e : Event ι) : Option (Sys ι) :=
  if s.freed = true then none
  else
    match e with
    | .write p src n => enter s p (.writeAcquire src n 0)
    | .read p dst n => enter s p (.readAcquire dst n)
    | .turn p => if s.asleep p = none then s.turn p else none
    | .close writable => if s.lock = none then some (s.pipeclose writable) else none
    | .kill p => some (s.kill p)

/-! ### What a step can do -/

def At.Entering : At → Prop
  | .writeAcquire _ _ _ | .readAcquire _ _ => True
  | _ => False

def At.Entered : At → Prop
  | .writeLoop _ _ _ false | .readWait _ _ => True
  | _ => False

/-- The places behind a loop, from which the call does nothing but wake up and return. -/
def At.Leaves : At → At → Prop
  | .writeLoop _ _ _ _, .writeDone _ => True
  | .readWait _ _, .readCopy _ _ _ => True
  | .readCopy _ _ _, .readDone _ => True
  | _, _ => False

/-- **What a step can do.** -/
inductive Move (s : Sys ι) : Event ι → Sys ι → Prop
  | enter {e p l r} : s.pc p = .out r → l.Entering → Move s e (s.goto p l)
  | acquire {p l} : (s.pc p).Entering → s.lock = none → l.Entered →
      Move s (.turn p) { s with lock := some p, pc := update s.pc p l }
  | quit {p src n i stored} : s.pc p = .writeLoop src n i stored → (i : ℤ) < n →
      s.pipe.readopen = false ∨ s.killed p = true → Move s (.turn p) (s.leave p (-1))
  | full {p src n i stored} : s.pc p = .writeLoop src n i stored → s.pipe.Full →
      s.pipe.readopen = true →
      Move s (.turn p) ((s.wakeup .nread).sleep p .nwrite (.writeAcquire src n i))
  | store {p src n i stored ch} : s.pc p = .writeLoop src n i stored → ¬s.pipe.Full →
      Move s (.turn p) { s with
        pipe := s.pipe.store ch
        put := s.put ++ [ch]
        pc := update s.pc p (.writeLoop src n (i + 1) true) }
  | goto {p l} : (s.pc p).Leaves l → Move s (.turn p) (s.goto p l)
  | written {p i} : s.pc p = .writeDone i → Move s (.turn p) ((s.wakeup .nread).leave p i)
  | giveUp {p dst n} : s.pc p = .readWait dst n → Move s (.turn p) (s.leave p (-1))
  | empty {p dst n} : s.pc p = .readWait dst n → s.pipe.Empty → s.pipe.writeopen = true →
      Move s (.turn p) (s.sleep p .nread (.readAcquire dst n))
  | take {p dst n i} {l : At} : s.pc p = .readCopy dst n i → ¬s.pipe.Empty →
      l = .readCopy dst n (i + 1) ∨ l = .readDone i →
      Move s (.turn p) { s with
        pipe := s.pipe.take
        got := s.got ++ [s.pipe.next]
        pc := update s.pc p l }
  | got {p i} : s.pc p = .readDone i → Move s (.turn p) ((s.wakeup .nwrite).leave p i)
  | close {writable} : s.lock = none → Move s (.close writable) (s.pipeclose writable)
  | kill {p} : Move s (.kill p) (s.kill p)

variable {s t : Sys ι} {e : Event ι} {p : ι}

theorem move_of_enter {l : At} (h : enter s p l = some t) (hl : l.Entering) : Move s e t := by
  unfold enter at h
  split at h <;> cases h
  exact .enter ‹_› hl

theorem move_of_acquire {l : At} (h : s.acquire p l = some t) (hpc : (s.pc p).Entering) (hl : l.Entered) : Move s (.turn p) t := by
  unfold Sys.acquire at h
  split_ifs at h with hlock
  obtain rfl := Option.some.inj h
  exact .acquire hpc hlock hl

theorem move_writeTurn {src : ℕ → Option UInt8} {i : ℕ} {stored : Bool}
    (hpc : s.pc p = .writeLoop src n i stored) : Move s (.turn p) (s.writeTurn p src n i) := by
  have hleave : (s.pc p).Leaves (.writeDone i) := by rw [hpc]; trivial
  unfold Sys.writeTurn
  split_ifs with hn hquit hfull
  · exact .quit hpc hn hquit
  · exact .full hpc hfull (by simpa using (not_or.mp hquit).1)
  · split
    · exact .goto hleave
    · exact .store hpc hfull
  · exact .goto hleave

theorem move_waitTurn (hpc : s.pc p = .readWait dst n) : Move s (.turn p) (s.waitTurn p dst n) := by
  unfold Sys.waitTurn
  split_ifs with hempty hkilled
  · exact .giveUp hpc
  · exact .empty hpc hempty.1 hempty.2
  · exact .goto (by rw [hpc]; trivial)

theorem move_copyTurn {i : ℕ} (hpc : s.pc p = .readCopy dst n i) : Move s (.turn p) (s.copyTurn p dst n i) := by
  have hleave : (s.pc p).Leaves (.readDone i) := by rw [hpc]; trivial
  unfold Sys.copyTurn
  split_ifs with hn hempty hdst
  · exact .goto hleave
  · exact .take hpc hempty (Or.inl rfl)
  · exact .take hpc hempty (Or.inr rfl)
  · exact .goto hleave

theorem move_of_turn (h : s.turn p = some t) : Move s (.turn p) t := by
  unfold Sys.turn at h
  split at h
  next => cases h
  next hpc => exact move_of_acquire h (by rw [hpc]; trivial) trivial
  next hpc => exact Option.some.inj h ▸ move_writeTurn hpc
  next hpc => exact Option.some.inj h ▸ .written hpc
  next hpc => exact move_of_acquire h (by rw [hpc]; trivial) trivial
  next hpc => exact Option.some.inj h ▸ move_waitTurn hpc
  next hpc => exact Option.some.inj h ▸ move_copyTurn hpc
  next hpc => exact Option.some.inj h ▸ .got hpc

theorem move_of_step (h : step s e = some t) : Move s e t := by
  cases e with
  | write p src n | read p dst n =>
    simp only [step] at h
    split_ifs at h
    exact move_of_enter h trivial
  | turn p =>
    simp only [step] at h
    split_ifs at h
    exact move_of_turn h
  | close writable =>
    simp only [step] at h
    split_ifs at h with _ hlock
    exact Option.some.inj h ▸ .close hlock
  | kill p =>
    simp only [step] at h
    split_ifs at h
    exact Option.some.inj h ▸ .kill

end Xv6.Pipes
