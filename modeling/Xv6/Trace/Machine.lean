import Xv6.Proc.Birth

/-!
# The tracing of system calls

`syscall` prints a record of a call if the bit of the call is set in the mask of the process: the process and the name of
the call before the call, its value after it. The machine is the process table of `Xv6.Procs` with the masks, the calls
processes are in, and the console.

Three things reach the console, one character at a time. A `printf` holds `pr.lock` until its text is out, and gives its
characters to the UART itself. So does `consoleintr` with what it echoes, but without the lock. The characters of a `write`
wait in `uart_tx_buf`, and are sent when `uartstart` comes to them, which may be after the call. The value of a call is
part of the event that returns it. A kernel that panics is not modelled.
-/

namespace Xv6.Tracing

open Lib Function Procs

/-! ### Formatted output -/

/-- An argument of `printf`. -/
inductive Arg
  | int (x : ℤ)
  | long (x : BitVec 64)
  | str (s : Option (List Char))

def Arg.toInt : Arg → ℤ
  | .int x => x
  | .long x => (x.setWidth 32).toInt
  | .str _ => 0

def Arg.toLong : Arg → BitVec 64
  | .int x => BitVec.ofInt 64 x
  | .long x => x
  | .str _ => 0

/-- `va_arg(ap, char*)`, and the string that is printed for it. -/
def Arg.toStr : Arg → List Char
  | .str (some s) => s
  | _ => "(null)".toList

/-- `printint`, with a sign. -/
def printint (x : ℤ) (base : ℕ) : List Char :=
  (if x < 0 then ['-'] else []) ++ Nat.toDigits base x.natAbs

def printptr (x : BitVec 64) : List Char :=
  '0' :: 'x' :: (List.range 16).map fun i => Nat.digitChar ((x <<< (4 * i)) >>> 60).toNat

def printf : List Char → List Arg → List Char
  | [], _ => []
  | ['%'], _ => []
  | '%' :: 'd' :: fmt, a :: ap => printint a.toInt 10 ++ printf fmt ap
  | '%' :: 'x' :: fmt, a :: ap => printint a.toInt 16 ++ printf fmt ap
  | '%' :: 'p' :: fmt, a :: ap => printptr a.toLong ++ printf fmt ap
  | '%' :: 's' :: fmt, a :: ap => a.toStr ++ printf fmt ap
  | '%' :: '%' :: fmt, ap => '%' :: printf fmt ap
  | '%' :: c :: fmt, ap => '%' :: c :: printf fmt ap
  | c :: fmt, ap => c :: printf fmt ap

/-! ### System calls -/

/-- `syscall_names`, which has entries for the same numbers as `syscalls`. -/
def syscallNames : List String :=
  ["", "fork", "exit", "wait", "pipe", "read", "kill", "exec", "fstat", "chdir", "dup", "getpid",
    "sbrk", "sleep", "uptime", "open", "write", "mknod", "unlink", "link", "mkdir", "close",
    "trace", "sysinfo"]

def SYS_fork : ℕ := 1

def SYS_exit : ℕ := 2

def SYS_wait : ℕ := 3

def SYS_kill : ℕ := 6

def SYS_write : ℕ := 16

def SYS_trace : ℕ := 22

def syscallName (num : ℕ) : List Char := (syscallNames.getD num "").toList

/-- `num > 0 && num < NELEM(syscalls) && syscalls[num]`, for the number in a register. -/
def callNumber (a7 : BitVec 64) : Option ℕ :=
  let num := (a7.setWidth 32).toInt
  if 0 < num ∧ num < syscallNames.length then some num.toNat else none

/-- `argint`: the low half of a register. -/
def argint (a : BitVec 64) : BitVec 32 := a.setWidth 32

def traces (mask : BitVec 32) (num : ℕ) : Bool := mask &&& (1#32 <<< num) ≠ 0

structure Frame where
  num : ℕ
  /-- The register `a0` at the call. -/
  arg : BitVec 64
  /-- The function of the call has done what it does to the process table or to the mask. -/
  done : Bool
  /-- The slot a `kill` looks at next. -/
  next : ℕ
  /-- The first part of a record was printed. Not in the source. -/
  begun : Bool
  deriving DecidableEq, Repr

/-! ### The machine -/

inductive Obs
  | traced (p : Slot) (gen : ℕ) (mask : BitVec 32)
  | forked (p : Slot) (gen : ℕ) (parent : Slot) (parentGen : ℕ)
  deriving DecidableEq, Repr

/-- A system call that was traced and has returned. -/
structure Record where
  pid : ℤ
  num : ℕ
  value : BitVec 64
  deriving DecidableEq, Repr

/-- The `printf` that holds `pr.lock`. Nobody holds it when nothing is left to print. -/
structure Printing where
  rest : List Char
  /-- The process that prints; none in an interrupt. -/
  owner : Option Slot
  /-- The text is a part of a record. Not in the source. -/
  record : Bool

/-- The state of the machine. The last two fields are not in the source. -/
structure Sys where
  sys : Procs.Sys
  /-- `p->trace_mask`. -/
  mask : Slot → BitVec 32
  call : Slot → Option Frame
  /-- What `usertrap` has yet to print of an unexpected trap, one `printf` after the other. -/
  trap : Slot → Option (List (List Char))
  pr : Printing
  /-- `uart_tx_buf`, from `uart_tx_r` on. -/
  tx : List Char
  /-- What the UART was given. -/
  out : List Char
  hist : List Obs
  log : List Record

def boot : Sys where
  sys := Procs.boot
  mask _ := 0
  call _ := none
  trap _ := none
  pr := ⟨[], none, false⟩
  tx := []
  out := []
  hist := []
  log := []

inductive Event
  /-- The process `p` calls `syscall`. The name is what `p->name` holds. -/
  | enter (p : Slot) (a7 a0 : BitVec 64) (name : List Char)
  | setMask (p : Slot)
  /-- The `write` of `p` puts a character into `uart_tx_buf`. -/
  | put (p : Slot) (c : Char)
  | ret (p : Slot) (value : BitVec 64)
  /-- `p` takes an unexpected trap. -/
  | trap (p : Slot) (scause sepc stval : BitVec 64)
  /-- The next `printf` of `usertrap`. -/
  | tell (p : Slot)
  /-- `usertrap` has printed what it has to say, and kills `p`. -/
  | fault (p : Slot)
  /-- A `printf` of `procdump` or of `devintr`. -/
  | report (text : List Char)
  /-- The `printf` that holds `pr.lock` prints a character. -/
  | putc
  /-- `uartstart` sends a character. -/
  | send
  /-- `consoleintr` echoes a character. -/
  | echo (c : Char)
  | table (e : Procs.Event)

/-- A process that prints, or that `usertrap` is about to kill, does nothing else: interrupts are off. -/
def Sys.Free (s : Sys) (p : Slot) : Prop := s.trap p = none ∧ (s.pr.rest = [] ∨ s.pr.owner ≠ some p)

instance (s : Sys) (p : Slot) : Decidable (s.Free p) := inferInstanceAs (Decidable (_ ∧ _))

def allows (s : Sys) : Procs.Event → Bool
  | .schedule _ | .yield _ | .wake _ _ | .advance _ _ => true
  | .sleep p _ => (s.call p).isSome
  | .fork p => (s.call p).any fun f => f.num = SYS_fork ∧ f.done = false
  | .wait p addr => (s.call p).any fun f => f.num = SYS_wait ∧ f.done = false ∧ addr = f.arg.toNat
  | .kill p pid i =>
    (s.call p).any fun f => f.num = SYS_kill ∧ f.done = false ∧ pid = (argint f.arg).toInt ∧ f.next = i.val
  | .exit p status =>
    match s.call p with
    | some f => f.num = SYS_exit ∧ f.done = false ∧ status = (argint f.arg).toInt
    | none => (s.sys.proc p).killed = true ∧ status = -1
  | .fault _ => false

def caller : Procs.Event → Option Slot
  | .fork p | .wait p _ | .kill p _ _ | .exit p _ => some p
  | _ => none

/-- The process that takes a step of the table. -/
def actor : Procs.Event → Option Slot
  | .yield p | .sleep p _ | .fork p | .wait p _ | .kill p _ _ | .exit p _ | .fault p | .advance p _ => some p
  | .schedule _ | .wake _ _ => none

/-- What a step of the table does to the call of its process. A `kill` goes on until it has found the number. -/
def Frame.after (f : Frame) (b : Procs.Sys) : Procs.Event → Frame
  | .kill _ pid i =>
    if (b.proc i).pid = pid then { f with done := true } else { f with next := i + 1, done := i + 1 = NPROC }
  | _ => { f with done := true }

def Sys.setCall (s : Sys) (p : Slot) (g : Frame → Frame) : Slot → Option Frame := update s.call p ((s.call p).map g)

/-- What a step of the table does to masks: `fork` copies the mask of the parent over the one
that `allocproc` has cleared, and `freeproc` clears the mask. -/
def maskNext (s : Sys) : Procs.Event → Slot → BitVec 32
  | .advance p ok =>
    match s.sys.pc p with
    | .forkScan i =>
      if h : i < NPROC then
        if (s.sys.proc ⟨i, h⟩).state = .unused then
          if ok then update (update s.mask ⟨i, h⟩ 0) ⟨i, h⟩ (s.mask p)
          else update s.mask ⟨i, h⟩ 0
        else s.mask
      else s.mask
    | .waitScan addr i _ =>
      if h : i < NPROC then
        if (s.sys.proc ⟨i, h⟩).parent = some p ∧ (s.sys.proc ⟨i, h⟩).state = .zombie ∧
            ¬(addr ≠ 0 ∧ ok = false) then
          update s.mask ⟨i, h⟩ 0
        else s.mask
      else s.mask
    | _ => s.mask
  | _ => s.mask

def tableStep (s : Sys) (e : Procs.Event) (t : Procs.Sys) : Sys :=
  let call := match caller e with
    | some p => s.setCall p fun f => f.after s.sys e
    | none => s.call
  { s with
    sys := t
    mask := maskNext s e
    call := match births s.sys e with
      | some (np, _) => update call np none
      | none => call
    hist := match births s.sys e with
      | some (np, p) => .forked np (s.sys.gen np + 1) p (s.sys.gen p) :: s.hist
      | none => s.hist }

/-- The mask that decides whether a call is traced: `trace` looks at its argument. -/
def deciding (s : Sys) (p : Slot) (num : ℕ) (arg : BitVec 64) : BitVec 32 :=
  if num = SYS_trace then argint arg else s.mask p

def recordStart (pid : ℤ) (num : ℕ) : List Char :=
  printf "%d: syscall %s -> ".toList [.int pid, .str (some (syscallName num))]

def recordEnd (value : BitVec 64) : List Char := printf "%d\n".toList [.long value]

/-- A `printf` takes `pr.lock`. -/
def Sys.print (s : Sys) (x : Printing) : Option Sys := if s.pr.rest = [] then some { s with pr := x } else none

def enter (s : Sys) (p : Slot) (a7 a0 : BitVec 64) (name : List Char) : Option Sys :=
  match callNumber a7 with
  | some num =>
    let begun := traces (deciding s p num a0) num
    let t := { s with call := update s.call p (some ⟨num, a0, false, 0, begun⟩) }
    if begun then t.print ⟨recordStart (s.sys.proc p).pid num, some p, true⟩ else some t
  | none =>
    s.print ⟨printf "%d %s: unknown sys call %d\n".toList
      [.int (s.sys.proc p).pid, .str (some name), .int (a7.setWidth 32).toInt], some p, false⟩

def ret (s : Sys) (p : Slot) (f : Frame) (value : BitVec 64) : Option Sys :=
  let t := { s with call := update s.call p none }
  if traces (deciding s p f.num f.arg) f.num then
    { t with log := ⟨(s.sys.proc p).pid, f.num, value⟩ :: s.log }.print ⟨recordEnd value, some p, true⟩
  else some t

/-- What `usertrap` prints of an unexpected trap. -/
def trapTexts (pid : ℤ) (scause sepc stval : BitVec 64) : List (List Char) :=
  [printf "usertrap(): unexpected scause %p pid=%d\n".toList [.long scause, .int pid],
    printf "            sepc=%p stval=%p\n".toList [.long sepc, .long stval]]

/-- The functions of these calls do something to the process table or to the mask. -/
def Frame.Ready (f : Frame) : Prop :=
  f.num ≠ SYS_exit ∧
    (f.num = SYS_fork ∨ f.num = SYS_wait ∨ f.num = SYS_kill ∨ f.num = SYS_trace → f.done = true)

instance (f : Frame) : Decidable f.Ready := by
  unfold Frame.Ready
  infer_instance

def UART_TX_BUF_SIZE : ℕ := 32

/-- The process that must be free for an event. -/
def Event.actor : Event → Option Slot
  | .enter p .. | .setMask p | .put p _ | .ret p _ | .trap p .. => some p
  | .table e => Tracing.actor e
  | .tell _ | .fault _ | .report _ | .putc | .send | .echo _ => none

def act (s : Sys) : Event → Option Sys
  | .enter p a7 a0 name => if InUser s.sys p ∧ s.call p = none then enter s p a7 a0 name else none
  | .setMask p =>
    match s.call p with
    | some f =>
      if InUser s.sys p ∧ f.num = SYS_trace ∧ f.done = false then
        some { s with
          mask := update s.mask p (argint f.arg)
          call := s.setCall p fun f => { f with done := true }
          hist := .traced p (s.sys.gen p) (argint f.arg) :: s.hist }
      else none
    | none => none
  | .put p c =>
    if InUser s.sys p ∧ ((s.call p).any fun f => f.num = SYS_write) = true ∧ s.tx.length < UART_TX_BUF_SIZE then
      some { s with tx := s.tx ++ [c] }
    else none
  | .ret p value =>
    match s.call p with
    | some f => if InUser s.sys p ∧ f.Ready then ret s p f value else none
    | none => none
  | .trap p scause sepc stval =>
    if InUser s.sys p ∧ s.call p = none then
      some { s with trap := update s.trap p (some (trapTexts (s.sys.proc p).pid scause sepc stval)) }
    else none
  | .tell p =>
    match s.trap p with
    | some (text :: rest) => { s with trap := update s.trap p (some rest) }.print ⟨text, some p, false⟩
    | _ => none
  | .fault p =>
    if s.trap p = some [] ∧ (s.pr.rest = [] ∨ s.pr.owner ≠ some p) then
      (Procs.step s.sys (.fault p)).map fun t => { s with sys := t, trap := update s.trap p none }
    else none
  | .report text => s.print ⟨text, none, false⟩
  | .putc =>
    match s.pr.rest with
    | c :: rest => some { s with out := s.out ++ [c], pr := { s.pr with rest := rest } }
    | [] => none
  | .send =>
    match s.tx with
    | c :: rest => some { s with out := s.out ++ [c], tx := rest }
    | [] => none
  | .echo c => some { s with out := s.out ++ [c] }
  | .table e => if allows s e = true then (Procs.step s.sys e).map (tableStep s e) else none

def step (s : Sys) (e : Event) : Option Sys := if ∀ p ∈ e.actor, s.Free p then act s e else none

/-- Processes, masks and calls are as before, and so is what the machine remembers: only the console has changed. -/
structure Sys.Same (s t : Sys) : Prop where
  sys : t.sys = s.sys
  mask : t.mask = s.mask
  call : t.call = s.call
  hist : t.hist = s.hist
  log : t.log = s.log

/-- **What a step can do.** -/
inductive Tick (s : Sys) : Event → Sys → Prop
  | enter (p : Slot) (a7 a0 : BitVec 64) (name : List Char) (t : Sys) (hp : InUser s.sys p) (hc : s.call p = none)
      (h : enter s p a7 a0 name = some t) : Tick s (.enter p a7 a0 name) t
  | setMask (p : Slot) (f : Frame) (hc : s.call p = some f) (hf : f.num = SYS_trace) :
      Tick s (.setMask p) { s with
        mask := update s.mask p (argint f.arg)
        call := s.setCall p fun f => { f with done := true }
        hist := .traced p (s.sys.gen p) (argint f.arg) :: s.hist }
  | ret (p : Slot) (value : BitVec 64) (f : Frame) (t : Sys) (hp : InUser s.sys p) (hc : s.call p = some f)
      (hf : f.Ready) (h : ret s p f value = some t) : Tick s (.ret p value) t
  | fault (p : Slot) (b : Procs.Sys) (h : Procs.step s.sys (.fault p) = some b) :
      Tick s (.fault p) { s with sys := b, trap := update s.trap p none }
  | table (e : Procs.Event) (b : Procs.Sys) (ha : allows s e = true) (h : Procs.step s.sys e = some b) :
      Tick s (.table e) (tableStep s e b)
  /-- One character more on the console, of a `printf`, of a `write` or of the terminal. -/
  | putc (c : Char) (rest : List Char) (h : s.pr.rest = c :: rest) :
      Tick s .putc { s with out := s.out ++ [c], pr := { s.pr with rest := rest } }
  | send (c : Char) (rest : List Char) (h : s.tx = c :: rest) : Tick s .send { s with out := s.out ++ [c], tx := rest }
  | echo (c : Char) : Tick s (.echo c) { s with out := s.out ++ [c] }
  /-- A text that is not of a record begins. -/
  | print (e : Event) (x : Printing) (t : Sys) (he : (∃ p, e = .tell p) ∨ ∃ text, e = .report text)
      (hs : s.pr.rest = []) (hx : x.record = false) (ht : t.pr = x) (ho : t.out = s.out) (h : s.Same t) : Tick s e t
  | quiet (e : Event) (t : Sys) (hp : t.pr = s.pr) (ho : t.out = s.out) (h : s.Same t) : Tick s e t

variable {s t : Sys} {e : Event}

theorem Sys.print_eq_some {x : Printing} : s.print x = some t ↔ s.pr.rest = [] ∧ { s with pr := x } = t := by
  rw [Sys.print]
  split <;> simp_all

theorem tick_of_step (h : step s e = some t) : Tick s e t := by
  rw [step, Option.ite_none_right_eq_some] at h
  obtain ⟨-, h⟩ := h
  cases e with
  | enter p a7 a0 name =>
    obtain ⟨⟨hp, hc⟩, h⟩ := Option.ite_none_right_eq_some.mp h
    exact .enter p a7 a0 name t hp hc h
  | setMask p =>
    simp only [act] at h
    split at h
    · next f hc =>
      obtain ⟨⟨-, hf, -⟩, h⟩ := Option.ite_none_right_eq_some.mp h
      obtain rfl := Option.some.inj h
      exact .setMask p f hc hf
    · cases h
  | put p c | trap p scause sepc stval =>
    obtain ⟨-, h⟩ := Option.ite_none_right_eq_some.mp h
    obtain rfl := Option.some.inj h
    exact .quiet _ _ rfl rfl ⟨rfl, rfl, rfl, rfl, rfl⟩
  | ret p value =>
    simp only [act] at h
    split at h
    · next f hc =>
      obtain ⟨⟨hp, hf⟩, h⟩ := Option.ite_none_right_eq_some.mp h
      exact .ret p value f t hp hc hf h
    · cases h
  | tell p =>
    simp only [act] at h
    split at h
    · obtain ⟨hs, rfl⟩ := Sys.print_eq_some.mp h
      exact .print _ _ _ (.inl ⟨p, rfl⟩) hs rfl rfl rfl ⟨rfl, rfl, rfl, rfl, rfl⟩
    · cases h
  | fault p =>
    obtain ⟨-, h⟩ := Option.ite_none_right_eq_some.mp h
    obtain ⟨b, hb, rfl⟩ := Option.map_eq_some_iff.mp h
    exact .fault p b hb
  | report text =>
    obtain ⟨hs, rfl⟩ := Sys.print_eq_some.mp h
    exact .print _ _ _ (.inr ⟨text, rfl⟩) hs rfl rfl rfl ⟨rfl, rfl, rfl, rfl, rfl⟩
  | putc =>
    simp only [act] at h
    split at h <;> cases h
    rename_i c rest hs
    exact .putc c rest hs
  | send =>
    simp only [act] at h
    split at h <;> cases h
    rename_i c rest hs
    exact .send c rest hs
  | echo c =>
    obtain rfl := Option.some.inj h
    exact .echo c
  | table e =>
    obtain ⟨ha, h⟩ := Option.ite_none_right_eq_some.mp h
    obtain ⟨b, hb, rfl⟩ := Option.map_eq_some_iff.mp h
    exact .table e b ha hb

end Xv6.Tracing
