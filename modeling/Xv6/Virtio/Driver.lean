import Mathlib.Algebra.Ring.Nat
import Mathlib.Data.Fin.VecNotation
import Mathlib.Data.Fintype.Basic
import Mathlib.Data.List.FinRange
import Mathlib.Logic.Function.Basic
import Xv6.Lib.Outcome
import Xv6.Lib.Run

/-!
# The disk driver

A request to the disk is a chain of three descriptors. `virtio_disk_rw` puts the number of the first one in the ring
`avail` and sleeps; the device takes it from there, and puts it in the ring `used` when the request is done;
`virtio_disk_intr` finds it there and marks the buffer. `virtio_disk_rw` then gives the descriptors back.

The driver holds `vdisk_lock` wherever it is not asleep, but the device acts between any two steps: the write to the ring
and the increment of its index are two, and so are the rounds of the interrupt handler. What the device transfers is left
out. The indices of the rings wrap at `2 ^ 16`.
-/

namespace Xv6.Virtio

open Lib Function

def NUM : ℕ := 8

instance : NeZero NUM := ⟨by decide⟩

def VRING_DESC_F_NEXT : ℕ := 1

def VRING_DESC_F_WRITE : ℕ := 2

/-- Buffers are of a type `B`, and processes of a type `P`. -/
inductive Addr (B : Type)
  | null
  /-- `&disk.ops[i]`. -/
  | op (i : Fin NUM)
  | data (b : B)
  /-- `&disk.info[i].status`. -/
  | status (i : Fin NUM)
  deriving DecidableEq, Repr

structure Desc (B : Type) where
  addr : Addr B
  flags : ℕ
  next : ℕ
  deriving DecidableEq, Repr

/-- `struct virtq_avail` and `struct virtq_used`. -/
structure Ring where
  idx : ℕ
  ring : Fin NUM → Fin NUM

/-- A request that has its descriptors: the local variables of `virtio_disk_rw`. The number
`n`, which tells requests apart, is not in the source. -/
structure Req (B : Type) where
  b : B
  idx : Fin 3 → Fin NUM
  n : ℕ
  deriving DecidableEq

def Req.head {B : Type} (r : Req B) : Fin NUM := r.idx 0

/-- `disk.info[i]`, and the request it was written for, which is not in the source. -/
structure Info (B : Type) where
  b : Option B
  status : ℕ
  req : Option (Req B)

structure Disk (B : Type) where
  desc : Fin NUM → Desc B
  avail : Ring
  used : Ring
  free : Fin NUM → Bool
  usedIdx : ℕ
  info : Fin NUM → Info B

inductive Panic
  | freeDesc1
  /-- `free_desc 2`. -/
  | freeDesc2
  /-- `virtio_disk_intr status`. -/
  | intrStatus
  /-- `virtio_disk_intr` follows a null pointer. -/
  | nullBuf
  deriving DecidableEq, Repr

variable {B P : Type}

/-! ### Descriptors -/

/-- What `free_desc` and `memset` leave. -/
def Desc.zero : Desc B := ⟨.null, 0, 0⟩

def allocDesc (d : Disk B) : Option (Fin NUM × Disk B) :=
  ((List.finRange NUM).find? d.free).map fun i => (i, { d with free := update d.free i false })

def freeDesc (d : Disk B) (i : ℕ) : Except Panic (Disk B) :=
  if h : i < NUM then
    if d.free ⟨i, h⟩ then .error .freeDesc2
    else .ok { d with desc := update d.desc ⟨i, h⟩ Desc.zero, free := update d.free ⟨i, h⟩ true }
  else .error .freeDesc1

/-- The loop of `free_chain`, for at most so many rounds: after `NUM` rounds all descriptors
are free, and one more panics. -/
def freeChainLoop : ℕ → Disk B → ℕ → Except Panic (Disk B)
  | 0, _, _ => .error .freeDesc2
  | rounds + 1, d, i =>
    if h : i < NUM then do
      let flag := (d.desc ⟨i, h⟩).flags
      let nxt := (d.desc ⟨i, h⟩).next
      let d ← freeDesc d i
      if flag &&& VRING_DESC_F_NEXT ≠ 0 then freeChainLoop rounds d nxt else .ok d
    else .error .freeDesc1

def freeChain (d : Disk B) (i : ℕ) : Except Panic (Disk B) := freeChainLoop NUM d i

def alloc3Loop : ℕ → List (Fin NUM) → Disk B → Except Panic (Option (List (Fin NUM)) × Disk B)
  | 0, idx, d => .ok (some idx, d)
  | n + 1, idx, d =>
    match allocDesc d with
    | some (i, d) => alloc3Loop n (idx ++ [i]) d
    | none => do
      let d ← idx.foldlM (fun d (j : Fin NUM) => freeDesc d j) d
      .ok (none, d)

def alloc3Desc (d : Disk B) : Except Panic (Option (List (Fin NUM)) × Disk B) := alloc3Loop 3 [] d

def format (d : Disk B) (r : Req B) (write : Bool) : Disk B :=
  let desc := update d.desc (r.idx 0) ⟨.op (r.idx 0), VRING_DESC_F_NEXT, r.idx 1⟩
  let desc := update desc (r.idx 1)
    ⟨.data r.b, (if write then 0 else VRING_DESC_F_WRITE) ||| VRING_DESC_F_NEXT, r.idx 2⟩
  let desc := update desc (r.idx 2) ⟨.status (r.idx 0), VRING_DESC_F_WRITE, 0⟩
  { d with
    desc := desc
    info := update d.info (r.idx 0) ⟨some r.b, 0xff, some r⟩ }

/-- `avail->ring[avail->idx % NUM] = idx[0]`. -/
def enqueue (d : Disk B) (r : Req B) : Disk B :=
  { d with avail := { d.avail with ring := update d.avail.ring (Fin.ofNat NUM d.avail.idx) r.head } }

def Disk.descAt (d : Disk B) (i : ℕ) : Option (Desc B) := if h : i < NUM then some (d.desc ⟨i, h⟩) else none

def writeStatus (d : Disk B) (head : Fin NUM) : Disk B :=
  match (d.descAt (d.desc head).next).bind fun ds => d.descAt ds.next with
  | some ⟨.status i, _, _⟩ => { d with info := update d.info i { d.info i with status := 0 } }
  | _ => d

/-! ### The machine -/

inductive Pc (B : Type)
  | idle
  /-- In `virtio_disk_rw`, about to try `alloc3_desc`. -/
  | alloc (b : B) (write : Bool)
  /-- With the lock, about to increment `avail->idx`. -/
  | publish (r : Req B)
  /-- About to look at `b->disk`. -/
  | wait (r : Req B)

/-- Who has `vdisk_lock`. -/
inductive Holder (P : Type)
  | proc (p : P)
  | intr
  deriving DecidableEq, Repr

/-- What has happened. Nothing of it is in the source. -/
structure Hist (B : Type) where
  reqs : List (Req B)
  /-- How many of them the device has taken. -/
  taken : ℕ
  busy : List (Req B)
  /-- Those it has done. -/
  completed : List (Req B)
  /-- Those the interrupt handler has found done. -/
  consumed : List (Req B)

structure Sys (B P : Type) where
  disk : Disk B
  bdisk : B → Bool
  /-- Who has the buffer locked. -/
  held : B → Option P
  lock : Option (Holder P)
  pc : P → Pc B
  /-- How far the device has got in the ring `avail`. -/
  lastAvail : ℕ
  /-- The heads of the chains the device is busy with. -/
  busy : List (Fin NUM)
  panicked : Option Panic
  hist : Hist B

def boot : Sys B P where
  disk :=
    { desc := fun _ => Desc.zero
      avail := ⟨0, fun _ => 0⟩
      used := ⟨0, fun _ => 0⟩
      free := fun _ => true
      usedIdx := 0
      info := fun _ => ⟨none, 0, none⟩ }
  bdisk _ := false
  held _ := none
  lock := none
  pc _ := .idle
  lastAvail := 0
  busy := []
  panicked := none
  hist := ⟨[], 0, [], [], []⟩

inductive Event (B P : Type)
  /-- `p` locks a buffer, and unlocks it. -/
  | hold (p : P) (b : B)
  | drop (p : P) (b : B)
  | call (p : P) (b : B) (write : Bool)
  /-- `p` tries to get descriptors, and prepares the request if it gets them. -/
  | submit (p : P)
  | publish (p : P)
  | finish (p : P)
  | intrEnter
  | intrOne
  | intrExit
  | take
  /-- The device is done with one of the requests it is busy with. -/
  | complete (k : ℕ)
  deriving DecidableEq

/-- One round of the loop of `virtio_disk_intr`. -/
def intrRound [DecidableEq B] (s : Sys B P) : Sys B P :=
  let id := s.disk.used.ring (Fin.ofNat NUM s.disk.usedIdx)
  if (s.disk.info id).status ≠ 0 then { s with panicked := some .intrStatus }
  else
    match (s.disk.info id).b with
    | none => { s with panicked := some .nullBuf }
    | some b =>
      { s with
        bdisk := update s.bdisk b false
        disk := { s.disk with usedIdx := (s.disk.usedIdx + 1) % 2 ^ 16 }
        hist := { s.hist with consumed := s.hist.consumed ++ (s.disk.info id).req.toList } }

def act [DecidableEq B] [DecidableEq P] (s : Sys B P) : Event B P → Option (Sys B P)
  | .hold p b => if s.held b = none then some { s with held := update s.held b (some p) } else none
  | .drop p b =>
    match s.pc p with
    | .idle => if s.held b = some p then some { s with held := update s.held b none } else none
    | _ => none
  | .call p b write =>
    match s.pc p with
    | .idle => if s.held b = some p then some { s with pc := update s.pc p (.alloc b write) } else none
    | _ => none
  | .submit p =>
    match s.pc p with
    | .alloc b write =>
      if s.lock = none then
        match alloc3Desc s.disk with
        | .error e => some { s with panicked := some e }
        | .ok (some [i₀, i₁, i₂], d) =>
          let r : Req B := ⟨b, ![i₀, i₁, i₂], s.hist.reqs.length⟩
          some { s with
            disk := enqueue (format d r write) r
            bdisk := update s.bdisk b true
            lock := some (.proc p)
            pc := update s.pc p (.publish r) }
        | .ok (_, d) => some { s with disk := d }
      else none
    | _ => none
  | .publish p =>
    match s.pc p with
    | .publish r =>
      some { s with
        disk := { s.disk with avail := { s.disk.avail with idx := (s.disk.avail.idx + 1) % 2 ^ 16 } }
        lock := none
        pc := update s.pc p (.wait r)
        hist := { s.hist with reqs := s.hist.reqs ++ [r] } }
    | _ => none
  | .finish p =>
    match s.pc p with
    | .wait r =>
      if s.lock = none ∧ s.bdisk r.b = false then
        let d := { s.disk with
          info := update s.disk.info r.head { s.disk.info r.head with b := none } }
        match freeChain d r.head with
        | .error e => some { s with panicked := some e }
        | .ok d => some { s with disk := d, pc := update s.pc p .idle }
      else none
    | _ => none
  | .intrEnter => if s.lock = none then some { s with lock := some .intr } else none
  | .intrOne =>
    if s.lock = some .intr ∧ s.disk.usedIdx ≠ s.disk.used.idx then some (intrRound s) else none
  | .intrExit =>
    if s.lock = some .intr ∧ s.disk.usedIdx = s.disk.used.idx then some { s with lock := none }
    else none
  | .take =>
    if s.lastAvail ≠ s.disk.avail.idx then
      some { s with
        lastAvail := (s.lastAvail + 1) % 2 ^ 16
        busy := s.busy ++ [s.disk.avail.ring (Fin.ofNat NUM s.lastAvail)]
        hist := { s.hist with
          taken := s.hist.taken + 1
          busy := s.hist.busy ++ s.hist.reqs[s.hist.taken]?.toList } }
    else none
  | .complete k =>
    match s.busy[k]? with
    | some head =>
      let d := writeStatus s.disk head
      some { s with
        disk := { d with
          used := ⟨(d.used.idx + 1) % 2 ^ 16,
            update d.used.ring (Fin.ofNat NUM d.used.idx) head⟩ }
        busy := s.busy.eraseIdx k
        hist := { s.hist with
          busy := s.hist.busy.eraseIdx k
          completed := s.hist.completed ++ s.hist.busy[k]?.toList } }
    | none => none

def step [DecidableEq B] [DecidableEq P] (s : Sys B P) (e : Event B P) : Option (Sys B P) :=
  if s.panicked = none then act s e else none

end Xv6.Virtio
