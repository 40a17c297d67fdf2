import Xv6.Lib.Bytes
import Xv6.Lib.Outcome
import Xv6.Param
import Mathlib.Algebra.BigOperators.Group.Finset.Basic
import Mathlib.Algebra.Order.Group.Multiset

/-!
# Page tables

The functions of `kernel/vm.c` on the page table of a process, with the free list of `kernel/kalloc.c`. A page of memory is
given by its number. The levels of a page table are kept apart: `dir1` has the page-table pages that the entries of the
root point to, `dir0` those of the next level, and `pte` the leaves, all with the bits of the virtual address down to their
level as index. Entries of a page-table page that is not there are empty.
-/

namespace Xv6.Paging

open Lib Function

/-! ### Memory -/

def MAXVA : ℕ := 2 ^ 38

def TRAMPOLINE : ℕ := MAXVA - PGSIZE

def TRAPFRAME : ℕ := TRAMPOLINE - PGSIZE

/-- The number of the page behind the memory, `PHYSTOP`. -/
def PHYSTOP : ℕ := (0x80000000 + 128 * 1024 * 1024) / PGSIZE

def pgroundup (sz : ℕ) : ℕ := (sz + PGSIZE - 1) % 2 ^ 64 / PGSIZE * PGSIZE

abbrev Page := Bytes PGSIZE

/-- The permissions of a page. `PTE_V` is set for a page that is there. -/
structure Perm where
  r : Bool
  w : Bool
  x : Bool
  u : Bool
  deriving DecidableEq, Repr

structure Pte where
  pa : ℕ
  perm : Perm
  deriving DecidableEq, Repr

/-- A page table, and the pages it is made of. -/
structure Pagetable where
  root : ℕ
  dir1 : ℕ → Option ℕ
  dir0 : ℕ → Option ℕ
  pte : ℕ → Option Pte

/-- The memory, and the page table that is at work. -/
structure Vm where
  free : List ℕ
  data : ℕ → Page
  pt : Pagetable
  /-- The number of the first page behind the kernel. -/
  lo : ℕ

inductive Panic
  | kfree
  | walk
  | mapSize
  | remap
  | unmapAligned
  | unmapWalk
  | notMapped
  | notLeaf
  | freewalkLeaf
  | copyPte
  | copyAbsent
  | clear
  | loadseg
  | filedup
  | nullCwd
  deriving DecidableEq, Repr

def kalloc (vm : Vm) : Option (ℕ × Vm) :=
  match vm.free with
  | [] => none
  | pa :: free => some (pa, { vm with free := free, data := update vm.data pa fun _ => 5 })

def kfree (vm : Vm) (pa : ℕ) : Except Panic Vm :=
  if vm.lo ≤ pa ∧ pa < PHYSTOP then
    .ok { vm with free := pa :: vm.free, data := update vm.data pa fun _ => 1 }
  else .error .kfree

/-- `memset(mem, 0, PGSIZE)`, for a page of data. -/
def zero (vm : Vm) (pa : ℕ) : Vm := { vm with data := update vm.data pa fun _ => 0 }

/-! ### Walking a page table -/

/-- The step of `walk` at the root. A new page-table page is cleared. -/
def walk2 (vm : Vm) (i : ℕ) (alloc : Bool) : Bool × Vm :=
  match vm.pt.dir1 i with
  | some _ => (true, vm)
  | none =>
    if alloc then
      match kalloc vm with
      | some (pa, vm) => (true, { vm with pt := { vm.pt with
          dir1 := update vm.pt.dir1 i (some pa)
          dir0 := fun j => if j / 512 = i then none else vm.pt.dir0 j } })
      | none => (false, vm)
    else (false, vm)

/-- The step of `walk` one level below. -/
def walk1 (vm : Vm) (i : ℕ) (alloc : Bool) : Bool × Vm :=
  match vm.pt.dir0 i with
  | some _ => (true, vm)
  | none =>
    if alloc then
      match kalloc vm with
      | some (pa, vm) => (true, { vm with pt := { vm.pt with
          dir0 := update vm.pt.dir0 i (some pa)
          pte := fun v => if v / 512 = i then none else vm.pt.pte v } })
      | none => (false, vm)
    else (false, vm)

def walk (vm : Vm) (va : ℕ) (alloc : Bool) : Except Panic (Bool × Vm) :=
  if va ≥ MAXVA then .error .walk
  else
    let (found, vm) := walk2 vm (va / PGSIZE / 512 / 512) alloc
    if found then .ok (walk1 vm (va / PGSIZE / 512) alloc) else .ok (false, vm)

/-- Write the entry that `walk` has found. -/
def setPte (vm : Vm) (v : ℕ) (e : Option Pte) : Vm :=
  { vm with pt := { vm.pt with pte := update vm.pt.pte v e } }

/-- `walkaddr`: the page for an address that the user may access. -/
def walkaddr (vm : Vm) (va : ℕ) : Option ℕ :=
  if va ≥ MAXVA then none
  else
    match walk vm va false with
    | .ok (true, _) => (vm.pt.pte (va / PGSIZE)).bind fun e => if e.perm.u then some e.pa else none
    | _ => none

/-- The loop of `mappages`, with `n` pages to map after the one at `a`. -/
def mapLoop : ℕ → Vm → ℕ → ℕ → Perm → Except Panic (Bool × Vm)
  | n, vm, a, pa, perm => do
    let (found, vm) ← walk vm a true
    if found then
      if (vm.pt.pte (a / PGSIZE)).isSome then .error .remap
      else
        let vm := setPte vm (a / PGSIZE) (some ⟨pa, perm⟩)
        match n with
        | 0 => .ok (true, vm)
        | n + 1 => mapLoop n vm (a + PGSIZE) (pa + 1) perm
    else .ok (false, vm)

def mappages (vm : Vm) (va size pa : ℕ) (perm : Perm) : Except Panic (Bool × Vm) :=
  if size = 0 then .error .mapSize
  else
    let a := va / PGSIZE * PGSIZE
    let last := (va + size - 1) / PGSIZE * PGSIZE
    mapLoop ((last - a) / PGSIZE) vm a pa perm

/-- A round of `uvmunmap`. -/
def unmapPage (vm : Vm) (a : ℕ) (doFree : Bool) : Except Panic Vm := do
  let (found, vm) ← walk vm a false
  if found then
    match vm.pt.pte (a / PGSIZE) with
    | none => .error .notMapped
    | some e =>
      -- an entry with `PTE_V` alone would point to a page table
      if e.perm.r || e.perm.w || e.perm.x || e.perm.u then do
        let vm ← if doFree then kfree vm e.pa else .ok vm
        .ok (setPte vm (a / PGSIZE) none)
      else .error .notLeaf
  else .error .unmapWalk

def unmapLoop : ℕ → Vm → ℕ → Bool → Except Panic Vm
  | 0, vm, _, _ => .ok vm
  | n + 1, vm, a, doFree => do
    let vm ← unmapPage vm a doFree
    unmapLoop n vm (a + PGSIZE) doFree

def uvmunmap (vm : Vm) (va npages : ℕ) (doFree : Bool) : Except Panic Vm :=
  if va % PGSIZE ≠ 0 then .error .unmapAligned else unmapLoop npages vm va doFree

/-! ### User memory -/

def uvmdealloc (vm : Vm) (oldsz newsz : ℕ) : Except Panic (ℕ × Vm) :=
  if newsz ≥ oldsz then .ok (oldsz, vm)
  else if pgroundup newsz < pgroundup oldsz then do
    let vm ← uvmunmap vm (pgroundup newsz) ((pgroundup oldsz - pgroundup newsz) / PGSIZE) true
    .ok (newsz, vm)
  else .ok (newsz, vm)

def userPerm : Perm := ⟨true, true, true, true⟩

/-- The loop of `uvmalloc`, in at most `fuel` rounds: each takes a page from the free list. -/
def uvmallocLoop : ℕ → Vm → ℕ → ℕ → ℕ → Except Panic (ℕ × Vm)
  | 0, vm, _, _, _ => .ok (0, vm)
  | fuel + 1, vm, a, oldsz, newsz =>
    if a < newsz then
      match kalloc vm with
      | none => do
        let (_, vm) ← uvmdealloc vm a oldsz
        .ok (0, vm)
      | some (mem, vm) => do
        let (mapped, vm) ← mappages (zero vm mem) a PGSIZE mem userPerm
        if mapped then uvmallocLoop fuel vm ((a + PGSIZE) % 2 ^ 64) oldsz newsz
        else do
          let vm ← kfree vm mem
          let (_, vm) ← uvmdealloc vm a oldsz
          .ok (0, vm)
    else .ok (newsz, vm)

def uvmalloc (vm : Vm) (oldsz newsz : ℕ) : Except Panic (ℕ × Vm) :=
  if newsz < oldsz then .ok (oldsz, vm)
  else uvmallocLoop (vm.free.length + 1) vm (pgroundup oldsz) (pgroundup oldsz) newsz

/-- `growproc`, for a process of size `sz`: what it returns, and the new size. The sizes go through
variables of type `uint`. -/
def growproc (vm : Vm) (sz : ℕ) (n : ℤ) : Except Panic (ℤ × ℕ × Vm) :=
  -- the sum of a `uint` and an `int` is a `uint`
  let sz32 := sz % 2 ^ 32
  let newsz := ((sz32 + n) % 2 ^ 32).toNat
  if n > 0 then do
    let (r, vm) ← uvmalloc vm sz32 newsz
    if r % 2 ^ 32 = 0 then .ok (-1, sz, vm) else .ok (0, r % 2 ^ 32, vm)
  else if n < 0 then do
    let (r, vm) ← uvmdealloc vm sz32 newsz
    .ok (0, r % 2 ^ 32, vm)
  else .ok (0, sz32, vm)

end Xv6.Paging
