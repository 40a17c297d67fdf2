import Xv6.Vm.Free

/-!
# `exec`

`exec` makes a page table, loads the segments of the file into it, and puts the arguments on a stack
behind them. The old memory is given back only once nothing can go wrong any more. The file is a string of bytes, as `readi`
returns them.
-/

namespace Xv6.Paging

open Lib Function

/-! ### The functions -/

/-- `readi` into memory of the kernel: the bytes it has copied. Its arguments and the size of the file are of type `uint`. -/
def readi (file : List UInt8) (off n : ℕ) : List UInt8 :=
  if off > file.length ∨ (off + n) % 2 ^ 32 < off then [] else (file.drop off).take n

def ELFMAGIC : ℕ := 0x464C457F

def ELFHDR : ℕ := 64

def PROGHDR : ℕ := 56

def ELFPROGLOAD : ℕ := 1

def MAXARG : ℕ := 32

def fieldAt (hdr : List UInt8) (off width : ℕ) : ℕ := leNat ((hdr.drop off).take width)

/-- The loop of `loadseg`, with `n` pages to load from the one at `va + i` on. -/
def loadsegLoop (file : List UInt8) (va offset sz : ℕ) : ℕ → Vm → ℕ → Except Panic (Bool × Vm)
  | 0, vm, _ => .ok (true, vm)
  | k + 1, vm, i =>
    match walkaddr vm ((va + i) % 2 ^ 64) with
    | none => .error .loadseg
    | some pa =>
      let n := if sz - i < PGSIZE then sz - i else PGSIZE
      let bytes := readi file ((offset + i) % 2 ^ 32) n
      let vm := { vm with data := update vm.data pa (store (vm.data pa) 0 bytes) }
      if bytes.length ≠ n then .ok (false, vm) else loadsegLoop file va offset sz k vm (i + PGSIZE)

/-- `loadseg`: whether the file was long enough. The last two arguments are of type `uint`. -/
def loadseg (vm : Vm) (va : ℕ) (file : List UInt8) (offset sz : ℕ) : Except Panic (Bool × Vm) :=
  loadsegLoop file va (offset % 2 ^ 32) (sz % 2 ^ 32) (pages (sz % 2 ^ 32)) vm 0

/-- The loop of `exec` over the program headers, with `n` of them left: whether they could be loaded, the size and the
memory. The variable `off` is of type `int`, and goes to `readi` as a `uint`. -/
def loadLoop (file : List UInt8) : ℕ → ℕ → ℕ → Vm → Except Panic (Bool × ℕ × Vm)
  | 0, _, sz, vm => .ok (true, sz, vm)
  | n + 1, off, sz, vm =>
    let ph := readi file off PROGHDR
    let vaddr := fieldAt ph 16 8
    let filesz := fieldAt ph 32 8
    let memsz := fieldAt ph 40 8
    if ph.length ≠ PROGHDR then .ok (false, sz, vm)
    -- `continue`
    else if fieldAt ph 0 4 ≠ ELFPROGLOAD then loadLoop file n ((off + PROGHDR) % 2 ^ 32) sz vm
    else if memsz < filesz then .ok (false, sz, vm)
    else if (vaddr + memsz) % 2 ^ 64 < vaddr then .ok (false, sz, vm)
    else do
      let (sz1, vm) ← uvmalloc vm sz ((vaddr + memsz) % 2 ^ 64)
      if sz1 = 0 then .ok (false, sz, vm)
      -- the memory is there already: the size that is given back must be the new one
      else if vaddr % PGSIZE ≠ 0 then .ok (false, sz1, vm)
      else do
        let (loaded, vm) ← loadseg vm vaddr file (fieldAt ph 8 8) filesz
        if loaded then loadLoop file n ((off + PROGHDR) % 2 ^ 32) sz1 vm else .ok (false, sz1, vm)

def uvmclear (vm : Vm) (va : ℕ) : Except Panic Vm := do
  let (found, vm) ← walk vm va false
  if found then
    .ok (setPte vm (va / PGSIZE) ((vm.pt.pte (va / PGSIZE)).map fun e => { e with perm := { e.perm with u := false } }))
  else .error .clear

def copyoutLoop : ℕ → Vm → ℕ → List UInt8 → Bool × Vm
  | 0, vm, _, _ => (true, vm)
  | fuel + 1, vm, dstva, src =>
    if src.length > 0 then
      let va0 := dstva / PGSIZE * PGSIZE
      match walkaddr vm va0 with
      | none => (false, vm)
      | some pa =>
        let n := min (PGSIZE - (dstva - va0)) src.length
        let vm := { vm with data := update vm.data pa (store (vm.data pa) (dstva - va0) (src.take n)) }
        copyoutLoop fuel vm (va0 + PGSIZE) (src.drop n)
    else (true, vm)

def copyout (vm : Vm) (dstva : ℕ) (src : List UInt8) : Bool × Vm := copyoutLoop (src.length + 1) vm dstva src

def push (sp x : ℕ) : ℕ :=
  let sp := (sp + 2 ^ 64 - x) % 2 ^ 64
  sp - sp % 16

/-- The loop over the arguments: the stack pointer, the pointers to the strings and the memory, or only the memory where
it ends with an error. -/
def pushArgs (stackbase : ℕ) : List (List UInt8) → ℕ → List ℕ → Vm → Option (ℕ × List ℕ) × Vm
  | [], sp, ustack, vm => (some (sp, ustack), vm)
  | arg :: argv, sp, ustack, vm =>
    -- `ustack` has `MAXARG` places
    if ustack.length ≥ MAXARG then (none, vm)
    else
      let sp := push sp (arg.length + 1)
      if sp < stackbase then (none, vm)
      else
        let (copied, vm) := copyout vm sp (arg ++ [0])
        if copied then pushArgs stackbase argv sp (ustack ++ [sp]) vm else (none, vm)

/-- The arguments and the pointers to them: the stack pointer and the memory. -/
def pushAll (vm : Vm) (sz : ℕ) (argv : List (List UInt8)) : Option ℕ × Vm :=
  match pushArgs (sz - PGSIZE) argv sz [] vm with
  | (none, vm) => (none, vm)
  | (some (sp, ustack), vm) =>
    let sp := push sp ((ustack.length + 1) * 8)
    if sp < sz - PGSIZE then (none, vm)
    else
      let (copied, vm) := copyout vm sp ((ustack ++ [0]).flatMap (leBytes 8))
      if copied then (some sp, vm) else (none, vm)

def makeStack (vm : Vm) (sz : ℕ) (argv : List (List UInt8)) : Except Panic (Option ℕ × ℕ × Vm) := do
  let sz := pgroundup sz
  let (sz1, vm) ← uvmalloc vm sz (sz + 2 * PGSIZE)
  if sz1 = 0 then .ok (none, sz, vm)
  else do
    let vm ← uvmclear vm (sz1 - 2 * PGSIZE)
    let (sp, vm) := pushAll vm sz1 argv
    .ok (sp, sz1, vm)

/-- The process that calls `exec`, and what else it may change. -/
structure Task where
  free : List ℕ
  data : ℕ → Page
  lo : ℕ
  trampoline : ℕ
  pagetable : Pagetable
  sz : ℕ
  trapframe : ℕ
  name : List UInt8
  /-- The references to the inode of the file, and `log.outstanding`. -/
  iref : ℕ
  outstanding : ℕ

def Task.vm (t : Task) (pt : Pagetable) : Vm := ⟨t.free, t.data, pt, t.lo⟩

def Task.setVm (t : Task) (vm : Vm) : Task := { t with free := vm.free, data := vm.data }

/-- `iunlockput(ip); end_op();` -/
def Task.put (t : Task) : Task := { t with iref := t.iref - 1, outstanding := t.outstanding - 1 }

/-- The rest of `exec`, which cannot fail. -/
def commit (t : Task) (vm : Vm) (sz sp entry : ℕ) (name : List UInt8) : Except Panic Task := do
  let frame := store (store (store (vm.data t.trapframe) 120 (leBytes 8 sp)) 24 (leBytes 8 entry)) 48 (leBytes 8 sp)
  let old ← procFreepagetable { vm with data := update vm.data t.trapframe frame, pt := t.pagetable } t.sz
  .ok { t with
    free := old.free
    data := old.data
    pagetable := vm.pt
    sz := sz
    name := name.take 15 }

/-- **`exec`**, once the path has been resolved, for the last element of the path as `name`: what it returns. -/
def exec (t : Task) (file name : List UInt8) (argv : List (List UInt8)) : Except Panic (ℤ × Task) := do
  let t := { t with iref := t.iref + 1, outstanding := t.outstanding + 1 }
  let elf := readi file 0 ELFHDR
  if elf.length ≠ ELFHDR then .ok (-1, t.put)
  else if fieldAt elf 0 4 ≠ ELFMAGIC then .ok (-1, t.put)
  else do
    let (made, vm) ← procPagetable (t.vm t.pagetable) t.trampoline t.trapframe
    if made then do
      let (loaded, sz, vm) ← loadLoop file (fieldAt elf 56 2) (fieldAt elf 32 8 % 2 ^ 32) 0 vm
      if loaded then do
        -- from here on `ip` is 0, and an error does not put it again
        let t := t.put
        let (sp, sz, vm) ← makeStack vm sz argv
        match sp with
        | some sp => do
          let t ← commit t vm sz sp (fieldAt elf 24 8) name
          .ok (argv.length, t)
        | none => do
          let vm ← procFreepagetable vm sz
          .ok (-1, t.setVm vm)
      else do
        let vm ← procFreepagetable vm sz
        .ok (-1, (t.setVm vm).put)
    else .ok (-1, (t.setVm vm).put)

end Xv6.Paging
