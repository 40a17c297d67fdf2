import Xv6.Proc.Table
import Xv6.Vm.Free
import Mathlib.Data.Fintype.Card

/-!
# `fork`

`uvmcopy` maps a new page for each page of the parent, with the same permissions and the same contents, or
undoes what it has done. A `fork` that fails gives back the trapframe and the page table of the child as well, whose
size is still 0, so that the free pages are those from before.
-/

namespace Xv6.Paging

open Lib Function

open Multiset (cons_coe disjoint_left mem_add mem_coe mem_sum nodup_add singleton_add)

/-! ### The functions -/

/-- The loop of `uvmcopy`, with `n` pages to copy from the one at `i` on. The memory is that with the new
page table. -/
def uvmcopyLoop (old : Pagetable) : ℕ → Vm → ℕ → Except Panic (Bool × Vm)
  | 0, vm, _ => .ok (true, vm)
  | n + 1, vm, i => do
    let (found, _) ← walk { vm with pt := old } i false
    if found then
      match old.pte (i / PGSIZE) with
      | none => .error .copyAbsent
      | some e =>
        match kalloc vm with
        | none => do
          let vm ← uvmunmap vm 0 (i / PGSIZE) true
          .ok (false, vm)
        | some (mem, vm) => do
          let (mapped, vm) ← mappages { vm with data := update vm.data mem (vm.data e.pa) } i PGSIZE mem e.perm
          if mapped then uvmcopyLoop old n vm (i + PGSIZE)
          else do
            let vm ← kfree vm mem
            let vm ← uvmunmap vm 0 (i / PGSIZE) true
            .ok (false, vm)
    else .error .copyPte

def uvmcopy (old : Pagetable) (vm : Vm) (sz : ℕ) : Except Panic (Bool × Vm) := uvmcopyLoop old (pages sz) vm 0

/-- What `fork` and the functions it calls read and write of a `struct proc`. -/
structure Proc where
  state : Procs.ProcState
  pid : ℕ
  sz : ℕ
  pagetable : Option Pagetable
  trapframe : Option ℕ
  parent : Option ℕ
  /-- The name, up to the NUL. -/
  name : List ℕ
  ofile : Fin NOFILE → Option ℕ
  cwd : Option ℕ
  traceMask : ℕ

def Proc.clean : Proc where
  state := .unused
  pid := 0
  sz := 0
  pagetable := none
  trapframe := none
  parent := none
  name := []
  ofile _ := none
  cwd := none
  traceMask := 0

structure Kernel where
  free : List ℕ
  data : ℕ → Page
  lo : ℕ
  /-- The page with the code of `trampoline.S`. -/
  trampoline : ℕ
  procs : ℕ → Proc
  nextpid : ℕ
  /-- The reference counts of the open files, and of the inodes. -/
  fref : ℕ → ℕ
  iref : ℕ → ℕ

def Kernel.vm (k : Kernel) (pt : Pagetable) : Vm := ⟨k.free, k.data, pt, k.lo⟩

def noTable : Pagetable := ⟨0, fun _ => none, fun _ => none, fun _ => none⟩

def Kernel.setVm (k : Kernel) (vm : Vm) : Kernel := { k with free := vm.free, data := vm.data }

def Kernel.setProc (k : Kernel) (i : ℕ) (p : Proc) : Kernel := { k with procs := update k.procs i p }

def freeTrapframe (vm : Vm) : Option ℕ → Except Panic Vm
  | some tf => kfree vm tf
  | none => .ok vm

def freeTable (vm : Vm) (sz : ℕ) : Option Pagetable → Except Panic Vm
  | some pt => procFreepagetable { vm with pt := pt } sz
  | none => .ok vm

def freeproc (k : Kernel) (i : ℕ) : Except Panic Kernel := do
  let p := k.procs i
  let vm ← freeTrapframe (k.vm noTable) p.trapframe
  let vm ← freeTable vm p.sz p.pagetable
  .ok ((k.setVm vm).setProc i { p with
    trapframe := none
    pagetable := none
    sz := 0
    pid := 0
    parent := none
    name := []
    state := .unused
    traceMask := 0 })

/-- `allocproc`, once it has found slot `i` and put `p` there. -/
def allocFound (k : Kernel) (i : ℕ) (p : Proc) : Except Panic (Option ℕ × Kernel) :=
  match kalloc (k.vm noTable) with
  | none => do
    let k ← freeproc (k.setProc i { p with trapframe := none }) i
    .ok (none, k)
  | some (tf, vm) => do
    let (made, vm) ← procPagetable vm k.trampoline tf
    if made then
      .ok (some i, (k.setVm vm).setProc i { p with
        trapframe := some tf
        pagetable := some vm.pt
        traceMask := 0 })
    else do
      let k ← freeproc ((k.setVm vm).setProc i { p with trapframe := some tf, pagetable := none }) i
      .ok (none, k)

def allocproc (k : Kernel) : Except Panic (Option ℕ × Kernel) :=
  match (List.range NPROC).find? fun i => (k.procs i).state = .unused with
  | none => .ok (none, k)
  | some i =>
    allocFound { k with nextpid := k.nextpid + 1 } i { k.procs i with pid := k.nextpid, state := .used }

/-- The numbers of the bytes of a trapframe, and of those of `a0`. -/
def TRAPFRAMESIZE : ℕ := 288

def A0 : ℕ := 112

def copyTrapframe (parent child : Page) : Page := fun i =>
  if A0 ≤ i ∧ i < A0 + 8 then 0 else if i < TRAPFRAMESIZE then parent i else child i

def filedups (ofile : Fin NOFILE → Option ℕ) (fds : List (Fin NOFILE)) (fref : ℕ → ℕ) : Except Panic (ℕ → ℕ) :=
  fds.foldlM (fun fref fd =>
    match ofile fd with
    | none => .ok fref
    | some f => if fref f < 1 then .error .filedup else .ok (update fref f (fref f + 1))) fref

/-- The rest of `fork`, once the memory has been copied. -/
def forkRest (k : Kernel) (p np : ℕ) : Except Panic (Option ℕ × Kernel) :=
  let parent := k.procs p
  let child := k.procs np
  match parent.trapframe, child.trapframe, parent.cwd with
  | some tf, some tf', some cwd => do
    let fref ← filedups parent.ofile (List.finRange NOFILE) k.fref
    let k := { k with
      data := update k.data tf' (copyTrapframe (k.data tf) (k.data tf'))
      fref := fref
      iref := update k.iref cwd (k.iref cwd + 1) }
    .ok (some child.pid, k.setProc np { child with
      sz := parent.sz
      -- where the parent has no file the slot is left as it was
      ofile := fun fd => (parent.ofile fd).or (child.ofile fd)
      cwd := some cwd
      name := parent.name.take 15
      traceMask := parent.traceMask
      parent := some p
      state := .runnable })
  | _, _, _ => .error .nullCwd

/-- `fork` by the process in slot `p`: the pid of the child, or nothing where it returns -1. -/
def fork (k : Kernel) (p : ℕ) : Except Panic (Option ℕ × Kernel) := do
  let (slot, k) ← allocproc k
  match slot with
  | none => .ok (none, k)
  | some np =>
    match (k.procs p).pagetable, (k.procs np).pagetable with
    | some old, some new => do
      let (copied, vm) ← uvmcopy old (k.vm new) (k.procs p).sz
      let k := (k.setVm vm).setProc np { k.procs np with pagetable := some vm.pt }
      if copied then forkRest k p np
      else do
        -- the size of the child is still 0: `freeproc` looks for no pages of the user
        let k ← freeproc k np
        .ok (none, k)
    | _, _ => .error .copyPte

/-! ### `uvmcopy` -/

variable {vm vm' vm₀ : Vm} {old : Pagetable} {v n N : ℕ} {q : ℕ}

def copyOf (old : Pagetable) (data : ℕ → Page) (v : ℕ) : Perm × Page :=
  match old.pte v with
  | some e => (e.perm, data e.pa)
  | none => (userPerm, fun _ => 0)

theorem uvmcopyLoop_spec (h : Filled (copyOf old vm₀.data) vm₀ 0 v vm) (hN : v + n = N) (htop : N * PGSIZE ≤ TRAPFRAME) (htree : Tree old)
    (hold : ∀ w, w < N → ∃ e, old.pte w = some e ∧ LeafPerm e.perm ∧ e.pa ∉ vm₀.stock)
    (hnone : ∀ w, w < N → vm₀.pt.pte w = none) (hnodup : vm₀.stock.Nodup) (hram : ∀ p ∈ vm₀.stock, vm₀.Ram p) :
    ∃ copied vm', uvmcopyLoop old n vm (v * PGSIZE) = .ok (copied, vm') ∧
      if copied then Filled (copyOf old vm₀.data) vm₀ 0 N vm' else Same vm₀ vm' := by
  have hleaf : ∀ w, w < N → LeafPerm (copyOf old vm₀.data w).1 := by
    intro w hw
    obtain ⟨e, he, hperm, -⟩ := hold w hw
    rw [copyOf, he]
    exact hperm
  -- on the pages that are left; `v` pages have been copied
  induction n generalizing v vm with
  | zero =>
    obtain rfl : v = N := by omega
    exact ⟨true, vm, rfl, h⟩
  | succ n ih =>
    have hv : v < N := by omega
    have hmax : v * PGSIZE ≤ MAXVA - PGSIZE :=
      (Nat.mul_le_mul_right _ hv.le).trans (htop.trans (by decide))
    have hva : v * PGSIZE < MAXVA := lt_of_le_of_lt hmax (by decide)
    -- what was mapped so far is unmapped on an error
    have hundo : ∀ vm₁ : Vm, Filled (copyOf old vm₀.data) vm₀ 0 v vm₁ → ∃ vm', uvmunmap vm₁ 0 v true = .ok vm' ∧ Same vm₀ vm' := by
      intro vm₁ h₁
      obtain ⟨vm', hloop, hsame⟩ := h₁.undo hram hmax (fun w _ hw => hnone w (by omega)) fun w _ hw => hleaf w (by omega)
      refine ⟨vm', ?_, hsame⟩
      rw [Nat.sub_zero, Nat.zero_mul] at hloop
      rw [uvmunmap, if_neg (by decide), hloop]
    obtain ⟨e, he, hperm, hout⟩ := hold v hv
    have hwant : copyOf old vm₀.data v = (e.perm, vm₀.data e.pa) := by rw [copyOf, he]
    have hw : walk { vm with pt := old } (v * PGSIZE) false = _ :=
      walk_found htree hva ((congrArg _ (mul_div_pgsize v)).trans he)
    rw [uvmcopyLoop, hw, ok_bind, kalloc]
    simp only [if_true, mul_div_pgsize, he]
    cases hfree : vm.free with
    | nil =>
      obtain ⟨vm', hun, hsame⟩ := hundo vm h
      refine ⟨false, vm', ?_, hsame⟩
      simp only [hun, ok_bind]
    | cons pa free =>
      have hpa : pa ∈ vm₀.stock := by
        rw [← h.stock]
        exact Multiset.mem_add.mpr (.inr (mem_stock_of_free (by rw [hfree]; exact List.mem_cons_self)))
      have hne : e.pa ≠ pa := by
        rintro rfl
        exact hout hpa
      have hdata : update vm.data pa (fun _ => 5) e.pa = vm₀.data e.pa := by
        rw [update_of_ne hne, h.data _ hout]
      obtain ⟨mapped, vm₂, hmapp, hmap⟩ := mappages_spec
        { vm with free := free, data := update (update vm.data pa fun _ => 5) pa (vm₀.data e.pa) } pa e.perm h.tree hva
        ((h.old v (by omega)).trans (hnone v hv))
      have hstep := h.step hnodup hfree (by rw [hwant]; exact hmap) (hnone v hv)
      simp only [hdata, hmapp, ok_bind]
      cases mapped with
      | true =>
        simp only [if_true] at hstep ⊢
        have hnext : v * PGSIZE + PGSIZE = (v + 1) * PGSIZE := (Nat.succ_mul ..).symm
        rw [hnext]
        exact ih hstep (by omega)
      | false =>
        simp only [Bool.false_eq_true, if_false] at hstep ⊢
        have hr : vm₂.Ram pa := by
          have := hram pa hpa
          rw [Vm.Ram, hmap.lo]
          exact h.lo ▸ this
        obtain ⟨vm', hun, hsame⟩ := hundo _ hstep
        refine ⟨false, vm', ?_, hsame⟩
        rw [kfree_eq _ hr, ok_bind, hun]
        rfl

theorem frames_inj {pt : Pagetable} {w w' : ℕ} {e e' : Pte} (h : (frames pt 0 n).Nodup) (hw : w < n) (hw' : w' < n)
    (he : pt.pte w = some e) (he' : pt.pte w' = some e') (heq : e.pa = e'.pa) : w = w' := by
  by_contra hne
  rw [frames, ← Finset.add_sum_erase _ _ (Finset.mem_range.mpr hw), Nat.zero_add, he] at h
  have hmem : e.pa ∈ pageOf ((some e).map Pte.pa) := by simp [pageOf]
  refine Multiset.disjoint_left.mp (Multiset.nodup_add.mp h).2.2 hmem ?_
  refine Multiset.mem_sum.mpr ⟨w', Finset.mem_erase.mpr ⟨Ne.symm hne, Finset.mem_range.mpr hw'⟩, ?_⟩
  rw [Nat.zero_add, he', heq]
  simp [pageOf]

/-! ### Processes -/

variable {k k' : Kernel} {i : ℕ}

/-- Nothing has changed but the contents of free pages, and the next pid. -/
structure Unchanged (k k' : Kernel) : Prop where
  free : (k'.free : Multiset ℕ) = k.free
  data : ∀ q, q ∉ k.free → k'.data q = k.data q
  procs : k'.procs = k.procs
  fref : k'.fref = k.fref
  iref : k'.iref = k.iref
  lo : k'.lo = k.lo

def Proc.embryo (pid : ℕ) (trapframe : Option ℕ) (pagetable : Option Pagetable) : Proc :=
  { Proc.clean with pid := pid, state := .used, trapframe := trapframe, pagetable := pagetable }

theorem freeproc_embryo {vm₁ : Vm} {pid : ℕ} {tf : Option ℕ} {pt : Option Pagetable}
    (hproc : k.procs i = Proc.embryo pid tf pt) (htf : freeTrapframe (k.vm noTable) tf = .ok vm₁)
    (hpt : freeTable vm₁ 0 pt = .ok vm) : freeproc k i = .ok ((k.setVm vm).setProc i Proc.clean) := by
  rw [freeproc, hproc]
  simp only [Proc.embryo, Proc.clean, htf, ok_bind, hpt]

/-- A slot was found, with a trapframe and a page table for it. -/
structure Made (k : Kernel) (pid i tf : ℕ) (pt : Pagetable) (k' : Kernel) : Prop where
  procs : k'.procs = update k.procs i (Proc.embryo pid (some tf) (some pt))
  tree : Tree pt
  pte : pt.pte = update (update (fun _ => none) topPage (some ⟨k.trampoline, true, false, true, false⟩))
    (topPage - 1) (some ⟨tf, true, true, false, false⟩)
  free : {tf} + (k'.vm pt).stock = k.free
  data : ∀ q, q ∉ k.free → k'.data q = k.data q
  fref : k'.fref = k.fref
  iref : k'.iref = k.iref
  lo : k'.lo = k.lo

theorem allocFound_spec (pid : ℕ) (hwas : k.procs i = Proc.clean) (hram : ∀ q ∈ k.free, k.lo ≤ q ∧ q < PHYSTOP) :
    ∃ slot k', allocFound k i (Proc.embryo pid none none) = .ok (slot, k') ∧
      ((slot = none ∧ Unchanged k k') ∨ ∃ tf pt, slot = some i ∧ Made k pid i tf pt k') := by
  have hback : update k.procs i Proc.clean = k.procs := by rw [← hwas, update_eq_self]
  have hram' : ∀ q ∈ k.free, ∀ vm : Vm, vm.lo = k.lo → vm.Ram q := by
    intro q hq vm hlo
    rw [Vm.Ram, hlo]
    exact hram q hq
  rw [allocFound, kalloc]
  dsimp only [Kernel.vm]
  cases hfree : k.free with
  | nil =>
    have hfp := freeproc_embryo (k := k.setProc i (Proc.embryo pid none none)) (i := i) (update_self ..) rfl rfl
    refine ⟨none, ((k.setProc i (Proc.embryo pid none none)).setVm (k.vm noTable)).setProc i Proc.clean, ?_,
      .inl ⟨rfl, ?_, fun _ _ => rfl, ?_, rfl, rfl, rfl⟩⟩
    · change (freeproc (k.setProc i (Proc.embryo pid none none)) i >>= fun k => .ok (none, k)) = _
      rw [hfp, ok_bind]
      rfl
    · rfl
    · exact (update_idem ..).trans hback
  | cons tf free =>
    obtain ⟨vm, hvm⟩ : ∃ vm : Vm, vm = ⟨free, update k.data tf fun _ => 5, noTable, k.lo⟩ := ⟨_, rfl⟩
    have hvmfree : vm.free = free := by rw [hvm]
    have hlo : vm.lo = k.lo := by rw [hvm]
    have htf : tf ∈ k.free := hfree ▸ List.mem_cons_self
    have hsub : ∀ q, q ∉ k.free → q ∉ vm.free := by
      intro q hq hmem
      exact hq (hfree ▸ List.mem_cons_of_mem _ (hvmfree ▸ hmem))
    have hdata : ∀ q, q ∉ k.free → vm.data q = k.data q := by
      intro q hq
      rw [hvm]
      refine update_of_ne ?_ ..
      rintro rfl
      exact hq htf
    obtain ⟨made, vm', hpt, hres⟩ := procPagetable_spec k.trampoline tf (show ∀ p ∈ vm.free, vm.Ram p from
      fun p hp => hram' p (by_contra fun h => hsub p h hp) vm hlo)
    dsimp only
    rw [← hvm, hpt, ok_bind]
    cases made with
    | true =>
      refine ⟨some i, _, rfl, .inr ⟨tf, vm'.pt, rfl, rfl, hres.tree, hres.pte, ?_, fun q hq => ?_, rfl, rfl, rfl⟩⟩
      · have hst : vm'.stock = (free : Multiset ℕ) := hres.stock.trans (congrArg _ hvmfree)
        rw [hfree, ← cons_coe, ← singleton_add, ← hst]
        rfl
      · exact (hres.data q (hsub q hq)).trans (hdata q hq)
    | false =>
      have hfp := freeproc_embryo (k := (k.setVm vm').setProc i (Proc.embryo pid (some tf) none)) (i := i)
        (show _ = Proc.embryo pid (some tf) none from update_self ..)
        (kfree_eq ⟨vm'.free, vm'.data, noTable, k.lo⟩ (hram' tf htf _ rfl)) rfl
      refine ⟨none, (((k.setVm vm').setProc i (Proc.embryo pid (some tf) none)).setVm
        ⟨tf :: vm'.free, update vm'.data tf fun _ => 1, noTable, k.lo⟩).setProc i Proc.clean, ?_,
        .inl ⟨rfl, ?_, fun q hq => ?_, ?_, rfl, rfl, rfl⟩⟩
      · change (freeproc ((k.setVm vm').setProc i (Proc.embryo pid (some tf) none)) i >>= fun k => .ok (none, k)) = _
        rw [hfp, ok_bind]
      · change ((tf :: vm'.free : List ℕ) : Multiset ℕ) = _
        rw [hfree, ← cons_coe, ← cons_coe, hres.free, hvmfree]
      · change update vm'.data tf _ q = k.data q
        rw [update_of_ne (by rintro rfl; exact hq htf), hres.data q (hsub q hq), hdata q hq]
      · exact (update_idem ..).trans hback

theorem allocproc_spec (hclean : ∀ i, (k.procs i).state = .unused → k.procs i = Proc.clean) (hram : ∀ q ∈ k.free, k.lo ≤ q ∧ q < PHYSTOP) :
    ∃ slot k', allocproc k = .ok (slot, k') ∧ ((slot = none ∧ Unchanged k k') ∨
      ∃ i tf pt, slot = some i ∧ i < NPROC ∧ k.procs i = Proc.clean ∧ Made k k.nextpid i tf pt k') := by
  rw [allocproc]
  cases hfind : (List.range NPROC).find? fun i => (k.procs i).state = .unused with
  | none => exact ⟨none, k, rfl, .inl ⟨rfl, rfl, fun _ _ => rfl, rfl, rfl, rfl, rfl⟩⟩
  | some i =>
    have hi : i < NPROC := List.mem_range.mp (List.mem_of_find?_eq_some hfind)
    have hwas : k.procs i = Proc.clean := hclean i (by simpa using List.find?_some hfind)
    obtain ⟨slot, k', halloc, hres⟩ := allocFound_spec (k := { k with nextpid := k.nextpid + 1 }) k.nextpid hwas hram
    refine ⟨slot, k', ?_, ?_⟩
    · rw [← halloc]
      dsimp only
      rw [hwas]
      rfl
    · rcases hres with ⟨hslot, hu⟩ | ⟨tf, pt, hslot, hm⟩
      · exact .inl ⟨hslot, hu.free, hu.data, hu.procs, hu.fref, hu.iref, hu.lo⟩
      · exact .inr ⟨i, tf, pt, hslot, hi, hwas, hm.procs, hm.tree, hm.pte, hm.free, hm.data, hm.fref, hm.iref, hm.lo⟩

theorem filedups_spec {ofile : Fin NOFILE → Option ℕ} (fds : List (Fin NOFILE)) {fref : ℕ → ℕ}
    (h : ∀ fd f, ofile fd = some f → 1 ≤ fref f) : ∃ fref', filedups ofile fds fref = .ok fref' ∧
      ∀ f, fref' f = fref f + fds.countP fun fd => ofile fd = some f := by
  induction fds generalizing fref with
  | nil => exact ⟨fref, rfl, fun _ => rfl⟩
  | cons fd fds ih =>
    rw [filedups, List.foldlM_cons]
    cases hfd : ofile fd with
    | none =>
      obtain ⟨fref', hrun, hcount⟩ := ih h
      refine ⟨fref', hrun, fun f => ?_⟩
      rw [hcount f, List.countP_cons_of_neg (by simp [hfd])]
    | some g =>
      have hg := h fd g hfd
      obtain ⟨fref', hrun, hcount⟩ := ih (show ∀ fd' f, ofile fd' = some f → 1 ≤ update fref g (fref g + 1) f from fun fd' f hf => by
        by_cases hfg : f = g
        · rw [hfg, update_self]
          omega
        · rw [update_of_ne hfg]
          exact h fd' f hf)
      refine ⟨fref', ?_, fun f => ?_⟩
      · dsimp only
        rw [if_neg (by omega), ok_bind]
        exact hrun
      · rw [hcount f]
        by_cases hfg : f = g
        · rw [hfg, update_self, List.countP_cons_of_pos (by simp [hfd])]
          omega
        · rw [update_of_ne hfg, List.countP_cons_of_neg (by simp [hfd, Ne.symm hfg])]

/-! ### `fork` -/

/-- **A process that may call `fork`**: its memory is mapped to pages that are used for nothing else, its files are counted, and the slots
that are not used are clean. -/
structure Forking (k : Kernel) (p : ℕ) (pt : Pagetable) (tf cwd : ℕ) : Prop where
  state : (k.procs p).state ≠ .unused
  pagetable : (k.procs p).pagetable = some pt
  trapframe : (k.procs p).trapframe = some tf
  cwd : (k.procs p).cwd = some cwd
  name : (k.procs p).name.length < 16
  space : Space (k.vm pt) (k.procs p).sz
  inUse : tf ∉ k.free
  files : ∀ fd f, (k.procs p).ofile fd = some f → 1 ≤ k.fref f
  clean : ∀ i, (k.procs i).state = .unused → k.procs i = Proc.clean

/-- **The child is a copy**: process `c`, with page table `pt'` and trapframe `tf'`. -/
structure Forked (k : Kernel) (p : ℕ) (pt : Pagetable) (tf cwd pid : ℕ) (k' : Kernel) (c : ℕ) (pt' : Pagetable) (tf' : ℕ) : Prop where
  unused : (k.procs c).state = .unused
  page : ∀ v, v < pages (k.procs p).sz → ∃ e e', pt.pte v = some e ∧ pt'.pte v = some e' ∧ e'.perm = e.perm ∧
    e'.pa ∈ k.free ∧ k'.data e'.pa = k.data e.pa
  inj : ∀ v w e e', v < pages (k.procs p).sz → w < pages (k.procs p).sz → pt'.pte v = some e → pt'.pte w = some e' →
    e.pa = e'.pa → v = w
  regs : ∀ i : Fin PGSIZE, i < TRAPFRAMESIZE → k'.data tf' i = if A0 ≤ i ∧ i < A0 + 8 then 0 else k.data tf i
  child : k'.procs c = { k.procs p with
    state := .runnable
    pid := pid
    pagetable := some pt'
    trapframe := some tf'
    parent := some p }
  others : ∀ j, j ≠ c → k'.procs j = k.procs j
  fref : ∀ f, k'.fref f = k.fref f + (List.finRange NOFILE).countP fun fd => (k.procs p).ofile fd = some f
  iref : k'.iref = update k.iref cwd (k.iref cwd + 1)
  memory : ∀ v e, pt.pte v = some e → k'.data e.pa = k.data e.pa
  frame : k'.data tf = k.data tf

namespace Made

variable {pid tf : ℕ} {pt : Pagetable}

theorem stock_le (h : Made k pid i tf pt k') (hq : q ∈ (k'.vm pt).stock) : q ∈ k.free := by
  rw [← mem_coe, ← h.free, mem_add]
  exact .inr hq

theorem tf_mem (h : Made k pid i tf pt k') : tf ∈ k.free := by
  rw [← mem_coe, ← h.free, mem_add]
  exact .inl (Multiset.mem_singleton_self tf)

theorem giveBack (h : Made k pid i tf pt k') (hwas : k.procs i = Proc.clean)
    (hram : ∀ q ∈ k.free, k.lo ≤ q ∧ q < PHYSTOP) (hsame : Same (k'.vm pt) vm) :
    ∃ k'', freeproc ((k'.setVm vm).setProc i (Proc.embryo pid (some tf) (some vm.pt))) i = .ok k'' ∧ Unchanged k k'' := by
  have hne : topPage ≠ topPage - 1 := by decide
  have hpte : vm.pt.pte = pt.pte := hsame.pte
  have hstock : (Vm.mk (tf :: vm.free) (update vm.data tf fun _ => 1) vm.pt k'.lo).stock = k.free := by
    have hst : vm.stock = (k'.vm pt).stock := hsame.stock
    rw [← h.free, ← hst, Vm.stock, Vm.stock, ← cons_coe, ← singleton_add, add_assoc]
  have hlow : ∀ v, v ≠ topPage → v ≠ topPage - 1 → pt.pte v = none := by
    intro v h1 h2
    rw [h.pte, update_of_ne h2, update_of_ne h1]
  obtain ⟨vm', hfree, hrel⟩ := procFreepagetable_spec ⟨tf :: vm.free, update vm.data tf fun _ => 1, vm.pt, k'.lo⟩ 0
    (e := ⟨k.trampoline, true, false, true, false⟩) (g := ⟨tf, true, true, false, false⟩) hsame.tree (Nat.zero_le _)
    (fun v hv => by
      have := lt_pages.mp hv
      omega) (fun v _ h1 h2 => (congrFun hpte v).trans (hlow v h1 h2))
    ((congrFun hpte _).trans (by rw [h.pte, update_of_ne hne, update_self])) rfl
    ((congrFun hpte _).trans (by rw [h.pte, update_self])) rfl (fun q hq => by
      rw [hstock] at hq
      have := hram q hq
      rw [Vm.Ram]
      exact h.lo ▸ this)
  have hzero : pages 0 = 0 := by decide
  rw [hzero, frames_zero, zero_add, hstock] at hrel
  have hfp := freeproc_embryo (k := (k'.setVm vm).setProc i (Proc.embryo pid (some tf) (some vm.pt))) (i := i)
    (show _ = Proc.embryo pid (some tf) (some vm.pt) from update_self ..)
    (kfree_eq ⟨vm.free, vm.data, noTable, k'.lo⟩ (by
      have := hram tf h.tf_mem
      rw [Vm.Ram]
      exact h.lo ▸ this)) hfree
  refine ⟨_, hfp, hrel.free, fun q hq => ?_, ?_, h.fref, h.iref, h.lo⟩
  · refine (hrel.data q hq).trans ?_
    have hqtf : q ≠ tf := by
      rintro rfl
      exact hq h.tf_mem
    have hqs : q ∉ (k'.vm pt).stock := fun hmem => hq (h.stock_le hmem)
    exact (update_of_ne hqtf ..).trans ((hsame.data q hqs).trans (h.data q hq))
  · change update (update k'.procs i _) i Proc.clean = k.procs
    rw [update_idem, h.procs, update_idem, ← hwas, update_eq_self]

end Made

theorem Kernel.free_stock {pt : Pagetable} (hq : q ∈ k.free) : q ∈ (k.vm pt).stock :=
  Multiset.mem_add.mpr (.inl (Multiset.mem_coe.mpr hq))

namespace Forking

variable {p tf cwd pid c tf' : ℕ} {pt pt' : Pagetable} (h : Forking k p pt tf cwd)

include h

theorem ram (hq : q ∈ k.free) : k.lo ≤ q ∧ q < PHYSTOP := h.space.ram q (Kernel.free_stock hq)

theorem nodup : (k.free : Multiset ℕ).Nodup := (Multiset.nodup_add.mp h.space.nodup).1

theorem uvmcopy (hm : Made k pid c tf' pt' k') : ∃ copied vm, uvmcopy pt (k'.vm pt') (k.procs p).sz = .ok (copied, vm) ∧
      if copied then Filled (copyOf pt k'.data) (k'.vm pt') 0 (pages (k.procs p).sz) vm else Same (k'.vm pt') vm := by
  have hsz := h.space.size
  have hlow : pages (k.procs p).sz < topPage - 1 := by
    have hP : PGSIZE = 4096 := rfl
    have ht : topPage = 2 ^ 26 - 1 := rfl
    rw [pages, hP, ht]
    omega
  have hnodup : ({tf'} + (k'.vm pt').stock).Nodup := by
    rw [hm.free]
    exact h.nodup
  have := uvmcopyLoop_spec (N := pages (k.procs p).sz) (n := pages (k.procs p).sz)
    (show Filled (copyOf pt (k'.vm pt').data) (k'.vm pt') 0 0 (k'.vm pt') from Filled.refl hm.tree) (Nat.zero_add _)
    (by rw [trapframe_eq]; exact Nat.mul_le_mul_right _ hlow.le) h.space.tree (fun w hw => by
      obtain ⟨e, he, hperm, -⟩ := h.space.leaf w hw
      exact ⟨e, he, hperm, fun hmem => h.space.out w e he (Kernel.free_stock (hm.stock_le hmem))⟩) (fun w hw => by
      change pt'.pte w = none
      rw [hm.pte, update_of_ne (by omega), update_of_ne (by omega)]) (Multiset.nodup_add.mp hnodup).2.1
      fun q hq => by
        have := h.ram (hm.stock_le hq)
        rw [← hm.lo] at this
        exact this
  rwa [Nat.zero_mul] at this

theorem forkRest (hm : Made k pid c tf' pt' k') (hwas : k.procs c = Proc.clean)
    (hf : Filled (copyOf pt k'.data) (k'.vm pt') 0 (pages (k.procs p).sz) vm) :
    ∃ k'', forkRest ((k'.setVm vm).setProc c (Proc.embryo pid (some tf') (some vm.pt))) p c = .ok (some pid, k'') ∧
      Forked k p pt tf cwd pid k'' c vm.pt tf' := by
  have hpc : p ≠ c := by
    rintro rfl
    exact h.state (by rw [hwas]; rfl)
  have hnodup : ({tf'} + (k'.vm pt').stock).Nodup := by
    rw [hm.free]
    exact h.nodup
  have htf' : tf' ∉ (k'.vm pt').stock := fun hmem =>
    Multiset.disjoint_left.mp (Multiset.nodup_add.mp hnodup).2.2 (Multiset.mem_singleton_self tf') hmem
  have hparent : ((k'.setVm vm).setProc c (Proc.embryo pid (some tf') (some vm.pt))).procs p = k.procs p := by
    refine (update_of_ne hpc ..).trans ?_
    change k'.procs p = _
    rw [hm.procs, update_of_ne hpc]
  have hchild : ((k'.setVm vm).setProc c (Proc.embryo pid (some tf') (some vm.pt))).procs c =
      Proc.embryo pid (some tf') (some vm.pt) := update_self ..
  -- the pages in use keep their contents
  have hkeep : ∀ q, q ∉ k.free → vm.data q = k.data q := fun q hq =>
    (hf.data q fun hmem => hq (hm.stock_le hmem)).trans (hm.data q hq)
  have hkeep' : ∀ (pg : Page) q, q ∉ k.free → update vm.data tf' pg q = k.data q := by
    intro pg q hq
    rw [update_of_ne (by rintro rfl; exact hq hm.tf_mem), hkeep q hq]
  have hin : ∀ v e, pt.pte v = some e → e.pa ∉ k.free := fun v e he hmem =>
    h.space.out v e he (Kernel.free_stock hmem)
  obtain ⟨fref, hfd, hcount⟩ := filedups_spec (List.finRange NOFILE) h.files
  have hfd' : filedups (k.procs p).ofile (List.finRange NOFILE) k'.fref = .ok fref := by
    rw [hm.fref]
    exact hfd
  refine ⟨Kernel.setProc { k' with
      free := vm.free
      data := update vm.data tf' (copyTrapframe (vm.data tf) (vm.data tf'))
      procs := update k'.procs c (Proc.embryo pid (some tf') (some vm.pt))
      fref := fref
      iref := update k'.iref cwd (k'.iref cwd + 1) } c { Proc.embryo pid (some tf') (some vm.pt) with
      sz := (k.procs p).sz
      ofile := fun fd => ((k.procs p).ofile fd).or none
      cwd := some cwd
      name := (k.procs p).name.take 15
      traceMask := (k.procs p).traceMask
      parent := some p
      state := .runnable }, ?_, ?_⟩
  · rw [Paging.forkRest, hparent, hchild, h.trapframe, h.cwd]
    change (filedups (k.procs p).ofile (List.finRange NOFILE) k'.fref >>= _) = _
    rw [hfd', ok_bind]
    rfl
  refine ⟨by rw [hwas]; rfl, fun v hv => ?_, fun v w e e' hv hw he he' heq => ?_, fun i hi => ?_, ?_,
    fun j hj => ?_, hcount, ?_, fun v e he => hkeep' _ _ (hin v e he), hkeep' _ _ h.inUse⟩
  · obtain ⟨e, he, -⟩ := h.space.leaf v hv
    obtain ⟨pa, hpa, hdata⟩ := hf.new v (Nat.zero_le v) hv
    have hmem : pa ∈ (k'.vm pt').stock := by
      rw [← hf.stock]
      exact Multiset.mem_add.mpr (.inl (mem_frames (Nat.zero_le v) (by omega) hpa))
    have hwant : copyOf pt k'.data v = (e.perm, k'.data e.pa) := by
      rw [copyOf, show pt.pte v = some e from he]
    rw [hwant] at hpa hdata
    refine ⟨e, ⟨pa, e.perm⟩, he, hpa, rfl, hm.stock_le hmem, ?_⟩
    refine (update_of_ne ?_ ..).trans (hdata.trans (hm.data _ (hin v e he)))
    rintro rfl
    exact htf' hmem
  · have hnd : (frames vm.pt 0 (pages (k.procs p).sz - 0)).Nodup := by
      have := (Multiset.nodup_add.mp hnodup).2.1
      rw [← hf.stock] at this
      exact (Multiset.nodup_add.mp this).1
    exact frames_inj hnd hv hw he he' heq
  · change update vm.data tf' (copyTrapframe (vm.data tf) (vm.data tf')) tf' i = _
    rw [update_self, copyTrapframe, hkeep tf h.inUse, if_pos hi]
  · refine (update_self ..).trans ?_
    have hname : (k.procs p).name.take 15 = (k.procs p).name := List.take_of_length_le (by have := h.name; omega)
    rw [hname, ← h.cwd]
    simp [Proc.embryo, Proc.clean]
  · refine (update_of_ne hj ..).trans ((update_of_ne hj ..).trans ?_)
    rw [hm.procs, update_of_ne hj]
  · change update k'.iref cwd (k'.iref cwd + 1) = _
    rw [hm.iref]

end Forking

/-- **`fork` copies exactly**, or returns -1 and has changed nothing. -/
theorem fork_copies {p tf cwd : ℕ} {pt : Pagetable} (h : Forking k p pt tf cwd) : ∃ r k', fork k p = .ok (r, k') ∧
    ((∃ pid c pt' tf', r = some pid ∧ Forked k p pt tf cwd pid k' c pt' tf') ∨ r = none ∧ Unchanged k k') := by
  obtain ⟨slot, k₁, halloc, hres⟩ := allocproc_spec h.clean fun q hq => h.ram hq
  rw [fork, halloc, ok_bind]
  rcases hres with ⟨rfl, hun⟩ | ⟨c, tf', pt', rfl, -, hwas, hm⟩
  · exact ⟨none, k₁, rfl, .inr ⟨rfl, hun⟩⟩
  have hpc : p ≠ c := by
    rintro rfl
    exact h.state (by rw [hwas]; rfl)
  have hparent : k₁.procs p = k.procs p := by rw [hm.procs, update_of_ne hpc]
  have hchild : k₁.procs c = Proc.embryo k.nextpid (some tf') (some pt') := by rw [hm.procs, update_self]
  obtain ⟨copied, vm, hcopy, hcase⟩ := h.uvmcopy hm
  dsimp only
  rw [hparent, hchild, h.pagetable]
  change ∃ r k', (uvmcopy pt (k₁.vm pt') (k.procs p).sz >>= _) = _ ∧ _
  rw [hcopy, ok_bind]
  cases copied with
  | true =>
    obtain ⟨k', hrest, hforked⟩ := h.forkRest hm hwas hcase
    exact ⟨some k.nextpid, k', hrest, .inl ⟨_, c, vm.pt, tf', rfl, hforked⟩⟩
  | false =>
    obtain ⟨k', hfree, hun⟩ := hm.giveBack hwas (fun q hq => h.ram hq) hcase
    refine ⟨none, k', ?_, .inr ⟨rfl, hun⟩⟩
    change (freeproc ((k₁.setVm vm).setProc c (Proc.embryo k.nextpid (some tf') (some vm.pt))) c >>= _) = _
    rw [hfree, ok_bind]

/-- A process with two pages of memory and an open file, on a machine with 40 free pages. -/
def shell : Kernel where
  free := twoPages.free
  data := twoPages.data
  lo := twoPages.lo
  trampoline := 0x80000
  procs p := if p = 0 then { Proc.clean with
    state := .running
    pid := 1
    sz := 8192
    pagetable := some twoPages.pt
    trapframe := some 0x80108
    ofile := fun fd => if fd.val = 0 then some 3 else none
    cwd := some 0
    name := [115, 104] } else Proc.clean
  nextpid := 2
  fref f := if f = 3 then 1 else 0
  iref _ := 1

theorem shell_forking : Forking shell 0 twoPages.pt 0x80108 0 where
  state := by decide
  pagetable := rfl
  trapframe := rfl
  cwd := rfl
  name := by decide
  space := twoPages_space (by decide) le_rfl
  inUse := by decide
  files fd f hf := by
    change (if fd.val = 0 then some 3 else none) = some f at hf
    split_ifs at hf
    obtain rfl := Option.some.inj hf
    decide
  clean i hi := by
    by_cases h0 : i = 0
    · subst h0
      exact absurd hi (by decide)
    · exact if_neg h0

/-- The child is process 2, in the first free slot. -/
theorem fork_copies_shell : ∃ k' c pt' tf', fork shell 0 = .ok (some 2, k') ∧
    Forked shell 0 twoPages.pt 0x80108 0 2 k' c pt' tf' := by
  have heval : (fork shell 0).map Prod.fst = .ok (some 2) := by
    decide +kernel
  obtain ⟨r, k', hrun, hcase⟩ := fork_copies shell_forking
  rw [hrun] at heval
  obtain rfl : r = some 2 := Except.ok.inj heval
  rcases hcase with ⟨pid, c, pt', tf', hpid, hforked⟩ | ⟨hnone, -⟩
  · obtain rfl := Option.some.inj hpid
    exact ⟨k', c, pt', tf', hrun, hforked⟩
  · cases hnone

end Xv6.Paging
