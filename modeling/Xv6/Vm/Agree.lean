import Xv6.Fs.Bytes
import Xv6.Log.System
import Xv6.Vm.Copy
import Xv6.Vm.Fork
import Xv6.Vm.Freelist

/-!
# The memory, as the other models have it

Some of what the functions of `kernel/vm.c` work with is modelled elsewhere in other terms: the free list, whose links
`Xv6.Kalloc` keeps in the free pages; the file that `exec` reads, which has blocks in `Xv6.FileSys`; the memory
`copyin` reads, of which `Xv6.Logging` knows only the pages; and the table `fork` finds a slot in. The models agree.
Where a physical address is 0 in the source if there is none, it is an `Option` here; no page that is mapped is page 0.
-/

namespace Xv6.Paging

open Lib FileSys Function

variable {vm : Vm} {K : Kalloc.Kernel} {s : Kalloc.State} {out : Finset ℕ} {l : List ℕ} {sz va pa : ℕ}

/-! ### The free list -/

section

variable (h : Kalloc.Free K s out l) (hf : vm.free = l.map (· / PGSIZE))

include h hf

/-- **`kalloc` takes the first page** of the list that is linked through the pages. -/
theorem kalloc_linked :
    (kalloc vm).map Prod.fst = (if (Kalloc.kalloc s).2 = 0 then none else some ((Kalloc.kalloc s).2 / PGSIZE)) ∧
      ∀ q vm', kalloc vm = some (q, vm') → vm'.free = l.tail.map (· / PGSIZE) := by
  rw [h.kalloc.1, kalloc, hf]
  cases l with
  | nil => simp
  | cons p l =>
    have hp : p ≠ 0 := Kalloc.ne_zero_of_mem_pages ((h.mem_iff p).mp List.mem_cons_self).1
    refine ⟨(if_neg hp).symm, fun q vm' hq => ?_⟩
    cases hq
    rfl

/-- **`kfree` puts a page in front** of it. -/
theorem kfree_linked (hlo : vm.lo * PGSIZE ≤ K.kend) (hp : pa ∈ out) :
    ∃ s' vm', Kalloc.kfree K pa s = some s' ∧ kfree vm (pa / PGSIZE) = .ok vm' ∧
      Kalloc.Free K s' (out.erase pa) (pa :: l) ∧ vm'.free = (pa :: l).map (· / PGSIZE) := by
  obtain ⟨s', hs', hfree⟩ := h.kfree hp
  obtain ⟨hlt, -, hle⟩ := Kalloc.mem_pages.mp (h.subset hp)
  have hin : vm.lo ≤ pa / PGSIZE ∧ pa / PGSIZE < PHYSTOP := by
    rw [Kalloc.phystop_eq] at hlt
    rw [show PHYSTOP = 0x88000 by decide]
    simp only [PGSIZE] at hlo ⊢
    omega
  refine ⟨s', _, hs', if_pos hin, hfree, ?_⟩
  rw [hf]
  rfl

end

/-! ### What the user may access -/

theorem walkaddr_lt (h : walkaddr vm va = some pa) : va < MAXVA := by
  by_contra hva
  rw [walkaddr, if_pos (Nat.not_lt.mp hva)] at h
  cases h

/-- **No page is page 0**: the pages of a process are behind the kernel. -/
theorem Space.walkaddr_ne_zero (h : Space vm sz) (hlo : 0 < vm.lo) (hva : va < TRAPFRAME) (hw : walkaddr vm va = some pa) : pa ≠ 0 := by
  have hmax := walkaddr_lt hw
  rw [walkaddr, if_neg (Nat.not_le.mpr hmax)] at hw
  split at hw
  · obtain ⟨e, he, hpa⟩ := Option.bind_eq_some_iff.mp hw
    split at hpa <;> cases hpa
    have hv : va / PGSIZE < pages sz := by
      by_contra hge
      have hnone := h.none _ (Nat.le_of_not_lt hge) ((Nat.div_mul_le_self ..).trans_lt hva)
      exact absurd (hnone.symm.trans he) (by simp)
    obtain ⟨e', he', -, hram, -⟩ := h.leaf _ hv
    obtain rfl := Option.some.inj (he.symm.trans he')
    omega
  · cases hw

def userPages (vm : Vm) (v : ℕ) : Option Logging.Page := (walkaddr vm (v * PGSIZE)).map vm.data

theorem copyinLoop_userPages (fuel src len : ℕ) (h : len ≤ fuel) :
    copyinLoop (fuel + 1) vm src len = Logging.copyinLoop (userPages vm) fuel src len := by
  induction fuel generalizing src len with
  | zero =>
    obtain rfl : len = 0 := Nat.le_zero.mp h
    rfl
  | succ fuel ih =>
    rw [copyinLoop, Logging.copyinLoop]
    by_cases h0 : len = 0
    · rw [if_neg (by omega), if_pos h0]
    have hpage : userPages vm (src / PGSIZE) = (walkaddr vm (src / PGSIZE * PGSIZE)).map vm.data := rfl
    rw [if_pos (Nat.pos_of_ne_zero h0), if_neg h0, hpage]
    dsimp only
    cases hpa : walkaddr vm (src / PGSIZE * PGSIZE) with
    | none => rfl
    | some pa =>
      -- an address that can be accessed is far from where addresses wrap
      have hmod : (src / PGSIZE * PGSIZE + PGSIZE) % 2 ^ 64 = src / PGSIZE * PGSIZE + PGSIZE :=
        Nat.mod_eq_of_lt ((Nat.add_lt_add_right (walkaddr_lt hpa) PGSIZE).trans_le (by decide))
      have hin : src - src / PGSIZE * PGSIZE < PGSIZE :=
        Nat.mod_eq_sub_div_mul (k := PGSIZE) ▸ Nat.mod_lt src (by decide)
      have hlen : len - min (PGSIZE - (src - src / PGSIZE * PGSIZE)) len ≤ fuel := by omega
      simp only [Option.map_some, hmod, ih _ _ hlen]

/-- **The two models of `copyin`** copy the same bytes, and fail together. -/
theorem copyin_userPages (vm : Vm) (src len : ℕ) : copyin vm src len = Logging.copyin (userPages vm) src len :=
  copyinLoop_userPages len src len le_rfl

/-! ### What `exec` reads -/

/-- **`exec` reads what is in the blocks of the file.** -/
theorem readi_blocks {d : Disk} {e : Dinode} (hdense : Dense d.block e) (off : ℕ) {n : ℕ} (hn : n < 2 ^ 32) :
    FileSys.readi d e toKernel off n = .ok (some (readi (bytesOf d.block e) off n), d, e) := by
  have hmax : MAXFILE * BSIZE < 2 ^ 32 := by decide
  have hsize := hdense.size
  rw [readi, length_bytesOf]
  split
  · next htest => rw [FileSys.readi, if_pos htest]
  · exact readi_bytes hdense fun hle => by omega

/-! ### The process table -/

def Proc.Shown (x : Proc) (q : Procs.Proc) : Prop := q.state = x.state ∧ q.pid = x.pid ∧ q.parent.map Fin.val = x.parent

/-- **`fork` fills a slot as it does in `Xv6.Procs`**, in three critical sections once the scan has come to it. -/
theorem Forked.table {k k' : Kernel} {s : Procs.Sys} {p c : Procs.Slot} {pt pt' : Pagetable} {tf tf' cwd pid : ℕ}
    (h : Forked k p pt tf cwd pid k' c pt' tf') (hs : ∀ i : Procs.Slot, (k.procs i).Shown (s.proc i))
    (hp : (s.proc p).state = .running) (hpc : s.pc p = .forkScan c) (hpid : s.nextpid = pid) (hw : s.waitLock = none) :
    ∃ t, run Procs.step s (.replicate 3 (.advance p true)) = some t ∧ t.pc p = .user ∧
      ∀ i : Procs.Slot, (k'.procs i).Shown (t.proc i) := by
  have hc : (s.proc c).state = .unused := (hs c).1.trans h.unused
  have hne : p ≠ c := by
    rintro rfl
    exact absurd (hp.symm.trans hc) (by decide)
  obtain ⟨t, ht, hpc, hproc⟩ : ∃ t, run Procs.step s (.replicate 3 (.advance p true)) = some t ∧ t.pc p = .user ∧
      t.proc = update s.proc c { s.proc c with state := .runnable, pid := pid, parent := some p } := by
    simp [run, Procs.step, Procs.advance, Procs.forkProbe, Procs.allocproc, Procs.Sys.setProc, Procs.Sys.setPc,
      hp, hpc, hc, hw, hne, hpid]
  refine ⟨t, ht, hpc, fun i => ?_⟩
  rw [hproc]
  by_cases hi : i = c
  · rw [hi, h.child, update_self]
    exact ⟨rfl, rfl, rfl⟩
  · rw [h.others i (Fin.val_ne_of_ne hi), update_of_ne hi]
    exact hs i

end Xv6.Paging
