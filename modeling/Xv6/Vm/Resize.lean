import Xv6.Vm.Grow

/-!
# `uvmalloc` and `uvmdealloc` undo each other

`uvmalloc` either maps all pages up to the new size, or has given back what it took when the memory ran out, be it for
a page of the process or for a page of the page table. `uvmdealloc` takes the process back to where it was. Page-table pages stay: they
are neither free again nor lost.
-/

namespace Xv6.Paging

open Lib Function

variable {vm vm' : Vm} {oldsz newsz a n r : ℕ} {doFree : Bool}

/-! ### Page-table pages stay -/

theorem tables_congr {pt pt' : Pagetable} (hroot : pt'.root = pt.root) (h1 : pt'.dir1 = pt.dir1) (h0 : pt'.dir0 = pt.dir0) :
    pt'.tables = pt.tables := by
  rw [Pagetable.tables, Pagetable.tables, hroot, h1, h0]

theorem kfree_pt {pa : ℕ} (h : kfree vm pa = .ok vm') : vm'.pt = vm.pt := by
  rw [kfree] at h
  split at h <;> cases h
  rfl

theorem unmapPage_tables (h : unmapPage vm a doFree = .ok vm') : vm'.pt.tables = vm.pt.tables := by
  rw [unmapPage, walk_false] at h
  split at h
  · cases h
  rw [ok_bind] at h
  generalize ((vm.pt.dir1 (a / PGSIZE / 512 / 512)).isSome && (vm.pt.dir0 (a / PGSIZE / 512)).isSome) = found at h
  cases found with
  | false => cases h
  | true =>
    cases he : vm.pt.pte (a / PGSIZE) with
    | none =>
      simp only [if_true, he] at h
      cases h
    | some e =>
      simp only [if_true, he] at h
      split at h
      · cases doFree with
        | false =>
          cases h
          exact tables_congr rfl rfl rfl
        | true =>
          obtain ⟨vm₁, hfree, hset⟩ := of_bind_eq_ok h
          cases hset
          rw [← kfree_pt hfree]
          exact tables_congr rfl rfl rfl
      · cases h

theorem unmapLoop_tables (h : unmapLoop n vm a doFree = .ok vm') : vm'.pt.tables = vm.pt.tables := by
  induction n generalizing vm a with
  | zero =>
    cases h
    rfl
  | succ n ih =>
    obtain ⟨vm₁, hpage, hrest⟩ := of_bind_eq_ok h
    exact (ih hrest).trans (unmapPage_tables hpage)

theorem uvmdealloc_tables (h : uvmdealloc vm oldsz newsz = .ok (r, vm')) : vm'.pt.tables = vm.pt.tables := by
  rw [uvmdealloc] at h
  split at h
  · cases h
    rfl
  split at h
  · obtain ⟨vm₁, hun, hret⟩ := of_bind_eq_ok h
    cases hret
    rw [uvmunmap] at hun
    split at hun
    · cases hun
    · exact unmapLoop_tables hun
  · cases h
    rfl

/-! ### All or nothing -/

/-- **A process of size `sz`**: the pages of the user are those up to its size, and they are used for nothing else. -/
structure Sized (vm : Vm) (sz : ℕ) : Prop where
  tree : Tree vm.pt
  mapped : ∀ v, v * PGSIZE < TRAPFRAME → ((vm.pt.pte v).isSome ↔ v < pages sz)
  out : ∀ v e, vm.pt.pte v = some e → e.pa ∉ vm.stock
  nodup : vm.stock.Nodup
  ram : ∀ p ∈ vm.stock, vm.Ram p

theorem Sized.kept (h : Sized vm oldsz) (hs : Same vm vm') (v : ℕ) : KeptAt vm vm' v :=
  ⟨congrFun hs.pte v, fun e he => hs.data e.pa (h.out v e he)⟩

/-- **The process has grown**: new pages are mapped, zeroed, up to the new size, and the others are as they were. -/
structure GrownTo (vm : Vm) (oldsz newsz : ℕ) (vm' : Vm) : Prop where
  mapped : ∀ v, v * PGSIZE < TRAPFRAME → ((vm'.pt.pte v).isSome ↔ v < pages newsz)
  old : ∀ v, ¬(pages oldsz ≤ v ∧ v < pages newsz) → KeptAt vm vm' v
  new : ∀ v, pages oldsz ≤ v → v < pages newsz → ∃ pa, vm'.pt.pte v = some ⟨pa, userPerm⟩ ∧ vm'.data pa = fun _ => 0

section

variable (h : Grown vm (pages oldsz) (pages newsz) vm') (hs : Sized vm oldsz)

include h hs

theorem Grown.grownTo : GrownTo vm oldsz newsz vm' := by
  have hle := h.le
  refine ⟨fun v hv => ?_, fun v hv => ⟨h.old v hv, fun e he => h.data e.pa (hs.out v e he)⟩, h.new⟩
  by_cases hin : pages oldsz ≤ v ∧ v < pages newsz
  · obtain ⟨pa, hpa, -⟩ := h.new v hin.1 hin.2
    rw [hpa]
    exact iff_of_true rfl hin.2
  · rw [h.old v hin, hs.mapped v hv]
    omega

theorem Grown.shrink (hle : oldsz ≤ newsz)
    (htop : newsz ≤ TRAPFRAME) : ∃ vm'', uvmdealloc vm' newsz oldsz = .ok (oldsz, vm'') ∧ Same vm vm'' ∧
      (vm''.free : Multiset ℕ) = frames vm'.pt (pages oldsz) (pages newsz - pages oldsz) + vm'.free := by
  have hT : TRAPFRAME = 2 ^ 38 - 8192 := rfl
  have hM : MAXVA - PGSIZE = 2 ^ 38 - 4096 := rfl
  rcases hle.eq_or_lt with rfl | hlt
  · refine ⟨vm', by rw [uvmdealloc, if_pos le_rfl], ?_, by simp⟩
    have hstock := h.stock
    rw [Nat.sub_self, frames_zero, zero_add] at hstock
    exact ⟨h.tree, funext fun v => h.old v (by omega), hstock, h.data, h.lo, h.root⟩
  obtain ⟨vm'', hde, hun⟩ := uvmdealloc_spec h.tree hlt (by omega) fun w h1 h2 => h.leaf hs.ram h1 h2 rfl
  refine ⟨vm'', hde, h.same_of_unmapped (fun w h1 h2 => ?_) hun, ?_⟩
  · have htopw : w * PGSIZE < TRAPFRAME := (lt_pages.mp h2).trans_le htop
    have := (hs.mapped w htopw).not.mpr (by omega)
    rwa [Option.not_isSome_iff_eq_none] at this
  · have hstock := hun.stock
    rw [Vm.stock, Vm.stock, uvmdealloc_tables hde, ← add_assoc] at hstock
    exact add_right_cancel hstock

end

/-- **`uvmalloc` is all or nothing, and `uvmdealloc` undoes it**, wherever the memory runs out. -/
theorem uvmalloc_exact (h : Sized vm oldsz) (hle : oldsz ≤ newsz) (htop : newsz ≤ TRAPFRAME) (hpos : 0 < newsz) :
    ∃ r vm', uvmalloc vm oldsz newsz = .ok (r, vm') ∧
      (r = 0 ∧ (∀ v, KeptAt vm vm' v) ∧ vm'.stock = vm.stock ∧ (∀ q ∈ vm.free, q ∈ vm'.free ∨ q ∈ vm'.pt.tables) ∨
        r ≠ 0 ∧ r = newsz ∧ GrownTo vm oldsz newsz vm' ∧ ∃ vm'', uvmdealloc vm' newsz oldsz = .ok (oldsz, vm'') ∧ (∀ v, KeptAt vm vm'' v) ∧
            (vm''.free : Multiset ℕ) = frames vm'.pt (pages oldsz) (pages newsz - pages oldsz) + vm'.free) := by
  obtain ⟨r, vm', hres, hcase⟩ := uvmalloc_spec h.tree hle (hle.trans htop) h.nodup h.ram (by
    intro w h1 _ h3
    have htopw : w * PGSIZE < TRAPFRAME := h3.trans_le htop
    have := (h.mapped w htopw).not.mpr (by omega)
    rw [Option.not_isSome_iff_eq_none] at this
    exact ⟨htopw, this⟩)
  refine ⟨r, vm', hres, ?_⟩
  rcases hcase with ⟨rfl, hg⟩ | ⟨rfl, hsame⟩
  · obtain ⟨vm'', hde, hsame, hfree⟩ := Grown.shrink hg h hle htop
    exact .inr ⟨hpos.ne', rfl, Grown.grownTo hg h, vm'', hde, h.kept hsame, hfree⟩
  refine .inl ⟨rfl, h.kept hsame, hsame.stock, fun q hq => ?_⟩
  have hmem : q ∈ vm'.stock := by
    rw [hsame.stock]
    exact mem_stock_of_free hq
  rw [Vm.stock, Multiset.mem_add, Multiset.mem_coe] at hmem
  exact hmem

theorem twoPages_sized : Sized twoPages 8192 := by
  have hs := @twoPages_space 8192 (by decide) le_rfl
  refine ⟨hs.tree, fun v hv => ⟨fun h => ?_, fun h => ?_⟩, hs.out, hs.nodup, hs.ram⟩
  · by_contra hlt
    rw [hs.none v (Nat.not_lt.mp hlt) hv] at h
    exact absurd h (by decide)
  · obtain ⟨e, he, -⟩ := hs.leaf v h
    rw [he]
    rfl

/-- Three pages more, and they are given back. -/
theorem uvmalloc_exact_twoPages : ∃ vm, uvmalloc twoPages 8192 18192 = .ok (18192, vm) ∧
    GrownTo twoPages 8192 18192 vm ∧ ∃ vm', uvmdealloc vm 18192 8192 = .ok (8192, vm') ∧
      ∀ v, KeptAt twoPages vm' v := by
  have heval : (uvmalloc twoPages 8192 18192).map Prod.fst = .ok 18192 := by
    decide +kernel
  obtain ⟨r, vm, hrun, hcase⟩ := uvmalloc_exact twoPages_sized (show 8192 ≤ 18192 by decide) (by decide) (by decide)
  rw [hrun] at heval
  obtain rfl : r = 18192 := Except.ok.inj heval
  obtain ⟨h0, -⟩ | ⟨-, -, hgrown, vm', hde, hkept, -⟩ := hcase
  · exact absurd h0 (by decide)
  · exact ⟨vm, hrun, hgrown, vm', hde, hkept⟩

end Xv6.Paging
