import Xv6.Vm.Basic
import Mathlib.Algebra.BigOperators.Group.Finset.Piecewise
import Mathlib.Data.Multiset.AddSub
import Mathlib.Tactic.Abel

/-!
# What the functions on page tables do

The stock of a page table are the free pages together with the pages the table is made of: `walk` only moves
pages from the one to the other. A page that is mapped is taken out of the stock, and a page that is unmapped
goes back to it. Nothing but pages of the stock is ever written to.
-/

namespace Xv6.Paging

open Lib Function

variable {pt pt' : Pagetable}

variable {vm vm' : Vm} {i v va pa a n : ℕ} {e : Pte} {perm : Perm}

/-! ### The stock -/

def pageOf (o : Option ℕ) : Multiset ℕ := o.elim 0 fun p => {p}

@[irreducible] def entries : ℕ := 512

@[irreducible] def entries2 : ℕ := 512 * 512

def Pagetable.tables (pt : Pagetable) : Multiset ℕ :=
  {pt.root} + (∑ i ∈ Finset.range entries, pageOf (pt.dir1 i)) + ∑ i ∈ Finset.range entries2, pageOf (pt.dir0 i)

def Vm.stock (vm : Vm) : Multiset ℕ := (vm.free : Multiset ℕ) + vm.pt.tables

structure Tree (pt : Pagetable) : Prop where
  dir0 : ∀ i, pt.dir1 (i / 512) = none → pt.dir0 i = none
  pte : ∀ v, pt.dir0 (v / 512) = none → pt.pte v = none

/-- Pages were moved from the free list to the page table. -/
structure Moved (vm vm' : Vm) : Prop where
  tree : Tree vm'.pt
  pte : vm'.pt.pte = vm.pt.pte
  stock : vm'.stock = vm.stock
  free : vm'.free.length ≤ vm.free.length
  data : ∀ q, q ∉ vm.stock → vm'.data q = vm.data q
  lo : vm'.lo = vm.lo
  root : vm'.pt.root = vm.pt.root

theorem Moved.refl (h : Tree vm.pt) : Moved vm vm := ⟨h, rfl, rfl, le_rfl, fun _ _ => rfl, rfl, rfl⟩

theorem Moved.trans {vm₁ : Vm} (h : Moved vm vm₁) (h' : Moved vm₁ vm') : Moved vm vm' where
  tree := h'.tree
  pte := h'.pte.trans h.pte
  stock := h'.stock.trans h.stock
  free := h'.free.trans h.free
  data q hq := (h'.data q (by rwa [h.stock])).trans (h.data q hq)
  lo := h'.lo.trans h.lo
  root := h'.root.trans h.root

theorem mem_stock_of_free (h : pa ∈ vm.free) : pa ∈ vm.stock := by
  rw [Vm.stock, Multiset.mem_add]
  exact .inl (Multiset.mem_coe.mpr h)

theorem pageOf_update {f : ℕ → Option ℕ} {N : ℕ} (hi : i < N) (h : f i = none) :
    (∑ j ∈ Finset.range N, pageOf (update f i (some pa) j)) = {pa} + ∑ j ∈ Finset.range N, pageOf (f j) := by
  have hmem : i ∈ Finset.range N := Finset.mem_range.mpr hi
  rw [← Finset.add_sum_erase _ _ hmem, ← Finset.add_sum_erase (Finset.range N) (fun j => pageOf (f j)) hmem, update_self, h]
  have hrest : ∑ j ∈ (Finset.range N).erase i, pageOf (update f i (some pa) j) = ∑ j ∈ (Finset.range N).erase i, pageOf (f j) := by
    refine Finset.sum_congr rfl fun j hj => ?_
    rw [update_of_ne (Finset.ne_of_mem_erase hj)]
  rw [hrest]
  simp [pageOf]

theorem walk2_spec (alloc : Bool) (h : Tree vm.pt) (hi : i < entries) : ∃ found vm', walk2 vm i alloc = (found, vm') ∧
    Moved vm vm' ∧ (found = true ↔ vm'.pt.dir1 i ≠ none) ∧ (alloc = false → vm' = vm) := by
  rw [walk2]
  cases hd : vm.pt.dir1 i with
  | some p => exact ⟨true, vm, rfl, .refl h, by simp [hd], fun _ => rfl⟩
  | none =>
    cases alloc with
    | false => exact ⟨false, vm, rfl, .refl h, by simp [hd], fun _ => rfl⟩
    | true =>
      rw [kalloc]
      cases hf : vm.free with
      | nil => exact ⟨false, vm, rfl, .refl h, by simp [hd], fun _ => rfl⟩
      | cons pa free =>
        -- nothing was below the page-table page that is new
        have hdir0 : (fun j => if j / 512 = i then none else vm.pt.dir0 j) = vm.pt.dir0 := by
          funext j
          split
          · next hj => exact (h.dir0 j (hj ▸ hd)).symm
          · rfl
        refine ⟨true, _, rfl, ?_, ?_, ?_⟩
        · refine ⟨?_, rfl, ?_, ?_, ?_, rfl, rfl⟩
          · constructor
            · intro j hj
              change (if j / 512 = i then none else vm.pt.dir0 j) = none
              split
              · rfl
              · next hji =>
                refine h.dir0 j ?_
                change update vm.pt.dir1 i (some pa) (j / 512) = none at hj
                rwa [update_of_ne hji] at hj
            · intro v hv
              refine h.pte v ?_
              change (fun j => if j / 512 = i then none else vm.pt.dir0 j) (v / 512) = none at hv
              rwa [hdir0] at hv
          · rw [Vm.stock, Vm.stock, Pagetable.tables, Pagetable.tables, hdir0, hf, ← Multiset.cons_coe, ← Multiset.singleton_add]
            dsimp only
            rw [pageOf_update hi hd]
            abel
          · rw [hf, List.length_cons]
            exact Nat.le_succ _
          · intro q hq
            refine update_of_ne ?_ ..
            rintro rfl
            exact hq (mem_stock_of_free (by rw [hf]; exact List.mem_cons_self))
        · simp
        · simp

theorem walk1_spec (alloc : Bool) (h : Tree vm.pt) (hi : i < entries2) (hup : vm.pt.dir1 (i / 512) ≠ none) :
    ∃ found vm', walk1 vm i alloc = (found, vm') ∧ Moved vm vm' ∧ (found = true ↔ vm'.pt.dir0 i ≠ none) ∧ (alloc = false → vm' = vm) := by
  rw [walk1]
  cases hd : vm.pt.dir0 i with
  | some p => exact ⟨true, vm, rfl, .refl h, by simp [hd], fun _ => rfl⟩
  | none =>
    cases alloc with
    | false => exact ⟨false, vm, rfl, .refl h, by simp [hd], fun _ => rfl⟩
    | true =>
      rw [kalloc]
      cases hf : vm.free with
      | nil => exact ⟨false, vm, rfl, .refl h, by simp [hd], fun _ => rfl⟩
      | cons pa free =>
        have hpte : (fun v => if v / 512 = i then none else vm.pt.pte v) = vm.pt.pte := by
          funext v
          split
          · next hv => exact (h.pte v (hv ▸ hd)).symm
          · rfl
        refine ⟨true, _, rfl, ?_, ?_, ?_⟩
        · refine ⟨?_, hpte, ?_, ?_, ?_, rfl, rfl⟩
          · constructor
            · intro j hj
              change vm.pt.dir1 (j / 512) = none at hj
              change update vm.pt.dir0 i (some pa) j = none
              rw [update_of_ne (by rintro rfl; exact hup hj)]
              exact h.dir0 j hj
            · intro v hv
              change (if v / 512 = i then none else vm.pt.pte v) = none
              split
              · rfl
              · next hvi =>
                refine h.pte v ?_
                change update vm.pt.dir0 i (some pa) (v / 512) = none at hv
                rwa [update_of_ne hvi] at hv
          · rw [Vm.stock, Vm.stock, Pagetable.tables, Pagetable.tables, hf, ← Multiset.cons_coe, ← Multiset.singleton_add]
            dsimp only
            rw [pageOf_update hi hd]
            abel
          · rw [hf, List.length_cons]
            exact Nat.le_succ _
          · intro q hq
            refine update_of_ne ?_ ..
            rintro rfl
            exact hq (mem_stock_of_free (by rw [hf]; exact List.mem_cons_self))
        · simp
        · simp

variable (vm) in
theorem walk_spec (alloc : Bool) (h : Tree vm.pt) (hva : va < MAXVA) : ∃ found vm', walk vm va alloc = .ok (found, vm') ∧ Moved vm vm' ∧
      (found = true ↔ vm'.pt.dir0 (va / PGSIZE / 512) ≠ none) ∧ (alloc = false → vm' = vm) := by
  have hi : va / PGSIZE / 512 / 512 < entries ∧ va / PGSIZE / 512 < entries2 := by
    rw [entries, entries2]
    simp only [MAXVA, PGSIZE] at hva ⊢
    omega
  obtain ⟨found, vm₁, h2, hm, hfound, hno⟩ := walk2_spec alloc h hi.1
  rw [walk, if_neg (by omega), h2]
  cases found with
  | false =>
    have hnone : vm₁.pt.dir1 (va / PGSIZE / 512 / 512) = none := by
      by_contra hne
      exact absurd (hfound.mpr hne) (by decide)
    refine ⟨false, vm₁, rfl, hm, ?_, hno⟩
    simp [hm.tree.dir0 _ hnone]
  | true =>
    have hup := hfound.mp rfl
    obtain ⟨found', vm₂, h1, hm', hfound', hno'⟩ := walk1_spec alloc (i := va / PGSIZE / 512) hm.tree hi.2 hup
    refine ⟨found', vm₂, ?_, hm.trans hm', hfound', fun ha => ?_⟩
    · change Except.ok (walk1 vm₁ _ alloc) = _
      rw [h1]
    · rw [hno' ha, hno ha]

theorem walk_false : walk vm va false = if va ≥ MAXVA then .error .walk
    else .ok ((vm.pt.dir1 (va / PGSIZE / 512 / 512)).isSome && (vm.pt.dir0 (va / PGSIZE / 512)).isSome, vm) := by
  rw [walk]
  split
  · rfl
  · cases h1 : vm.pt.dir1 (va / PGSIZE / 512 / 512) with
    | none => simp [walk2, h1]
    | some p => cases h0 : vm.pt.dir0 (va / PGSIZE / 512) <;> simp [walk2, walk1, h1, h0]

theorem walk_found (h : Tree vm.pt) (hva : va < MAXVA) (he : vm.pt.pte (va / PGSIZE) = some e) : walk vm va false = .ok (true, vm) := by
  obtain ⟨found, vm₁, hw, -, hfound, hno⟩ := walk_spec vm false h hva
  have hdir : vm.pt.dir0 (va / PGSIZE / 512) ≠ none := by
    intro hnone
    exact absurd ((h.pte _ hnone).symm.trans he) (by simp)
  obtain rfl := hno rfl
  rw [hw, hfound.mpr hdir]

/-! ### Mapping and unmapping a page -/

@[simp] theorem stock_setPte {o : Option Pte} : (setPte vm v o).stock = vm.stock := by
  rw [Vm.stock, Vm.stock, Pagetable.tables, Pagetable.tables]
  rfl

theorem stock_cons (vm : Vm) (pa : ℕ) (data : ℕ → Page) : ({ vm with free := pa :: vm.free, data := data } : Vm).stock = {pa} + vm.stock := by
  rw [Vm.stock, Vm.stock, ← Multiset.cons_coe, ← Multiset.singleton_add, add_assoc]

theorem mul_div_pgsize (v : ℕ) : v * PGSIZE / PGSIZE = v := Nat.mul_div_cancel v (by decide)

/-- The memory after one page was mapped, or could not be. -/
structure Mapped (vm : Vm) (v : ℕ) (e : Pte) (mapped : Bool) (vm' : Vm) : Prop where
  tree : Tree vm'.pt
  pte : vm'.pt.pte = if mapped then update vm.pt.pte v (some e) else vm.pt.pte
  stock : vm'.stock = vm.stock
  free : vm'.free.length ≤ vm.free.length
  data : ∀ q, q ∉ vm.stock → vm'.data q = vm.data q
  lo : vm'.lo = vm.lo
  root : vm'.pt.root = vm.pt.root

variable (vm pa perm) in
theorem mappages_spec (h : Tree vm.pt) (hv : v * PGSIZE < MAXVA) (hnone : vm.pt.pte v = none) :
    ∃ mapped vm', mappages vm (v * PGSIZE) PGSIZE pa perm = .ok (mapped, vm') ∧ Mapped vm v ⟨pa, perm⟩ mapped vm' := by
  obtain ⟨found, vm₁, hw, hm, hfound, -⟩ := walk_spec vm true h hv
  have hlast : (v * PGSIZE + PGSIZE - 1) / PGSIZE * PGSIZE = v * PGSIZE := by
    simp only [PGSIZE]
    omega
  rw [mappages, if_neg (by decide)]
  simp only [mul_div_pgsize, hlast, Nat.sub_self, Nat.zero_div]
  rw [mapLoop, hw, ok_bind]
  cases found with
  | false => exact ⟨false, vm₁, rfl, hm.tree, by simpa using hm.pte, hm.stock, hm.free, hm.data, hm.lo, hm.root⟩
  | true =>
    simp only [if_true, mul_div_pgsize, hm.pte, hnone, Option.isSome_none, Bool.false_eq_true, if_false]
    rw [mul_div_pgsize] at hfound
    refine ⟨true, _, rfl, ⟨hm.tree.dir0, fun w hw => ?_⟩, ?_, stock_setPte.trans hm.stock, hm.free, hm.data, hm.lo, hm.root⟩
    · change update vm₁.pt.pte v _ w = none
      rw [update_of_ne (by rintro rfl; exact hfound.mp rfl hw)]
      exact hm.tree.pte w hw
    · change update vm₁.pt.pte v _ = _
      rw [hm.pte]
      rfl

def Vm.Ram (vm : Vm) (p : ℕ) : Prop := vm.lo ≤ p ∧ p < PHYSTOP

theorem unmapPage_spec (h : Tree vm.pt) (hv : v * PGSIZE < MAXVA) (he : vm.pt.pte v = some e)
    (hleaf : (e.perm.r || e.perm.w || e.perm.x || e.perm.u) = true) (hram : vm.Ram e.pa) : unmapPage vm (v * PGSIZE) true = .ok (setPte { vm with
      free := e.pa :: vm.free
      data := update vm.data e.pa fun _ => 1 } v none) := by
  have hw := walk_found h hv ((congrArg _ (mul_div_pgsize v)).trans he)
  rw [unmapPage, hw, ok_bind]
  simp only [if_true, mul_div_pgsize, he, hleaf]
  rw [kfree, if_pos (show vm.lo ≤ e.pa ∧ e.pa < PHYSTOP from hram)]
  rfl

/-! ### Many pages -/

def pages (sz : ℕ) : ℕ := (sz + PGSIZE - 1) / PGSIZE

def frames (pt : Pagetable) (v n : ℕ) : Multiset ℕ :=
  ∑ i ∈ Finset.range n, pageOf ((pt.pte (v + i)).map Pte.pa)

@[simp] theorem frames_zero : frames pt v 0 = 0 := rfl

theorem frames_succ : frames pt v (n + 1) = frames pt v n + pageOf ((pt.pte (v + n)).map Pte.pa) :=
  Finset.sum_range_succ ..

theorem frames_succ' : frames pt v (n + 1) = pageOf ((pt.pte v).map Pte.pa) + frames pt (v + 1) n := by
  rw [frames, Finset.sum_range_succ', add_comm, Nat.add_zero, frames]
  refine congrArg _ (Finset.sum_congr rfl fun i _ => ?_)
  rw [Nat.add_right_comm, Nat.add_assoc v i 1, Nat.add_comm i 1, ← Nat.add_assoc]

theorem frames_congr (h : ∀ i, i < n → pt'.pte (v + i) = pt.pte (v + i)) : frames pt' v n = frames pt v n := by
  refine Finset.sum_congr rfl fun i hi => ?_
  rw [h i (Finset.mem_range.mp hi)]

/-- The memory is as it was, but for pages that were moved to the page table. -/
structure Same (vm vm' : Vm) : Prop where
  tree : Tree vm'.pt
  pte : vm'.pt.pte = vm.pt.pte
  stock : vm'.stock = vm.stock
  data : ∀ q, q ∉ vm.stock → vm'.data q = vm.data q
  lo : vm'.lo = vm.lo
  root : vm'.pt.root = vm.pt.root

/-- **The pages from `v` on were unmapped.** -/
structure Unmapped (vm : Vm) (v n : ℕ) (vm' : Vm) : Prop where
  tree : Tree vm'.pt
  pte : ∀ w, vm'.pt.pte w = if v ≤ w ∧ w < v + n then none else vm.pt.pte w
  stock : vm'.stock = frames vm.pt v n + vm.stock
  data : ∀ q, q ∉ vm'.stock → vm'.data q = vm.data q
  lo : vm'.lo = vm.lo
  root : vm'.pt.root = vm.pt.root

def Vm.Leaf (vm : Vm) (v : ℕ) : Prop :=
  ∃ e, vm.pt.pte v = some e ∧ (e.perm.r || e.perm.w || e.perm.x || e.perm.u) = true ∧ vm.Ram e.pa

theorem Tree.setPte_none (h : Tree vm.pt) : Tree (setPte vm v none).pt := by
  refine ⟨h.dir0, fun w hw => ?_⟩
  change update vm.pt.pte v none w = none
  by_cases hwv : w = v
  · rw [hwv, update_self]
  · rw [update_of_ne hwv]
    exact h.pte w hw

theorem unmapLoop_spec (h : Tree vm.pt) (hmax : (v + n) * PGSIZE ≤ MAXVA) (hleaf : ∀ i, i < n → vm.Leaf (v + i)) :
    ∃ vm', unmapLoop n vm (v * PGSIZE) true = .ok vm' ∧ Unmapped vm v n vm' := by
  induction n generalizing v vm with
  | zero =>
    refine ⟨vm, rfl, h, fun w => ?_, by simp, fun _ _ => rfl, rfl, rfl⟩
    rw [if_neg (by omega)]
  | succ n ih =>
    obtain ⟨e, he, hperm, hram⟩ := hleaf 0 (by omega)
    rw [Nat.add_zero] at he
    have hv : v * PGSIZE < MAXVA := by
      refine lt_of_lt_of_le ?_ hmax
      exact Nat.mul_lt_mul_of_pos_right (by omega) (by decide)
    have hpage := unmapPage_spec h hv he hperm hram
    set vm₁ := setPte { vm with
      free := e.pa :: vm.free
      data := update vm.data e.pa fun _ => 1 } v none with hvm₁
    have hpte₁ : ∀ w, w ≠ v → vm₁.pt.pte w = vm.pt.pte w := fun w hw => update_of_ne hw ..
    have hstock₁ : vm₁.stock = {e.pa} + vm.stock := by
      rw [hvm₁, stock_setPte, stock_cons]
    have hidx : v + (n + 1) = v + 1 + n := by omega
    have htree₁ : Tree vm₁.pt := Tree.setPte_none h
    obtain ⟨vm', hloop, hun⟩ := ih (v := v + 1) htree₁ (hidx ▸ hmax) fun i hi => by
        obtain ⟨e', he', hrest⟩ := hleaf (i + 1) (by omega)
        refine ⟨e', ?_, hrest⟩
        rw [hpte₁ _ (by omega), Nat.add_assoc, Nat.add_comm 1 i]
        exact he'
    have hframes : frames vm₁.pt (v + 1) n = frames vm.pt (v + 1) n :=
      frames_congr fun i _ => hpte₁ _ (by omega)
    have hstock' : vm'.stock = frames vm.pt v (n + 1) + vm.stock := by
      rw [hun.stock, hframes, hstock₁, frames_succ', he]
      simp only [Option.map_some, pageOf, Option.elim_some]
      abel
    refine ⟨vm', ?_, hun.tree, fun w => ?_, hstock', fun q hq => ?_, hun.lo, hun.root⟩
    · rw [Nat.add_mul, Nat.one_mul] at hloop
      rw [unmapLoop, hpage, ok_bind, hloop]
    · rw [hun.pte w]
      by_cases hwv : w = v
      · subst hwv
        rw [if_neg (by omega), if_pos (by omega)]
        exact update_self ..
      · rw [hpte₁ w hwv]
        by_cases hin : v + 1 ≤ w ∧ w < v + 1 + n
        · rw [if_pos hin, if_pos (by omega)]
        · rw [if_neg hin, if_neg (by omega)]
    · rw [hun.data q hq]
      refine update_of_ne ?_ ..
      rintro rfl
      refine hq ?_
      rw [hun.stock, hstock₁]
      simp

theorem pgroundup_eq {sz : ℕ} (h : sz + PGSIZE ≤ 2 ^ 64) : pgroundup sz = pages sz * PGSIZE := by
  rw [pgroundup, pages, Nat.mod_eq_of_lt]
  simp only [PGSIZE] at h ⊢
  omega

theorem pages_mul (v : ℕ) : pages (v * PGSIZE) = v := by
  have hP : PGSIZE = 4096 := rfl
  rw [pages, hP]
  omega

theorem lt_pages {sz : ℕ} : v < pages sz ↔ v * PGSIZE < sz := by
  have hP : PGSIZE = 4096 := rfl
  rw [pages, hP]
  omega

theorem uvmdealloc_spec {oldsz newsz : ℕ} (h : Tree vm.pt) (hlt : newsz < oldsz) (hold : oldsz ≤ MAXVA - PGSIZE)
    (hleaf : ∀ w, pages newsz ≤ w → w < pages oldsz → vm.Leaf w) : ∃ vm', uvmdealloc vm oldsz newsz = .ok (newsz, vm') ∧
      Unmapped vm (pages newsz) (pages oldsz - pages newsz) vm' := by
  have hM : MAXVA - PGSIZE = 2 ^ 38 - 4096 := rfl
  have hP : PGSIZE = 4096 := rfl
  have hmono : pages newsz ≤ pages oldsz := by
    rw [pages, pages]
    exact Nat.div_le_div_right (by omega)
  have hup : pgroundup newsz = pages newsz * PGSIZE ∧ pgroundup oldsz = pages oldsz * PGSIZE :=
    ⟨pgroundup_eq (by omega), pgroundup_eq (by omega)⟩
  rw [uvmdealloc, if_neg (by omega), hup.1, hup.2]
  split
  · next hpages =>
    have hn : (pages oldsz * PGSIZE - pages newsz * PGSIZE) / PGSIZE = pages oldsz - pages newsz := by
      rw [← Nat.sub_mul, mul_div_pgsize]
    obtain ⟨vm', hloop, hun⟩ := unmapLoop_spec (n := pages oldsz - pages newsz) h (v := pages newsz) (by
        rw [Nat.add_sub_cancel' hmono, pages, MAXVA, hP]
        omega) fun i hi => hleaf _ (by omega) (by omega)
    refine ⟨vm', ?_, hun⟩
    rw [uvmunmap, if_neg (by rw [Nat.mul_mod_left]; decide), hn, hloop, ok_bind]
  · next hpages =>
    have heq : pages oldsz - pages newsz = 0 := by
      rw [hP] at hpages
      omega
    rw [heq]
    refine ⟨vm, rfl, h, fun w => ?_, by simp, fun _ _ => rfl, rfl, rfl⟩
    rw [if_neg (by omega)]

end Xv6.Paging
