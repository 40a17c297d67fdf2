import Xv6.Vm.Grow

/-!
# Making and freeing a page table

`freewalk` gives the pages of a page table back once its leaves are gone, so that the free pages are then the
stock. A page table that `proc_pagetable` could not finish leaves the free pages as they were.
-/

namespace Xv6.Paging

open Lib Function

open Multiset (mem_add mem_sum)

/-! ### The functions -/

def PTES : ℕ := 512

/-- `freewalk` of a page with leaves. -/
def freewalk0 (vm : Vm) (i pa : ℕ) : Except Panic Vm :=
  if (List.range PTES).any fun j => (vm.pt.pte (i * PTES + j)).isSome then .error .freewalkLeaf else kfree vm pa

/-- A round of the loop of `freewalk`, at an entry of the middle level. -/
def freeEntry0 (vm : Vm) (k : ℕ) : Except Panic Vm :=
  match vm.pt.dir0 k with
  | none => .ok vm
  | some child => do
    let vm ← freewalk0 vm k child
    .ok { vm with pt := { vm.pt with dir0 := update vm.pt.dir0 k none } }

/-- `freewalk` one level above. -/
def freewalk1 (vm : Vm) (i pa : ℕ) : Except Panic Vm := do
  let vm ← (List.range PTES).foldlM (fun vm j => freeEntry0 vm (i * PTES + j)) vm
  kfree vm pa

/-- A round of the loop of `freewalk`, at an entry of the root. -/
def freeEntry1 (vm : Vm) (i : ℕ) : Except Panic Vm :=
  match vm.pt.dir1 i with
  | none => .ok vm
  | some child => do
    let vm ← freewalk1 vm i child
    .ok { vm with pt := { vm.pt with dir1 := update vm.pt.dir1 i none } }

def freewalk (vm : Vm) : Except Panic Vm := do
  let vm ← (List.range PTES).foldlM freeEntry1 vm
  kfree vm vm.pt.root

def uvmfree (vm : Vm) (sz : ℕ) : Except Panic Vm := do
  let vm ← if sz > 0 then uvmunmap vm 0 (pgroundup sz / PGSIZE) true else .ok vm
  freewalk vm

def uvmcreate (vm : Vm) : Option Vm :=
  (kalloc vm).map fun (root, vm) => { vm with pt := ⟨root, fun _ => none, fun _ => none, fun _ => none⟩ }

/-- `proc_pagetable`, for the page with the trampoline and the one with the trapframe: whether there was
memory for it. -/
def procPagetable (vm : Vm) (trampoline trapframe : ℕ) : Except Panic (Bool × Vm) :=
  match uvmcreate vm with
  | none => .ok (false, vm)
  | some vm => do
    let (mapped, vm) ← mappages vm TRAMPOLINE PGSIZE trampoline ⟨true, false, true, false⟩
    if mapped then do
      -- this needs no new page-table page, but the source checks it all the same
      let (mapped, vm) ← mappages vm TRAPFRAME PGSIZE trapframe ⟨true, true, false, false⟩
      if mapped then .ok (true, vm)
      else do
        let vm ← uvmunmap vm TRAMPOLINE 1 false
        let vm ← uvmfree vm 0
        .ok (false, vm)
    else do
      let vm ← uvmfree vm 0
      .ok (false, vm)

def procFreepagetable (vm : Vm) (sz : ℕ) : Except Panic Vm := do
  let vm ← uvmunmap vm TRAMPOLINE 1 false
  let vm ← uvmunmap vm TRAPFRAME 1 false
  uvmfree vm sz

/-! ### `freewalk` -/

variable {vm vm' : Vm} {i n pa : ℕ}

variable (vm) in
theorem kfree_eq (h : vm.Ram pa) : kfree vm pa = .ok { vm with free := pa :: vm.free, data := update vm.data pa fun _ => 1 } := by
  rw [kfree, if_pos (show vm.lo ≤ pa ∧ pa < PHYSTOP from h)]

structure Freed (vm : Vm) (ps : Multiset ℕ) (vm' : Vm) : Prop where
  free : (vm'.free : Multiset ℕ) = ps + vm.free
  data : ∀ q, q ∉ ps → vm'.data q = vm.data q
  pte : vm'.pt.pte = vm.pt.pte
  root : vm'.pt.root = vm.pt.root
  lo : vm'.lo = vm.lo

theorem Freed.refl : Freed vm 0 vm := ⟨(zero_add _).symm, fun _ _ => rfl, rfl, rfl, rfl⟩

theorem Freed.trans {vm₁ : Vm} {ps ps' : Multiset ℕ} (h : Freed vm ps vm₁) (h' : Freed vm₁ ps' vm') : Freed vm (ps + ps') vm' where
  free := by
    rw [h'.free, h.free]
    abel
  data q hq := by
    rw [mem_add, not_or] at hq
    rw [h'.data q hq.2, h.data q hq.1]
  pte := h'.pte.trans h.pte
  root := h'.root.trans h.root
  lo := h'.lo.trans h.lo

theorem freewalk1_loop (hpte : ∀ v, vm.pt.pte v = none) (hram : ∀ j, j < n → ∀ p, vm.pt.dir0 (i * PTES + j) = some p → vm.Ram p) :
    ∃ vm', (List.range n).foldlM (fun vm j => freeEntry0 vm (i * PTES + j)) vm = .ok vm' ∧
      Freed vm (∑ j ∈ Finset.range n, pageOf (vm.pt.dir0 (i * PTES + j))) vm' ∧ vm'.pt.dir1 = vm.pt.dir1 ∧
        ∀ k, (k < i * PTES ∨ i * PTES + n ≤ k) → vm'.pt.dir0 k = vm.pt.dir0 k := by
  induction n with
  | zero => exact ⟨vm, rfl, Freed.refl, rfl, fun _ _ => rfl⟩
  | succ n ih =>
    obtain ⟨vm₁, hfold, hfreed, hdir1, hdir0⟩ := ih fun j hj => hram j (by omega)
    have hsame : vm₁.pt.dir0 (i * PTES + n) = vm.pt.dir0 (i * PTES + n) := hdir0 _ (.inr le_rfl)
    rw [List.range_succ, List.foldlM_append, hfold, ok_bind, List.foldlM_cons, freeEntry0, hsame, Finset.sum_range_succ]
    cases hd : vm.pt.dir0 (i * PTES + n) with
    | none =>
      refine ⟨vm₁, rfl, ?_, hdir1, fun k hk => hdir0 k (by omega)⟩
      simpa [pageOf] using hfreed
    | some p =>
      have hnone : ¬((List.range PTES).any fun j => (vm₁.pt.pte ((i * PTES + n) * PTES + j)).isSome) = true := by
        simp [hfreed.pte, hpte]
      have hr : vm₁.Ram p := by
        have := hram n (Nat.lt_succ_self n) p hd
        rwa [Vm.Ram, ← hfreed.lo] at this
      refine ⟨{ vm₁ with
        free := p :: vm₁.free
        data := update vm₁.data p fun _ => 1
        pt := { vm₁.pt with dir0 := update vm₁.pt.dir0 (i * PTES + n) none } }, ?_, ?_, hdir1, fun k hk => ?_⟩
      · simp only [freewalk0]
        rw [if_neg hnone, kfree_eq _ hr]
        rfl
      · refine hfreed.trans ⟨?_, fun q hq => ?_, rfl, rfl, rfl⟩
        · simp [pageOf]
        · refine update_of_ne ?_ ..
          rintro rfl
          exact hq (by simp [pageOf])
      · rw [← hdir0 k (by omega)]
        exact update_of_ne (by omega) ..

theorem freewalk1_spec (hpte : ∀ v, vm.pt.pte v = none) (hpa : vm.Ram pa)
    (hram : ∀ j, j < PTES → ∀ p, vm.pt.dir0 (i * PTES + j) = some p → vm.Ram p) : ∃ vm', freewalk1 vm i pa = .ok vm' ∧
      Freed vm ((∑ j ∈ Finset.range PTES, pageOf (vm.pt.dir0 (i * PTES + j))) + {pa}) vm' ∧ vm'.pt.dir1 = vm.pt.dir1 ∧
          ∀ k, (k < i * PTES ∨ i * PTES + PTES ≤ k) → vm'.pt.dir0 k = vm.pt.dir0 k := by
  obtain ⟨vm₁, hfold, hfreed, hdir1, hdir0⟩ := freewalk1_loop hpte hram
  have hr : vm₁.Ram pa := by rwa [Vm.Ram, hfreed.lo]
  refine ⟨{ vm₁ with free := pa :: vm₁.free, data := update vm₁.data pa fun _ => 1 }, ?_, ?_, hdir1, hdir0⟩
  · rw [freewalk1, hfold, ok_bind, kfree_eq _ hr]
  · refine hfreed.trans ⟨rfl, fun q hq => ?_, rfl, rfl, rfl⟩
    exact update_of_ne (by simpa using hq) ..

theorem freewalk_loop (h : Tree vm.pt) (hpte : ∀ v, vm.pt.pte v = none) (hram1 : ∀ i, i < n → ∀ p, vm.pt.dir1 i = some p → vm.Ram p)
    (hram0 : ∀ k, k < n * PTES → ∀ p, vm.pt.dir0 k = some p → vm.Ram p) : ∃ vm', (List.range n).foldlM freeEntry1 vm = .ok vm' ∧
      Freed vm ((∑ i ∈ Finset.range n, pageOf (vm.pt.dir1 i)) + ∑ k ∈ Finset.range (n * PTES), pageOf (vm.pt.dir0 k))
        vm' ∧ (∀ k, n ≤ k → vm'.pt.dir1 k = vm.pt.dir1 k) ∧ ∀ k, n * PTES ≤ k → vm'.pt.dir0 k = vm.pt.dir0 k := by
  induction n with
  | zero => exact ⟨vm, rfl, by simpa using Freed.refl, fun _ _ => rfl, fun _ _ => rfl⟩
  -- an entry that is not there has none below it, so that both sums count what was freed
  | succ n ih =>
    have hP : PTES = 512 := rfl
    obtain ⟨vm₁, hfold, hfreed, hdir1, hdir0⟩ := ih (fun i hi => hram1 i (by omega)) fun k hk =>
      hram0 k (by rw [Nat.succ_mul]; omega)
    have hsame : vm₁.pt.dir1 n = vm.pt.dir1 n := hdir1 n le_rfl
    rw [List.range_succ, List.foldlM_append, hfold, ok_bind, List.foldlM_cons, freeEntry1, hsame,
      Finset.sum_range_succ, Nat.succ_mul, Finset.sum_range_add]
    cases hd : vm.pt.dir1 n with
    | none =>
      have hzero : (∑ j ∈ Finset.range PTES, pageOf (vm.pt.dir0 (n * PTES + j))) = 0 := by
        refine Finset.sum_eq_zero fun j hj => ?_
        have hj := Finset.mem_range.mp hj
        rw [h.dir0 _ (by rw [show (n * PTES + j) / 512 = n by rw [hP] at hj ⊢; omega]; exact hd)]
        rfl
      refine ⟨vm₁, rfl, ?_, fun k hk => hdir1 k (by omega), fun k hk => hdir0 k (by omega)⟩
      rw [hzero]
      simpa [pageOf] using hfreed
    | some p =>
      have hdir0' : ∀ j, vm₁.pt.dir0 (n * PTES + j) = vm.pt.dir0 (n * PTES + j) := fun j => hdir0 _ (by omega)
      have hramlo : ∀ q, vm.Ram q → vm₁.Ram q := by
        intro q hq
        rwa [Vm.Ram, hfreed.lo]
      obtain ⟨vm₂, hwalk, hfreed', hd1, hd0⟩ := freewalk1_spec (i := n)
        (show ∀ v, vm₁.pt.pte v = none from fun v => by rw [hfreed.pte, hpte]) (hramlo p (hram1 n (Nat.lt_succ_self n) p hd)) fun j hj q hq =>
          hramlo q (hram0 (n * PTES + j) (by rw [Nat.succ_mul]; omega) q (by rwa [← hdir0']))
      refine ⟨{ vm₂ with pt := { vm₂.pt with dir1 := update vm₂.pt.dir1 n none } }, ?_, ?_, fun k hk => ?_, fun k hk => ?_⟩
      · simp only [hwalk]
        rfl
      · have htotal := hfreed.trans hfreed'
        simp only [hdir0'] at htotal
        have hps : (∑ i ∈ Finset.range n, pageOf (vm.pt.dir1 i)) + (∑ k ∈ Finset.range (n * PTES), pageOf (vm.pt.dir0 k)) +
              ((∑ j ∈ Finset.range PTES, pageOf (vm.pt.dir0 (n * PTES + j))) + {p}) =
            (∑ i ∈ Finset.range n, pageOf (vm.pt.dir1 i)) + pageOf (some p) + ((∑ k ∈ Finset.range (n * PTES), pageOf (vm.pt.dir0 k)) +
                ∑ j ∈ Finset.range PTES, pageOf (vm.pt.dir0 (n * PTES + j))) := by
          simp only [pageOf, Option.elim_some]
          abel
        rw [← hps]
        exact { htotal with }
      · rw [← hdir1 k (by omega), ← hd1]
        exact update_of_ne (by omega) ..
      · rw [← hdir0 k (by omega)]
        exact hd0 k (.inr (by omega))

theorem freewalk_spec (h : Tree vm.pt) (hpte : ∀ v, vm.pt.pte v = none) (hram : ∀ p ∈ vm.stock, vm.Ram p) :
    ∃ vm', freewalk vm = .ok vm' ∧ (vm'.free : Multiset ℕ) = vm.stock ∧ (∀ q, q ∉ vm.stock → vm'.data q = vm.data q) ∧ vm'.lo = vm.lo := by
  have hP : PTES = entries := by rw [entries]; rfl
  have hP2 : PTES * PTES = entries2 := by rw [entries2]; rfl
  have hmem1 : ∀ i, i < PTES → ∀ p, vm.pt.dir1 i = some p → p ∈ vm.stock := by
    intro i hi p hp
    rw [Vm.stock, Pagetable.tables, mem_add, mem_add, mem_add]
    refine .inr (.inl (.inr (Multiset.mem_sum.mpr ⟨i, Finset.mem_range.mpr (hP ▸ hi), ?_⟩)))
    rw [hp]
    simp [pageOf]
  have hmem0 : ∀ i, i < PTES * PTES → ∀ p, vm.pt.dir0 i = some p → p ∈ vm.stock := by
    intro i hi p hp
    rw [Vm.stock, Pagetable.tables, mem_add, mem_add]
    refine .inr (.inr (Multiset.mem_sum.mpr ⟨i, Finset.mem_range.mpr (hP2 ▸ hi), ?_⟩))
    rw [hp]
    simp [pageOf]
  have hroot : vm.pt.root ∈ vm.stock := by
    rw [Vm.stock, Pagetable.tables, mem_add, mem_add, mem_add]
    exact .inr (.inl (.inl (Multiset.mem_singleton_self _)))
  obtain ⟨vm₁, hfold, hfreed, -, -⟩ := freewalk_loop h hpte (n := PTES) (fun i hi p hp => hram p (hmem1 i hi p hp))
    fun k hk p hp => hram p (hmem0 k hk p hp)
  have hr : vm₁.Ram vm₁.pt.root := by
    rw [hfreed.root, Vm.Ram, hfreed.lo]
    exact hram _ hroot
  obtain ⟨ps, hps⟩ : ∃ ps, ps = (∑ i ∈ Finset.range PTES, pageOf (vm.pt.dir1 i)) + ∑ k ∈ Finset.range (PTES * PTES), pageOf (vm.pt.dir0 k) := ⟨_, rfl⟩
  rw [← hps] at hfreed
  have hall : Freed vm (ps + {vm.pt.root}) { vm₁ with free := vm₁.pt.root :: vm₁.free, data := update vm₁.data vm₁.pt.root fun _ => 1 } := by
    refine hfreed.trans ⟨?_, fun q hq => ?_, rfl, rfl, rfl⟩
    · rw [hfreed.root]
      rfl
    · rw [hfreed.root]
      exact update_of_ne (by simpa using hq) ..
  have hstock : vm.stock = ps + {vm.pt.root} + vm.free := by
    rw [hps, Vm.stock, Pagetable.tables, hP2, hP]
    abel
  refine ⟨_, ?_, hall.free.trans hstock.symm, fun q hq => hall.data q fun hmem => hq ?_, hall.lo⟩
  · rw [freewalk, hfold, ok_bind, kfree_eq _ hr]
  · rw [hstock, mem_add]
    exact .inl hmem

/-! ### `uvmfree` -/

structure Released (vm : Vm) (ps : Multiset ℕ) (vm' : Vm) : Prop where
  free : (vm'.free : Multiset ℕ) = ps
  data : ∀ q, q ∉ ps → vm'.data q = vm.data q
  lo : vm'.lo = vm.lo

theorem freewalk_released (h : Tree vm.pt) (hpte : ∀ v, vm.pt.pte v = none) (hram : ∀ p ∈ vm.stock, vm.Ram p) :
    ∃ vm', freewalk vm = .ok vm' ∧ Released vm vm.stock vm' := by
  obtain ⟨vm', hwalk, hfree, hdata, hlo⟩ := freewalk_spec h hpte hram
  exact ⟨vm', hwalk, hfree, hdata, hlo⟩

theorem uvmfree_spec {sz : ℕ} (h : Tree vm.pt) (hsz : sz ≤ TRAPFRAME) (hleaf : ∀ v, v < pages sz → vm.Leaf v)
    (hnone : ∀ v, pages sz ≤ v → vm.pt.pte v = none) (hram : ∀ p ∈ vm.stock, vm.Ram p) :
    ∃ vm', uvmfree vm sz = .ok vm' ∧ Released vm (frames vm.pt 0 (pages sz) + vm.stock) vm' := by
  have hP : PGSIZE = 4096 := rfl
  have hT : TRAPFRAME = 2 ^ 38 - 8192 := rfl
  have hup : pgroundup sz = pages sz * PGSIZE := pgroundup_eq (by rw [hP]; omega)
  have hmax : (0 + pages sz) * PGSIZE ≤ MAXVA := by
    have hM : MAXVA = 2 ^ 38 := rfl
    rw [pages, hM, hP]
    omega
  obtain ⟨vm₁, hloop, hun⟩ := unmapLoop_spec h hmax fun i hi => hleaf _ (by omega)
  have hram₁ : ∀ p ∈ vm₁.stock, vm₁.Ram p := by
    intro p hp
    rw [Vm.Ram, hun.lo]
    rw [hun.stock, mem_add] at hp
    rcases hp with hp | hp
    · obtain ⟨w, e, -, hw, he, rfl⟩ := exists_of_mem_frames hp
      obtain ⟨e', he', -, hr⟩ := hleaf w (by omega)
      obtain rfl : e = e' := Option.some.inj (he.symm.trans he')
      exact hr
    · exact hram p hp
  obtain ⟨vm', hwalk, hrel⟩ := freewalk_released hun.tree (fun v => by
    rw [hun.pte v]
    split
    · rfl
    · exact hnone v (by omega)) hram₁
  refine ⟨vm', ?_, ?_, fun q hq => ?_, hrel.lo.trans hun.lo⟩
  · rw [uvmfree]
    split
    · rw [uvmunmap, if_neg (by decide), hup, mul_div_pgsize, ← Nat.zero_mul PGSIZE, hloop, ok_bind]
      exact hwalk
    rename_i h0
    have h0 : sz = 0 := by omega
    subst h0
    have hvm : vm = vm₁ := by
      injection hloop
    rw [hvm, ok_bind]
    exact hwalk
  · exact hrel.free.trans hun.stock
  · rw [← hun.stock] at hq
    rw [hrel.data q hq, hun.data q hq]

/-! ### The page table of a process -/

theorem trampoline_eq : TRAMPOLINE = topPage * PGSIZE := rfl

theorem topPage_lt : topPage * PGSIZE < MAXVA ∧ (topPage - 1) * PGSIZE < MAXVA := by
  have hM : MAXVA = 2 ^ 38 := rfl
  have hP : PGSIZE = 4096 := rfl
  have ht : topPage = 2 ^ 26 - 1 := rfl
  rw [hM, hP, ht]
  omega

theorem unmapPage_keep {v : ℕ} {e : Pte} (h : Tree vm.pt) (hv : v * PGSIZE < MAXVA) (he : vm.pt.pte v = some e)
    (hperm : LeafPerm e.perm) : uvmunmap vm (v * PGSIZE) 1 false = .ok (setPte vm v none) := by
  have hw := walk_found h hv ((congrArg _ (mul_div_pgsize v)).trans he)
  have hleaf : (e.perm.r || e.perm.w || e.perm.x || e.perm.u) = true := hperm
  rw [uvmunmap, if_neg (by rw [Nat.mul_mod_left]; decide), unmapLoop, unmapPage, hw, ok_bind]
  simp only [if_true, mul_div_pgsize, he, hleaf]
  rfl

structure Fresh (vm : Vm) (trampoline trapframe : ℕ) (vm' : Vm) : Prop where
  tree : Tree vm'.pt
  pte : vm'.pt.pte = update (update (fun _ => none) topPage (some ⟨trampoline, true, false, true, false⟩))
    (topPage - 1) (some ⟨trapframe, true, true, false, false⟩)
  stock : vm'.stock = vm.free
  data : ∀ q, q ∉ vm.free → vm'.data q = vm.data q
  lo : vm'.lo = vm.lo

theorem stock_create {free : List ℕ} {root : ℕ} {data : ℕ → Page} {lo : ℕ} :
    (Vm.mk free data ⟨root, fun _ => none, fun _ => none, fun _ => none⟩ lo).stock = ((root :: free : List ℕ) : Multiset ℕ) := by
  rw [Vm.stock, Pagetable.tables, ← Multiset.cons_coe, ← Multiset.singleton_add]
  simp [pageOf, add_comm]

theorem procPagetable_spec (trampoline trapframe : ℕ) (hram : ∀ p ∈ vm.free, vm.Ram p) :
    ∃ made vm', procPagetable vm trampoline trapframe = .ok (made, vm') ∧
      if made then Fresh vm trampoline trapframe vm' else Released vm vm.free vm' := by
  obtain ⟨htop, htop'⟩ := topPage_lt
  rw [procPagetable, uvmcreate, kalloc]
  cases hfree : vm.free with
  | nil => exact ⟨false, vm, rfl, by rw [hfree], fun _ _ => rfl, rfl⟩
  | cons root free =>
    simp only [Option.map_some]
    obtain ⟨vm₀, hvm₀⟩ : ∃ vm₀ : Vm, vm₀ = { vm with
      free := free
      data := update vm.data root fun _ => 5
      pt := ⟨root, fun _ => none, fun _ => none, fun _ => none⟩ } := ⟨_, rfl⟩
    rw [← hvm₀]
    have hpte₀ : ∀ v, vm₀.pt.pte v = none := fun v => by rw [hvm₀]
    have hstock₀ : vm₀.stock = ((root :: free : List ℕ) : Multiset ℕ) := by rw [hvm₀, stock_create]
    have hlo₀ : vm₀.lo = vm.lo := by rw [hvm₀]
    have htree₀ : Tree vm₀.pt := by
      rw [hvm₀]
      exact ⟨fun _ _ => rfl, fun _ _ => rfl⟩
    have hdata₀ : ∀ q, q ∉ root :: free → vm₀.data q = vm.data q := by
      intro q hq
      rw [hvm₀]
      refine update_of_ne ?_ ..
      rintro rfl
      exact hq List.mem_cons_self
    have hram₀ : ∀ p ∈ vm₀.stock, vm₀.Ram p := by
      intro p hp
      rw [hstock₀] at hp
      rw [Vm.Ram, hlo₀]
      exact hram p (hfree ▸ hp)
    -- a page table without leaves whose stock is the free pages is given back
    have hgive : ∀ vm₁ : Vm, Tree vm₁.pt → (∀ v, vm₁.pt.pte v = none) → vm₁.stock = vm₀.stock → vm₁.lo = vm₀.lo →
        (∀ q, q ∉ vm₀.stock → vm₁.data q = vm₀.data q) → ∃ vm', uvmfree vm₁ 0 = .ok vm' ∧ Released vm ((root :: free : List ℕ) : Multiset ℕ) vm' := by
      intro vm₁ htree hpte hstock hlo hdata
      obtain ⟨vm', hfr, hrel⟩ := freewalk_released htree hpte fun p hp => by
        rw [Vm.Ram, hlo]
        exact hram₀ p (hstock ▸ hp)
      refine ⟨vm', ?_, ?_, fun q hq => ?_, ?_⟩
      · rw [uvmfree, if_neg (Nat.lt_irrefl 0), ok_bind]
        exact hfr
      · rw [hrel.free, hstock, hstock₀]
      · rw [hrel.data q (by rwa [hstock, hstock₀]), hdata q (by rwa [hstock₀]), hdata₀ q hq]
      · rw [hrel.lo, hlo, hlo₀]
    obtain ⟨mapped, vm₁, hmapp, hmap⟩ := mappages_spec vm₀ trampoline ⟨true, false, true, false⟩ htree₀ htop (hpte₀ topPage)
    rw [trampoline_eq, hmapp, ok_bind]
    cases mapped with
    | false =>
      have hpte₁ : vm₁.pt.pte = vm₀.pt.pte := hmap.pte
      obtain ⟨vm', hfr, hrel⟩ := hgive vm₁ hmap.tree (fun v => by rw [hpte₁, hpte₀]) hmap.stock hmap.lo hmap.data
      refine ⟨false, vm', ?_, hrel⟩
      simp only [Bool.false_eq_true, if_false, hfr]
      rfl
    | true =>
      have hpte₁ : vm₁.pt.pte = update vm₀.pt.pte topPage (some ⟨trampoline, true, false, true, false⟩) := hmap.pte
      obtain ⟨mapped, vm₂, hmapp', hmap'⟩ := mappages_spec vm₁ trapframe ⟨true, true, false, false⟩
        hmap.tree htop' (by rw [hpte₁, update_of_ne (by decide), hpte₀])
      simp only [if_true]
      rw [trapframe_eq, hmapp', ok_bind]
      have hstock₂ : vm₂.stock = vm₀.stock := hmap'.stock.trans hmap.stock
      have hdata₂ : ∀ q, q ∉ vm₀.stock → vm₂.data q = vm₀.data q := fun q hq =>
        (hmap'.data q (by rwa [hmap.stock])).trans (hmap.data q hq)
      have hlo₂ : vm₂.lo = vm₀.lo := hmap'.lo.trans hmap.lo
      cases mapped with
      | false =>
        have hpte₂ : vm₂.pt.pte = vm₁.pt.pte := hmap'.pte
        have hun := unmapPage_keep (v := topPage) (e := ⟨trampoline, true, false, true, false⟩) hmap'.tree htop
          (by rw [hpte₂, hpte₁, update_self]) rfl
        obtain ⟨vm', hfr, hrel⟩ := hgive (setPte vm₂ topPage none) hmap'.tree.setPte_none (fun v => by
            change update vm₂.pt.pte topPage none v = none
            rw [hpte₂, hpte₁, update_idem]
            by_cases hv : v = topPage
            · rw [hv, update_self]
            · rw [update_of_ne hv, hpte₀]) (stock_setPte.trans hstock₂) hlo₂ hdata₂
        refine ⟨false, vm', ?_, hrel⟩
        simp only [Bool.false_eq_true, if_false, hun, ok_bind, hfr]
      | true =>
        refine ⟨true, vm₂, rfl, hmap'.tree, ?_, ?_, fun q hq => ?_, hlo₂.trans hlo₀⟩
        · rw [hmap'.pte, if_pos rfl, hpte₁]
          refine congrArg (fun f => update (update f topPage _) (topPage - 1) _) (funext hpte₀)
        · rw [hstock₂, hstock₀, hfree]
        · rw [hfree] at hq
          rw [hdata₂ q (by rwa [hstock₀]), hdata₀ q hq]

variable (vm) in
theorem procFreepagetable_spec (sz : ℕ) {e g : Pte} (h : Tree vm.pt) (hsz : sz ≤ TRAPFRAME) (hleaf : ∀ v, v < pages sz → vm.Leaf v)
    (hnone : ∀ v, pages sz ≤ v → v ≠ topPage → v ≠ topPage - 1 → vm.pt.pte v = none) (he : vm.pt.pte topPage = some e) (hperm : LeafPerm e.perm)
    (hg : vm.pt.pte (topPage - 1) = some g) (hperm' : LeafPerm g.perm) (hram : ∀ p ∈ vm.stock, vm.Ram p) :
    ∃ vm', procFreepagetable vm sz = .ok vm' ∧ Released vm (frames vm.pt 0 (pages sz) + vm.stock) vm' := by
  obtain ⟨htop, htop'⟩ := topPage_lt
  have hlow : pages sz ≤ topPage - 1 := by
    have hT : TRAPFRAME = (topPage - 1) * 4096 := rfl
    have hP : PGSIZE = 4096 := rfl
    rw [pages, hP]
    omega
  have hne : topPage - 1 ≠ topPage := by decide
  have hun := unmapPage_keep h htop he hperm
  have hun' := unmapPage_keep (v := topPage - 1) (show Tree (setPte vm topPage none).pt from h.setPte_none) htop'
    (show update vm.pt.pte topPage none (topPage - 1) = some g by rw [update_of_ne hne, hg]) hperm'
  have hpte : ∀ v, (setPte (setPte vm topPage none) (topPage - 1) none).pt.pte v =
      if v = topPage ∨ v = topPage - 1 then none else vm.pt.pte v := by
    intro v
    change update (update vm.pt.pte topPage none) (topPage - 1) none v = _
    by_cases h1 : v = topPage - 1
    · rw [h1, update_self, if_pos (.inr rfl)]
    · rw [update_of_ne h1]
      by_cases h2 : v = topPage
      · rw [h2, update_self, if_pos (.inl rfl)]
      · rw [update_of_ne h2, if_neg (not_or.mpr ⟨h2, h1⟩)]
  have hsame : ∀ v, v < pages sz → (setPte (setPte vm topPage none) (topPage - 1) none).pt.pte v = vm.pt.pte v := by
    intro v hv
    rw [hpte v, if_neg (by omega)]
  obtain ⟨vm', hfr, hrel⟩ := uvmfree_spec
    (show Tree (setPte (setPte vm topPage none) (topPage - 1) none).pt from h.setPte_none.setPte_none) hsz (fun v hv => by
      obtain ⟨e, he, hrest⟩ := hleaf v hv
      exact ⟨e, (hsame v hv).trans he, hrest⟩) (fun v hv => by
      rw [hpte v]
      split
      · rfl
      · next hv' => exact hnone v hv (not_or.mp hv').1 (not_or.mp hv').2) fun p hp => by
        rw [stock_setPte, stock_setPte] at hp
        exact hram p hp
  refine ⟨vm', ?_, ?_⟩
  · rw [procFreepagetable, trampoline_eq, trapframe_eq, hun, ok_bind, hun', ok_bind]
    exact hfr
  · rw [stock_setPte, stock_setPte, frames_congr fun i hi => hsame _ (by omega)] at hrel
    exact { hrel with }

end Xv6.Paging
