import Xv6.Vm.Spec

/-!
# Growing and shrinking a process

`uvmalloc` maps one zeroed page after the other, or undoes what it has done. `growproc` adds its argument to
the size in 32 bits: this is the size that was asked for if it is one of 32 bits, and otherwise
`uvmalloc` and `uvmdealloc` do nothing, since the size seems to change in the wrong direction, and
`growproc` returns 0 all the same.
-/

namespace Xv6.Paging

open Lib Function

open Multiset (disjoint_left mem_add mem_coe mem_singleton mem_sum nodup_add)

variable {vm vm' vm₀ : Vm} {v v₀ sz newsz : ℕ} {q pa : ℕ} {want : ℕ → Perm × Page} {pt : Pagetable}

/-! ### New pages -/

/-- **New pages were mapped from `v₀` up to `v`**, with the permissions and the contents that are wanted. -/
structure Filled (want : ℕ → Perm × Page) (vm₀ : Vm) (v₀ v : ℕ) (vm : Vm) : Prop where
  le : v₀ ≤ v
  tree : Tree vm.pt
  old : ∀ w, ¬(v₀ ≤ w ∧ w < v) → vm.pt.pte w = vm₀.pt.pte w
  new : ∀ w, v₀ ≤ w → w < v → ∃ pa, vm.pt.pte w = some ⟨pa, (want w).1⟩ ∧ vm.data pa = (want w).2
  stock : frames vm.pt v₀ (v - v₀) + vm.stock = vm₀.stock
  data : ∀ q, q ∉ vm₀.stock → vm.data q = vm₀.data q
  free : vm.free.length + (v - v₀) ≤ vm₀.free.length
  lo : vm.lo = vm₀.lo
  root : vm.pt.root = vm₀.pt.root

abbrev Grown : Vm → ℕ → ℕ → Vm → Prop := Filled fun _ => (userPerm, fun _ => 0)

def LeafPerm (perm : Perm) : Prop := (perm.r || perm.w || perm.x || perm.u) = true

theorem Filled.refl (h : Tree vm.pt) : Filled want vm v₀ v₀ vm where
  le := le_rfl
  tree := h
  old _ _ := rfl
  new w h1 h2 := by omega
  stock := by simp
  data _ _ := rfl
  free := by simp
  lo := rfl
  root := rfl

theorem mem_frames {n w : ℕ} {e : Pte} (hle : v ≤ w) (hlt : w < v + n) (he : pt.pte w = some e) : e.pa ∈ frames pt v n := by
  rw [frames, mem_sum]
  refine ⟨w - v, Finset.mem_range.mpr (by omega), ?_⟩
  rw [Nat.add_sub_cancel' hle, he]
  simp [pageOf]

theorem exists_of_mem_frames {n : ℕ} (h : q ∈ frames pt v n) : ∃ w e, v ≤ w ∧ w < v + n ∧ pt.pte w = some e ∧ e.pa = q := by
  rw [frames, mem_sum] at h
  obtain ⟨i, hi, hq⟩ := h
  cases he : pt.pte (v + i) with
  | none => exact absurd hq (by simp [he, pageOf])
  | some e =>
    rw [he] at hq
    refine ⟨v + i, e, Nat.le_add_right v i, by have := Finset.mem_range.mp hi; omega, he, ?_⟩
    simpa [pageOf, eq_comm] using hq

namespace Filled

variable (h : Filled want vm₀ v₀ v vm)

include h

theorem leaf (hram : ∀ p ∈ vm₀.stock, vm₀.Ram p) {w : ℕ} (h1 : v₀ ≤ w) (h2 : w < v) (hperm : LeafPerm (want w).1) : vm.Leaf w := by
  obtain ⟨pa, hpa, -⟩ := h.new w h1 h2
  refine ⟨_, hpa, hperm, ?_⟩
  have hmem : pa ∈ vm₀.stock := by
    rw [← h.stock]
    exact Multiset.mem_add.mpr (.inl (mem_frames h1 (by have := h.le; omega) hpa))
  have := hram pa hmem
  rwa [Vm.Ram, ← h.lo] at this

theorem same_of_unmapped (hnone : ∀ w, v₀ ≤ w → w < v → vm₀.pt.pte w = none) (hun : Unmapped vm v₀ (v - v₀) vm') : Same vm₀ vm' := by
  have hle := h.le
  have hstock : vm'.stock = vm₀.stock := hun.stock.trans h.stock
  refine ⟨hun.tree, funext fun w => ?_, hstock, fun q hq => ?_, hun.lo.trans h.lo, hun.root.trans h.root⟩
  · rw [hun.pte w]
    split
    · next hw => exact (hnone w hw.1 (by omega)).symm
    · next hw => exact h.old w (by omega)
  · rw [hun.data q (by rwa [hstock]), h.data q hq]

theorem undo (hram : ∀ p ∈ vm₀.stock, vm₀.Ram p) (hmax : v * PGSIZE ≤ MAXVA - PGSIZE) (hnone : ∀ w, v₀ ≤ w → w < v → vm₀.pt.pte w = none)
    (hperm : ∀ w, v₀ ≤ w → w < v → LeafPerm (want w).1) : ∃ vm', unmapLoop (v - v₀) vm (v₀ * PGSIZE) true = .ok vm' ∧ Same vm₀ vm' := by
  have hle := h.le
  obtain ⟨vm', hloop, hun⟩ := unmapLoop_spec (n := v - v₀) h.tree (v := v₀) (by
      rw [Nat.add_sub_cancel' hle]
      exact hmax.trans (Nat.sub_le _ _)) fun i hi =>
    h.leaf hram (Nat.le_add_right v₀ i) (by omega) (hperm _ (Nat.le_add_right v₀ i) (by omega))
  exact ⟨vm', hloop, h.same_of_unmapped hnone hun⟩

theorem step {free : List ℕ} {mapped : Bool} (hnodup : vm₀.stock.Nodup) (hfree : vm.free = pa :: free)
    (hmap : Mapped { vm with free := free, data := update (update vm.data pa fun _ => 5) pa (want v).2 } v ⟨pa, (want v).1⟩ mapped vm')
    (hnone : vm₀.pt.pte v = none) : if mapped then Filled want vm₀ v₀ (v + 1) vm'
    else Filled want vm₀ v₀ v { vm' with free := pa :: vm'.free, data := update vm'.data pa fun _ => 1 } := by
  have hle := h.le
  have hstock₁ : vm.stock = {pa} + vm'.stock := by
    rw [hmap.stock, Vm.stock, Vm.stock, hfree, ← Multiset.cons_coe, ← Multiset.singleton_add, add_assoc]
  have hnd : (frames vm.pt v₀ (v - v₀) + ({pa} + vm'.stock)).Nodup := by
    rw [← hstock₁, h.stock]
    exact hnodup
  have hpa : pa ∉ vm'.stock := by
    have := (Multiset.nodup_add.mp (Multiset.nodup_add.mp hnd).2.1).2.2
    exact fun hmem => Multiset.disjoint_left.mp this (Multiset.mem_singleton_self pa) hmem
  have hframe : ∀ q ∈ frames vm.pt v₀ (v - v₀), q ≠ pa ∧ q ∉ vm'.stock := by
    intro q hq
    have hdis := Multiset.disjoint_left.mp (Multiset.nodup_add.mp hnd).2.2 hq
    rw [mem_add, mem_singleton, not_or] at hdis
    exact hdis
  -- only pages of the free list were written
  have hdata : ∀ q, q ≠ pa → q ∉ vm'.stock → vm'.data q = vm.data q := by
    intro q hqp hq
    rw [hmap.data q (by rwa [← hmap.stock])]
    exact (update_of_ne hqp ..).trans (update_of_ne hqp ..)
  have hfill : vm'.data pa = (want v).2 := by
    rw [hmap.data pa (by rwa [← hmap.stock])]
    exact update_self ..
  have hkept : ∀ q, q ∉ vm₀.stock → q ≠ pa ∧ q ∉ vm'.stock := by
    intro q hq
    rw [← h.stock, hstock₁, mem_add, mem_add, mem_singleton, not_or, not_or] at hq
    exact hq.2
  have hfreelen : vm'.free.length ≤ free.length := hmap.free
  have hlen := h.free
  rw [hfree, List.length_cons] at hlen
  cases mapped with
  | true =>
    have hpte : vm'.pt.pte = update vm.pt.pte v (some ⟨pa, (want v).1⟩) := hmap.pte
    have hframes : frames vm'.pt v₀ (v + 1 - v₀) = frames vm.pt v₀ (v - v₀) + {pa} := by
      rw [Nat.sub_add_comm hle, frames_succ, Nat.add_sub_cancel' hle, hpte, update_self]
      refine congrArg₂ _ (frames_congr fun i hi => ?_) rfl
      rw [hpte, update_of_ne (by omega)]
    refine ⟨hle.trans (Nat.le_succ v), hmap.tree, fun w hw => ?_, fun w h1 h2 => ?_, ?_, fun q hq => ?_, ?_,
      hmap.lo.trans h.lo, hmap.root.trans h.root⟩
    · rw [hpte, update_of_ne (by omega)]
      exact h.old w (by omega)
    · rcases Nat.lt_succ_iff_lt_or_eq.mp h2 with hlt | rfl
      · obtain ⟨p, hp, hz⟩ := h.new w h1 hlt
        refine ⟨p, by rw [hpte, update_of_ne (by omega), hp], ?_⟩
        obtain ⟨hne, hns⟩ := hframe p (mem_frames (e := ⟨p, (want w).1⟩) h1 (by omega) hp)
        rw [hdata p hne hns, hz]
      · exact ⟨pa, by rw [hpte, update_self], hfill⟩
    · rw [hframes, ← h.stock, hstock₁, add_assoc]
    · rw [hdata q (hkept q hq).1 (hkept q hq).2, h.data q hq]
    · omega
  | false =>
    have hpte : vm'.pt.pte = vm.pt.pte := hmap.pte
    refine ⟨hle, hmap.tree, fun w hw => ?_, fun w h1 h2 => ?_, ?_, fun q hq => ?_, ?_, hmap.lo.trans h.lo, hmap.root.trans h.root⟩
    · exact (congrFun hpte w).trans (h.old w hw)
    · obtain ⟨p, hp, hz⟩ := h.new w h1 h2
      refine ⟨p, (congrFun hpte w).trans hp, ?_⟩
      obtain ⟨hne, hns⟩ := hframe p (mem_frames (e := ⟨p, (want w).1⟩) h1 (by omega) hp)
      exact (update_of_ne hne ..).trans ((hdata p hne hns).trans hz)
    · have hf : frames vm'.pt v₀ (v - v₀) = frames vm.pt v₀ (v - v₀) :=
        frames_congr fun i _ => congrFun hpte _
      rw [← h.stock, hstock₁]
      exact congrArg₂ _ hf (stock_cons ..)
    · exact (update_of_ne (hkept q hq).1 ..).trans ((hdata q (hkept q hq).1 (hkept q hq).2).trans (h.data q hq))
    · change (pa :: vm'.free).length + _ ≤ _
      rw [List.length_cons]
      omega

end Filled

/-! ### `uvmalloc` -/

theorem Grown.dealloc (h : Grown vm₀ v₀ v vm) (hram : ∀ p ∈ vm₀.stock, vm₀.Ram p)
    (hmax : v * PGSIZE ≤ MAXVA - PGSIZE) (hnone : ∀ w, v₀ ≤ w → w < v → vm₀.pt.pte w = none) :
    ∃ r vm', uvmdealloc vm (v * PGSIZE) (v₀ * PGSIZE) = .ok (r, vm') ∧ Same vm₀ vm' := by
  have hP : PGSIZE = 4096 := rfl
  rcases h.le.eq_or_lt with rfl | hlt
  · obtain ⟨vm', hloop, hsame⟩ := h.undo hram hmax hnone fun _ _ _ => rfl
    rw [Nat.sub_self] at hloop
    injection hloop with hvm
    exact ⟨v₀ * PGSIZE, vm, by rw [uvmdealloc, if_pos le_rfl], hvm ▸ hsame⟩
  · obtain ⟨vm', hde, hun⟩ := uvmdealloc_spec h.tree (show v₀ * PGSIZE < v * PGSIZE by rw [hP]; omega) hmax (by
        intro w h1 h2
        rw [pages_mul] at h1 h2
        exact h.leaf hram h1 h2 rfl)
    rw [pages_mul, pages_mul] at hun
    exact ⟨_, vm', hde, h.same_of_unmapped hnone hun⟩

/-- There is room for new pages from `v₀` on, as far as there is memory. -/
def Room (vm₀ : Vm) (v₀ newsz : ℕ) : Prop :=
  ∀ w, v₀ ≤ w → w < v₀ + vm₀.free.length → w * PGSIZE < newsz → w * PGSIZE < TRAPFRAME ∧ vm₀.pt.pte w = none

theorem uvmallocLoop_spec {fuel : ℕ} (h : Grown vm₀ v₀ v vm) (hfuel : vm.free.length < fuel)
    (hnodup : vm₀.stock.Nodup) (hram : ∀ p ∈ vm₀.stock, vm₀.Ram p) (hroom : Room vm₀ v₀ newsz)
    (hv : ∀ w, v₀ ≤ w → w < v → w * PGSIZE < newsz) (hv₀ : v₀ * PGSIZE ≤ TRAPFRAME) :
    ∃ r vm', uvmallocLoop fuel vm (v * PGSIZE) (v₀ * PGSIZE) newsz = .ok (r, vm') ∧
      (r = newsz ∧ Grown vm₀ v₀ (max v (pages newsz)) vm' ∨ r = 0 ∧ Same vm₀ vm') := by
  have hP : PGSIZE = 4096 := rfl
  have hT : TRAPFRAME = 2 ^ 38 - 8192 := rfl
  have hM : MAXVA - PGSIZE = 2 ^ 38 - 4096 := rfl
  induction fuel generalizing v vm with
  | zero => exact absurd hfuel (Nat.not_lt_zero _)
  | succ fuel ih =>
    have hle := h.le
    have hlen := h.free
    have hunmapped : ∀ w, v₀ ≤ w → w < v → vm₀.pt.pte w = none :=
      fun w h1 h2 => (hroom w h1 (by omega) (hv w h1 h2)).2
    have hbelow : v * PGSIZE ≤ MAXVA - PGSIZE := by
      rcases hle.eq_or_lt with heq | hlt
      · rw [← heq, hM]
        omega
      · have := (hroom (v - 1) (by omega) (by omega) (hv _ (by omega) (by omega))).1
        rw [hM, hP]
        rw [hP, hT] at this
        omega
    -- wherever the memory runs out, the pages mapped so far are given back
    obtain ⟨r, vm₁, hundo, hsame⟩ := Grown.dealloc h hram hbelow hunmapped
    rw [uvmallocLoop]
    by_cases hlt : v * PGSIZE < newsz
    · rw [if_pos hlt, kalloc]
      cases hfree : vm.free with
      | nil =>
        refine ⟨0, vm₁, ?_, .inr ⟨rfl, hsame⟩⟩
        simp only [hundo, ok_bind]
      | cons pa free =>
        rw [hfree, List.length_cons] at hlen hfuel
        obtain ⟨htop, hnone⟩ := hroom v hle (by omega) hlt
        have hnone' : vm.pt.pte v = none := (h.old v (by omega)).trans hnone
        obtain ⟨mapped, vm₂, hmapp, hmap⟩ := mappages_spec (zero { vm with free := free, data := update vm.data pa fun _ => 5 } pa) pa userPerm h.tree
          (show v * PGSIZE < MAXVA by rw [hT] at htop; exact htop.trans (by decide)) hnone'
        have hstep := h.step hnodup hfree hmap hnone
        simp only [hmapp, ok_bind]
        cases mapped with
        | true =>
          have hwrap : (v * PGSIZE + PGSIZE) % 2 ^ 64 = (v + 1) * PGSIZE := by
            rw [hP]
            rw [hP, hT] at htop
            omega
          simp only [if_true] at hstep ⊢
          rw [hwrap]
          have hmax : max (v + 1) (pages newsz) = max v (pages newsz) := by
            have := lt_pages.mpr hlt
            omega
          rw [← hmax]
          refine ih hstep ?_ fun w h1 h2 => ?_
          · have : vm₂.free.length ≤ free.length := hmap.free
            omega
          · rcases Nat.lt_succ_iff_lt_or_eq.mp h2 with h2 | rfl
            · exact hv w h1 h2
            · exact hlt
        | false =>
          simp only [Bool.false_eq_true, if_false] at hstep ⊢
          have hpa : vm₂.lo ≤ pa ∧ pa < PHYSTOP := by
            have hmem : pa ∈ vm₀.stock := by
              rw [← h.stock]
              exact Multiset.mem_add.mpr (.inr (mem_stock_of_free (by rw [hfree]; exact List.mem_cons_self)))
            have := hram pa hmem
            rw [hmap.lo]
            exact h.lo ▸ this
          obtain ⟨r', vm₃, hundo', hsame'⟩ := Grown.dealloc hstep hram hbelow hunmapped
          refine ⟨0, vm₃, ?_, .inr ⟨rfl, hsame'⟩⟩
          rw [kfree, if_pos hpa, ok_bind, hundo']
          rfl
    · rw [if_neg hlt]
      refine ⟨newsz, vm, rfl, .inl ⟨rfl, ?_⟩⟩
      have hmax : max v (pages newsz) = v := max_eq_left (by
        have := lt_pages.not.mpr hlt
        omega)
      rwa [hmax]

theorem pages_mono {a b : ℕ} (h : a ≤ b) : pages a ≤ pages b := by
  rw [pages, pages]
  exact Nat.div_le_div_right (by omega)

/-- **`uvmalloc`** maps zeroed pages up to the new size, or changes nothing. -/
theorem uvmalloc_spec {oldsz : ℕ} (h : Tree vm.pt) (hle : oldsz ≤ newsz) (hold : oldsz ≤ TRAPFRAME)
    (hnodup : vm.stock.Nodup) (hram : ∀ p ∈ vm.stock, vm.Ram p) (hroom : Room vm (pages oldsz) newsz) :
    ∃ r vm', uvmalloc vm oldsz newsz = .ok (r, vm') ∧ (r = newsz ∧ Grown vm (pages oldsz) (pages newsz) vm' ∨ r = 0 ∧ Same vm vm') := by
  have hP : PGSIZE = 4096 := rfl
  have hT : TRAPFRAME = 2 ^ 38 - 8192 := rfl
  have hup : pgroundup oldsz = pages oldsz * PGSIZE := pgroundup_eq (by rw [hP]; omega)
  have hmax : max (pages oldsz) (pages newsz) = pages newsz := max_eq_right (pages_mono hle)
  have hv₀ : pages oldsz * PGSIZE ≤ TRAPFRAME := by
    rw [pages, hP, hT]
    omega
  rw [uvmalloc, if_neg (by omega), hup, ← hmax]
  exact uvmallocLoop_spec (Filled.refl h) (Nat.lt_succ_self _) hnodup hram hroom (fun w h1 h2 => by omega) hv₀

/-! ### `growproc` -/

/-- **The memory of a process of size `sz`**: the pages up to its size are mapped, to pages of memory that are used for nothing else. -/
structure Space (vm : Vm) (sz : ℕ) : Prop where
  size : sz < 2 ^ 32
  tree : Tree vm.pt
  leaf : ∀ v, v < pages sz → vm.Leaf v
  none : ∀ v, pages sz ≤ v → v * PGSIZE < TRAPFRAME → vm.pt.pte v = none
  out : ∀ v e, vm.pt.pte v = some e → e.pa ∉ vm.stock
  inj : ∀ v w e e', vm.pt.pte v = some e → vm.pt.pte w = some e' → e.pa = e'.pa → v = w
  nodup : vm.stock.Nodup
  ram : ∀ p ∈ vm.stock, vm.Ram p

def KeptAt (vm vm' : Vm) (v : ℕ) : Prop :=
  vm'.pt.pte v = vm.pt.pte v ∧ ∀ e, vm.pt.pte v = some e → vm'.data e.pa = vm.data e.pa

/-- **What `growproc` should do** when it is asked for `n` bytes more: return 0 with exactly so many, the old pages kept and the new ones
zero, or return -1 and change nothing. -/
structure Grew (vm : Vm) (sz : ℕ) (n : ℤ) (r : ℤ) (sz' : ℕ) (vm' : Vm) : Prop where
  size : r = 0 → (sz' : ℤ) = sz + n
  old : r = 0 → ∀ v, v < pages sz → v < pages sz' → KeptAt vm vm' v
  new : r = 0 → ∀ v, pages sz ≤ v → v < pages sz' → ∃ e, vm'.pt.pte v = some e ∧ vm'.data e.pa = fun _ => 0
  gone : r = 0 → ∀ v, pages sz' ≤ v → v * PGSIZE < TRAPFRAME → vm'.pt.pte v = none
  failed : r ≠ 0 → r = -1 ∧ sz' = sz ∧ ∀ v, KeptAt vm vm' v

theorem Same.keptAt (h : Same vm vm') (hs : Space vm sz) (v : ℕ) : KeptAt vm vm' v :=
  ⟨congrFun h.pte v, fun e he => h.data e.pa (hs.out v e he)⟩

theorem Space.grow (h : Space vm sz) (hlt : sz ≤ newsz) (hsize : newsz < 2 ^ 32) : ∃ r vm', uvmalloc vm sz newsz = .ok (r, vm') ∧
      (r = newsz ∧ Grew vm sz ((newsz : ℤ) - sz) 0 newsz vm' ∨ r = 0 ∧ ∀ v, KeptAt vm vm' v) := by
  have hT : TRAPFRAME = 2 ^ 38 - 8192 := rfl
  have hsz := h.size
  obtain ⟨r, vm', hres, hcase⟩ := uvmalloc_spec h.tree hlt (by omega) h.nodup h.ram (by
    intro w h1 _ h3
    have htop : w * PGSIZE < TRAPFRAME := by omega
    exact ⟨htop, h.none w h1 htop⟩)
  refine ⟨r, vm', hres, ?_⟩
  rcases hcase with ⟨rfl, hg⟩ | ⟨rfl, hsame⟩
  · refine .inl ⟨rfl, fun _ => by omega, fun _ v h1 _ => ⟨hg.old v (by omega), fun e he => ?_⟩,
      fun _ v h1 h2 => ?_, fun _ v h1 h2 => ?_, fun h0 => absurd rfl h0⟩
    · exact hg.data e.pa (h.out v e he)
    · obtain ⟨pa, hpa, hz⟩ := hg.new v h1 h2
      exact ⟨_, hpa, hz⟩
    · rw [hg.old v (by omega)]
      exact h.none v (by have := hg.le; omega) h2
  · exact .inr ⟨rfl, hsame.keptAt h⟩

theorem Space.shrink (h : Space vm sz) (hlt : newsz < sz) :
    ∃ vm', uvmdealloc vm sz newsz = .ok (newsz, vm') ∧ Grew vm sz ((newsz : ℤ) - sz) 0 newsz vm' := by
  have hM : MAXVA - PGSIZE = 2 ^ 38 - 4096 := rfl
  have hsz := h.size
  have hmono := pages_mono hlt.le
  obtain ⟨vm', hres, hun⟩ := uvmdealloc_spec h.tree hlt (by omega) fun w _ h2 => h.leaf w h2
  refine ⟨vm', hres, fun _ => by omega, fun _ v h1 h2 => ⟨?_, fun e he => ?_⟩, fun _ v h1 h2 => by omega,
    fun _ v h1 h2 => ?_, fun h0 => absurd rfl h0⟩
  · rw [hun.pte v, if_neg (by omega)]
  · refine hun.data e.pa ?_
    rw [hun.stock, mem_add, not_or]
    refine ⟨fun hmem => ?_, h.out v e he⟩
    obtain ⟨w, e', h3, -, he', heq⟩ := exists_of_mem_frames hmem
    have := h.inj w v e' e he' he heq
    omega
  · rw [hun.pte v]
    split
    · rfl
    · exact h.none v (by omega) h2

/-- **`growproc` does what it should if and only if the new size is one of 32 bits.** -/
theorem growproc_grew_iff (h : Space vm sz) {n : ℤ} (hn : -2 ^ 31 ≤ n ∧ n < 2 ^ 31) : ∃ r sz' vm', growproc vm sz n = .ok (r, sz', vm') ∧
      (Grew vm sz n r sz' vm' ↔ 0 ≤ sz + n ∧ sz + n < 2 ^ 32) := by
  have hsz := h.size
  have h32 : sz % 2 ^ 32 = sz := Nat.mod_eq_of_lt hsz
  rw [growproc]
  simp only [h32]
  rcases lt_trichotomy n 0 with hneg | rfl | hpos
  · rw [if_neg (by omega), if_pos hneg]
    by_cases hok : 0 ≤ sz + n
    · obtain ⟨newsz, hnew⟩ := Int.eq_ofNat_of_zero_le hok
      have hto : ((sz + n : ℤ) % 2 ^ 32).toNat = newsz := by omega
      rw [hto]
      obtain ⟨vm', hres, hgrew⟩ := h.shrink (show newsz < sz by omega)
      have hmod : newsz % 2 ^ 32 = newsz := Nat.mod_eq_of_lt (by omega)
      rw [hres, ok_bind]
      refine ⟨0, newsz % 2 ^ 32, vm', rfl, ?_⟩
      rw [hmod, show n = (newsz : ℤ) - sz by omega]
      exact ⟨fun _ => by omega, fun _ => hgrew⟩
    · -- the new size seems to be a larger one
      have hge : ((sz + n : ℤ) % 2 ^ 32).toNat ≥ sz := by omega
      rw [uvmdealloc, if_pos hge, ok_bind]
      refine ⟨0, sz % 2 ^ 32, vm, rfl, ?_⟩
      rw [h32]
      exact ⟨fun hg => absurd (hg.size rfl) (by omega), fun hc => absurd hc.1 hok⟩
  · rw [if_neg (by omega), if_neg (by omega)]
    refine ⟨0, sz, vm, rfl, fun _ => by omega, fun _ => ?_⟩
    exact ⟨fun _ => by omega, fun _ v _ _ => ⟨rfl, fun _ _ => rfl⟩, fun _ v h1 h2 => by omega,
      fun _ v h1 h2 => h.none v h1 h2, fun h0 => absurd rfl h0⟩
  · rw [if_pos hpos]
    by_cases hok : sz + n < 2 ^ 32
    · obtain ⟨newsz, hnew⟩ := Int.eq_ofNat_of_zero_le (show 0 ≤ sz + n by omega)
      have hto : ((sz + n : ℤ) % 2 ^ 32).toNat = newsz := by omega
      rw [hto]
      obtain ⟨r, vm', hres, hcase⟩ := h.grow (show sz ≤ newsz by omega) (by omega)
      rw [hres, ok_bind]
      rcases hcase with ⟨rfl, hgrew⟩ | ⟨rfl, hkept⟩
      · have hmod : r % 2 ^ 32 = r := Nat.mod_eq_of_lt (by omega)
        simp only [hmod, if_neg (show r ≠ 0 by omega)]
        refine ⟨0, r, vm', rfl, ?_⟩
        rw [show n = (r : ℤ) - sz by omega]
        exact ⟨fun _ => by omega, fun _ => hgrew⟩
      · refine ⟨-1, sz, vm', rfl, fun _ => by omega, fun _ => ?_⟩
        exact ⟨fun h0 => absurd h0 (by decide), fun h0 => absurd h0 (by decide), fun h0 => absurd h0 (by decide),
          fun h0 => absurd h0 (by decide), fun _ => ⟨rfl, rfl, hkept⟩⟩
    · -- the new size seems to be a smaller one
      have hlt : ((sz + n : ℤ) % 2 ^ 32).toNat < sz := by omega
      rw [uvmalloc, if_pos hlt, ok_bind]
      simp only [h32, if_neg (show sz ≠ 0 by omega)]
      refine ⟨0, sz, vm, rfl, ?_⟩
      exact ⟨fun hg => absurd (hg.size rfl) (by omega), fun hc => absurd hc.2 hok⟩

/-! ### A process with two pages -/

/-- The page with the trampoline. -/
def topPage : ℕ := 2 ^ 26 - 1

theorem trapframe_eq : TRAPFRAME = (topPage - 1) * PGSIZE := rfl

/-- A machine with 40 free pages, and a process with two pages of memory, the first full of sevens. -/
def twoPages : Vm where
  free := List.range' 0x80110 40
  data := update (fun _ _ => 0) 0x80106 fun _ => 7
  pt :=
    { root := 0x80101
      dir1 := update (update (fun _ => none) 0 (some 0x80102)) (topPage / 512 / 512) (some 0x80103)
      dir0 := update (update (fun _ => none) 0 (some 0x80104)) (topPage / 512) (some 0x80105)
      pte := fun v =>
        if v < 2 then some ⟨0x80106 + v, userPerm⟩
        else if v = topPage - 1 then some ⟨0x80108, true, true, false, false⟩
        else if v = topPage then some ⟨0x80000, true, false, true, false⟩
        else none }
  lo := 0x80100

theorem twoPages_stock :
    twoPages.stock = ([0x80101, 0x80102, 0x80103, 0x80104, 0x80105] ++ List.range' 0x80110 40 : List ℕ) := by
  have hidx : (0 < entries ∧ topPage / 512 / 512 < entries) ∧ 0 < entries2 ∧ topPage / 512 < entries2 := by
    rw [entries, entries2]
    decide
  have hzero : ∀ n, (∑ j ∈ Finset.range n, pageOf ((fun _ => none : ℕ → Option ℕ) j)) = 0 := fun n =>
    Finset.sum_eq_zero fun _ _ => rfl
  have h1 : (∑ i ∈ Finset.range entries, pageOf (twoPages.pt.dir1 i)) = {0x80103} + ({0x80102} + 0) :=
    (pageOf_update hidx.1.2 rfl).trans (by rw [pageOf_update hidx.1.1 rfl, hzero])
  have h0 : (∑ i ∈ Finset.range entries2, pageOf (twoPages.pt.dir0 i)) = {0x80105} + ({0x80104} + 0) :=
    (pageOf_update hidx.2.2 rfl).trans (by rw [pageOf_update hidx.2.1 rfl, hzero])
  rw [Vm.stock, Pagetable.tables, h1, h0]
  decide

theorem twoPages_pte {v : ℕ} {e : Pte} (he : twoPages.pt.pte v = some e) :
    v < 2 ∧ e = ⟨0x80106 + v, userPerm⟩ ∨ v = topPage - 1 ∧ e = ⟨0x80108, true, true, false, false⟩ ∨
      v = topPage ∧ e = ⟨0x80000, true, false, true, false⟩ := by
  change (if v < 2 then _ else if v = topPage - 1 then _ else if v = topPage then _ else none) = some e at he
  split_ifs at he with h1 h2 h3
  · exact .inl ⟨h1, (Option.some.inj he).symm⟩
  · exact .inr (.inl ⟨h2, (Option.some.inj he).symm⟩)
  · exact .inr (.inr ⟨h3, (Option.some.inj he).symm⟩)

theorem twoPages_tree : Tree twoPages.pt := by
  refine ⟨fun i hi => ?_, fun v hv => ?_⟩
  · change update (update (fun _ => none) 0 _) (topPage / 512) _ i = none
    rw [update_of_ne, update_of_ne]
    all_goals
      rintro rfl
      exact absurd hi (by decide)
  · by_contra hne
    obtain ⟨e, he⟩ := Option.ne_none_iff_exists'.mp hne
    rcases twoPages_pte he with ⟨hlt, -⟩ | ⟨rfl, -⟩ | ⟨rfl, -⟩
    · rw [Nat.div_eq_of_lt (by omega)] at hv
      exact absurd hv (by decide)
    all_goals exact absurd hv (by decide)

theorem twoPages_space (h1 : PGSIZE < sz) (h2 : sz ≤ 8192) : Space twoPages sz := by
  have hP : PGSIZE = 4096 := rfl
  have hpages : pages sz = 2 := by
    rw [pages, hP]
    omega
  refine ⟨by omega, twoPages_tree, fun v hv => ?_, fun v h1 h2 => ?_, fun v e he => ?_, fun v w e e' he he' heq => ?_, ?_, fun p hp => ?_⟩
  · have hS : PHYSTOP = 0x88000 := rfl
    have hlo : twoPages.lo = 0x80100 := rfl
    exact ⟨_, if_pos (hpages ▸ hv), rfl, by rw [hlo]; dsimp only; omega, by dsimp only; omega⟩
  · by_contra hne
    obtain ⟨e, he⟩ := Option.ne_none_iff_exists'.mp hne
    rw [trapframe_eq] at h2
    have := Nat.lt_of_mul_lt_mul_right h2
    have := twoPages_pte he
    omega
  · rw [twoPages_stock, mem_coe]
    rcases twoPages_pte he with ⟨hlt, rfl⟩ | ⟨-, rfl⟩ | ⟨-, rfl⟩
    · obtain rfl | rfl : v = 0 ∨ v = 1 := by omega
      · decide
      · decide
    · decide
    · decide
  · rcases twoPages_pte he with ⟨hlt, rfl⟩ | ⟨rfl, rfl⟩ | ⟨rfl, rfl⟩ <;>
      rcases twoPages_pte he' with ⟨hlt', rfl⟩ | ⟨rfl, rfl⟩ | ⟨rfl, rfl⟩ <;> dsimp only at heq <;> omega
  · rw [twoPages_stock, Multiset.coe_nodup]
    decide
  · rw [twoPages_stock, mem_coe] at hp
    revert p
    change ∀ p ∈ _, 0x80100 ≤ p ∧ p < PHYSTOP
    decide

/-- The process gets three more pages. -/
theorem growproc_grew_iff_twoPages :
    ∃ vm, growproc twoPages 8192 10000 = .ok (0, 18192, vm) ∧ Grew twoPages 8192 10000 0 18192 vm := by
  have heval : (growproc twoPages 8192 10000).map (fun x => (x.1, x.2.1)) = .ok (0, 18192) := by
    decide +kernel
  obtain ⟨r, sz, vm, hrun, hiff⟩ := growproc_grew_iff (@twoPages_space 8192 (by decide) le_rfl) (n := 10000) (by decide)
  rw [hrun] at heval
  obtain ⟨rfl, rfl⟩ := Prod.mk.inj (Except.ok.inj heval)
  exact ⟨vm, hrun, hiff.mpr (by decide)⟩

/-- `sbrk(-8193)` of a process with two pages: it is told that it has given them back. -/
theorem growproc_below_zero : Space twoPages 8192 ∧ growproc twoPages 8192 (-8193) = .ok (0, 8192, twoPages) ∧
    ¬Grew twoPages 8192 (-8193) 0 8192 twoPages :=
  ⟨twoPages_space (by decide) le_rfl, rfl, fun h => absurd (h.size rfl) (by decide)⟩

end Xv6.Paging
