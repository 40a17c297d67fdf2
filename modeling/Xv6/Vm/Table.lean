import Xv6.Vm.Basic
import Mathlib.Algebra.Ring.Nat

/-!
# Page tables in memory

The page table of `Xv6.Vm.Basic` as the machine has it: a tree of pages of memory, each with 512 words, of which those with
`PTE_V` set point to the next level. `walk` goes down this tree by three times nine bits of the address, and makes pages
that are not there. As long as no page is part of the tree twice, the tree is a map from the numbers of pages to the words
of the lowest level, and `mappages` changes this map at the pages of its range only.
-/

namespace Xv6.Paging.Table

open Lib Function

open Option (bind_none bind_some elim_none elim_some map_eq_some_iff)

/-! ### Words -/

abbrev Index := Fin 512

def PTE_V : ℕ := 1

def PTE_FLAGS (pte : ℕ) : ℕ := pte &&& 0x3FF

def pa2pte (pa : ℕ) : ℕ := ((pa >>> 12) <<< 10) % 2 ^ 64

def pte2pa (pte : ℕ) : ℕ := ((pte >>> 10) <<< 12) % 2 ^ 64

/-- `PX`: the nine bits of an address for a level. -/
def px (level va : ℕ) : ℕ := (va >>> (12 + 9 * level)) &&& 0x1FF

theorem px_eq (level va : ℕ) : px level va = va / 2 ^ (12 + 9 * level) % 512 := by
  rw [px, Nat.shiftRight_eq_div_pow, show 0x1FF = 2 ^ 9 - 1 from rfl, Nat.and_two_pow_sub_one_eq_mod]

def index (level va : ℕ) : Index := ⟨px level va, by rw [px_eq]; exact Nat.mod_lt _ (by decide)⟩

def pgrounddown (a : ℕ) : ℕ := a / PGSIZE * PGSIZE

/-! ### Memory -/

/-- The memory, as far as page tables go: the words of the page at an address, and the free list. -/
structure Heap where
  mem : ℕ → Index → ℕ
  free : List ℕ

def Heap.store (h : Heap) (pa : ℕ) (i : Index) (w : ℕ) : Heap := { h with mem := update h.mem pa (update (h.mem pa) i w) }

def Heap.fill (h : Heap) (pa w : ℕ) : Heap := { h with mem := update h.mem pa fun _ => w }

def kalloc (h : Heap) : Option (ℕ × Heap) :=
  match h.free with
  | [] => none
  | pa :: free => some (pa, Heap.fill { h with free := free } pa 0x0505050505050505)

def step (h : Heap) (pagetable level va : ℕ) (alloc : Bool) : Option ℕ × Heap :=
  let pte := h.mem pagetable (index level va)
  if pte &&& PTE_V ≠ 0 then (some (pte2pa pte), h)
  else if alloc then
    match kalloc h with
    | none => (none, h)
    | some (pa, h) =>
      let h := h.fill pa 0
      (some pa, h.store pagetable (index level va) (pa2pte pa ||| PTE_V))
  else (none, h)

def walkLoop (va : ℕ) (alloc : Bool) : ℕ → Heap → ℕ → Option ℕ × Heap
  | 0, h, pagetable => (some pagetable, h)
  | level + 1, h, pagetable =>
    match step h pagetable (level + 1) va alloc with
    | (none, h) => (none, h)
    | (some next, h) => walkLoop va alloc level h next

/-- **`walk`**: the place of the entry for an address, by its page and its index there. -/
def walk (h : Heap) (pagetable va : ℕ) (alloc : Bool) : Except Panic (Option (ℕ × Index) × Heap) :=
  if va ≥ MAXVA then .error .walk
  else
    let (page, h) := walkLoop va alloc 2 h pagetable
    .ok (page.map fun page => (page, index 0 va), h)

def mapLoop (pagetable perm last : ℕ) : ℕ → Heap → ℕ → ℕ → Except Panic (Bool × Heap)
  | 0, h, _, _ => .ok (true, h)
  | fuel + 1, h, a, pa => do
    let (pte, h) ← walk h pagetable a true
    match pte with
    | none => .ok (false, h)
    | some (page, i) =>
      if h.mem page i &&& PTE_V ≠ 0 then .error .remap
      else
        let h := h.store page i (pa2pte pa ||| perm ||| PTE_V)
        if a = last then .ok (true, h)
        else mapLoop pagetable perm last fuel h ((a + PGSIZE) % 2 ^ 64) ((pa + PGSIZE) % 2 ^ 64)

/-- **`mappages`.** One round for every page of the address space is enough, and one for the panic of `walk` behind it. -/
def mappages (h : Heap) (pagetable va size pa perm : ℕ) : Except Panic (Bool × Heap) :=
  if size = 0 then .error .mapSize
  else mapLoop pagetable perm (pgrounddown ((va + size - 1) % 2 ^ 64)) (MAXVA / PGSIZE + 1) h (pgrounddown va) pa

/-- What the table says about an address: the page it is mapped to, and the flags. -/
def lookup (h : Heap) (pagetable va : ℕ) : Option (ℕ × ℕ) :=
  match walk h pagetable va false with
  | .ok (some (page, i), h) =>
    if h.mem page i &&& PTE_V ≠ 0 then some (pte2pa (h.mem page i), PTE_FLAGS (h.mem page i)) else none
  | _ => none

/-! ### The bits of an entry -/

variable {pa perm : ℕ} {level : ℕ} {alloc : Bool}

theorem pa2pte_eq (hpa : pa < 2 ^ 64) : pa2pte pa = 2 ^ 10 * (pa / 4096) := by
  rw [pa2pte, Nat.shiftRight_eq_div_pow, Nat.shiftLeft_eq, Nat.mod_eq_of_lt (by omega), Nat.mul_comm]

theorem entry_eq (hpa : pa < 2 ^ 64) (hperm : perm < 1024) : pa2pte pa ||| perm = 2 ^ 10 * (pa / 4096) + perm := by
  rw [pa2pte_eq hpa, Nat.two_pow_add_eq_or_of_lt hperm]

theorem and_one_ne (w : ℕ) : w &&& PTE_V ≠ 0 ↔ w % 2 = 1 := by
  rw [PTE_V, Nat.and_one_is_mod]
  omega

theorem flags_eq (w : ℕ) : PTE_FLAGS w = w % 1024 := by
  rw [PTE_FLAGS, show 0x3FF = 2 ^ 10 - 1 from rfl, Nat.and_two_pow_sub_one_eq_mod]

theorem pte2pa_eq (w : ℕ) : pte2pa w = w / 1024 * 4096 % 2 ^ 64 := by
  rw [pte2pa, Nat.shiftRight_eq_div_pow, Nat.shiftLeft_eq]

theorem round_trip (hpa : pa < 2 ^ 64) (haligned : pa % 4096 = 0) (hperm : perm < 1024) :
    pte2pa (pa2pte pa ||| perm) = pa ∧ PTE_FLAGS (pa2pte pa ||| perm) = perm := by
  rw [entry_eq hpa hperm, pte2pa_eq, flags_eq]
  omega

theorem or_one_lt (hperm : perm < 1024) : perm ||| PTE_V < 1024 := Nat.or_lt_two_pow (n := 10) hperm (by decide)

theorem or_one_mod (w : ℕ) : (w ||| PTE_V) % 2 = 1 := Nat.or_mod_two_eq_one.mpr (.inr rfl)

/-! ### Trees -/

def child (h : Heap) (t : ℕ) (i : Index) : Option ℕ :=
  if h.mem t i &&& PTE_V ≠ 0 then some (pte2pa (h.mem t i)) else none

def mid (h : Heap) (root : ℕ) (i : Index) : Option ℕ := child h root i

def low (h : Heap) (root : ℕ) (i j : Index) : Option ℕ := (mid h root i).bind fun t => child h t j

/-- The word of the lowest level with three indices, or zero if there is none. -/
def entry (h : Heap) (root : ℕ) (i j k : Index) : ℕ := (low h root i j).elim 0 fun t => h.mem t k

/-- **A tree of pages**: no page is reached in two ways, none of them is free, no page is free twice, and a page has the address of one. -/
structure WellFormed (h : Heap) (root : ℕ) : Prop where
  mid_inj : ∀ {i i' t}, mid h root i = some t → mid h root i' = some t → i = i'
  low_inj : ∀ {i j i' j' t}, low h root i j = some t → low h root i' j' = some t → i = i' ∧ j = j'
  mid_ne_root : ∀ i, mid h root i ≠ some root
  low_ne_root : ∀ i j, low h root i j ≠ some root
  low_ne_mid : ∀ {i j i' t}, low h root i j = some t → mid h root i' ≠ some t
  root_used : root ∉ h.free
  mid_used : ∀ {i t}, mid h root i = some t → t ∉ h.free
  low_used : ∀ {i j t}, low h root i j = some t → t ∉ h.free
  nodup : h.free.Nodup
  page : ∀ pa ∈ h.free, pa < 2 ^ 64 ∧ pa % 4096 = 0

variable {h h' : Heap} {root t u va : ℕ} {i j k i' j' k' : Index} {w : ℕ}

theorem child_eq_none : child h t i = none ↔ h.mem t i &&& PTE_V = 0 := by
  rw [child]
  split <;> simp_all

theorem child_congr (hmem : h'.mem t = h.mem t) : child h' t i = child h t i := by
  rw [child, child, hmem]

theorem low_of_mid (hmid : mid h root i = some t) : low h root i j = child h t j := by
  rw [low, hmid, bind_some]

theorem entry_of_low (hlow : low h root i j = some t) : entry h root i j k = h.mem t k := by
  rw [entry, hlow, elim_some]

/-! ### A word of the lowest level -/

theorem store_mem_of_ne (hne : u ≠ t) : (h.store t k w).mem u = h.mem u := update_of_ne hne ..

theorem store_mem_self : (h.store t k w).mem t = update (h.mem t) k w := update_self ..

/-- **A word of the lowest level is stored**: the tree is as before, and so are the other words. -/
theorem WellFormed.store (hw : WellFormed h root) (hlow : low h root i j = some t) (w : ℕ) (k : Index) :
    WellFormed (h.store t k w) root ∧ mid (h.store t k w) root = mid h root ∧ low (h.store t k w) root = low h root ∧
      ∀ i' j' k', entry (h.store t k w) root i' j' k' = if i' = i ∧ j' = j ∧ k' = k then w else entry h root i' j' k' := by
  have hroot : root ≠ t := by
    rintro rfl
    exact hw.low_ne_root i j hlow
  have hmid : mid (h.store t k w) root = mid h root := funext fun i' => child_congr (store_mem_of_ne hroot)
  have hsame : low (h.store t k w) root = low h root := by
    funext i' j'
    rw [low, low, hmid]
    cases hm : mid h root i' with
    | none => rfl
    | some u =>
      refine child_congr (store_mem_of_ne ?_)
      rintro rfl
      exact hw.low_ne_mid hlow hm
  refine ⟨⟨@?_, @?_, ?_, ?_, @?_, hw.root_used, @?_, @?_, hw.nodup, hw.page⟩, hmid, hsame, fun i' j' k' => ?_⟩
  · simpa only [hmid] using @hw.mid_inj
  · simpa only [hsame] using @hw.low_inj
  · simpa only [hmid] using hw.mid_ne_root
  · simpa only [hsame] using hw.low_ne_root
  · simpa only [hsame, hmid] using @hw.low_ne_mid
  · simp only [hmid]
    exact @hw.mid_used
  · simp only [hsame]
    exact @hw.low_used
  rw [entry, entry, hsame]
  cases hl : low h root i' j' with
  | none =>
    rw [elim_none, elim_none, if_neg]
    rintro ⟨rfl, rfl, -⟩
    rw [hlow] at hl
    cases hl
  | some u =>
    rw [elim_some, elim_some]
    by_cases hu : u = t
    · obtain ⟨rfl, rfl⟩ := hw.low_inj hl (hu ▸ hlow)
      rw [hu, store_mem_self]
      by_cases hk : k' = k
      · rw [hk, update_self, if_pos ⟨rfl, rfl, rfl⟩]
      · rw [update_of_ne hk, if_neg fun hall => hk hall.2.2]
    · rw [store_mem_of_ne hu, if_neg]
      rintro ⟨rfl, rfl, -⟩
      exact hu (Option.some.inj (hl.symm.trans hlow))

/-! ### A new page -/

def Heap.link (h : Heap) (t : ℕ) (i : Index) (pa : ℕ) (free : List ℕ) : Heap :=
  Heap.store ⟨update h.mem pa fun _ => 0, free⟩ t i (pa2pte pa ||| PTE_V)

variable {pa : ℕ} {free : List ℕ}

theorem link_child_self (hpa : pa < 2 ^ 64 ∧ pa % 4096 = 0) : child (h.link t i pa free) t i = some pa := by
  rw [child, Heap.link, store_mem_self, update_self, if_pos ((and_one_ne _).mpr (or_one_mod _))]
  exact congrArg some (round_trip hpa.1 hpa.2 (by decide)).1

theorem link_child_of_ne (hne : t ≠ pa) (hj : j ≠ i) : child (h.link t i pa free) t j = child h t j := by
  have hmem : (h.link t i pa free).mem t j = h.mem t j := by
    rw [Heap.link, store_mem_self, update_of_ne hj]
    exact congrFun (update_of_ne hne ..) j
  rw [child, child, hmem]

theorem link_mem (hu : u ≠ t) (hpa : u ≠ pa) : (h.link t i pa free).mem u = h.mem u := by
  rw [Heap.link, store_mem_of_ne hu]
  exact update_of_ne hpa ..

theorem link_mem_new (hne : pa ≠ t) : (h.link t i pa free).mem pa = fun _ => 0 := by
  rw [Heap.link, store_mem_of_ne hne]
  exact update_self ..

theorem child_new (hne : pa ≠ t) : child (h.link t i pa free) pa j = none := by
  rw [child_eq_none, link_mem_new hne, Nat.zero_and]

theorem not_mem_tail (hfree : h.free = pa :: free) (hu : u ∉ h.free) : u ∉ free ∧ u ≠ pa := by
  rw [hfree, List.mem_cons, not_or] at hu
  exact ⟨hu.2, hu.1⟩

section Link

variable (hw : WellFormed h root) (hfree : h.free = pa :: free)

include hw hfree

theorem WellFormed.mem_free : pa < 2 ^ 64 ∧ pa % 4096 = 0 := hw.page pa (hfree ▸ List.mem_cons_self)

theorem WellFormed.tail : pa ∉ free ∧ free.Nodup ∧ ∀ q ∈ free, q < 2 ^ 64 ∧ q % 4096 = 0 := by
  have hnodup := hw.nodup
  rw [hfree, List.nodup_cons] at hnodup
  exact ⟨hnodup.1, hnodup.2, fun q hq => hw.page q (hfree ▸ List.mem_cons_of_mem _ hq)⟩

theorem WellFormed.link_mid_maps (hnone : mid h root i = none) : mid (h.link root i pa free) root = update (mid h root) i (some pa) ∧
      low (h.link root i pa free) root = low h root ∧ entry (h.link root i pa free) root = entry h root := by
  have hrootpa := (not_mem_tail hfree hw.root_used).2
  have hself : mid (h.link root i pa free) root i = some pa := link_child_self (hw.mem_free hfree)
  have hmid : mid (h.link root i pa free) root = update (mid h root) i (some pa) :=
    eq_update_iff.mpr ⟨hself, fun i' hi => link_child_of_ne hrootpa hi⟩
  have hlow : low (h.link root i pa free) root = low h root := by
    funext i' j'
    by_cases hi : i' = i
    · rw [hi, low_of_mid hself, child_new hrootpa.symm, low, hnone, bind_none]
    rw [low, low, hmid, update_of_ne hi]
    cases hm : mid h root i' with
    | none => rfl
    | some u =>
      refine child_congr (link_mem ?_ (not_mem_tail hfree (hw.mid_used hm)).2)
      rintro rfl
      exact hw.mid_ne_root i' hm
  refine ⟨hmid, hlow, ?_⟩
  funext i' j' k'
  rw [entry, entry, hlow]
  cases hl : low h root i' j' with
  | none => rfl
  | some u =>
    rw [elim_some, elim_some, link_mem ?_ (not_mem_tail hfree (hw.low_used hl)).2]
    rintro rfl
    exact hw.low_ne_root i' j' hl

theorem WellFormed.link_mid (hnone : mid h root i = none) : WellFormed (h.link root i pa free) root := by
  obtain ⟨hmid, hlow, -⟩ := hw.link_mid_maps hfree hnone
  obtain ⟨hpa, hnodup, hpage⟩ := hw.tail hfree
  obtain ⟨hroot, hrootpa⟩ := not_mem_tail hfree hw.root_used
  have hmem : pa ∈ h.free := hfree ▸ List.mem_cons_self
  -- the pages of the middle level are the old ones and the new one
  have hcases : ∀ {i' u}, mid (h.link root i pa free) root i' = some u → (i' = i ∧ u = pa) ∨ mid h root i' = some u := by
    intro i' u hu
    by_cases hi : i' = i
    · rw [hi, hmid, update_self] at hu
      exact .inl ⟨hi, (Option.some.inj hu).symm⟩
    · rw [hmid, update_of_ne hi] at hu
      exact .inr hu
  refine ⟨fun {i₁ i₂ u} h₁ h₂ => ?_, @?_, fun i' hi' => ?_, ?_, fun {i' j' i'' u} hl hm => ?_, hroot, fun {i' u} hm => ?_,
    fun {i' j' u} hl => ?_, hnodup, hpage⟩
  · rcases hcases h₁ with ⟨hi₁, rfl⟩ | hm₁ <;> rcases hcases h₂ with ⟨hi₂, hu⟩ | hm₂
    · rw [hi₁, hi₂]
    · exact absurd hmem (hw.mid_used hm₂)
    · exact absurd hmem (hu ▸ hw.mid_used hm₁)
    · exact hw.mid_inj hm₁ hm₂
  · simpa only [hlow] using @hw.low_inj
  · rcases hcases hi' with ⟨-, hr⟩ | hm
    · exact hrootpa hr
    · exact hw.mid_ne_root i' hm
  · simpa only [hlow] using hw.low_ne_root
  · rw [hlow] at hl
    rcases hcases hm with ⟨-, rfl⟩ | hm
    · exact hw.low_used hl hmem
    · exact hw.low_ne_mid hl hm
  · rcases hcases hm with ⟨-, rfl⟩ | hm
    · exact hpa
    · exact (not_mem_tail hfree (hw.mid_used hm)).1
  · rw [hlow] at hl
    exact (not_mem_tail hfree (hw.low_used hl)).1

theorem WellFormed.link_low_maps (hmid : mid h root i = some t) (hnone : low h root i j = none) : mid (h.link t j pa free) root = mid h root ∧
      low (h.link t j pa free) root = update (low h root) i (update (low h root i) j (some pa)) ∧ entry (h.link t j pa free) root = entry h root := by
  have hrootpa := (not_mem_tail hfree hw.root_used).2
  have htpa : t ≠ pa := (not_mem_tail hfree (hw.mid_used hmid)).2
  have hrt : root ≠ t := by
    rintro rfl
    exact hw.mid_ne_root i hmid
  have hsame : mid (h.link t j pa free) root = mid h root := funext fun i' => child_congr (link_mem hrt hrootpa)
  have hself : low (h.link t j pa free) root i j = some pa := by
    rw [low_of_mid (hsame ▸ hmid), link_child_self (hw.mem_free hfree)]
  have hother : ∀ i' j', ¬(i' = i ∧ j' = j) → low (h.link t j pa free) root i' j' = low h root i' j' := by
    intro i' j' hne
    rw [low, low, hsame]
    cases hm : mid h root i' with
    | none => rfl
    | some u =>
      by_cases hu : u = t
      · have hi := hw.mid_inj hm (hu ▸ hmid)
        rw [bind_some, bind_some, hu]
        exact link_child_of_ne htpa fun hj => hne ⟨hi, hj⟩
      · exact child_congr (link_mem hu (not_mem_tail hfree (hw.mid_used hm)).2)
  refine ⟨hsame, eq_update_iff.mpr ⟨eq_update_iff.mpr ⟨hself, fun j' hj => hother i j' fun hij => hj hij.2⟩,
    fun i' hi => funext fun j' => hother i' j' fun hij => hi hij.1⟩, ?_⟩
  funext i' j' k'
  by_cases hij : i' = i ∧ j' = j
  · rw [hij.1, hij.2, entry_of_low hself, link_mem_new htpa.symm, entry, hnone, elim_none]
  rw [entry, entry, hother i' j' hij]
  cases hl : low h root i' j' with
  | none => rfl
  | some u =>
    rw [elim_some, elim_some, link_mem ?_ (not_mem_tail hfree (hw.low_used hl)).2]
    rintro rfl
    exact hw.low_ne_mid hl hmid

theorem WellFormed.link_low (hmid : mid h root i = some t) (hnone : low h root i j = none) : WellFormed (h.link t j pa free) root := by
  obtain ⟨hsame, hlow, -⟩ := hw.link_low_maps hfree hmid hnone
  obtain ⟨hpa, hnodup, hpage⟩ := hw.tail hfree
  obtain ⟨hroot, hrootpa⟩ := not_mem_tail hfree hw.root_used
  have hmem : pa ∈ h.free := hfree ▸ List.mem_cons_self
  -- the pages of the lowest level are the old ones and the new one
  have hcases : ∀ {i' j' u}, low (h.link t j pa free) root i' j' = some u → (i' = i ∧ j' = j ∧ u = pa) ∨ low h root i' j' = some u := by
    intro i' j' u hu
    rw [hlow] at hu
    by_cases hi : i' = i
    · rw [hi, update_self] at hu
      by_cases hj : j' = j
      · rw [hj, update_self] at hu
        exact .inl ⟨hi, hj, (Option.some.inj hu).symm⟩
      · rw [update_of_ne hj] at hu
        exact .inr (hi ▸ hu)
    · rw [update_of_ne hi] at hu
      exact .inr hu
  refine ⟨@?_, fun {i₁ j₁ i₂ j₂ u} h₁ h₂ => ?_, ?_, fun i' j' hl => ?_, fun {i' j' i'' u} hl hm => ?_, hroot, fun {i' u} hm => ?_,
    fun {i' j' u} hl => ?_, hnodup, hpage⟩
  · simpa only [hsame] using @hw.mid_inj
  · rcases hcases h₁ with ⟨hi₁, hj₁, rfl⟩ | hl₁ <;> rcases hcases h₂ with ⟨hi₂, hj₂, hu⟩ | hl₂
    · exact ⟨hi₁.trans hi₂.symm, hj₁.trans hj₂.symm⟩
    · exact absurd hmem (hw.low_used hl₂)
    · exact absurd hmem (hu ▸ hw.low_used hl₁)
    · exact hw.low_inj hl₁ hl₂
  · simpa only [hsame] using hw.mid_ne_root
  · rcases hcases hl with ⟨-, -, hr⟩ | hl
    · exact hrootpa hr
    · exact hw.low_ne_root i' j' hl
  · rw [hsame] at hm
    rcases hcases hl with ⟨-, -, rfl⟩ | hl
    · exact hw.mid_used hm hmem
    · exact hw.low_ne_mid hl hm
  · rw [hsame] at hm
    exact (not_mem_tail hfree (hw.mid_used hm)).1
  · rcases hcases hl with ⟨-, -, rfl⟩ | hl
    · exact hpa
    · exact (not_mem_tail hfree (hw.low_used hl)).1

end Link

/-! ### The way down -/

theorem step_link (hnone : child h t (index level va) = none) (hfree : h.free = pa :: free) :
    step h t level va true = (some pa, h.link t (index level va) pa free) := by
  rw [child_eq_none] at hnone
  rw [step, if_neg (not_not.mpr hnone), if_pos rfl, kalloc, hfree]
  dsimp only [Heap.fill, Heap.link]
  rw [update_idem]

theorem step_full (hnone : child h t (index level va) = none) (hfree : alloc = true → h.free = []) :
    step h t level va alloc = (none, h) := by
  rw [child_eq_none] at hnone
  rw [step, if_neg (not_not.mpr hnone)]
  cases alloc with
  | false => rfl
  | true => rw [if_pos rfl, kalloc, hfree rfl]

theorem step_child (hchild : child h t (index level va) = some u) : step h t level va alloc = (some u, h) := by
  rw [child] at hchild
  by_cases hv : h.mem t (index level va) &&& PTE_V ≠ 0
  · rw [if_pos hv, Option.some.injEq] at hchild
    rw [step, if_pos hv, hchild]
  · rw [if_neg hv] at hchild
    cases hchild

theorem walk_find (hva : va < MAXVA) : walk h root va false = .ok ((low h root (index 2 va) (index 1 va)).map fun t => (t, index 0 va), h) := by
  rw [walk, if_neg (Nat.not_le.mpr hva), low]
  cases hm : mid h root (index 2 va) with
  | none =>
    rw [walkLoop, step_full hm (by simp)]
    rfl
  | some t =>
    rw [walkLoop, step_child hm, bind_some]
    dsimp only
    cases hl : child h t (index 1 va) with
    | none =>
      rw [walkLoop, step_full hl (by simp)]
    | some u =>
      rw [walkLoop, step_child hl]
      rfl

theorem walkLoop_one (hw : WellFormed h root) (hm : mid h root (index 2 va) = some t) :
    ∃ o h', walkLoop va true 1 h t = (o, h') ∧ WellFormed h' root ∧ entry h' root = entry h root ∧
      ∀ u, o = some u → low h' root (index 2 va) (index 1 va) = some u := by
  cases hl : child h t (index 1 va) with
  | some u =>
    refine ⟨some u, h, ?_, hw, rfl, fun s hs => ?_⟩
    · rw [walkLoop, step_child hl]
      rfl
    · rw [low_of_mid hm, hl, hs]
  | none =>
    cases hf : h.free with
    | nil =>
      refine ⟨none, h, ?_, hw, rfl, fun s hs => ?_⟩
      · rw [walkLoop, step_full hl fun _ => hf]
      · cases hs
    | cons pa free =>
      have hnone := (low_of_mid hm).trans hl
      obtain ⟨-, hlow, hentry⟩ := hw.link_low_maps hf hm hnone
      refine ⟨some pa, _, ?_, hw.link_low hf hm hnone, hentry, fun s hs => ?_⟩
      · rw [walkLoop, step_link hl hf]
        rfl
      · rw [hlow, update_self, update_self, hs]

theorem walkLoop_two (hw : WellFormed h root) : ∃ o h', walkLoop va true 2 h root = (o, h') ∧ WellFormed h' root ∧ entry h' root = entry h root ∧
      ∀ u, o = some u → low h' root (index 2 va) (index 1 va) = some u := by
  cases hm : mid h root (index 2 va) with
  | some t =>
    rw [walkLoop, step_child hm]
    exact walkLoop_one hw hm
  | none =>
    cases hf : h.free with
    | nil =>
      refine ⟨none, h, ?_, hw, rfl, fun s hs => ?_⟩
      · rw [walkLoop, step_full hm fun _ => hf]
      · cases hs
    | cons pa free =>
      obtain ⟨hmid, -, hentry⟩ := hw.link_mid_maps hf hm
      obtain ⟨o, h', hloop, hw', hentry', hlow⟩ := walkLoop_one (hw.link_mid hf hm) (by rw [hmid, update_self])
      refine ⟨o, h', ?_, hw', hentry'.trans hentry, hlow⟩
      rw [walkLoop, step_link hm hf]
      exact hloop

/-- **`walk` with `alloc`** keeps the tree and the map, and comes to the page of the lowest level. -/
theorem walk_alloc (hw : WellFormed h root) (hva : va < MAXVA) :
    ∃ o h', walk h root va true = .ok (o, h') ∧ WellFormed h' root ∧ entry h' root = entry h root ∧
      ∀ s, o = some s → low h' root (index 2 va) (index 1 va) = some s.1 ∧ s.2 = index 0 va := by
  obtain ⟨o, h', hloop, hw', hentry, hlow⟩ := walkLoop_two hw
  refine ⟨o.map fun t => (t, index 0 va), h', ?_, hw', hentry, fun s hs => ?_⟩
  · rw [walk, if_neg (Nat.not_le.mpr hva), hloop]
  · obtain ⟨t, ht, rfl⟩ := Option.map_eq_some_iff.mp hs
    exact ⟨hlow t ht, rfl⟩

/-! ### The map -/

def entryAt (h : Heap) (root v : ℕ) : ℕ := entry h root (index 2 (v * PGSIZE)) (index 1 (v * PGSIZE)) (index 0 (v * PGSIZE))

theorem entryAt_congr (hentry : entry h' root = entry h root) (v : ℕ) : entryAt h' root v = entryAt h root v := by
  rw [entryAt, entryAt, hentry]

def decode (w : ℕ) : Option (ℕ × ℕ) := if w &&& PTE_V ≠ 0 then some (pte2pa w, PTE_FLAGS w) else none

theorem index_page (level va : ℕ) : index level (va / PGSIZE * PGSIZE) = index level va := by
  have hpow : 2 ^ (12 + 9 * level) = PGSIZE * 2 ^ (9 * level) := pow_add 2 12 _
  refine Fin.ext ?_
  change px level _ = px level _
  rw [px_eq, px_eq, hpow, ← Nat.div_div_eq_div_mul, ← Nat.div_div_eq_div_mul, Nat.mul_div_cancel _ (by decide)]

theorem index_inj {va' : ℕ} (hva : va < MAXVA) (hva' : va' < MAXVA) (h₂ : index 2 va = index 2 va') (h₁ : index 1 va = index 1 va')
    (h₀ : index 0 va = index 0 va') : va / PGSIZE = va' / PGSIZE := by
  have hpx : ∀ {level}, index level va = index level va' → va / 2 ^ (12 + 9 * level) % 512 = va' / 2 ^ (12 + 9 * level) % 512 := by
    intro level heq
    rw [← px_eq, ← px_eq]
    exact congrArg Fin.val heq
  have h₂' := hpx h₂
  have h₁' := hpx h₁
  have h₀' := hpx h₀
  rw [show MAXVA = 2 ^ 38 from rfl] at hva hva'
  rw [show PGSIZE = 4096 from rfl]
  norm_num at h₂' h₁' h₀'
  omega

theorem lookup_eq (hva : va < MAXVA) : lookup h root va = decode (entryAt h root (va / PGSIZE)) := by
  rw [lookup, walk_find hva, entryAt, index_page, index_page, index_page, entry]
  cases low h root (index 2 va) (index 1 va) with
  | none =>
    rw [elim_none, decode, Nat.zero_and, if_neg (not_not.mpr rfl)]
    rfl
  | some t => rfl

theorem lookup_eq_none {v : ℕ} (hv : v * PGSIZE < MAXVA) (hnone : lookup h root (v * PGSIZE) = none) : entryAt h root v &&& PTE_V = 0 := by
  rw [lookup_eq hv, Nat.mul_div_cancel _ (by decide), decode] at hnone
  by_contra hv
  rw [if_pos hv] at hnone
  cases hnone

theorem decode_entry {pa perm : ℕ} (hpa : pa < 2 ^ 64) (haligned : pa % 4096 = 0) (hperm : perm < 1024) :
    decode (pa2pte pa ||| perm ||| PTE_V) = some (pa, perm ||| PTE_V) := by
  obtain ⟨haddr, hflags⟩ := round_trip hpa haligned (or_one_lt hperm)
  rw [decode, if_pos ((and_one_ne _).mpr (or_one_mod _)), Nat.or_assoc, haddr, hflags]

theorem WellFormed.store_page (hw : WellFormed h root) {v : ℕ} (hv : v * PGSIZE < MAXVA)
    (hlow : low h root (index 2 (v * PGSIZE)) (index 1 (v * PGSIZE)) = some t) (w : ℕ) :
    WellFormed (h.store t (index 0 (v * PGSIZE)) w) root ∧ ∀ v', v' * PGSIZE < MAXVA →
      entryAt (h.store t (index 0 (v * PGSIZE)) w) root v' = if v' = v then w else entryAt h root v' := by
  obtain ⟨hw', -, -, hentry⟩ := hw.store hlow w (index 0 (v * PGSIZE))
  refine ⟨hw', fun v' hv' => ?_⟩
  rw [entryAt, hentry]
  refine if_congr ⟨fun hall => ?_, ?_⟩ rfl rfl
  · have hpage := index_inj hv' hv hall.1 hall.2.1 hall.2.2
    rwa [Nat.mul_div_cancel _ (by decide), Nat.mul_div_cancel _ (by decide)] at hpage
  · rintro rfl
    exact ⟨rfl, rfl, rfl⟩

theorem mapLoop_spec {perm last : ℕ} (hlast : last * PGSIZE < MAXVA) {fuel v : ℕ} (hw : WellFormed h root) (hv : v ≤ last)
    (hfuel : last - v < fuel) (hpa : pa < 2 ^ 64) (hfree : ∀ v', v ≤ v' → v' ≤ last → entryAt h root v' &&& PTE_V = 0) :
    ∃ r h' m, mapLoop root perm (last * PGSIZE) fuel h (v * PGSIZE) pa = .ok (r, h') ∧ WellFormed h' root ∧
      v + m ≤ last + 1 ∧ (r = true ↔ v + m = last + 1) ∧ ∀ v', v' * PGSIZE < MAXVA → entryAt h' root v' =
        if v ≤ v' ∧ v' < v + m then pa2pte ((pa + (v' - v) * PGSIZE) % 2 ^ 64) ||| perm ||| PTE_V else entryAt h root v' := by
  induction fuel generalizing h v pa with
  | zero => omega
  | succ fuel ih =>
    have hmax : v * PGSIZE < MAXVA := lt_of_le_of_lt (Nat.mul_le_mul_right _ hv) hlast
    obtain ⟨o, h₁, hwalk, hw₁, hentry, hslot⟩ := walk_alloc hw hmax
    cases o with
    | none =>
      refine ⟨false, h₁, 0, ?_, hw₁, by omega, ⟨fun hr => Bool.noConfusion hr, fun hm => by omega⟩, fun v' _ => ?_⟩
      · rw [mapLoop, hwalk]
        rfl
      · rw [if_neg (by omega)]
        exact entryAt_congr hentry _
    | some s =>
      obtain ⟨t, k⟩ := s
      obtain ⟨hlow, rfl⟩ := hslot _ rfl
      have hzero : h₁.mem t (index 0 (v * PGSIZE)) &&& PTE_V = 0 := by
        rw [← entry_of_low hlow, hentry]
        exact hfree v le_rfl hv
      obtain ⟨hw₂, hentry₂⟩ := hw₁.store_page hmax hlow (pa2pte pa ||| perm ||| PTE_V)
      have hmap : mapLoop root perm (last * PGSIZE) (fuel + 1) h (v * PGSIZE) pa =
          if v * PGSIZE = last * PGSIZE then .ok (true, h₁.store t (index 0 (v * PGSIZE)) (pa2pte pa ||| perm ||| PTE_V))
          else mapLoop root perm (last * PGSIZE) fuel (h₁.store t (index 0 (v * PGSIZE)) (pa2pte pa ||| perm ||| PTE_V))
            ((v * PGSIZE + PGSIZE) % 2 ^ 64) ((pa + PGSIZE) % 2 ^ 64) := by
        rw [mapLoop, hwalk]
        exact if_neg (not_not.mpr hzero)
      rw [hmap]
      by_cases heq : v = last
      · refine ⟨true, _, 1, if_pos (by rw [heq]), hw₂, by omega, iff_of_true rfl (by omega), fun v' hv' => ?_⟩
        rw [hentry₂ v' hv']
        by_cases hv'' : v' = v
        · rw [if_pos hv'', if_pos (by omega), hv'', Nat.sub_self, Nat.zero_mul, Nat.add_zero, Nat.mod_eq_of_lt hpa]
        · rw [if_neg hv'', if_neg (by omega)]
          exact entryAt_congr hentry _
      have hne : ¬v * PGSIZE = last * PGSIZE := fun hmul => heq (Nat.eq_of_mul_eq_mul_right (by decide) hmul)
      have hnext : (v * PGSIZE + PGSIZE) % 2 ^ 64 = (v + 1) * PGSIZE := by
        rw [Nat.add_mul, Nat.one_mul]
        refine Nat.mod_eq_of_lt ?_
        have hM : MAXVA = 2 ^ 38 := rfl
        have hP : PGSIZE = 4096 := rfl
        omega
      obtain ⟨r, h', m, hloop, hw', hm, hr, hentry'⟩ := @ih _ ((pa + PGSIZE) % 2 ^ 64) (v + 1) hw₂ (by omega) (by omega)
        (Nat.mod_lt _ (Nat.two_pow_pos 64)) fun v' hv₁ hv₂ => by
          rw [hentry₂ v' (lt_of_le_of_lt (Nat.mul_le_mul_right _ hv₂) hlast), if_neg (by omega)]
          exact (congrArg (· &&& PTE_V) (entryAt_congr hentry _)).trans (hfree v' (by omega) hv₂)
      refine ⟨r, h', m + 1, ?_, hw', by omega, by rw [hr]; omega, fun v' hv' => ?_⟩
      · rw [if_neg hne, hnext]
        exact hloop
      rw [hentry' v' hv']
      by_cases hin : v + 1 ≤ v' ∧ v' < v + 1 + m
      · have hshift : ((pa + PGSIZE) % 2 ^ 64 + (v' - (v + 1)) * PGSIZE) % 2 ^ 64 = (pa + (v' - v) * PGSIZE) % 2 ^ 64 := by
          rw [show PGSIZE = 4096 from rfl]
          omega
        rw [if_pos hin, if_pos (by omega), hshift]
      · rw [if_neg hin, hentry₂ v' hv']
        by_cases hv'' : v' = v
        · rw [if_pos hv'', if_pos (by omega), hv'', Nat.sub_self, Nat.zero_mul, Nat.add_zero, Nat.mod_eq_of_lt hpa]
        · rw [if_neg hv'', if_neg (by omega)]
          exact entryAt_congr hentry _

def Apart (h : Heap) (root : ℕ) : Prop :=
  ∀ va va' s s', va < MAXVA → va' < MAXVA → va / PGSIZE ≠ va' / PGSIZE →
    walk h root va false = .ok (some s, h) → walk h root va' false = .ok (some s', h) → s ≠ s'

theorem WellFormed.apart (hw : WellFormed h root) : Apart h root := by
  rintro va va' s s' hva hva' hpage hwalk hwalk' rfl
  rw [walk_find hva, Except.ok.injEq, Prod.mk.injEq] at hwalk
  rw [walk_find hva', Except.ok.injEq, Prod.mk.injEq] at hwalk'
  obtain ⟨t, hlow, rfl⟩ := Option.map_eq_some_iff.mp hwalk.1
  obtain ⟨t', hlow', heq⟩ := Option.map_eq_some_iff.mp hwalk'.1
  rw [Prod.mk.injEq] at heq
  obtain ⟨h₂, h₁⟩ := hw.low_inj hlow (heq.1 ▸ hlow')
  exact hpage (index_inj hva hva' h₂ h₁ heq.2.symm)

/-- **The tree is a map.** `mappages` on pages that are not mapped does not panic. The first `m` of the pages are then mapped to the
memory from `pa` on, which are all of them just if it succeeds, and nothing else is changed. The tree is still one, and different pages
have their entries at different places. -/
theorem mappages_maps {va size pa perm : ℕ} (hw : WellFormed h root) (hsize : 0 < size) (hmax : va + size ≤ MAXVA) (hpa : pa < 2 ^ 64)
    (haligned : pa % PGSIZE = 0) (hperm : perm < 1024)
    (hfree : ∀ va', va / PGSIZE ≤ va' / PGSIZE → va' / PGSIZE ≤ (va + size - 1) / PGSIZE → lookup h root va' = none) :
    ∃ r h' m, mappages h root va size pa perm = .ok (r, h') ∧
      va / PGSIZE + m ≤ (va + size - 1) / PGSIZE + 1 ∧ (r = true ↔ va / PGSIZE + m = (va + size - 1) / PGSIZE + 1) ∧
      (∀ va' < MAXVA, lookup h' root va' = if va / PGSIZE ≤ va' / PGSIZE ∧ va' / PGSIZE < va / PGSIZE + m then
          some ((pa + (va' / PGSIZE - va / PGSIZE) * PGSIZE) % 2 ^ 64, perm ||| PTE_V) else lookup h root va') ∧
      WellFormed h' root ∧ Apart h root ∧ Apart h' root := by
  have hM : MAXVA = 2 ^ 38 := rfl
  have hP : PGSIZE = 4096 := rfl
  have hlt : ∀ {a}, a < MAXVA → a / PGSIZE * PGSIZE < MAXVA := fun ha => lt_of_le_of_lt (Nat.div_mul_le_self _ _) ha
  have hlast : (va + size - 1) / PGSIZE * PGSIZE < MAXVA := hlt (by omega)
  obtain ⟨r, h', m, hloop, hw', hm, hr, hentry⟩ := @mapLoop_spec h root pa perm _ hlast (MAXVA / PGSIZE + 1) (va / PGSIZE) hw
    (Nat.div_le_div_right (by omega)) (by rw [hM, hP]; omega) hpa fun v' hv₁ hv₂ =>
      lookup_eq_none (lt_of_le_of_lt (Nat.mul_le_mul_right _ hv₂) hlast)
        (hfree _ (by rwa [Nat.mul_div_cancel _ (by decide)]) (by rwa [Nat.mul_div_cancel _ (by decide)]))
  refine ⟨r, h', m, ?_, hm, hr, fun va' hva' => ?_, hw', hw.apart, hw'.apart⟩
  · rw [mappages, if_neg (by omega), pgrounddown, pgrounddown, Nat.mod_eq_of_lt (by omega)]
    exact hloop
  · rw [lookup_eq hva', lookup_eq hva', hentry _ (hlt hva')]
    by_cases hin : va / PGSIZE ≤ va' / PGSIZE ∧ va' / PGSIZE < va / PGSIZE + m
    · rw [if_pos hin, if_pos hin, decode_entry (Nat.mod_lt _ (Nat.two_pow_pos 64)) (by rw [hP] at haligned ⊢; omega) hperm]
    · rw [if_neg hin, if_neg hin]

def bare : Heap := ⟨fun _ _ => 0, [0x2000, 0x3000]⟩

theorem bare_child (t : ℕ) (i : Index) : child bare t i = none := child_eq_none.mpr (Nat.zero_and _)

theorem bare_low (i j : Index) : low bare 0x1000 i j = none := by
  rw [low, mid, bare_child, bind_none]

theorem bare_wellFormed : WellFormed bare 0x1000 := by
  have hmid : ∀ i, mid bare 0x1000 i = none := bare_child _
  exact ⟨by simp [hmid], by simp [bare_low], by simp [hmid], by simp [bare_low], by simp [bare_low], by decide, by simp [hmid],
    by simp [bare_low], by decide, by decide⟩

theorem bare_lookup (va : ℕ) : lookup bare 0x1000 va = none := by
  by_cases hva : va < MAXVA
  · rw [lookup, walk_find hva, bare_low]
    rfl
  · rw [lookup, walk, if_pos (Nat.not_lt.mp hva)]

/-- Two pages of a table with no entries. -/
theorem mappages_maps_bare : WellFormed bare 0x1000 ∧ ∃ h', mappages bare 0x1000 0x5800 0x1000 0x87000000 6 = .ok (true, h') ∧ ∀ va' < MAXVA,
    lookup h' 0x1000 va' = if 5 ≤ va' / PGSIZE ∧ va' / PGSIZE < 7 then some ((0x87000000 + (va' / PGSIZE - 5) * PGSIZE) % 2 ^ 64, 7) else none := by
  obtain ⟨r, h', m, hrun, -, hr, hlook, -⟩ := @mappages_maps bare 0x1000 0x5800 0x1000 0x87000000 6 bare_wellFormed (by decide) (by decide)
    (by decide) (by decide) (by decide) fun va' _ _ => bare_lookup va'
  have htrue : (mappages bare 0x1000 0x5800 0x1000 0x87000000 6).toOption.map Prod.fst = some true := by decide +kernel
  rw [hrun] at htrue
  obtain rfl : r = true := Option.some.inj htrue
  obtain rfl : m = 2 := Nat.add_left_cancel (hr.mp rfl)
  refine ⟨bare_wellFormed, h', hrun, fun va' hva' => ?_⟩
  rw [hlook va' hva', bare_lookup]
  rfl

end Xv6.Paging.Table
