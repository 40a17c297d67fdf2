import Xv6.Lib.Run
import Xv6.Vm.Table

/-!
# The words of a page table, and its maps

`Xv6.Vm.Basic` has a page table as three maps, one for each level, and `Xv6.Vm.Table` as words in memory. The kernel works on the words; what is
proved about address spaces is about the maps. Here `walk` and `mappages` are shown to do the same to both, also if memory runs out in between,
and to panic for the same reasons.
-/

namespace Xv6.Paging.Table

open Lib Function

/-! ### The correspondence -/

def addr (page : ℕ) : ℕ := page * PGSIZE

/-- `PTE_R`, `PTE_W`, `PTE_X` and `PTE_U`. -/
def permBits (perm : Perm) : ℕ := perm.r.toNat * 2 + perm.w.toNat * 4 + perm.x.toNat * 8 + perm.u.toNat * 16

/-- The address and the flags in the word of a leaf. -/
def leaf (e : Pte) : ℕ × ℕ := (addr e.pa, permBits e.perm ||| PTE_V)

/-- **The words are those of the maps.** -/
structure Shows (h : Heap) (free : List ℕ) (pt : Pagetable) : Prop where
  tree : WellFormed h (addr pt.root)
  free : h.free = free.map addr
  dir1 : ∀ i : Index, mid h (addr pt.root) i = (pt.dir1 i).map addr
  dir0 : ∀ i j : Index, low h (addr pt.root) i j = (pt.dir0 (i * 512 + j)).map addr
  pte : ∀ i j k : Index, decode (entry h (addr pt.root) i j k) = (pt.pte ((i * 512 + j) * 512 + k)).map leaf

variable {h : Heap} {vm : Vm} {pt : Pagetable} {i j k : Index} {va pa t : ℕ} {free : List ℕ} {perm : Perm}

/-- The indices of an address are its bits down to the three levels. -/
theorem page_number (hva : va < MAXVA) : va / PGSIZE / 512 / 512 = index 2 va ∧ va / PGSIZE / 512 = index 2 va * 512 + index 1 va ∧
    va / PGSIZE = (index 2 va * 512 + index 1 va) * 512 + index 0 va := by
  have hindex : ∀ level, (index level va : ℕ) = va / 2 ^ (12 + 9 * level) % 512 := fun level => px_eq level va
  rw [show MAXVA = 2 ^ 38 from rfl] at hva
  rw [hindex, hindex, hindex, show PGSIZE = 4096 from rfl]
  norm_num
  omega

theorem decode_eq_none {w : ℕ} : decode w = none ↔ w &&& PTE_V = 0 := by
  rw [decode]
  split <;> simp_all

theorem decode_leaf (hpa : pa < 2 ^ 52) (perm : Perm) : decode (pa2pte (addr pa) ||| permBits perm ||| PTE_V) = some (leaf ⟨pa, perm⟩) := by
  have hbits : permBits perm < 1024 := by
    have hle := fun b => Bool.toNat_le b
    have := hle perm.r
    have := hle perm.w
    have := hle perm.x
    have := hle perm.u
    rw [permBits]
    omega
  have haddr : addr pa = pa * 4096 := rfl
  exact decode_entry (by omega) (by omega) hbits

/-! ### New pages -/

namespace Shows

theorem cons (hs : Shows h (pa :: free) pt) : h.free = addr pa :: free.map addr := by
  rw [hs.free, List.map_cons]

theorem mid_none (hs : Shows h free pt) (hd : pt.dir1 i = none) : mid h (addr pt.root) i = none := by
  rw [hs.dir1, hd, Option.map_none]

theorem low_none (hs : Shows h free pt) (hd : pt.dir0 (i * 512 + j) = none) : low h (addr pt.root) i j = none := by
  rw [hs.dir0, hd, Option.map_none]

theorem link_mid (hs : Shows h (pa :: free) pt) (hd : pt.dir1 i = none) : Shows (h.link (addr pt.root) i (addr pa) (free.map addr)) free
    { pt with dir1 := update pt.dir1 i (some pa), dir0 := fun v => if v / 512 = i then none else pt.dir0 v } := by
  have hnone := hs.mid_none hd
  obtain ⟨hmid, hlow, hentry⟩ := hs.tree.link_mid_maps hs.cons hnone
  refine ⟨hs.tree.link_mid hs.cons hnone, rfl, fun i' => ?_, fun i' j => ?_, fun i' j k => ?_⟩ <;> dsimp only
  · rw [hmid]
    by_cases hi : i' = i
    · rw [hi, update_self, update_self, Option.map_some]
    · rw [update_of_ne hi, update_of_ne (Fin.val_ne_of_ne hi), hs.dir1]
  · rw [hlow, show ((i' : ℕ) * 512 + j) / 512 = i' by omega]
    by_cases hi : i' = i
    · rw [hi, if_pos rfl, low, hnone, Option.bind_none, Option.map_none]
    · rw [if_neg (Fin.val_ne_of_ne hi), hs.dir0]
  · rw [hentry, hs.pte]

theorem link_low (hs : Shows h (pa :: free) pt) (hmid : mid h (addr pt.root) i = some t) (hd : pt.dir0 (i * 512 + j) = none) :
    Shows (h.link t j (addr pa) (free.map addr)) free { pt with
      dir0 := update pt.dir0 (i * 512 + j) (some pa), pte := fun v => if v / 512 = i * 512 + j then none else pt.pte v } := by
  have hnone := hs.low_none hd
  obtain ⟨hsame, hlow, hentry⟩ := hs.tree.link_low_maps hs.cons hmid hnone
  refine ⟨hs.tree.link_low hs.cons hmid hnone, rfl, fun i' => ?_, fun i' j' => ?_, fun i' j' k => ?_⟩ <;> dsimp only
  · rw [hsame, hs.dir1]
  · rw [hlow]
    by_cases hi : i' = i
    · rw [hi, update_self]
      by_cases hj : j' = j
      · rw [hj, update_self, update_self, Option.map_some]
      · rw [update_of_ne hj, update_of_ne (by have := Fin.val_ne_of_ne hj; omega), hs.dir0]
    · rw [update_of_ne hi, update_of_ne (by have := Fin.val_ne_of_ne hi; omega), hs.dir0]
  · rw [hentry, show (((i' : ℕ) * 512 + j') * 512 + k) / 512 = i' * 512 + j' by omega]
    by_cases hij : (i' : ℕ) * 512 + j' = i * 512 + j
    · obtain rfl : i' = i := Fin.ext (by omega)
      obtain rfl : j' = j := Fin.ext (by omega)
      rw [if_pos rfl, entry, hnone, Option.elim_none, Option.map_none, decode_eq_none, Nat.zero_and]
    · rw [if_neg hij, hs.pte]

/-! ### `walk` -/

theorem walk2 (hs : Shows h vm.free vm.pt) (va : ℕ) (alloc : Bool) : ∃ o h' vm', step h (addr vm.pt.root) 2 va alloc = (o, h') ∧
    walk2 vm (index 2 va) alloc = (o.isSome, vm') ∧ Shows h' vm'.free vm'.pt ∧ vm'.pt.root = vm.pt.root ∧
      ∀ t, o = some t → mid h' (addr vm.pt.root) (index 2 va) = some t := by
  rw [Paging.walk2]
  rcases hd : vm.pt.dir1 (index 2 va) with _ | t
  · have hnone := hs.mid_none hd
    rcases alloc with _ | _
    · exact ⟨none, h, vm, step_full hnone (by simp), rfl, hs, rfl, by simp⟩
    rw [if_pos rfl, Paging.kalloc]
    rcases hf : vm.free with _ | ⟨pa, free⟩ <;> rw [hf] at hs
    · exact ⟨none, h, vm, step_full hnone fun _ => hs.free, rfl, hf ▸ hs, rfl, by simp⟩
    · refine ⟨some (addr pa), _, _, step_link hnone hs.cons, rfl, hs.link_mid hd, rfl, fun t ht => ?_⟩
      rw [(hs.tree.link_mid_maps hs.cons hnone).1, update_self, ht]
  · have hmid : mid h (addr vm.pt.root) (index 2 va) = some (addr t) := by rw [hs.dir1, hd, Option.map_some]
    exact ⟨some (addr t), h, vm, step_child hmid, rfl, hs, rfl, fun s hs' => hmid.trans hs'⟩

theorem walk1 (hs : Shows h vm.free vm.pt) (alloc : Bool) (hmid : mid h (addr vm.pt.root) (index 2 va) = some t) :
    ∃ o h' vm', step h t 1 va alloc = (o, h') ∧ walk1 vm (index 2 va * 512 + index 1 va) alloc = (o.isSome, vm') ∧ Shows h' vm'.free vm'.pt ∧
      vm'.pt.root = vm.pt.root ∧ ∀ u, o = some u → low h' (addr vm.pt.root) (index 2 va) (index 1 va) = some u := by
  rw [Paging.walk1]
  have hchild := low_of_mid (j := index 1 va) hmid
  rcases hd : vm.pt.dir0 (index 2 va * 512 + index 1 va) with _ | u
  · have hnone := hs.low_none hd
    rcases alloc with _ | _
    · exact ⟨none, h, vm, step_full (hchild ▸ hnone) (by simp), rfl, hs, rfl, by simp⟩
    rw [if_pos rfl, Paging.kalloc]
    rcases hf : vm.free with _ | ⟨pa, free⟩ <;> rw [hf] at hs
    · exact ⟨none, h, vm, step_full (hchild ▸ hnone) fun _ => hs.free, rfl, hf ▸ hs, rfl, by simp⟩
    · refine ⟨some (addr pa), _, _, step_link (hchild ▸ hnone) hs.cons, rfl, hs.link_low hmid hd, rfl, fun u hu => ?_⟩
      rw [(hs.tree.link_low_maps hs.cons hmid hnone).2.1, update_self, update_self, hu]
  · have hlow : low h (addr vm.pt.root) (index 2 va) (index 1 va) = some (addr u) := by rw [hs.dir0, hd, Option.map_some]
    exact ⟨some (addr u), h, vm, step_child (hchild ▸ hlow), rfl, hs, rfl, fun s hs' => hlow.trans hs'⟩

/-- **`walk` finds the same**, and makes the same pages. -/
theorem walk (hs : Shows h vm.free vm.pt) (alloc : Bool) (hva : va < MAXVA) : ∃ o h' vm', walk h (addr vm.pt.root) va alloc = .ok (o, h') ∧
    Paging.walk vm va alloc = .ok (o.isSome, vm') ∧ Shows h' vm'.free vm'.pt ∧ vm'.pt.root = vm.pt.root ∧
      ∀ s, o = some s → low h' (addr vm.pt.root) (index 2 va) (index 1 va) = some s.1 ∧ s.2 = index 0 va := by
  obtain ⟨hi, hij, -⟩ := page_number hva
  obtain ⟨o, h₁, vm₁, hstep, hfound, hs₁, hroot, hmid⟩ := hs.walk2 va alloc
  rw [Table.walk, Paging.walk, if_neg (Nat.not_le.mpr hva), if_neg (Nat.not_le.mpr hva), hi, hij, walkLoop, hstep, hfound]
  rcases o with _ | t
  · exact ⟨none, h₁, vm₁, rfl, rfl, hs₁, hroot, by simp⟩
  obtain ⟨o, h₂, vm₂, hstep₂, hfound₂, hs₂, hroot₂, hlow⟩ := hs₁.walk1 alloc (hroot ▸ hmid t rfl)
  refine ⟨o.map fun u => (u, index 0 va), h₂, vm₂, ?_, ?_, hs₂, hroot₂.trans hroot, fun s hs' => ?_⟩
  · dsimp only
    rw [walkLoop, hstep₂]
    rcases o with _ | u <;> rfl
  · rw [Option.isSome_map, ← hfound₂]
    rfl
  · obtain ⟨u, hu, rfl⟩ := Option.map_eq_some_iff.mp hs'
    exact ⟨hroot ▸ hlow u hu, rfl⟩

/-! ### `mappages` -/

/-- An entry is written. -/
theorem store (hs : Shows h vm.free vm.pt) (hva : va < MAXVA) (hlow : low h (addr vm.pt.root) (index 2 va) (index 1 va) = some t) {w : ℕ}
    {e : Option Pte} (hw : decode w = e.map leaf) :
    Shows (h.store t (index 0 va) w) (setPte vm (va / PGSIZE) e).free (setPte vm (va / PGSIZE) e).pt := by
  obtain ⟨htree, hmid, hlow', hentry⟩ := hs.tree.store hlow w (index 0 va)
  refine ⟨htree, hs.free, fun i => ?_, fun i j => ?_, fun i j k => ?_⟩ <;> dsimp only [setPte]
  · rw [hmid, hs.dir1]
  · rw [hlow', hs.dir0]
  rw [hentry, (page_number hva).2.2]
  by_cases hall : i = index 2 va ∧ j = index 1 va ∧ k = index 0 va
  · obtain ⟨rfl, rfl, rfl⟩ := hall
    rw [if_pos ⟨rfl, rfl, rfl⟩, update_self, hw]
  · rw [if_neg hall, update_of_ne, hs.pte]
    exact fun heq => hall ⟨Fin.ext (by omega), Fin.ext (by omega), Fin.ext (by omega)⟩

theorem used_iff (hs : Shows h free pt) (hva : va < MAXVA) (hlow : low h (addr pt.root) (index 2 va) (index 1 va) = some t) :
    h.mem t (index 0 va) &&& PTE_V ≠ 0 ↔ (pt.pte (va / PGSIZE)).isSome = true := by
  have hpte := hs.pte (index 2 va) (index 1 va) (index 0 va)
  rw [entry_of_low hlow, ← (page_number hva).2.2] at hpte
  rw [ne_eq, ← decode_eq_none, hpte, Option.map_eq_none_iff, Option.isSome_iff_ne_none]

end Shows

/-- The same outcome on both sides. -/
def Agree (root : ℕ) (x : Except Panic (Bool × Heap)) (y : Except Panic (Bool × Vm)) : Prop :=
  (∃ e, x = .error e ∧ y = .error e) ∨ ∃ r h vm, x = .ok (r, h) ∧ y = .ok (r, vm) ∧ Shows h vm.free vm.pt ∧ vm.pt.root = root

/-- The rounds of `mappages`. The one that leaves the address space is a panic, so that no more are needed than there are pages. -/
theorem Shows.mapLoop {n v fuel : ℕ} (hs : Shows h vm.free vm.pt) (hpa : pa + n < 2 ^ 52) (hfuel : MAXVA / PGSIZE < v + fuel) (hpos : 0 < fuel) :
    Agree vm.pt.root (mapLoop (addr vm.pt.root) (permBits perm) ((v + n) * PGSIZE) fuel h (v * PGSIZE) (addr pa))
      (Paging.mapLoop n vm (v * PGSIZE) pa perm) := by
  induction fuel generalizing h vm n v pa with
  | zero => omega
  | succ fuel ih =>
    have hv : v * PGSIZE = v * 4096 := rfl
    have hM : MAXVA = 2 ^ 38 := rfl
    have hpages : MAXVA / PGSIZE = 2 ^ 26 := rfl
    by_cases hva : v * PGSIZE < MAXVA
    · obtain ⟨o, h', vm', hwalk, hwalk', hs', hroot, hslot⟩ := hs.walk true hva
      rw [Table.mapLoop, Paging.mapLoop, hwalk, hwalk', ← hroot]
      rcases o with _ | ⟨t, k⟩
      · exact .inr ⟨false, h', vm', rfl, rfl, hs', rfl⟩
      obtain ⟨hlow, rfl⟩ := hslot _ rfl
      rw [← hroot] at hlow
      have hused := hs'.used_iff hva hlow
      have hs'' := hs'.store hva hlow (e := some ⟨pa, perm⟩) (decode_leaf (by omega) perm)
      change Agree _ (if _ then _ else if _ then _ else _) (if (vm'.pt.pte _).isSome = true then _ else _)
      by_cases hsome : (vm'.pt.pte (v * PGSIZE / PGSIZE)).isSome = true
      · rw [if_pos hsome, if_pos (hused.mpr hsome)]
        exact .inl ⟨.remap, rfl, rfl⟩
      rw [if_neg hsome, if_neg (mt hused.mp hsome)]
      rcases n with _ | n
      · rw [if_pos (by rw [Nat.add_zero])]
        exact .inr ⟨true, _, _, rfl, rfl, hs'', rfl⟩
      have hne : v * PGSIZE ≠ (v + (n + 1)) * PGSIZE := fun heq => absurd (Nat.eq_of_mul_eq_mul_right (by decide) heq) (by omega)
      have hnext : (v * PGSIZE + PGSIZE) % 2 ^ 64 = (v + 1) * PGSIZE := by
        change (v * 4096 + 4096) % 2 ^ 64 = (v + 1) * 4096
        omega
      have hpage : (addr pa + PGSIZE) % 2 ^ 64 = addr (pa + 1) := by
        change (pa * 4096 + 4096) % 2 ^ 64 = (pa + 1) * 4096
        omega
      rw [if_neg hne, hnext, hpage, show v + (n + 1) = v + 1 + n by omega]
      change Agree _ _ (Paging.mapLoop n (setPte vm' (v * PGSIZE / PGSIZE) (some ⟨pa, perm⟩)) (v * PGSIZE + PGSIZE) (pa + 1) perm)
      rw [← Nat.add_one_mul]
      refine ih hs'' ?_ ?_ ?_ <;> omega
    · rw [Table.mapLoop, Paging.mapLoop, Table.walk, Paging.walk, if_pos (Nat.not_lt.mp hva), if_pos (Nat.not_lt.mp hva)]
      exact .inl ⟨.walk, rfl, rfl⟩

/-- A call of `mappages`. -/
structure Call where
  va : ℕ
  size : ℕ
  pa : ℕ
  perm : Perm

/-- The addresses are those of a 64-bit machine. -/
def Call.Fits (c : Call) : Prop := c.va + c.size ≤ 2 ^ 64 ∧ c.pa + c.size < 2 ^ 52

/-- The words after a call, unless it panics. -/
def wordsStep (root : ℕ) (h : Heap) (c : Call) : Option Heap :=
  (mappages h (addr root) c.va c.size (addr c.pa) (permBits c.perm)).toOption.map Prod.snd

def mapsStep (vm : Vm) (c : Call) : Option Vm := (Paging.mappages vm c.va c.size c.pa c.perm).toOption.map Prod.snd

theorem Shows.mappages {c : Call} (hs : Shows h vm.free vm.pt) (hc : c.Fits) : Agree vm.pt.root
    (mappages h (addr vm.pt.root) c.va c.size (addr c.pa) (permBits c.perm)) (Paging.mappages vm c.va c.size c.pa c.perm) := by
  obtain ⟨hva, hpa⟩ := hc
  rw [Table.mappages, Paging.mappages]
  by_cases hsize : c.size = 0
  · rw [if_pos hsize, if_pos hsize]
    exact .inl ⟨.mapSize, rfl, rfl⟩
  obtain ⟨n, hn⟩ : ∃ n, (c.va + c.size - 1) / PGSIZE = c.va / PGSIZE + n := Nat.exists_eq_add_of_le (Nat.div_le_div_right (by omega))
  have hrounds : ((c.va / PGSIZE + n) * PGSIZE - c.va / PGSIZE * PGSIZE) / PGSIZE = n := by
    rw [← Nat.sub_mul, Nat.mul_div_cancel _ (by decide), Nat.add_sub_cancel_left]
  rw [if_neg hsize, if_neg hsize, pgrounddown, Nat.mod_eq_of_lt (by omega), hn]
  dsimp only
  rw [hrounds]
  have hle : n ≤ c.size := by
    rw [show PGSIZE = 4096 from rfl] at hn
    omega
  exact hs.mapLoop (by omega) (Nat.lt_add_left _ (Nat.lt_succ_self _)) (Nat.succ_pos _)

theorem Shows.lookup (hs : Shows h free pt) (hva : va < MAXVA) : lookup h (addr pt.root) va = (pt.pte (va / PGSIZE)).map leaf := by
  rw [lookup_eq hva, entryAt, index_page, index_page, index_page, hs.pte, ← (page_number hva).2.2]

/-- **The words do what the maps say.** Through all calls of `mappages`, whether memory suffices for them or not, the tree of pages is the one of
the three maps, and an address is mapped where they say; and a call panics for the words just if it does for the maps. -/
theorem words_refine_maps (calls : List Call) (hcalls : ∀ c ∈ calls, c.Fits) (hs : Shows h vm.free vm.pt) :
    Option.Rel (fun h' vm' => Shows h' vm'.free vm'.pt ∧ ∀ va < MAXVA, lookup h' (addr vm.pt.root) va = (vm'.pt.pte (va / PGSIZE)).map leaf)
      (run (wordsStep vm.pt.root) h calls) (run mapsStep vm calls) := by
  have hrel : Option.Rel (fun h' vm' => Shows h' vm'.free vm'.pt ∧ vm'.pt.root = vm.pt.root) (run (wordsStep vm.pt.root) h calls)
      (run mapsStep vm calls) := by
    refine Along.rel (P := fun _ c => Call.Fits c) (fun {h' vm' c} hs' hc => ?_) ⟨hs, rfl⟩ (Along.of_forall fun c hc _ _ => hcalls c hc)
    rw [wordsStep, mapsStep, ← hs'.2]
    rcases hs'.1.mappages hc with ⟨e, hx, hy⟩ | ⟨r, h'', vm'', hx, hy, hs''⟩ <;> rw [hx, hy]
    · exact .none
    · exact .some hs''
  generalize run (wordsStep vm.pt.root) h calls = x at hrel ⊢
  generalize run mapsStep vm calls = y at hrel ⊢
  cases hrel with
  | none => exact .none
  | some hs' => exact .some ⟨hs'.1, fun va hva => hs'.2 ▸ hs'.1.lookup hva⟩

/-- Two pages of an empty table. -/
theorem words_refine_maps_bare : ∃ (vm : Vm) (calls : List Call), calls ≠ [] ∧ Shows bare vm.free vm.pt ∧
    Option.Rel (fun h' vm' => Shows h' vm'.free vm'.pt ∧ ∀ va < MAXVA, lookup h' (addr vm.pt.root) va = (vm'.pt.pte (va / PGSIZE)).map leaf)
      (run (wordsStep vm.pt.root) bare calls) (run mapsStep vm calls) := by
  have hs : Shows bare [2, 3] ⟨1, fun _ => none, fun _ => none, fun _ => none⟩ := by
    refine ⟨bare_wellFormed, rfl, fun i => bare_child _ i, bare_low, fun i j k => ?_⟩
    rw [entry, show addr 1 = 0x1000 from rfl, bare_low]
    exact decode_eq_none.mpr (Nat.zero_and _)
  exact ⟨⟨[2, 3], fun _ _ => 0, _, 0⟩, [⟨0x5800, 0x1000, 0x87000, userPerm⟩], by simp, hs, words_refine_maps _ (by simp [Call.Fits]) hs⟩

end Xv6.Paging.Table
