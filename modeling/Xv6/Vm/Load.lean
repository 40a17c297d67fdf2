import Xv6.Vm.Exec
import Mathlib.Data.Finset.Card

/-!
# A failed `exec` changes nothing

While `exec` works at the new page table, the pages below the size it has reached are mapped, and these pages together with
the free ones and those of the table are the pages that were free before. So wherever it fails,
`proc_freepagetable` with that size gives back what was taken.
-/

namespace Xv6.Paging

open Lib Function

open Multiset (card_add disjoint_left mem_add mem_coe nodup_add)

variable {vm vm' vm₀ : Vm} {perm : ℕ → Perm} {sz newsz w pa : ℕ}

/-! ### The page table that is being filled -/

/-- A page table with nothing but the trampoline and the trapframe. -/
structure Base (vm₀ : Vm) : Prop where
  nodup : vm₀.stock.Nodup
  ram : ∀ p ∈ vm₀.stock, vm₀.Ram p
  none : ∀ w, w < topPage - 1 → vm₀.pt.pte w = none
  user : ∀ w e, vm₀.pt.pte w = some e → e.perm.u = false

structure Loaded (perm : ℕ → Perm) (vm₀ : Vm) (sz : ℕ) (vm : Vm) : Prop where
  tree : Tree vm.pt
  new : ∀ w, w < pages sz → ∃ pa, vm.pt.pte w = some ⟨pa, perm w⟩
  old : ∀ w, pages sz ≤ w → vm.pt.pte w = vm₀.pt.pte w
  stock : frames vm.pt 0 (pages sz) + vm.stock = vm₀.stock
  data : ∀ q, q ∉ vm₀.stock → vm.data q = vm₀.data q
  lo : vm.lo = vm₀.lo

theorem Base.card_le (h : Base vm₀) : vm₀.stock.card ≤ PHYSTOP := by
  rw [← Multiset.toFinset_card_of_nodup h.nodup, ← Finset.card_range PHYSTOP]
  refine Finset.card_le_card fun p hp => ?_
  exact Finset.mem_range.mpr (h.ram p (Multiset.mem_toFinset.mp hp)).2

theorem card_frames {pt : Pagetable} {n : ℕ} (h : ∀ w, w < n → ∃ e, pt.pte w = some e) : (frames pt 0 n).card = n := by
  induction n with
  | zero => rfl
  | succ n ih =>
    obtain ⟨e, he⟩ := h n (Nat.lt_succ_self n)
    rw [frames_succ, card_add, ih fun w hw => h w (Nat.lt_succ_of_lt hw), Nat.zero_add, he]
    rfl

namespace Loaded

variable (h : Loaded perm vm₀ sz vm)

include h

section

variable (hw : w < pages sz) (he : vm.pt.pte w = some ⟨pa, perm w⟩)

include hw he

theorem pa_mem : pa ∈ vm₀.stock := by
  rw [← h.stock]
  exact Multiset.mem_add.mpr (.inl (mem_frames (Nat.zero_le w) (by omega) he))

theorem write (pg : Page) :
    Loaded perm vm₀ sz { vm with data := update vm.data pa pg } where
  tree := h.tree
  new := h.new
  old := h.old
  stock := h.stock
  data q hq := by
    refine (update_of_ne ?_ ..).trans (h.data q hq)
    rintro rfl
    exact hq (h.pa_mem hw he)
  lo := h.lo

end

variable (hb : Base vm₀)

include hb

theorem free_le : pages sz + vm.free.length ≤ PHYSTOP := by
  have hcard := hb.card_le
  rw [← h.stock, card_add, card_frames fun w hw => (h.new w hw).imp' _ fun _ hpa => hpa, Vm.stock,
    card_add, Multiset.coe_card] at hcard
  omega

theorem sz_le : sz ≤ PHYSTOP * PGSIZE := by
  have hP : PGSIZE = 4096 := rfl
  have := h.free_le hb
  rw [pages, hP] at this
  rw [hP]
  omega

theorem leaf (hw : w < pages sz) (hperm : LeafPerm (perm w)) : vm.Leaf w := by
  obtain ⟨pa, hpa⟩ := h.new w hw
  refine ⟨_, hpa, hperm, ?_⟩
  have := hb.ram pa (h.pa_mem hw hpa)
  rwa [Vm.Ram, ← h.lo] at this

theorem ram {p : ℕ} (hp : p ∈ vm.stock) : vm.Ram p := by
  have := hb.ram p (by rw [← h.stock]; exact Multiset.mem_add.mpr (.inr hp))
  rwa [Vm.Ram, ← h.lo] at this

theorem nodup : vm.stock.Nodup := by
  have := hb.nodup
  rw [← h.stock] at this
  exact (Multiset.nodup_add.mp this).2.1

theorem walkaddr {va : ℕ} (hva : va < sz) (he : vm.pt.pte (va / PGSIZE) = some ⟨pa, perm (va / PGSIZE)⟩)
    (hu : (perm (va / PGSIZE)).u = true) : walkaddr vm va = some pa := by
  have hmax : va < MAXVA := hva.trans_le ((h.sz_le hb).trans (by decide))
  rw [Paging.walkaddr, if_neg (by omega), walk_found h.tree hmax he]
  simp only [he, Option.bind_some, hu, if_true]

theorem of_walkaddr {va : ℕ} (hwalk : Paging.walkaddr vm va = some pa) :
    va / PGSIZE < pages sz ∧ vm.pt.pte (va / PGSIZE) = some ⟨pa, perm (va / PGSIZE)⟩ := by
  rw [Paging.walkaddr] at hwalk
  split at hwalk
  · cases hwalk
  split at hwalk
  · obtain ⟨e, he, hpa⟩ := Option.bind_eq_some_iff.mp hwalk
    split at hpa <;> cases hpa
    rename_i hu
    by_cases hlt : va / PGSIZE < pages sz
    · obtain ⟨pa, hnew⟩ := h.new _ hlt
      obtain rfl := Option.some.inj (he.symm.trans hnew)
      exact ⟨hlt, hnew⟩
    · -- above the size there are only the trampoline and the trapframe
      rw [h.old _ (by omega)] at he
      exact absurd ((hb.user _ e he).symm.trans hu) (by decide)
  · cases hwalk

end Loaded

/-! ### Loading the segments -/

theorem Loaded.uvmalloc (h : Loaded (fun _ => userPerm) vm₀ sz vm) (hb : Base vm₀) (newsz : ℕ) : ∃ r vm', uvmalloc vm sz newsz = .ok (r, vm') ∧
      (r = 0 ∧ Loaded (fun _ => userPerm) vm₀ sz vm' ∨ r ≠ 0 ∧ r = max sz newsz ∧ Loaded (fun _ => userPerm) vm₀ r vm') := by
  by_cases hlt : newsz < sz
  · refine ⟨sz, vm, by rw [Paging.uvmalloc, if_pos hlt], .inr ⟨by omega, by omega, h⟩⟩
  have hsz := h.sz_le hb
  have hfree := h.free_le hb
  -- whatever the size is, there is no memory for pages up to the trapframe
  have hroom : Room vm (pages sz) newsz := by
    intro w h1 h2 _
    have hw : w < topPage - 1 := by
      have ht : topPage - 1 = 2 ^ 26 - 2 := rfl
      have hP : PHYSTOP = 0x88000 := rfl
      omega
    refine ⟨?_, (h.old w h1).trans (hb.none w hw)⟩
    rw [trapframe_eq]
    exact Nat.mul_lt_mul_of_pos_right hw (by decide)
  obtain ⟨r, vm', hres, hcase⟩ := uvmalloc_spec h.tree (Nat.le_of_not_lt hlt) (hsz.trans (by decide)) (h.nodup hb) (fun p hp => h.ram hb hp) hroom
  refine ⟨r, vm', hres, ?_⟩
  rcases hcase with ⟨rfl, hg⟩ | ⟨rfl, hsame⟩
  · have hnew : Loaded (fun _ => userPerm) vm₀ r vm' := by
      have hle := hg.le
      refine ⟨hg.tree, fun w hw => ?_, fun w hw => ?_, ?_, fun q hq => ?_, hg.lo.trans h.lo⟩
      · by_cases hw' : w < pages sz
        · obtain ⟨pa, hpa⟩ := h.new w hw'
          exact ⟨pa, (hg.old w (by omega)).trans hpa⟩
        · obtain ⟨pa, hpa, -⟩ := hg.new w (by omega) hw
          exact ⟨pa, hpa⟩
      · rw [hg.old w (by omega), h.old w (by omega)]
      · have hframes : frames vm'.pt 0 (pages r) = frames vm'.pt 0 (pages sz) + frames vm'.pt (pages sz) (pages r - pages sz) := by
          simp only [frames, Nat.zero_add]
          rw [← Finset.sum_range_add, Nat.add_sub_cancel' hle]
        have hsame : frames vm'.pt 0 (pages sz) = frames vm.pt 0 (pages sz) :=
          frames_congr fun i hi => hg.old _ (by omega)
        rw [hframes, add_assoc, hg.stock, hsame, h.stock]
      · rw [hg.data q, h.data q hq]
        intro hmem
        exact hq (by rw [← h.stock]; exact Multiset.mem_add.mpr (.inr hmem))
    rcases Nat.eq_zero_or_pos r with rfl | hpos
    · obtain rfl : sz = 0 := by omega
      exact .inl ⟨rfl, hnew⟩
    · exact .inr ⟨by omega, by omega, hnew⟩
  · refine .inl ⟨rfl, hsame.tree, ?_, ?_, ?_, fun q hq => ?_, hsame.lo.trans h.lo⟩
    · intro w hw
      rw [hsame.pte]
      exact h.new w hw
    · intro w hw
      rw [hsame.pte]
      exact h.old w hw
    · rw [hsame.stock, ← h.stock, frames_congr fun i _ => congrFun hsame.pte _]
    · rw [hsame.data q, h.data q hq]
      intro hmem
      exact hq (by rw [← h.stock]; exact Multiset.mem_add.mpr (.inr hmem))

theorem fieldAt_lt (hdr : List UInt8) (off width : ℕ) : fieldAt hdr off width < 256 ^ width := by
  refine (leNat_lt _).trans_le (Nat.pow_le_pow_right (by decide) ?_)
  rw [List.length_take]
  exact min_le_left _ _

section

variable (h : Loaded (fun _ => userPerm) vm₀ sz vm) (hb : Base vm₀) (file : List UInt8)

include h hb file

theorem Loaded.loadsegLoop {v n k j : ℕ} (offset : ℕ) (hn : v * PGSIZE + n ≤ sz) (hk : j + k = pages n) :
    ∃ r vm', loadsegLoop file (v * PGSIZE) offset n k vm (j * PGSIZE) = .ok (r, vm') ∧ Loaded (fun _ => userPerm) vm₀ sz vm' := by
  induction k generalizing vm j with
  | zero => exact ⟨true, vm, rfl, h⟩
  | succ k ih =>
    have hsz := h.sz_le hb
    have hva : v * PGSIZE + j * PGSIZE < sz := by
      have := lt_pages.mp (show j < pages n by omega)
      omega
    have hmod : (v * PGSIZE + j * PGSIZE) % 2 ^ 64 = (v + j) * PGSIZE := by
      rw [← Nat.add_mul] at hva ⊢
      exact Nat.mod_eq_of_lt (hva.trans_le (hsz.trans (by decide)))
    rw [← Nat.add_mul] at hva
    have hdiv : (v + j) * PGSIZE / PGSIZE = v + j := mul_div_pgsize _
    have hlt : v + j < pages sz := lt_pages.mpr hva
    obtain ⟨pa, hpa⟩ := h.new (v + j) hlt
    have hwalk := h.walkaddr hb hva (by rw [hdiv]; exact hpa) rfl
    rw [Paging.loadsegLoop, hmod, hwalk]
    dsimp only
    generalize (if n - j * PGSIZE < PGSIZE then n - j * PGSIZE else PGSIZE) = m
    split
    · exact ⟨false, _, rfl, h.write hlt hpa _⟩
    · rw [← Nat.succ_mul]
      exact ih (h.write hlt hpa _) (by omega)

theorem Loaded.loadLoop (n off : ℕ) :
    ∃ r sz' vm', loadLoop file n off sz vm = .ok (r, sz', vm') ∧ Loaded (fun _ => userPerm) vm₀ sz' vm' := by
  induction n generalizing off sz vm with
  | zero => exact ⟨true, sz, vm, rfl, h⟩
  | succ n ih =>
    rw [Paging.loadLoop]
    dsimp only
    split
    · exact ⟨false, sz, vm, rfl, h⟩
    split
    · exact ih h _
    split
    · exact ⟨false, sz, vm, rfl, h⟩
    split
    · exact ⟨false, sz, vm, rfl, h⟩
    next hfile hwrap =>
    have hvaddr := fieldAt_lt (readi file off PROGHDR) 16 8
    have hmemsz := fieldAt_lt (readi file off PROGHDR) 40 8
    generalize fieldAt (readi file off PROGHDR) 16 8 = vaddr at hwrap hvaddr ⊢
    generalize fieldAt (readi file off PROGHDR) 32 8 = filesz at hfile ⊢
    generalize fieldAt (readi file off PROGHDR) 40 8 = memsz at hfile hwrap hmemsz ⊢
    obtain ⟨r, vm₁, halloc, hcase⟩ := h.uvmalloc hb ((vaddr + memsz) % 2 ^ 64)
    rw [halloc, ok_bind]
    rcases hcase with ⟨rfl, h₁⟩ | ⟨hr, hmax, h₁⟩
    · exact ⟨false, sz, vm₁, rfl, h₁⟩
    dsimp only
    rw [if_neg hr]
    split
    · exact ⟨false, r, vm₁, rfl, h₁⟩
    next halign =>
    have hv : vaddr / PGSIZE * PGSIZE = vaddr := Nat.div_mul_cancel (Nat.dvd_of_mod_eq_zero (by omega))
    -- the sum has not wrapped, so that the segment lies below the size
    have hend : vaddr + filesz % 2 ^ 32 ≤ r := by
      have := Nat.mod_le filesz (2 ^ 32)
      omega
    obtain ⟨loaded, vm₂, hseg, h₂⟩ := h₁.loadsegLoop hb file (v := vaddr / PGSIZE) (n := filesz % 2 ^ 32) (j := 0)
      (fieldAt (readi file off PROGHDR) 8 8 % 2 ^ 32) (by rw [hv]; exact hend) (Nat.zero_add _)
    rw [hv, Nat.zero_mul] at hseg
    rw [loadseg, hseg, ok_bind]
    cases loaded with
    | true => exact ih h₂ _
    | false => exact ⟨false, r, vm₂, rfl, h₂⟩

end

/-! ### The stack -/

theorem Loaded.congr (h : Loaded perm vm₀ sz vm) (hp : pages newsz = pages sz) : Loaded perm vm₀ newsz vm :=
  ⟨h.tree, hp ▸ h.new, hp ▸ h.old, hp ▸ h.stock, h.data, h.lo⟩

def guarded (v : ℕ) : ℕ → Perm := update (fun _ => userPerm) v { userPerm with u := false }

theorem leafPerm_guarded (v w : ℕ) : LeafPerm (guarded v w) := by
  by_cases hw : w = v
  · rw [hw, guarded, update_self]
    rfl
  · rw [guarded, update_of_ne hw]
    rfl

theorem Loaded.uvmclear (h : Loaded (fun _ => userPerm) vm₀ sz vm) (hb : Base vm₀) (hw : w < pages sz) :
    ∃ vm', uvmclear vm (w * PGSIZE) = .ok vm' ∧ Loaded (guarded w) vm₀ sz vm' ∧ vm'.data = vm.data := by
  obtain ⟨pa, hpa⟩ := h.new w hw
  have hva : w * PGSIZE < sz := lt_pages.mp hw
  have hwalk := walk_found h.tree (hva.trans_le ((h.sz_le hb).trans (by decide))) ((congrArg _ (mul_div_pgsize w)).trans hpa)
  have hpte : ∀ v, v ≠ w → (setPte vm w (some ⟨pa, { userPerm with u := false }⟩)).pt.pte v = vm.pt.pte v :=
    fun v hv => update_of_ne hv ..
  have hself : (setPte vm w (some ⟨pa, { userPerm with u := false }⟩)).pt.pte w = some ⟨pa, { userPerm with u := false }⟩ := update_self ..
  refine ⟨setPte vm w (some ⟨pa, { userPerm with u := false }⟩), ?_,
    ⟨⟨h.tree.dir0, fun v hv => ?_⟩, fun v hv => ?_, fun v hv => ?_, ?_, h.data, h.lo⟩, rfl⟩
  · rw [Paging.uvmclear, hwalk, ok_bind]
    simp only [if_true, mul_div_pgsize, hpa]
    rfl
  · have hnone := h.tree.pte v hv
    rw [hpte v (by rintro rfl; exact absurd (hnone.symm.trans hpa) (by simp))]
    exact hnone
  · by_cases hvw : v = w
    · subst hvw
      exact ⟨pa, by rw [hself, guarded, update_self]⟩
    · obtain ⟨q, hq⟩ := h.new v hv
      exact ⟨q, by rw [hpte v hvw, hq, guarded, update_of_ne hvw]⟩
  · rw [hpte v (by omega)]
    exact h.old v hv
  · rw [stock_setPte, ← h.stock]
    refine congrArg (· + _) (Finset.sum_congr rfl fun i _ => ?_)
    rw [Nat.zero_add]
    by_cases hiw : i = w
    · rw [hiw, hself, hpa]
      rfl
    · rw [hpte i hiw]

section

variable (h : Loaded perm vm₀ sz vm) (hb : Base vm₀)

include h hb

theorem Loaded.copyoutLoop (fuel dstva : ℕ) (src : List UInt8) :
    Loaded perm vm₀ sz (copyoutLoop fuel vm dstva src).2 := by
  induction fuel generalizing vm dstva src with
  | zero => exact h
  | succ fuel ih =>
    rw [Paging.copyoutLoop]
    dsimp only
    split
    · cases hwalk : Paging.walkaddr vm (dstva / PGSIZE * PGSIZE) with
      | none => exact h
      | some pa =>
        obtain ⟨hlt, hpa⟩ := h.of_walkaddr hb hwalk
        exact ih (h.write hlt hpa _) _ _
    · exact h

theorem Loaded.copyout (dstva : ℕ) (src : List UInt8) :
    Loaded perm vm₀ sz (copyout vm dstva src).2 := h.copyoutLoop hb _ _ _

theorem Loaded.pushArgs (stackbase : ℕ) (argv : List (List UInt8)) (sp : ℕ)
    (ustack : List ℕ) : Loaded perm vm₀ sz (pushArgs stackbase argv sp ustack vm).2 := by
  induction argv generalizing sp ustack vm with
  | nil => exact h
  | cons arg argv ih =>
    rw [Paging.pushArgs]
    generalize push sp (arg.length + 1) = sp'
    dsimp only
    have hcopy := h.copyout hb sp' (arg ++ [0])
    generalize Paging.copyout vm sp' (arg ++ [0]) = r at hcopy ⊢
    rcases r with ⟨copied, vm₁⟩
    split
    · exact h
    · split
      · exact h
      · cases copied with
        | true => exact ih hcopy _ _
        | false => exact hcopy

theorem Loaded.pushAll (argv : List (List UInt8)) : Loaded perm vm₀ sz (pushAll vm sz argv).2 := by
  have hargs := h.pushArgs hb (sz - PGSIZE) argv sz []
  rw [Paging.pushAll]
  generalize Paging.pushArgs (sz - PGSIZE) argv sz [] vm = r at hargs ⊢
  rcases r with ⟨_ | ⟨sp, ustack⟩, vm₁⟩
  · exact hargs
  dsimp only at hargs ⊢
  generalize push sp ((ustack.length + 1) * 8) = sp'
  have hcopy := hargs.copyout hb sp' ((ustack ++ [0]).flatMap (leBytes 8))
  generalize Paging.copyout vm₁ sp' ((ustack ++ [0]).flatMap (leBytes 8)) = r at hcopy ⊢
  rcases r with ⟨copied, vm₂⟩
  split
  · exact hargs
  · cases copied with
    | true | false => exact hcopy

end

section

variable (h : Loaded (fun _ => userPerm) vm₀ sz vm) (hb : Base vm₀) (argv : List (List UInt8))

include h hb argv

theorem Loaded.makeStack_eq :
    (∃ vm₁, Paging.makeStack vm sz argv = .ok (none, pages sz * PGSIZE, vm₁) ∧ Loaded (fun _ => userPerm) vm₀ (pages sz * PGSIZE) vm₁) ∨
    ∃ vm₂, Loaded (guarded (pages sz)) vm₀ ((pages sz + 1 + 1) * PGSIZE) vm₂ ∧ Paging.makeStack vm sz argv =
      .ok ((Paging.pushAll vm₂ ((pages sz + 1 + 1) * PGSIZE) argv).1, (pages sz + 1 + 1) * PGSIZE,
        (Paging.pushAll vm₂ ((pages sz + 1 + 1) * PGSIZE) argv).2) := by
  have hsz := h.sz_le hb
  have hup : pgroundup sz = pages sz * PGSIZE := pgroundup_eq (by
    have hP : PHYSTOP * PGSIZE = 0x88000 * 4096 := rfl
    have hS : PGSIZE = 4096 := rfl
    omega)
  have h₀ : Loaded (fun _ => userPerm) vm₀ (pages sz * PGSIZE) vm := h.congr (pages_mul _)
  obtain ⟨r, vm₁, halloc, hcase⟩ := h₀.uvmalloc hb (pages sz * PGSIZE + 2 * PGSIZE)
  rw [Paging.makeStack, hup, halloc, ok_bind]
  rcases hcase with ⟨rfl, h₁⟩ | ⟨hr, hmax, h₁⟩
  · exact .inl ⟨vm₁, rfl, h₁⟩
  have hr' : r = (pages sz + 1 + 1) * PGSIZE := by
    rw [hmax, Nat.add_mul, Nat.add_mul]
    omega
  have hguard : r - 2 * PGSIZE = pages sz * PGSIZE := by
    rw [hr', Nat.add_mul, Nat.add_mul]
    omega
  obtain ⟨vm₂, hclear, h₂, -⟩ := h₁.uvmclear hb (w := pages sz) (by
    rw [hr', pages_mul]
    omega)
  dsimp only
  rw [if_neg hr, hguard, hclear, ok_bind]
  refine .inr ⟨vm₂, hr' ▸ h₂, ?_⟩
  rw [hr']

/-- **The stack is made**, or could not be: the pages up to the size are mapped all the same. -/
theorem Loaded.makeStack :
    ∃ sp sz' vm' perm, makeStack vm sz argv = .ok (sp, sz', vm') ∧ (∀ w, LeafPerm (perm w)) ∧ Loaded perm vm₀ sz' vm' := by
  rcases h.makeStack_eq hb argv with ⟨vm₁, hrun, h₁⟩ | ⟨vm₂, h₂, hrun⟩
  · exact ⟨none, _, vm₁, fun _ => userPerm, hrun, fun _ => rfl, h₁⟩
  · exact ⟨_, _, _, _, hrun, leafPerm_guarded _, h₂.pushAll hb argv⟩

end

theorem Loaded.giveBack (h : Loaded perm vm₀ sz vm) (hb : Base vm₀) (hperm : ∀ w, LeafPerm (perm w)) {e g : Pte}
    (he : vm₀.pt.pte topPage = some e) (hleaf : LeafPerm e.perm) (hg : vm₀.pt.pte (topPage - 1) = some g)
    (hleaf' : LeafPerm g.perm) (htop : ∀ w, topPage < w → vm₀.pt.pte w = none) :
    ∃ vm', procFreepagetable vm sz = .ok vm' ∧ Released vm₀ vm₀.stock vm' := by
  have hlow : pages sz ≤ topPage - 1 := by
    have := h.free_le hb
    have ht : topPage - 1 = 2 ^ 26 - 2 := rfl
    have hP : PHYSTOP = 0x88000 := rfl
    omega
  obtain ⟨vm', hfree, hrel⟩ := procFreepagetable_spec vm sz (e := e) (g := g) h.tree ((h.sz_le hb).trans (by decide))
    (fun v hv => h.leaf hb hv (hperm v)) (fun v hv h1 h2 => by
      rw [h.old v hv]
      rcases Nat.lt_or_ge v (topPage - 1) with hlt | hge
      · exact hb.none v hlt
      · exact htop v (by omega)) (by rw [h.old _ (by omega), he]) hleaf (by rw [h.old _ hlow, hg]) hleaf'
    fun p hp => h.ram hb hp
  rw [h.stock] at hrel
  exact ⟨vm', hfree, hrel.free, fun q hq => (hrel.data q hq).trans (h.data q hq), hrel.lo.trans h.lo⟩

/-! ### `exec` -/

/-- **A process that may call `exec`.** Its memory is mapped to pages that are used for nothing else, and
behind it there are only the trapframe and the trampoline. -/
structure Executing (t : Task) : Prop where
  space : Space (t.vm t.pagetable) t.sz
  inUse : t.trapframe ∉ t.free
  trampoline : ∃ e, t.pagetable.pte topPage = some e ∧ LeafPerm e.perm
  trapframe : t.pagetable.pte (topPage - 1) = some ⟨t.trapframe, true, true, false, false⟩
  beyond : ∀ w, topPage < w → t.pagetable.pte w = none

/-- **Nothing has changed** but the contents of free pages. -/
structure Kept (t t' : Task) : Prop where
  free : (t'.free : Multiset ℕ) = t.free
  data : ∀ q, q ∉ t.free → t'.data q = t.data q
  pagetable : t'.pagetable = t.pagetable
  sz : t'.sz = t.sz
  trapframe : t'.trapframe = t.trapframe
  name : t'.name = t.name
  iref : t'.iref = t.iref
  outstanding : t'.outstanding = t.outstanding

variable {t : Task}

structure Begun (t : Task) (vm₀ : Vm) : Prop where
  base : Base vm₀
  tree : Tree vm₀.pt
  stock : vm₀.stock = t.free
  data : ∀ q, q ∉ t.free → vm₀.data q = t.data q
  lo : vm₀.lo = t.lo
  trampoline : ∃ e, vm₀.pt.pte topPage = some e ∧ LeafPerm e.perm
  trapframe : ∃ e, vm₀.pt.pte (topPage - 1) = some e ∧ LeafPerm e.perm
  beyond : ∀ w, topPage < w → vm₀.pt.pte w = none

theorem Executing.ram (h : Executing t) {q : ℕ} (hq : q ∈ t.free) : t.lo ≤ q ∧ q < PHYSTOP :=
  h.space.ram q (Multiset.mem_add.mpr (.inl (Multiset.mem_coe.mpr hq)))

theorem Executing.begun (h : Executing t) (hf : Fresh (t.vm t.pagetable) t.trampoline t.trapframe vm₀) : Begun t vm₀ := by
  have hne : topPage ≠ topPage - 1 := by decide
  have hstock : vm₀.stock = t.free := hf.stock
  have hlo : vm₀.lo = t.lo := hf.lo
  have hnone : ∀ w, w ≠ topPage → w ≠ topPage - 1 → vm₀.pt.pte w = none := by
    intro w h1 h2
    rw [hf.pte, update_of_ne h2, update_of_ne h1]
  have htop : vm₀.pt.pte topPage = some ⟨t.trampoline, true, false, true, false⟩ := by
    rw [hf.pte, update_of_ne hne, update_self]
  have hframe : vm₀.pt.pte (topPage - 1) = some ⟨t.trapframe, true, true, false, false⟩ := by
    rw [hf.pte, update_self]
  refine ⟨⟨?_, fun p hp => ?_, fun w hw => hnone w (by omega) (by omega), fun w e he => ?_⟩, hf.tree, hstock, hf.data,
    hlo, ⟨_, htop, rfl⟩, ⟨_, hframe, rfl⟩, fun w hw => hnone w (by omega) (by omega)⟩
  · rw [hstock]
    exact (Multiset.nodup_add.mp h.space.nodup).1
  · rw [hstock] at hp
    rw [Vm.Ram, hlo]
    exact h.ram hp
  · by_cases h1 : w = topPage
    · rw [h1, htop] at he
      rw [← Option.some.inj he]
    · by_cases h2 : w = topPage - 1
      · rw [h2, hframe] at he
        rw [← Option.some.inj he]
      · rw [hnone w h1 h2] at he
        cases he

theorem Begun.giveBack (hb : Begun t vm₀) (h : Loaded perm vm₀ sz vm) (hperm : ∀ w, LeafPerm (perm w)) :
    ∃ vm', procFreepagetable vm sz = .ok vm' ∧ (vm'.free : Multiset ℕ) = t.free ∧ ∀ q, q ∉ t.free → vm'.data q = t.data q := by
  obtain ⟨e, he, hleaf⟩ := hb.trampoline
  obtain ⟨g, hg, hleaf'⟩ := hb.trapframe
  obtain ⟨vm', hfree, hrel⟩ := h.giveBack hb.base hperm he hleaf hg hleaf' hb.beyond
  refine ⟨vm', hfree, hrel.free.trans hb.stock, fun q hq => ?_⟩
  rw [hrel.data q (by rw [hb.stock]; exact hq), hb.data q hq]

structure Committed (t : Task) (vm : Vm) (sz sp : ℕ) (t' : Task) : Prop where
  pagetable : t'.pagetable = vm.pt
  size : t'.sz = sz
  trapframe : t'.trapframe = t.trapframe
  data : ∀ q ∈ frames vm.pt 0 (pages sz), t'.data q = vm.data q
  a1 : load (t'.data t.trapframe) 120 8 = leBytes 8 sp

/-- **The old page table is given back** once the new one is ready. -/
theorem Executing.commit (h : Executing t) (hb : Begun t vm₀) (hl : Loaded perm vm₀ sz vm) (sp entry : ℕ)
    (name : List UInt8) : ∃ t', commit t vm sz sp entry name = .ok t' ∧ Committed t vm sz sp t' := by
  obtain ⟨e, he, hleaf⟩ := h.trampoline
  have hlo : vm.lo = t.lo := hl.lo.trans hb.lo
  have hsize := h.space.size
  have hlow : pages t.sz < topPage - 1 := by
    have hP : PGSIZE = 4096 := rfl
    have ht : topPage = 2 ^ 26 - 1 := rfl
    rw [pages, hP, ht]
    omega
  have hfree : ∀ q, q ∈ vm.stock → q ∈ t.free := by
    intro q hq
    rw [← mem_coe, ← hb.stock, ← hl.stock]
    exact Multiset.mem_add.mpr (.inr hq)
  have hstock : ∀ q, q ∈ t.free → q ∈ (t.vm t.pagetable).stock := fun q hq =>
    Multiset.mem_add.mpr (.inl (Multiset.mem_coe.mpr hq))
  rw [Paging.commit]
  obtain ⟨frame, hframe⟩ : ∃ frame, frame = store (store (store (vm.data t.trapframe) 120 (leBytes 8 sp)) 24
    (leBytes 8 entry)) 48 (leBytes 8 sp) := ⟨_, rfl⟩
  rw [← hframe]
  obtain ⟨vm', hrun, hrel⟩ := procFreepagetable_spec { vm with data := update vm.data t.trapframe frame, pt := t.pagetable } t.sz (e := e)
    h.space.tree (hsize.le.trans (by decide)) (fun v hv => by
      obtain ⟨e, he, hperm, hr⟩ := h.space.leaf v hv
      refine ⟨e, he, hperm, ?_⟩
      have hr : t.lo ≤ e.pa ∧ e.pa < PHYSTOP := hr
      rwa [← hlo] at hr) (fun v hv h1 h2 => by
      rcases Nat.lt_or_ge v (topPage - 1) with hlt | hge
      · refine h.space.none v hv ?_
        rw [trapframe_eq]
        exact Nat.mul_lt_mul_of_pos_right hlt (by decide)
      · exact h.beyond v (by omega)) he hleaf h.trapframe rfl fun p hp => by
      have hr : t.lo ≤ p ∧ p < PHYSTOP := by
        rcases Multiset.mem_add.mp hp with hp | hp
        · exact h.ram (hfree p (Multiset.mem_add.mpr (.inl hp)))
        · exact h.space.ram p (Multiset.mem_add.mpr (.inr hp))
      rwa [← hlo] at hr
  -- what is not of the old process keeps its contents
  have hkeep : ∀ q, q ∉ frames t.pagetable 0 (pages t.sz) → q ∉ vm.free → q ∉ t.pagetable.tables →
      vm'.data q = update vm.data t.trapframe frame q := by
    intro q h1 h2 h3
    refine hrel.data q fun hmem => ?_
    rcases Multiset.mem_add.mp hmem with hmem | hmem
    · exact h1 hmem
    · rcases Multiset.mem_add.mp hmem with hmem | hmem
      · exact h2 (Multiset.mem_coe.mp hmem)
      · exact h3 hmem
  have hout := h.space.out _ _ h.trapframe
  refine ⟨{ t with free := vm'.free, data := vm'.data, pagetable := vm.pt, sz := sz, name := name.take 15 },
    by rw [hrun, ok_bind], rfl, rfl, rfl, fun q hq => ?_, ?_⟩
  · have hqfree : q ∈ t.free := by
      rw [← mem_coe, ← hb.stock, ← hl.stock]
      exact Multiset.mem_add.mpr (.inl hq)
    refine (hkeep q ?_ ?_ ?_).trans (update_of_ne ?_ ..)
    · intro hmem
      obtain ⟨w, e, -, -, he, rfl⟩ := exists_of_mem_frames hmem
      exact h.space.out w e he (hstock _ hqfree)
    · intro hmem
      have hnd := hb.base.nodup
      rw [← hl.stock] at hnd
      exact Multiset.disjoint_left.mp (Multiset.nodup_add.mp hnd).2.2 hq (mem_stock_of_free hmem)
    · intro hmem
      exact Multiset.disjoint_left.mp (Multiset.nodup_add.mp h.space.nodup).2.2 (Multiset.mem_coe.mpr hqfree) hmem
    · rintro rfl
      exact h.inUse hqfree
  · change load (vm'.data t.trapframe) 120 8 = leBytes 8 sp
    rw [hkeep, update_self, hframe, load_store_of_disjoint _ (.inr (by rw [length_leBytes]; decide)),
      load_store_of_disjoint _ (.inr (by rw [length_leBytes]; decide))]
    · have hload := load_store (vm.data t.trapframe) (leBytes 8 sp) (show 120 + (leBytes 8 sp).length ≤ PGSIZE by rw [length_leBytes]; decide)
      rwa [length_leBytes] at hload
    · intro hmem
      obtain ⟨w, e, -, hw, he, hpa⟩ := exists_of_mem_frames hmem
      have := h.space.inj w _ e _ he h.trapframe hpa
      omega
    · intro hmem
      exact h.inUse (hfree _ (mem_stock_of_free hmem))
    · intro hmem
      exact hout (Multiset.mem_add.mpr (.inr hmem))

/-- **What `exec` does**: nothing has changed where it returns -1, and otherwise a stack was made behind the segments. -/
theorem exec_cases (h : Executing t) (file name : List UInt8) (argv : List (List UInt8)) :
    ∃ r t', exec t file name argv = .ok (r, t') ∧ (r = -1 ∧ Kept t t' ∨
      r = argv.length ∧ ∃ vm₀ sz vm₁ sp sz' vm₂ perm, Begun t vm₀ ∧ Loaded (fun _ => userPerm) vm₀ sz vm₁ ∧
        makeStack vm₁ sz argv = .ok (some sp, sz', vm₂) ∧ Loaded perm vm₀ sz' vm₂ ∧ Committed t vm₂ sz' sp t') := by
  have hput : Kept t (Task.put { t with iref := t.iref + 1, outstanding := t.outstanding + 1 }) :=
    ⟨rfl, fun _ _ => rfl, rfl, rfl, rfl, rfl, rfl, rfl⟩
  have hfail : ∀ vm : Vm, (vm.free : Multiset ℕ) = t.free → (∀ q, q ∉ t.free → vm.data q = t.data q) →
      Kept t (Task.put (Task.setVm { t with iref := t.iref + 1, outstanding := t.outstanding + 1 } vm)) :=
    fun vm hfree hdata => ⟨hfree, hdata, rfl, rfl, rfl, rfl, rfl, rfl⟩
  rw [exec]
  dsimp only
  generalize readi file 0 ELFHDR = elf
  split
  · exact ⟨-1, _, rfl, .inl ⟨rfl, hput⟩⟩
  split
  · exact ⟨-1, _, rfl, .inl ⟨rfl, hput⟩⟩
  obtain ⟨made, vm₀, hpt, hcase⟩ := procPagetable_spec t.trampoline t.trapframe
    (show ∀ p ∈ (t.vm t.pagetable).free, (t.vm t.pagetable).Ram p from fun p hp => h.ram hp)
  change ∃ r t', (procPagetable (t.vm t.pagetable) t.trampoline t.trapframe >>= _) = _ ∧ _
  rw [hpt, ok_bind]
  cases made with
  | false => exact ⟨-1, _, rfl, .inl ⟨rfl, hfail vm₀ hcase.free hcase.data⟩⟩
  | true =>
    have hb := h.begun hcase
    have h₀ : Loaded (fun _ => userPerm) vm₀ 0 vm₀ :=
      ⟨hb.tree, fun w hw => absurd (lt_pages.mp hw) (by omega), fun _ _ => rfl, by
        rw [show pages 0 = 0 by decide, frames_zero, zero_add], fun _ _ => rfl, rfl⟩
    obtain ⟨loaded, sz, vm₁, hload, h₁⟩ := h₀.loadLoop hb.base file (fieldAt elf 56 2) (fieldAt elf 32 8 % 2 ^ 32)
    simp only [if_true, hload, ok_bind]
    cases loaded with
    | false =>
      obtain ⟨vm', hfree, hf, hd⟩ := hb.giveBack h₁ fun _ => rfl
      refine ⟨-1, _, ?_, .inl ⟨rfl, hfail vm' hf hd⟩⟩
      simp only [Bool.false_eq_true, if_false, hfree, ok_bind]
    | true =>
      obtain ⟨sp, sz', vm₂, perm, hstack, hperm, h₂⟩ := h₁.makeStack hb.base argv
      simp only [if_true, hstack, ok_bind]
      cases sp with
      | none =>
        obtain ⟨vm', hfree, hf, hd⟩ := hb.giveBack h₂ hperm
        refine ⟨-1, _, ?_, .inl ⟨rfl, hfail vm' hf hd⟩⟩
        simp only [hfree, ok_bind]
        rfl
      | some sp =>
        obtain ⟨t', hcommit, hc⟩ := h.commit hb h₂ sp (fieldAt elf 24 8) name
        refine ⟨argv.length, t', ?_, .inr ⟨rfl, vm₀, sz, vm₁, sp, sz', vm₂, perm, hb, h₁, hstack, h₂, hc⟩⟩
        change (Paging.commit t vm₂ sz' sp (fieldAt elf 24 8) name >>= _) = _
        rw [hcommit, ok_bind]

/-- **`exec` does not panic**, and nothing has changed where it returns -1. -/
theorem exec_kept (h : Executing t) (file name : List UInt8) (argv : List (List UInt8)) :
    ∃ r t', exec t file name argv = .ok (r, t') ∧ (r = -1 → Kept t t') := by
  obtain ⟨r, t', hrun, ⟨-, hkept⟩ | ⟨rfl, -⟩⟩ := exec_cases h file name argv
  · exact ⟨r, t', hrun, fun _ => hkept⟩
  · exact ⟨_, t', hrun, fun hr => absurd hr (by omega)⟩

/-- A process with two pages of memory. -/
def caller : Task where
  free := twoPages.free
  data := twoPages.data
  lo := twoPages.lo
  trampoline := 0x80000
  pagetable := twoPages.pt
  sz := 8192
  trapframe := 0x80108
  name := []
  iref := 0
  outstanding := 0

theorem caller_executing : Executing caller where
  space := twoPages_space (by decide) le_rfl
  inUse := by decide
  trampoline := ⟨_, rfl, rfl⟩
  trapframe := rfl
  beyond w hw := by
    by_contra hne
    obtain ⟨e, he⟩ := Option.ne_none_iff_exists'.mp hne
    have ht : topPage = 2 ^ 26 - 1 := rfl
    have := twoPages_pte he
    omega

/-- An ELF file whose segments have the given sizes in the file and in memory, all of them at address 0. -/
def elfFile (segs : List (ℕ × ℕ)) : List UInt8 :=
  leBytes 4 ELFMAGIC ++ List.replicate 28 0 ++ leBytes 8 ELFHDR ++ List.replicate 16 0 ++
    leBytes 2 segs.length ++ List.replicate 6 0 ++ segs.flatMap fun seg =>
      leBytes 4 ELFPROGLOAD ++ List.replicate 28 0 ++ leBytes 8 seg.1 ++ leBytes 8 seg.2 ++ List.replicate 8 0

/-- The first segment is loaded, the second one is larger in the file than in memory. -/
theorem exec_kept_caller : ∃ t', exec caller (elfFile [(100, 5000), (10, 5)]) [] [] = .ok (-1, t') ∧
    Kept caller t' := by
  have heval : (exec caller (elfFile [(100, 5000), (10, 5)]) [] []).map Prod.fst = .ok (-1) := by
    decide +kernel
  obtain ⟨r, t', hrun, hkept⟩ := exec_kept caller_executing (elfFile [(100, 5000), (10, 5)]) [] []
  rw [hrun] at heval
  obtain rfl : r = -1 := Except.ok.inj heval
  exact ⟨t', hrun, hkept rfl⟩

end Xv6.Paging
