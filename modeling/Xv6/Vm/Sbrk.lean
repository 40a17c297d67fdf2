import Xv6.Lib.Run
import Xv6.Vm.Fork
import Mathlib.Order.Interval.Finset.Nat

/-!
# Runs of `sbrk`

What `fork` and `exec` need of the memory of a process, that the pages up to its size and no others are mapped, each to a page that is used for
nothing else, is kept by `sbrk`, whatever it is asked for and whenever the memory runs out; and no page is lost. This includes the calls that
`growproc` gets wrong, because their new size is not one of 32 bits: it then leaves the memory as it is.
-/

namespace Xv6.Paging

open Lib Function

open Multiset (disjoint_left mem_add nodup_add)

variable {vm vm' : Vm} {sz newsz v : ℕ}

/-- **All pages**: those of the process, those of its page table, and the free ones. -/
def allPages (vm : Vm) (sz : ℕ) : Multiset ℕ := frames vm.pt 0 (pages sz) + vm.stock

theorem frames_add {pt : Pagetable} {a b : ℕ} : frames pt v (a + b) = frames pt v a + frames pt (v + a) b := by
  rw [frames, Finset.sum_range_add, frames, frames]
  exact congrArg _ (Finset.sum_congr rfl fun i _ => by rw [Nat.add_assoc])

section

variable (h : Space vm sz)

include h

/-- No page is used twice. -/
theorem Space.nodup_allPages : (allPages vm sz).Nodup := by
  have hframes : ∀ n, (frames vm.pt 0 n).Nodup := by
    intro n
    induction n with
    | zero => exact Multiset.nodup_zero
    | succ n ih =>
      rw [frames_succ, Nat.zero_add]
      rcases hn : vm.pt.pte n with _ | e
      · simpa [pageOf] using ih
      · refine Multiset.nodup_add.mpr ⟨ih, Multiset.nodup_singleton _, Multiset.disjoint_singleton.mpr fun hmem => ?_⟩
        obtain ⟨w, e', -, hw, he', heq⟩ := exists_of_mem_frames hmem
        have := h.inj w n e' e he' hn heq
        omega
  refine Multiset.nodup_add.mpr ⟨hframes _, h.nodup, Multiset.disjoint_left.mpr fun hmem => ?_⟩
  obtain ⟨w, e, -, -, he, rfl⟩ := exists_of_mem_frames hmem
  exact h.out w e he

/-- The memory of the process is as it was. -/
theorem Space.same (hs : Same vm vm') : Space vm' sz ∧ allPages vm' sz = allPages vm sz := by
  constructor
  · refine ⟨h.size, hs.tree, fun v hv => ?_, fun v => ?_, fun v e => ?_, fun v w e e' => ?_, ?_, fun p => ?_⟩
    · obtain ⟨e, he, hperm, hram⟩ := h.leaf v hv
      exact ⟨e, by rw [hs.pte, he], hperm, by rwa [Vm.Ram, hs.lo]⟩
    · rw [hs.pte]
      exact h.none v
    · rw [hs.pte, hs.stock]
      exact h.out v e
    · rw [hs.pte]
      exact h.inj v w e e'
    · rw [hs.stock]
      exact h.nodup
    · rw [hs.stock, Vm.Ram, hs.lo]
      exact h.ram p
  · rw [allPages, allPages, hs.stock, frames_congr fun i _ => congrFun hs.pte _]

/-- **New pages** belong to nobody else. -/
theorem Space.grown (hle : sz ≤ newsz) (hsize : newsz < 2 ^ 32) (hg : Grown vm (pages sz) (pages newsz) vm') :
    Space vm' newsz ∧ allPages vm' newsz = allPages vm sz := by
  have hmono := pages_mono hle
  have hall : allPages vm' newsz = allPages vm sz := by
    have hold : frames vm'.pt 0 (pages sz) = frames vm.pt 0 (pages sz) := frames_congr fun i hi => hg.old _ (by omega)
    rw [allPages, allPages, ← Nat.add_sub_cancel' hmono, frames_add, Nat.zero_add, hold, add_assoc, hg.stock]
  have hnodup := h.nodup_allPages
  rw [← hall, allPages, nodup_add] at hnodup
  obtain ⟨hframes, hstock, hdisj⟩ := hnodup
  have hsub : ∀ q, q ∈ vm'.stock → q ∈ vm.stock := by
    intro q hq
    rw [← hg.stock]
    exact Multiset.mem_add.mpr (.inr hq)
  have hnew : ∀ v e, pages sz ≤ v ∧ v < pages newsz → vm'.pt.pte v = some e → e.pa ∈ vm.stock := by
    intro v e hv he
    rw [← hg.stock]
    exact Multiset.mem_add.mpr (.inl (mem_frames hv.1 (by omega) he))
  refine ⟨⟨hsize, hg.tree, fun v hv => ?_, fun v hv htop => ?_, fun v e he hmem => ?_, fun v w e e' he he' heq => ?_, hstock,
    fun p hp => ?_⟩, hall⟩
  · by_cases hv' : v < pages sz
    · obtain ⟨e, he, hperm, hram⟩ := h.leaf v hv'
      exact ⟨e, by rw [hg.old v (by omega), he], hperm, by rwa [Vm.Ram, hg.lo]⟩
    · exact hg.leaf h.ram (by omega) hv rfl
  · rw [hg.old v (by omega)]
    exact h.none v (by omega) htop
  · by_cases hv : pages sz ≤ v ∧ v < pages newsz
    · exact Multiset.disjoint_left.mp hdisj (mem_frames (Nat.zero_le v) (by omega) he) hmem
    · rw [hg.old v hv] at he
      exact h.out v e he (hsub _ hmem)
  · by_cases hv : pages sz ≤ v ∧ v < pages newsz <;> by_cases hw : pages sz ≤ w ∧ w < pages newsz
    · exact frames_inj hframes hv.2 hw.2 he he' heq
    · rw [hg.old w hw] at he'
      exact absurd (heq ▸ hnew v e hv he) (h.out w e' he')
    · rw [hg.old v hv] at he
      exact absurd (heq ▸ hnew w e' hw he') (h.out v e he)
    · rw [hg.old v hv] at he
      rw [hg.old w hw] at he'
      exact h.inj v w e e' he he' heq
  · rw [Vm.Ram, hg.lo]
    exact h.ram p (hsub p hp)

/-- **Pages that are given back** are free. -/
theorem Space.shrunk (hlt : newsz < sz) (hun : Unmapped vm (pages newsz) (pages sz - pages newsz) vm') :
    Space vm' newsz ∧ allPages vm' newsz = allPages vm sz := by
  have hmono := pages_mono hlt.le
  have hsz := h.size
  have hpte : ∀ v e, vm'.pt.pte v = some e → ¬(pages newsz ≤ v ∧ v < pages sz) ∧ vm.pt.pte v = some e := by
    intro v e he
    rw [hun.pte v] at he
    split at he
    · cases he
    · exact ⟨by omega, he⟩
  have hall : allPages vm' newsz = allPages vm sz := by
    have hold : frames vm'.pt 0 (pages newsz) = frames vm.pt 0 (pages newsz) := by
      refine frames_congr fun i hi => ?_
      rw [hun.pte, if_neg (by omega)]
    have hsplit : frames vm.pt 0 (pages sz) = frames vm.pt 0 (pages newsz) + frames vm.pt (pages newsz) (pages sz - pages newsz) := by
      rw [← Nat.add_sub_cancel' hmono, frames_add, Nat.zero_add, Nat.add_sub_cancel' hmono]
    rw [allPages, allPages, hold, hun.stock, hsplit, add_assoc]
  have hnodup := h.nodup_allPages
  rw [← hall, allPages, nodup_add] at hnodup
  refine ⟨⟨by omega, hun.tree, fun v hv => ?_, fun v hv htop => ?_, fun v e he hmem => ?_, fun v w e e' he he' heq => ?_, hnodup.2.1,
    fun p hp => ?_⟩, hall⟩
  · obtain ⟨e, he, hperm, hram⟩ := h.leaf v (by omega)
    exact ⟨e, by rw [hun.pte, if_neg (by omega), he], hperm, by rwa [Vm.Ram, hun.lo]⟩
  · rw [hun.pte]
    split
    · rfl
    · exact h.none v (by omega) htop
  · obtain ⟨hv, he⟩ := hpte v e he
    rw [hun.stock, mem_add] at hmem
    rcases hmem with hmem | hmem
    · obtain ⟨w, e', h1, h2, he', heq⟩ := exists_of_mem_frames hmem
      have := h.inj w v e' e he' he heq
      omega
    · exact h.out v e he hmem
  · exact h.inj v w e e' (hpte v e he).2 (hpte w e' he').2 heq
  · rw [Vm.Ram, hun.lo]
    rw [hun.stock, mem_add] at hp
    rcases hp with hp | hp
    · obtain ⟨w, e, h1, h2, he, rfl⟩ := exists_of_mem_frames hp
      obtain ⟨e', he', -, hram⟩ := h.leaf w (by omega)
      obtain rfl := Option.some.inj (he.symm.trans he')
      exact hram
    · exact h.ram p hp

/-- **`growproc` keeps the memory in order**, whatever it is asked for. -/
theorem Space.growproc {n : ℤ} (hn : -2 ^ 31 ≤ n ∧ n < 2 ^ 31) : ∃ r sz' vm', growproc vm sz n = .ok (r, sz', vm') ∧
    Space vm' sz' ∧ allPages vm' sz' = allPages vm sz := by
  have hsz := h.size
  have hT : TRAPFRAME = 2 ^ 38 - 8192 := rfl
  have hM : MAXVA - PGSIZE = 2 ^ 38 - 4096 := rfl
  have h32 : ∀ m, m < 2 ^ 32 → m % 2 ^ 32 = m := fun m => Nat.mod_eq_of_lt
  rw [Paging.growproc]
  simp only [h32 sz hsz]
  generalize hnew : ((sz + n : ℤ) % 2 ^ 32).toNat = newsz
  have hlt : newsz < 2 ^ 32 := by omega
  rcases lt_trichotomy n 0 with hneg | rfl | hpos
  · rw [if_neg (by omega), if_pos hneg]
    by_cases hge : newsz ≥ sz
    · rw [uvmdealloc, if_pos hge, ok_bind, h32 sz hsz]
      exact ⟨0, sz, vm, rfl, h, rfl⟩
    · obtain ⟨vm', hres, hun⟩ := uvmdealloc_spec h.tree (Nat.lt_of_not_ge hge) (by omega) fun w _ h2 => h.leaf w h2
      rw [hres, ok_bind, h32 newsz hlt]
      exact ⟨0, newsz, vm', rfl, h.shrunk (Nat.lt_of_not_ge hge) hun⟩
  · rw [if_neg (by omega), if_neg (by omega)]
    exact ⟨0, sz, vm, rfl, h, rfl⟩
  · rw [if_pos hpos]
    by_cases hwrap : newsz < sz
    · rw [uvmalloc, if_pos hwrap, ok_bind, h32 sz hsz, if_neg (by omega)]
      exact ⟨0, sz, vm, rfl, h, rfl⟩
    obtain ⟨r, vm', hres, hcase⟩ := uvmalloc_spec h.tree (Nat.le_of_not_lt hwrap) (by omega) h.nodup h.ram (by
      intro w h1 _ h3
      have htop : w * PGSIZE < TRAPFRAME := by omega
      exact ⟨htop, h.none w h1 htop⟩)
    rw [hres, ok_bind]
    rcases hcase with ⟨rfl, hg⟩ | ⟨rfl, hsame⟩
    · simp only [h32 r hlt, if_neg (show r ≠ 0 by omega)]
      exact ⟨0, r, vm', rfl, h.grown (Nat.le_of_not_lt hwrap) hlt hg⟩
    · exact ⟨-1, sz, vm', rfl, h.same hsame⟩

end

/-! ### Runs -/

/-- A call of `sbrk`, with an `int`. -/
def sbrk (m : Vm × ℕ) (n : ℤ) : Option (Vm × ℕ) :=
  if -2 ^ 31 ≤ n ∧ n < 2 ^ 31 then
    match growproc m.1 m.2 n with
    | .ok (_, sz, vm) => some (vm, sz)
    | .error _ => none
  else none

/-- **Runs of `sbrk`.** However often a process calls `sbrk`, with whatever arguments: the pages up to its size and no others are mapped, no
page is used twice, and none is lost; and the next call does not panic. -/
theorem sbrk_runs {m m' : Vm × ℕ} (h : Space m.1 m.2) (hreach : Reach sbrk m m') : Space m'.1 m'.2 ∧ (allPages m'.1 m'.2).Nodup ∧
    allPages m'.1 m'.2 = allPages m.1 m.2 ∧ ∀ n : ℤ, -2 ^ 31 ≤ n → n < 2 ^ 31 → ∃ r, growproc m'.1 m'.2 n = .ok r := by
  have hinv : Space m'.1 m'.2 ∧ allPages m'.1 m'.2 = allPages m.1 m.2 := by
    refine hreach.invariant (I := fun m' => Space m'.1 m'.2 ∧ allPages m'.1 m'.2 = allPages m.1 m.2) (fun {s n t} hs he => ?_) ⟨h, rfl⟩
    obtain ⟨hspace, hall⟩ := hs
    rw [sbrk] at he
    split at he
    · next hn =>
      obtain ⟨r, sz', vm', hres, hspace', hall'⟩ := hspace.growproc hn
      rw [hres] at he
      obtain rfl := Option.some.inj he
      exact ⟨hspace', hall'.trans hall⟩
    · cases he
  refine ⟨hinv.1, hinv.1.nodup_allPages, hinv.2, fun n h1 h2 => ?_⟩
  obtain ⟨r, sz', vm', hres, -⟩ := hinv.1.growproc ⟨h1, h2⟩
  exact ⟨_, hres⟩

/-- Two pages and 1808 bytes more, of which a page is given back. -/
theorem sbrk_runs_twoPages : ∃ vm, Reach sbrk (twoPages, 8192) (vm, 14096) ∧ Space vm 14096 ∧
    allPages vm 14096 = allPages twoPages 8192 := by
  have heval : (run sbrk (twoPages, 8192) [10000, -4096]).map Prod.snd = some 14096 := by
    decide +kernel
  obtain ⟨⟨vm, sz⟩, hrun, rfl⟩ := Option.map_eq_some_iff.mp heval
  have hruns := sbrk_runs (twoPages_space (by decide) le_rfl) ⟨_, hrun⟩
  exact ⟨vm, ⟨_, hrun⟩, hruns.1, hruns.2.2.1⟩

/-! ### The memory of the machine -/

/-- A process has no more memory than there are pages. -/
theorem Space.size_le (h : Space vm sz) : sz ≤ (allPages vm sz).card * PGSIZE := by
  have hcard : (frames vm.pt 0 (pages sz)).card = pages sz := by
    refine (Multiset.card_sum ..).trans ((Finset.sum_congr rfl (g := fun _ => 1) fun i hi => ?_).trans (by simp))
    obtain ⟨e, he, -⟩ := h.leaf (0 + i) (by rw [Nat.zero_add]; exact Finset.mem_range.mp hi)
    rw [he]
    rfl
  have hle : pages sz ≤ (allPages vm sz).card := by
    rw [allPages, Multiset.card_add, hcard]
    exact Nat.le_add_right ..
  have hsz := not_lt.mp (lt_pages.not.mp (lt_irrefl (pages sz)))
  exact hsz.trans (Nat.mul_le_mul_right _ hle)

/-- **`sbrk` of more memory**, for a process of a machine with at most 128 megabytes: the size, and the memory from the
old size to the new one, or -1 and nothing. -/
theorem Space.growproc_pos (h : Space vm sz) (hcard : (allPages vm sz).card ≤ 2 ^ 15) {n : ℤ} (hpos : 0 < n) (hn : n < 2 ^ 31) :
    ∃ r sz' vm', Paging.growproc vm sz n = .ok (r, sz', vm') ∧ Space vm' sz' ∧ allPages vm' sz' = allPages vm sz ∧
      sz < 2 ^ 31 ∧ (r = 0 ∧ (sz' : ℤ) = sz + n ∨ r = -1 ∧ sz' = sz) := by
  have hle := h.size_le
  have hsz : sz ≤ 2 ^ 27 := hle.trans (Nat.mul_le_mul_right PGSIZE hcard)
  obtain ⟨r, sz', vm', hrun, hspace, hall⟩ := h.growproc (n := n) ⟨by omega, hn⟩
  obtain ⟨r₁, sz₁, vm₁, hrun₁, hiff⟩ := growproc_grew_iff h (n := n) ⟨by omega, hn⟩
  obtain ⟨rfl, rfl, rfl⟩ : r = r₁ ∧ sz' = sz₁ ∧ vm' = vm₁ := by
    simpa using hrun.symm.trans hrun₁
  have hgrew := hiff.mpr (by omega)
  refine ⟨r, sz', vm', hrun, hspace, hall, by omega, ?_⟩
  by_cases h0 : r = 0
  · exact .inl ⟨h0, hgrew.size h0⟩
  · exact .inr ⟨(hgrew.failed h0).1, (hgrew.failed h0).2.1⟩

end Xv6.Paging
