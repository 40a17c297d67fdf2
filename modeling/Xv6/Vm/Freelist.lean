import Xv6.Param
import Mathlib.Algebra.Ring.Int.Defs
import Mathlib.Data.Finset.Card
import Mathlib.Logic.Function.Basic

/-!
# The free list

The functions of `kernel/kalloc.c`. The links of the list are kept in the free pages themselves, which are filled with junk when they are freed
and when they are handed out, and whoever holds a page writes to it what they like.

Memory has a 64-bit word at each aligned address; the `end` of the kernel is somewhere above `KERNBASE`.
-/

namespace Xv6.Kalloc

open Function

def KERNBASE : ℕ := 0x80000000

@[irreducible] def PHYSTOP : ℕ := KERNBASE + 128 * 1024 * 1024

theorem phystop_eq : PHYSTOP = 0x88000000 := by rw [PHYSTOP, KERNBASE]

/-- The first address after the kernel. -/
structure Kernel where
  kend : ℕ
  above : KERNBASE ≤ kend

/-- `kmem`, and the memory. -/
structure State where
  mem : ℕ → ℕ
  freelist : ℕ

def memset (mem : ℕ → ℕ) (dst c n : ℕ) : ℕ → ℕ := fun a =>
  if dst ≤ a ∧ a < dst + n then c * 0x0101010101010101 else mem a

variable (K : Kernel)

/-- `kfree`, or `none` for a panic. -/
def kfree (pa : ℕ) (s : State) : Option State :=
  if pa % PGSIZE ≠ 0 ∨ pa < K.kend ∨ PHYSTOP ≤ pa then none
  else some { mem := update (memset s.mem pa 1 PGSIZE) pa s.freelist, freelist := pa }

def freerangeLoop (p : ℕ) (s : State) : Option State :=
  if p + PGSIZE ≤ PHYSTOP then do
    let s ← kfree K p s
    freerangeLoop (p + PGSIZE) s
  else some s
  termination_by PHYSTOP - p
  decreasing_by
    have : PGSIZE = 4096 := rfl
    omega

def kinit (mem : ℕ → ℕ) : Option State :=
  freerangeLoop K ((K.kend + PGSIZE - 1) / PGSIZE * PGSIZE) { mem, freelist := 0 }

def kalloc (s : State) : State × ℕ :=
  if s.freelist = 0 then (s, 0)
  else ({ mem := memset s.mem s.freelist 5 PGSIZE, freelist := s.mem s.freelist }, s.freelist)

def countLoop (mem : ℕ → ℕ) : ℕ → ℕ → ℕ → Option ℕ
  | 0, _, _ => none
  | fuel + 1, r, count => if r = 0 then some count else countLoop mem fuel (mem r) (count + 1)

/-- `kfreemem`, which returns an `int`. -/
def kfreemem (fuel : ℕ) (s : State) : Option ℤ := (countLoop s.mem fuel s.freelist 0).map fun count => ((count * PGSIZE : ℕ) : ℤ).bmod (2 ^ 32)

/-- The pages of `[end, PHYSTOP)`. -/
def pages : Finset ℕ := (Finset.range PHYSTOP).filter fun p => p % PGSIZE = 0 ∧ K.kend ≤ p

/-- **What can happen**, with the pages that are out: those who hold them write to them, and only they are freed. -/
inductive Run : State → Finset ℕ → Prop
  | kinit {mem s} : kinit K mem = some s → Run s ∅
  | kalloc {s out} : Run s out → Run (kalloc s).1 (if (kalloc s).2 = 0 then out else insert (kalloc s).2 out)
  | kfree {s s' out pa} : Run s out → pa ∈ out → kfree K pa s = some s' → Run s' (out.erase pa)
  | write {s out mem} : Run s out → (∀ a, (∀ p ∈ out, ¬(p ≤ a ∧ a < p + PGSIZE)) → mem a = s.mem a) → Run { s with mem } out

/-! ### The list -/

def Linked (mem : ℕ → ℕ) : ℕ → List ℕ → Prop
  | r, [] => r = 0
  | r, p :: l => r = p ∧ p ≠ 0 ∧ Linked mem (mem p) l

/-- **The list is of the pages that are not out**, each of which is there once. -/
structure Free (s : State) (out : Finset ℕ) (l : List ℕ) : Prop where
  linked : Linked s.mem s.freelist l
  nodup : l.Nodup
  mem_iff : ∀ p, p ∈ l ↔ p ∈ pages K ∧ p ∉ out
  subset : out ⊆ pages K

variable {K} {s s' : State} {out : Finset ℕ} {l : List ℕ} {mem mem' : ℕ → ℕ} {p q r fuel count : ℕ}

theorem mem_pages : p ∈ pages K ↔ p < PHYSTOP ∧ p % PGSIZE = 0 ∧ K.kend ≤ p := by
  rw [pages, Finset.mem_filter, Finset.mem_range]

theorem ne_zero_of_mem_pages (h : p ∈ pages K) : p ≠ 0 := by
  have hK : KERNBASE = 0x80000000 := rfl
  have := K.above
  have := (mem_pages.mp h).2.2
  omega

theorem page_disjoint (hp : p ∈ pages K) (hq : q ∈ pages K) (hne : p ≠ q) : ¬(p ≤ q ∧ q < p + PGSIZE) := by
  have hP : PGSIZE = 4096 := rfl
  have := (mem_pages.mp hp).2.1
  have := (mem_pages.mp hq).2.1
  rw [hP] at *
  omega

theorem Linked.congr (h : Linked mem r l) (hmem : ∀ p ∈ l, mem' p = mem p) : Linked mem' r l := by
  induction l generalizing r with
  | nil => exact h
  | cons p l ih =>
    refine ⟨h.1, h.2.1, ?_⟩
    rw [hmem p List.mem_cons_self]
    exact ih h.2.2 fun q hq => hmem q (List.mem_cons_of_mem _ hq)

theorem countLoop_eq (h : Linked mem r l) (hfuel : l.length < fuel) : countLoop mem fuel r count = some (count + l.length) := by
  induction l generalizing r fuel count with
  | nil =>
    obtain ⟨fuel, rfl⟩ : ∃ f, fuel = f + 1 := ⟨fuel - 1, by omega⟩
    have hr : r = 0 := h
    rw [countLoop, if_pos hr]
    rfl
  | cons p l ih =>
    obtain ⟨fuel, rfl⟩ : ∃ f, fuel = f + 1 := ⟨fuel - 1, by omega⟩
    obtain ⟨rfl, hr, hl⟩ := h
    rw [List.length_cons] at hfuel ⊢
    rw [countLoop, if_neg hr, ih hl (by omega)]
    exact congrArg some (by omega)

/-! ### Each step keeps it -/

namespace Free

section

variable (h : Free K s out l)

include h

theorem length_eq : l.length = (pages K).card - out.card := by
  have hset : l.toFinset = pages K \ out := by
    ext p
    rw [List.mem_toFinset, h.mem_iff, Finset.mem_sdiff]
  rw [← List.toFinset_card_of_nodup h.nodup, hset, Finset.card_sdiff_of_subset h.subset]

theorem write (hmem : ∀ a, (∀ p ∈ out, ¬(p ≤ a ∧ a < p + PGSIZE)) → mem a = s.mem a) : Free K { s with mem } out l where
  linked := h.linked.congr fun q hq => by
    obtain ⟨hpage, hout⟩ := (h.mem_iff q).mp hq
    exact hmem q fun p hp => page_disjoint (h.subset hp) hpage fun he => hout (he ▸ hp)
  nodup := h.nodup
  mem_iff := h.mem_iff
  subset := h.subset

theorem memset (hp : p ∈ out) {c : ℕ} : Free K { s with mem := memset s.mem p c PGSIZE } out l :=
  h.write fun _ ha => if_neg (ha p hp)

theorem kfree (hp : p ∈ out) : ∃ s', kfree K p s = some s' ∧ Free K s' (out.erase p) (p :: l) := by
  have hpage := h.subset hp
  have hpl : p ∉ l := fun hl => ((h.mem_iff p).mp hl).2 hp
  obtain ⟨hlt, hmod, hle⟩ := mem_pages.mp hpage
  refine ⟨_, if_neg (by omega), ⟨⟨rfl, ne_zero_of_mem_pages hpage, ?_⟩, List.nodup_cons.mpr ⟨hpl, h.nodup⟩, fun q => ?_,
    (Finset.erase_subset _ _).trans h.subset⟩⟩
  · dsimp only
    rw [update_self]
    exact (h.memset hp).linked.congr fun q hq => update_of_ne (show q ≠ p from fun he => hpl (he ▸ hq)) ..
  · rw [List.mem_cons, h.mem_iff, Finset.mem_erase, not_and_or, not_not]
    by_cases hq : q = p
    · simp [hq, hpage]
    · simp [hq]

theorem kalloc : (kalloc s).2 = l.headD 0 ∧ Free K (kalloc s).1 (if (kalloc s).2 = 0 then out else insert (kalloc s).2 out) l.tail := by
  cases l with
  | nil =>
    have hnil : s.freelist = 0 := h.linked
    rw [Kalloc.kalloc, if_pos hnil, if_pos rfl]
    exact ⟨rfl, h⟩
  | cons p l =>
    obtain ⟨rfl, hne, hl⟩ := h.linked
    obtain ⟨hpl, hnodup⟩ := List.nodup_cons.mp h.nodup
    have hpage := ((h.mem_iff s.freelist).mp List.mem_cons_self).1
    rw [Kalloc.kalloc, if_neg hne, if_neg hne]
    have hpop : Free K { s with freelist := s.mem s.freelist } (insert s.freelist out) l := by
      refine ⟨hl, hnodup, fun q => ?_, Finset.insert_subset hpage h.subset⟩
      have hq := h.mem_iff q
      rw [List.mem_cons] at hq
      rw [Finset.mem_insert, not_or, and_left_comm, ← hq]
      constructor
      · intro hql
        exact ⟨fun he => hpl (he ▸ hql), .inr hql⟩
      · rintro ⟨hne, hql⟩
        exact hql.resolve_left hne
    exact ⟨rfl, hpop.memset (Finset.mem_insert_self ..)⟩

end

theorem erase_filter (hmod : p % PGSIZE = 0) : ((pages K).filter (p ≤ ·)).erase p = (pages K).filter (p + PGSIZE ≤ ·) := by
  have hP : PGSIZE = 4096 := rfl
  ext q
  rw [Finset.mem_erase, Finset.mem_filter, Finset.mem_filter, and_left_comm]
  refine and_congr_right fun hq => ?_
  have := (mem_pages.mp hq).2.1
  rw [hP] at this hmod ⊢
  omega

theorem filter_eq_empty (hmod : p % PGSIZE = 0) (hle : ¬p + PGSIZE ≤ PHYSTOP) : (pages K).filter (p ≤ ·) = ∅ := by
  have hP : PGSIZE = 4096 := rfl
  have hT := phystop_eq
  refine Finset.filter_eq_empty_iff.mpr fun q hq hle' => ?_
  obtain ⟨hlt, hqmod, -⟩ := mem_pages.mp hq
  rw [hP] at hqmod hmod hle
  omega

theorem freerange (h : Free K s ((pages K).filter (p ≤ ·)) l) (hmod : p % PGSIZE = 0) (hp : K.kend ≤ p) :
    ∃ s' l', freerangeLoop K p s = some s' ∧ Free K s' ∅ l' := by
  have hpos : 0 < PGSIZE := by decide
  induction hn : PHYSTOP - p using Nat.strong_induction_on generalizing p s l with
  | h n ih =>
    rw [freerangeLoop]
    by_cases hle : p + PGSIZE ≤ PHYSTOP
    · have hmem : p ∈ (pages K).filter (p ≤ ·) := Finset.mem_filter.mpr ⟨mem_pages.mpr ⟨by omega, hmod, hp⟩, le_rfl⟩
      obtain ⟨s', hs', h'⟩ := h.kfree hmem
      rw [erase_filter hmod] at h'
      rw [if_pos hle, hs', Option.bind_eq_bind, Option.bind_some]
      exact ih (PHYSTOP - (p + PGSIZE)) (by omega) h' (by rw [Nat.add_mod_right, hmod]) (by omega) rfl
    · rw [filter_eq_empty hmod hle] at h
      rw [if_neg hle]
      exact ⟨s, l, rfl, h⟩

end Free

theorem kinit_free (K : Kernel) (mem : ℕ → ℕ) : ∃ s l, kinit K mem = some s ∧ Free K s ∅ l := by
  have hP : PGSIZE = 4096 := rfl
  have hall : (pages K).filter ((K.kend + PGSIZE - 1) / PGSIZE * PGSIZE ≤ ·) = pages K := by
    refine Finset.filter_true_of_mem fun q hq => ?_
    obtain ⟨-, hqmod, hle⟩ := mem_pages.mp hq
    rw [hP] at hqmod ⊢
    omega
  refine @Free.freerange K { mem, freelist := 0 } [] ((K.kend + PGSIZE - 1) / PGSIZE * PGSIZE) ?_ (Nat.mul_mod_left ..) (by rw [hP]; omega)
  rw [hall]
  exact ⟨rfl, List.nodup_nil, by simp, subset_rfl⟩

theorem Run.free (h : Run K s out) : ∃ l, Free K s out l := by
  induction h with
  | @kinit mem s hs =>
    obtain ⟨s', l, hs', hl⟩ := kinit_free K mem
    obtain rfl := Option.some.inj (hs.symm.trans hs')
    exact ⟨l, hl⟩
  | kalloc _ ih =>
    obtain ⟨l, hl⟩ := ih
    exact ⟨_, hl.kalloc.2⟩
  | kfree _ hp hs ih =>
    obtain ⟨l, hl⟩ := ih
    obtain ⟨s', hs', hl'⟩ := hl.kfree hp
    obtain rfl := Option.some.inj (hs.symm.trans hs')
    exact ⟨_, hl'⟩
  | write _ hmem ih =>
    obtain ⟨l, hl⟩ := ih
    exact ⟨l, hl.write hmem⟩

theorem card_pages_le (K : Kernel) : (pages K).card ≤ 32768 := by
  have hsub : pages K ⊆ (Finset.range 32768).image fun i => KERNBASE + i * PGSIZE := by
    intro p hp
    obtain ⟨hlt, hmod, hle⟩ := mem_pages.mp hp
    have := K.above
    have hP : PGSIZE = 4096 := rfl
    have hK : KERNBASE = 0x80000000 := rfl
    have hT := phystop_eq
    rw [hP] at hmod
    refine Finset.mem_image.mpr ⟨(p - KERNBASE) / PGSIZE, Finset.mem_range.mpr ?_, ?_⟩
    · rw [hP]
      omega
    · rw [hP]
      omega
  exact (Finset.card_le_card hsub).trans (Finset.card_image_le.trans (Finset.card_range _).le)

/-- **The accounts of the free memory are right**: `kinit` and the frees do not panic, the list has each page that is not out once and no
other, `kalloc` fails only if all pages are out, and `kfreemem` ends and returns the bytes that are free. -/
theorem kfreemem_exact (K : Kernel) : (∀ mem, (kinit K mem).isSome) ∧ ∀ s out, Run K s out → (∀ pa ∈ out, (kfree K pa s).isSome) ∧
    (∃ l, Linked s.mem s.freelist l ∧ l.Nodup ∧ ∀ p, p ∈ l ↔ p ∈ pages K ∧ p ∉ out) ∧ out ⊆ pages K ∧ ((kalloc s).2 = 0 ↔ out = pages K) ∧
    (∀ fuel > (pages K).card, kfreemem fuel s = some (PGSIZE * ((pages K).card - out.card) : ℕ)) ∧ PGSIZE * ((pages K).card - out.card) < 2 ^ 31 := by
  refine ⟨fun mem => ?_, fun s out hrun => ?_⟩
  · obtain ⟨s, l, hs, -⟩ := kinit_free K mem
    rw [hs]
    rfl
  obtain ⟨l, hl⟩ := hrun.free
  have hlen := hl.length_eq
  have hcard := card_pages_le K
  have hP : PGSIZE = 4096 := rfl
  refine ⟨fun pa hpa => ?_, ⟨l, hl.linked, hl.nodup, hl.mem_iff⟩, hl.subset, ?_, fun fuel hfuel => ?_, by rw [hP]; omega⟩
  · obtain ⟨s', hs', -⟩ := hl.kfree hpa
    rw [hs']
    rfl
  · have hzero : (kalloc s).2 = 0 ↔ l = [] := by
      rw [kalloc]
      cases l with
      | nil => simp [show s.freelist = 0 from hl.linked]
      | cons p l => simp [show s.freelist ≠ 0 from fun h0 => hl.linked.2.1 (hl.linked.1.symm.trans h0)]
    rw [hzero, ← List.length_eq_zero_iff, hlen, Nat.sub_eq_zero_iff_le]
    constructor
    · intro hle
      exact Finset.eq_of_subset_of_card_le hl.subset hle
    · rintro rfl
      exact le_rfl
  · rw [kfreemem, countLoop_eq hl.linked (by omega), Option.map_some, Nat.zero_add, hlen, Nat.mul_comm]
    refine congrArg some (Int.bmod_eq_of_le ?_ ?_)
    all_goals
      rw [hP]
      omega

end Xv6.Kalloc
