import Xv6.Vm.Load

/-!
# The arguments on the stack

The strings are pushed one below the other, each rounded up to 16 bytes, and the pointers to them below the last. Everything
is written to the one page of the stack, and `exec` fails exactly if this page is too small.
-/

namespace Xv6.Paging

open Lib Function

def ceil16 (x : ℕ) : ℕ := (x + 15) / 16 * 16

def stringBytes (argv : List (List UInt8)) : ℕ := (argv.map fun a => ceil16 (a.length + 1)).sum

def argBytes (argv : List (List UInt8)) : ℕ := stringBytes argv + ceil16 ((argv.length + 1) * 8)

/-- **The strings are in the page that begins at `base`**, at the pointers `ptrs`: between `low` and `top`, and each below the
one before. -/
def Strings (base : ℕ) (page : Page) (low : ℕ) : ℕ → List (List UInt8) → List ℕ → Prop
  | top, [], [] => low ≤ top
  | top, arg :: argv, p :: ptrs => base ≤ p ∧ p + (arg.length + 1) ≤ top ∧
      load page (p - base) (arg.length + 1) = arg ++ [0] ∧ Strings base page low p argv ptrs
  | _, _, _ => False

variable {vm vm₀ : Vm} {sz g v pa sp base low top : ℕ} {page page' : Page} {argv : List (List UInt8)} {ptrs : List ℕ}

theorem push_eq {x : ℕ} (hsp : sp % 16 = 0) (hx : x ≤ sp) (hlt : sp < 2 ^ 64) : push sp x = sp - ceil16 x := by
  have hmod : (sp + 2 ^ 64 - x) % 2 ^ 64 = sp - x := by omega
  rw [push, hmod, ceil16]
  omega

theorem Strings.congr (h : Strings base page low top argv ptrs) (hpage : ∀ off len, low ≤ base + off → load page' off len = load page off len) :
    Strings base page' low top argv ptrs ∧ low ≤ top := by
  induction argv generalizing top ptrs with
  | nil =>
    rcases ptrs with _ | ⟨p, ptrs⟩
    · exact ⟨h, h⟩
    · exact absurd h id
  | cons arg argv ih =>
    rcases ptrs with _ | ⟨p, ptrs⟩
    · exact absurd h id
    · obtain ⟨h1, h2, h3, h4⟩ := h
      obtain ⟨h4, hlow⟩ := ih h4
      exact ⟨⟨h1, h2, (hpage _ _ (by omega)).trans h3, h4⟩, by omega⟩

structure Stack (vm₀ : Vm) (g v pa : ℕ) (vm : Vm) : Prop where
  loaded : Loaded (guarded g) vm₀ ((v + 1) * PGSIZE) vm
  pte : vm.pt.pte v = some ⟨pa, guarded g v⟩
  ne : v ≠ g
  pos : 1 ≤ v

theorem Stack.write (h : Stack vm₀ g v pa vm) (page : Page) : Stack vm₀ g v pa { vm with data := update vm.data pa page } :=
  ⟨h.loaded.write (by rw [pages_mul]; omega) h.pte page, h.pte, h.ne, h.pos⟩

theorem Stack.copyout (h : Stack vm₀ g v pa vm) (hb : Base vm₀) (sp : ℕ) (src : List UInt8) (hsrc : 0 < src.length)
    (hlow : v * PGSIZE ≤ sp) (hhigh : sp + src.length ≤ (v + 1) * PGSIZE) :
    copyout vm sp src = (true, { vm with data := update vm.data pa (store (vm.data pa) (sp - v * PGSIZE) src) }) := by
  have hP : PGSIZE = 4096 := rfl
  have hva : sp / PGSIZE * PGSIZE = v * PGSIZE := by
    rw [hP] at hlow hhigh ⊢
    omega
  have hwalk : walkaddr vm (v * PGSIZE) = some pa := by
    refine h.loaded.walkaddr hb ?_ ?_ ?_
    · exact Nat.mul_lt_mul_of_pos_right (Nat.lt_succ_self v) (by decide)
    · rw [mul_div_pgsize]
      exact h.pte
    · rw [mul_div_pgsize, guarded, update_of_ne h.ne]
      rfl
  have hmin : min (PGSIZE - (sp - v * PGSIZE)) src.length = src.length := by
    rw [hP] at hlow hhigh ⊢
    omega
  obtain ⟨n, hn⟩ := Nat.exists_eq_succ_of_ne_zero hsrc.ne'
  rw [Paging.copyout, copyoutLoop, if_pos hsrc]
  dsimp only
  rw [hva, hwalk]
  dsimp only
  rw [hmin, List.take_length, List.drop_length]
  rw [hn, Nat.succ_eq_add_one, copyoutLoop, if_neg (by simp)]

theorem Stack.pushArgs (h : Stack vm₀ g v pa vm) (hb : Base vm₀) (sp : ℕ) (ustack : List ℕ) (hsp : sp % 16 = 0)
    (hlow : v * PGSIZE ≤ sp) (hhigh : sp ≤ (v + 1) * PGSIZE) (hlen : ∀ a ∈ argv, a.length < PGSIZE) (hmax : ustack.length + argv.length ≤ MAXARG) :
    (stringBytes argv ≤ sp - v * PGSIZE → ∃ ptrs page, pushArgs (v * PGSIZE) argv sp ustack vm =
      (some (sp - stringBytes argv, ustack ++ ptrs), { vm with data := update vm.data pa page }) ∧
        ptrs.length = argv.length ∧ Strings (v * PGSIZE) page (sp - stringBytes argv) sp argv ptrs ∧
          ∀ off len, sp ≤ v * PGSIZE + off → load page off len = load (vm.data pa) off len) ∧
    (sp - v * PGSIZE < stringBytes argv → ∃ page, pushArgs (v * PGSIZE) argv sp ustack vm = (none, { vm with data := update vm.data pa page })) := by
  have hP : PGSIZE = 4096 := rfl
  have hsz : sp < 2 ^ 64 := by
    have := h.loaded.sz_le hb
    have hS : PHYSTOP * PGSIZE = 0x88000 * 4096 := rfl
    omega
  have hbase : 1 * PGSIZE ≤ v * PGSIZE := Nat.mul_le_mul_right _ h.pos
  -- on the arguments; what is at `sp` or above is not touched any more
  induction argv generalizing sp ustack vm with
  | nil =>
    refine ⟨fun _ => ⟨[], vm.data pa, ?_, rfl, le_rfl, fun _ _ _ => rfl⟩, fun hlt => absurd hlt (Nat.not_lt_zero _)⟩
    rw [Paging.pushArgs, update_eq_self, List.append_nil]
    rfl
  | cons arg argv ih =>
    have harg := hlen arg List.mem_cons_self
    rw [List.length_cons] at hmax
    have hstr : stringBytes (arg :: argv) = ceil16 (arg.length + 1) + stringBytes argv := rfl
    have hpush := push_eq hsp (show arg.length + 1 ≤ sp by omega) hsz
    have hceil : arg.length + 1 ≤ ceil16 (arg.length + 1) ∧ ceil16 (arg.length + 1) % 16 = 0 := by
      rw [ceil16]
      omega
    rw [Paging.pushArgs, if_neg (by omega), hpush, hstr]
    generalize ceil16 (arg.length + 1) = c at hceil ⊢
    have hsucc : (v + 1) * PGSIZE = v * PGSIZE + PGSIZE := Nat.succ_mul ..
    have hsrc : (arg ++ [0]).length = arg.length + 1 := by simp
    dsimp only
    -- the string either ends the loop, or is written below everything that is there
    by_cases hfit : sp - c < v * PGSIZE
    · rw [if_pos hfit]
      refine ⟨fun hle => absurd hle (by omega), fun _ => ⟨vm.data pa, ?_⟩⟩
      rw [update_eq_self]
    rw [if_neg hfit]
    obtain ⟨page₁, hpage₁⟩ : ∃ page₁, page₁ = store (vm.data pa) (sp - c - v * PGSIZE) (arg ++ [0]) := ⟨_, rfl⟩
    have hcopy := h.copyout hb (sp - c) (arg ++ [0]) (by omega) (by omega) (by omega)
    rw [← hpage₁] at hcopy
    rw [hcopy]
    simp only [if_true]
    have hnext := ih (h.write page₁) (sp - c) (ustack ++ [sp - c]) (by omega) (by omega) (by omega)
      (fun a ha => hlen a (List.mem_cons_of_mem _ ha)) (by rw [List.length_append, List.length_singleton]; omega)
      (by omega)
    obtain ⟨hyes, hno⟩ := hnext
    simp only [update_idem, update_self] at hyes hno
    constructor
    · intro hle
      have hrest : stringBytes argv ≤ sp - c - v * PGSIZE := by
        clear hyes hno
        omega
      obtain ⟨ptrs, page, hrun, hptrs, hstrs, hkeep⟩ := hyes hrest
      clear hyes hno
      have hend : sp - c - stringBytes argv = sp - (c + stringBytes argv) := by omega
      rw [hend] at hrun hstrs
      refine ⟨(sp - c) :: ptrs, page, ?_, by rw [List.length_cons, List.length_cons, hptrs],
        ⟨by omega, by omega, ?_, hstrs⟩, fun off len hoff => ?_⟩
      · rw [hrun, List.append_assoc]
        rfl
      · rw [hkeep _ _ (by omega), hpage₁, ← hsrc, load_store _ _ (by omega)]
      · rw [hkeep _ _ (by omega), hpage₁, load_store_of_disjoint _ (.inr (by omega))]
    · intro hlt
      have hrest : sp - c - v * PGSIZE < stringBytes argv := by
        clear hyes hno
        omega
      exact hno hrest

/-- **The arguments are on the stack**: the pointers to them at `sp`, with a zero behind the last, and the strings
above. -/
structure ArgStack (argv : List (List UInt8)) (base sp : ℕ) (page : Page) (ptrs : List ℕ) : Prop where
  aligned : sp % 16 = 0
  low : base ≤ sp
  length : ptrs.length = argv.length
  pointers : load page (sp - base) ((argv.length + 1) * 8) = (ptrs ++ [0]).flatMap (leBytes 8)
  strings : Strings base page (sp + (argv.length + 1) * 8) (base + PGSIZE) argv ptrs

theorem length_flatMap_leBytes (xs : List ℕ) : (xs.flatMap (leBytes 8)).length = xs.length * 8 := by
  induction xs with
  | nil => rfl
  | cons x xs ih => rw [List.flatMap_cons, List.length_append, length_leBytes, ih, List.length_cons]; omega

theorem Strings.low_le {low' : ℕ} (h : Strings base page low top argv ptrs) (hlow : low' ≤ low) : Strings base page low' top argv ptrs := by
  induction argv generalizing top ptrs with
  | nil =>
    rcases ptrs with _ | ⟨p, ptrs⟩
    · exact hlow.trans h
    · exact absurd h id
  | cons arg argv ih =>
    rcases ptrs with _ | ⟨p, ptrs⟩
    · exact absurd h id
    · exact ⟨h.1, h.2.1, h.2.2.1, ih h.2.2.2⟩

theorem stringBytes_mod (argv : List (List UInt8)) : stringBytes argv % 16 = 0 := by
  induction argv with
  | nil => rfl
  | cons arg argv ih =>
    have hstr : stringBytes (arg :: argv) = ceil16 (arg.length + 1) + stringBytes argv := rfl
    rw [hstr, ceil16]
    omega

theorem Stack.pushAll (h : Stack vm₀ g v pa vm) (hb : Base vm₀) (hlen : ∀ a ∈ argv, a.length < PGSIZE) (hmax : argv.length ≤ MAXARG) :
    (argBytes argv ≤ PGSIZE → ∃ sp ptrs page, pushAll vm ((v + 1) * PGSIZE) argv =
      (some sp, { vm with data := update vm.data pa page }) ∧ ArgStack argv (v * PGSIZE) sp page ptrs) ∧
    (PGSIZE < argBytes argv → ∃ page, pushAll vm ((v + 1) * PGSIZE) argv = (none, { vm with data := update vm.data pa page })) := by
  have hP : PGSIZE = 4096 := rfl
  have hsucc : (v + 1) * PGSIZE = v * PGSIZE + PGSIZE := Nat.succ_mul ..
  have hbase : (v + 1) * PGSIZE - PGSIZE = v * PGSIZE := by omega
  have hmod : (v + 1) * PGSIZE % 16 = 0 := by
    rw [hP]
    omega
  have hpos : PGSIZE ≤ v * PGSIZE := by
    have : 1 * PGSIZE ≤ v * PGSIZE := Nat.mul_le_mul_right _ h.pos
    omega
  have hsz : (v + 1) * PGSIZE < 2 ^ 64 := by
    have := h.loaded.sz_le hb
    have hS : PHYSTOP * PGSIZE = 0x88000 * 4096 := rfl
    omega
  obtain ⟨hyes, hno⟩ := h.pushArgs hb ((v + 1) * PGSIZE) [] hmod (by omega) le_rfl hlen (by rw [List.length_nil]; omega)
  have hargs : argBytes argv = stringBytes argv + ceil16 ((argv.length + 1) * 8) := rfl
  have hM : MAXARG = 32 := rfl
  have hstr := stringBytes_mod argv
  rw [Paging.pushAll, hbase]
  by_cases hfit : stringBytes argv ≤ PGSIZE
  · have hall : stringBytes argv ≤ (v + 1) * PGSIZE - v * PGSIZE := by
      clear hyes hno
      omega
    obtain ⟨ptrs, page, hrun, hptrs, hstrs, -⟩ := hyes hall
    clear hyes hno
    rw [hrun]
    have hsrc := length_flatMap_leBytes (([] ++ ptrs) ++ [0])
    rw [List.nil_append, List.length_append, List.length_singleton, hptrs] at hsrc
    have hpush := push_eq (x := (argv.length + 1) * 8) (show ((v + 1) * PGSIZE - stringBytes argv) % 16 = 0 by omega) (by omega) (by omega)
    simp only [List.nil_append, hptrs, hpush]
    have hceil : (argv.length + 1) * 8 ≤ ceil16 ((argv.length + 1) * 8) ∧ ceil16 ((argv.length + 1) * 8) % 16 = 0 := by
      rw [ceil16]
      omega
    generalize ceil16 ((argv.length + 1) * 8) = c at hceil hargs ⊢
    -- the pointers come below the strings
    by_cases hroom : (v + 1) * PGSIZE - stringBytes argv - c < v * PGSIZE
    · rw [if_pos hroom]
      exact ⟨fun hle => absurd hle (by omega), fun _ => ⟨page, rfl⟩⟩
    rw [if_neg hroom]
    have hcopy := (h.write page).copyout hb ((v + 1) * PGSIZE - stringBytes argv - c)
      ((ptrs ++ [0]).flatMap (leBytes 8)) (by omega) (by omega) (by omega)
    simp only [update_idem, update_self] at hcopy
    rw [hcopy]
    refine ⟨fun _ => ⟨_, ptrs, _, rfl, by omega, by omega, hptrs, ?_, ?_⟩, fun hlt => absurd hlt (by omega)⟩
    · rw [← hsrc, load_store _ _ (by omega)]
    · rw [← hsucc]
      refine Strings.low_le (Strings.congr hstrs fun off len hoff => ?_).1 (by omega)
      rw [load_store_of_disjoint _ (.inr (by omega))]
  · have hall : (v + 1) * PGSIZE - v * PGSIZE < stringBytes argv := by
      clear hyes hno
      omega
    obtain ⟨page, hrun⟩ := hno hall
    clear hyes hno
    rw [hrun]
    exact ⟨fun hle => absurd hle (by omega), fun _ => ⟨page, rfl⟩⟩

theorem Loaded.makeStack_args (h : Loaded (fun _ => userPerm) vm₀ sz vm) (hb : Base vm₀) (argv : List (List UInt8)) :
    (∃ sz' vm', Paging.makeStack vm sz argv = .ok (none, sz', vm')) ∨ ∃ vm₂ pa, Stack vm₀ (pages sz) (pages sz + 1) pa vm₂ ∧
        Paging.makeStack vm sz argv = .ok ((Paging.pushAll vm₂ ((pages sz + 1 + 1) * PGSIZE) argv).1, (pages sz + 1 + 1) * PGSIZE,
          (Paging.pushAll vm₂ ((pages sz + 1 + 1) * PGSIZE) argv).2) := by
  rcases h.makeStack_eq hb argv with ⟨vm₁, hrun, -⟩ | ⟨vm₂, h₂, hrun⟩
  · exact .inl ⟨_, vm₁, hrun⟩
  · obtain ⟨pa, hpa⟩ := h₂.new (pages sz + 1) (by
      rw [pages_mul]
      omega)
    exact .inr ⟨vm₂, pa, ⟨h₂, hpa, Nat.succ_ne_self _, Nat.le_add_left 1 _⟩, hrun⟩

/-- **The arguments of `exec`.** Where it succeeds it returns their number, and `a1` points to the array of pointers in the last page of
the process, which is above a page the user cannot access. It fails if they do not fit into the page. -/
theorem exec_args {t : Task} (h : Executing t) (file name : List UInt8) (hmax : argv.length < MAXARG) (hlen : ∀ a ∈ argv, a.length < PGSIZE) :
    (∃ r t', exec t file name argv = .ok (r, t') ∧ (r ≠ -1 → r = argv.length ∧ ∃ v pa q sp ptrs, t'.sz = (v + 2) * PGSIZE ∧
        t'.pagetable.pte (v + 1) = some ⟨pa, userPerm⟩ ∧ t'.pagetable.pte v = some ⟨q, { userPerm with u := false }⟩ ∧
          load (t'.data t.trapframe) 120 8 = leBytes 8 sp ∧ ArgStack argv ((v + 1) * PGSIZE) sp (t'.data pa) ptrs) ∧
      (PGSIZE < argBytes argv → r = -1 ∧ Kept t t')) ∧ ∀ vm₀ g v pa vm, Base vm₀ → Stack vm₀ g v pa vm →
      ∃ page, (pushAll vm ((v + 1) * PGSIZE) argv).2 = { vm with data := update vm.data pa page } := by
  constructor
  · obtain ⟨r, t', hrun, hcase⟩ := exec_cases h file name argv
    refine ⟨r, t', hrun, ?_⟩
    rcases hcase with ⟨hr, hkept⟩ | ⟨hr, vm₀, sz, vm₁, sp, sz', vm₂, perm, hb, h₁, hstack, h₂, hc⟩
    · exact ⟨fun hne => absurd hr hne, fun _ => ⟨hr, hkept⟩⟩
    rcases h₁.makeStack_args hb.base argv with ⟨sz'', vm', hnone⟩ | ⟨vm₃, pa, hs, hmake⟩
    · exact absurd (hstack.symm.trans hnone) (by simp)
    obtain ⟨hyes, hno⟩ := hs.pushAll hb.base hlen hmax.le
    have heq := hstack.symm.trans hmake
    by_cases hfit : argBytes argv ≤ PGSIZE
    · obtain ⟨sp', ptrs, page, hpush, hargs⟩ := hyes hfit
      rw [hpush] at heq
      simp only [Except.ok.injEq, Prod.mk.injEq, Option.some.injEq] at heq
      obtain ⟨rfl, rfl, rfl⟩ := heq
      have hq := hs.loaded.new (pages sz) (by rw [pages_mul]; omega)
      obtain ⟨q, hq⟩ := hq
      have hmem : pa ∈ frames vm₃.pt 0 (pages ((pages sz + 1 + 1) * PGSIZE)) :=
        mem_frames (Nat.zero_le _) (by rw [pages_mul]; omega) hs.pte
      have hguard : guarded (pages sz) (pages sz) = { userPerm with u := false } := update_self ..
      have huser : guarded (pages sz) (pages sz + 1) = userPerm := update_of_ne hs.ne ..
      refine ⟨fun _ => ⟨hr, pages sz, pa, q, sp, ptrs, hc.size, ?_, ?_, hc.a1, ?_⟩, fun hlt => absurd hlt (by omega)⟩
      · rw [hc.pagetable, ← huser]
        exact hs.pte
      · rw [hc.pagetable, ← hguard]
        exact hq
      · have hdata : t'.data pa = page := (hc.data pa hmem).trans (update_self ..)
        rw [hdata]
        exact hargs
    · obtain ⟨page, hpush⟩ := hno (by omega)
      rw [hpush] at heq
      cases heq
  · intro vm₀ g v pa vm hb hs
    obtain ⟨hyes, hno⟩ := hs.pushAll hb hlen hmax.le
    rcases Nat.lt_or_ge PGSIZE (argBytes argv) with hlt | hge
    · obtain ⟨page, hpush⟩ := hno hlt
      exact ⟨page, by rw [hpush]⟩
    · obtain ⟨sp, ptrs, page, hpush, -⟩ := hyes hge
      exact ⟨page, by rw [hpush]⟩

/-- Two arguments for a file with one segment; and an argument that leaves no place for the pointers. -/
theorem exec_args_caller :
    (∃ t' v pa q sp ptrs, exec caller (elfFile [(100, 5000)]) [] [[97], [98, 99]] = .ok (2, t') ∧
      t'.sz = (v + 2) * PGSIZE ∧ t'.pagetable.pte (v + 1) = some ⟨pa, userPerm⟩ ∧
      t'.pagetable.pte v = some ⟨q, { userPerm with u := false }⟩ ∧ load (t'.data 0x80108) 120 8 = leBytes 8 sp ∧
      ArgStack [[97], [98, 99]] ((v + 1) * PGSIZE) sp (t'.data pa) ptrs) ∧
    (∃ t', exec caller (elfFile [(100, 5000)]) [] [List.replicate 4095 97] = .ok (-1, t') ∧ Kept caller t') ∧
    ∃ vm₀ g v pa vm page, Base vm₀ ∧ Stack vm₀ g v pa vm ∧
      (pushAll vm ((v + 1) * PGSIZE) [[97], [98, 99]]).2 = { vm with data := update vm.data pa page } := by
  have heval : (exec caller (elfFile [(100, 5000)]) [] [[97], [98, 99]]).map Prod.fst = .ok 2 := by
    decide +kernel
  obtain ⟨⟨r, t', hrun, hargs, -⟩, hpush⟩ := exec_args caller_executing (elfFile [(100, 5000)]) []
    (show [[97], [98, 99]].length < MAXARG by decide) (by decide)
  obtain ⟨⟨r₁, t₁, hrun₁, -, hbig⟩, -⟩ := exec_args caller_executing (elfFile [(100, 5000)]) []
    (show [List.replicate 4095 97].length < MAXARG by decide) (by decide +kernel)
  have hcases := exec_cases caller_executing (elfFile [(100, 5000)]) [] [[97], [98, 99]]
  rw [hrun] at heval
  obtain rfl : r = 2 := Except.ok.inj heval
  refine ⟨?_, ?_, ?_⟩
  · obtain ⟨-, v, pa, q, sp, ptrs, hrest⟩ := hargs (by decide)
    exact ⟨t', v, pa, q, sp, ptrs, hrun, hrest⟩
  · obtain ⟨rfl, hkept⟩ := hbig (by decide +kernel)
    exact ⟨t₁, hrun₁, hkept⟩
  · obtain ⟨r', t'', hrun', ⟨hr, -⟩ | ⟨-, vm₀, sz, vm₁, sp, sz', vm₂, perm, hb, h₁, hstack, -⟩⟩ := hcases
    · rw [hrun, hr] at hrun'
      exact absurd (Prod.mk.inj (Except.ok.inj hrun')).1 (by decide)
    · obtain ⟨sz'', vm', hnone⟩ | ⟨vm₃, pa, hs, -⟩ := h₁.makeStack_args hb.base [[97], [98, 99]]
      · exact absurd (hstack.symm.trans hnone) (by simp)
      · obtain ⟨page, hpage⟩ := hpush _ _ _ _ _ hb.base hs
        exact ⟨vm₀, _, _, pa, vm₃, page, hb.base, hs, hpage⟩

end Xv6.Paging
