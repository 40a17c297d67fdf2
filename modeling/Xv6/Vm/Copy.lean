import Xv6.Vm.Exec
import Mathlib.Algebra.Ring.Nat

/-!
# Copying from and to user memory

`copyout` and `copyin` go through the pages of a range and move what lies in each at once, while pipes and the console call
them for one byte at a time. Both ways come to the same: a range is copied up to the first byte whose page the user cannot
access. `copyinstr` stops at the first zero byte as well. The number of a page of memory is never 0, so that `walkaddr` has
a value for a page that is not there.
-/

namespace Xv6.Paging

open Lib Function

open List (cons_append length_cons length_singleton)

/-! ### The functions -/

/-- The loop of `copyin`: the bytes that were copied, and whether the pages were there. -/
def copyinLoop : ℕ → Vm → ℕ → ℕ → List UInt8 × Bool
  | 0, _, _, _ => ([], true)
  | fuel + 1, vm, srcva, len =>
    if len > 0 then
      let va0 := srcva / PGSIZE * PGSIZE
      match walkaddr vm va0 with
      | none => ([], false)
      | some pa =>
        let n := min (PGSIZE - (srcva - va0)) len
        let (bytes, ok) := copyinLoop fuel vm ((va0 + PGSIZE) % 2 ^ 64) (len - n)
        (load (vm.data pa) (srcva - va0) n ++ bytes, ok)
    else ([], true)

def copyin (vm : Vm) (srcva len : ℕ) : List UInt8 × Bool := copyinLoop (len + 1) vm srcva len

/-- The inner loop of `copyinstr`, over the bytes of a page: what is written, and whether a zero was found. -/
def strBytes : List UInt8 → List UInt8 × Bool
  | [] => ([], false)
  | b :: bs => if b = 0 then ([0], true) else
      let (bytes, found) := strBytes bs
      (b :: bytes, found)

/-- The loop of `copyinstr`: what is written to the destination, from its first byte on, and `got_null`. A page that
is not there ends it like the lack of a zero. -/
def copyinstrLoop : ℕ → Vm → ℕ → ℕ → List UInt8 × Bool
  | 0, _, _, _ => ([], false)
  | fuel + 1, vm, srcva, max =>
    if max > 0 then
      let va0 := srcva / PGSIZE * PGSIZE
      match walkaddr vm va0 with
      | none => ([], false)
      | some pa =>
        let n := min (PGSIZE - (srcva - va0)) max
        let (bytes, found) := strBytes (load (vm.data pa) (srcva - va0) n)
        if found then (bytes, true)
        else
          let (rest, found) := copyinstrLoop fuel vm ((va0 + PGSIZE) % 2 ^ 64) (max - n)
          (bytes ++ rest, found)
    else ([], false)

/-- `copyinstr`, which returns 0 if a zero was found and -1 otherwise. -/
def copyinstr (vm : Vm) (srcva max : ℕ) : List UInt8 × Bool := copyinstrLoop (max + 1) vm srcva max

/-! ### One byte at a time -/

/-- Successive calls of `copyout` for one byte each, up to the first that fails. -/
def copyoutBytes : Vm → ℕ → List UInt8 → Bool × Vm
  | vm, _, [] => (true, vm)
  | vm, va, b :: bs =>
    let (ok, vm) := copyout vm va [b]
    if ok then copyoutBytes vm ((va + 1) % 2 ^ 64) bs else (false, vm)

/-- Successive calls of `copyin` for one byte each, up to the first that fails. -/
def copyinBytes (vm : Vm) : ℕ → ℕ → List UInt8 × Bool
  | _, 0 => ([], true)
  | va, len + 1 =>
    let (b, ok) := copyin vm va 1
    if ok then
      let (bytes, ok) := copyinBytes vm ((va + 1) % 2 ^ 64) len
      (b ++ bytes, ok)
    else (b, false)

/-! ### The page of an address -/

def userPage (vm : Vm) (va : ℕ) : Option ℕ := walkaddr vm (va / PGSIZE * PGSIZE)

/-- **The user may access the address.** -/
def UserAt (vm : Vm) (va : ℕ) : Prop := va < MAXVA ∧ ∃ e, vm.pt.pte (va / PGSIZE) = some e ∧ e.perm.u = true

def Distinct (vm : Vm) : Prop := ∀ v w e e', vm.pt.pte v = some e → vm.pt.pte w = some e' →
  e.perm.u = true → e'.perm.u = true → e.pa = e'.pa → v = w

def userByte (vm : Vm) (va : ℕ) : Option UInt8 := (userPage vm va).map fun pa => byteAt (vm.data pa) (va % PGSIZE)

def poke (vm : Vm) (pa off : ℕ) (bs : List UInt8) : Vm :=
  { vm with data := update vm.data pa (store (vm.data pa) off bs) }

variable {vm vm' : Vm} {va pa n len i : ℕ} {b : UInt8} {bs xs ys : List UInt8}

theorem walkaddr_congr (h : vm'.pt = vm.pt) : walkaddr vm' va = walkaddr vm va := by
  rw [walkaddr, walkaddr, walk_false, walk_false, h]
  split
  · rfl
  · cases (vm.pt.dir1 (va / PGSIZE / 512 / 512)).isSome && (vm.pt.dir0 (va / PGSIZE / 512)).isSome <;> rfl

theorem userPage_congr (h : vm'.pt = vm.pt) : userPage vm' va = userPage vm va := walkaddr_congr h

variable {off fuel : ℕ}

@[simp] theorem userPage_poke : userPage (poke vm pa off bs) va = userPage vm va := userPage_congr rfl

theorem poke_data_self : (poke vm pa off bs).data pa = store (vm.data pa) off bs := update_self ..

theorem poke_data_of_ne {q : ℕ} (h : q ≠ pa) : (poke vm pa off bs).data q = vm.data q := update_of_ne h ..

theorem mod_pgsize (va : ℕ) : va - va / PGSIZE * PGSIZE = va % PGSIZE := by
  have := Nat.div_add_mod va PGSIZE
  rw [Nat.mul_comm] at this
  omega

theorem userPage_eq_some (h : Tree vm.pt) :
    userPage vm va = some pa ↔ va < MAXVA ∧ ∃ e, vm.pt.pte (va / PGSIZE) = some e ∧ e.perm.u = true ∧ e.pa = pa := by
  have hM : MAXVA = 2 ^ 38 := rfl
  have hP : PGSIZE = 4096 := rfl
  have hpage : va / PGSIZE * PGSIZE / PGSIZE = va / PGSIZE := mul_div_pgsize _
  have hlt : va / PGSIZE * PGSIZE < MAXVA ↔ va < MAXVA := by
    rw [hM, hP]
    omega
  rw [userPage, walkaddr]
  by_cases hva : va < MAXVA
  · rw [if_neg (by omega)]
    cases he : vm.pt.pte (va / PGSIZE) with
    | none =>
      refine ⟨fun hw => ?_, fun hw => ?_⟩
      · split at hw
        · rw [hpage, he] at hw
          cases hw
        · cases hw
      · obtain ⟨-, e, he', -⟩ := hw
        cases he'
    | some e =>
      rw [walk_found h (hlt.mpr hva) ((congrArg _ hpage).trans he), hpage, he]
      simp [hva]
  · rw [if_pos (by omega)]
    simp [hva]

theorem userAt_iff (h : Tree vm.pt) : UserAt vm va ↔ (userPage vm va).isSome := by
  rw [Option.isSome_iff_exists]
  constructor
  · rintro ⟨hva, e, he, hu⟩
    exact ⟨e.pa, (userPage_eq_some h).mpr ⟨hva, e, he, hu, rfl⟩⟩
  · rintro ⟨pa, hpa⟩
    obtain ⟨hva, e, he, hu, -⟩ := (userPage_eq_some h).mp hpa
    exact ⟨hva, e, he, hu⟩

theorem lt_of_userPage (h : userPage vm va = some pa) : va < MAXVA := by
  have hM : MAXVA = 2 ^ 38 := rfl
  have hP : PGSIZE = 4096 := rfl
  rw [userPage, walkaddr] at h
  split at h
  · cases h
  · next hlt =>
    rw [hM, hP] at hlt
    rw [hM]
    omega

theorem succ_mod_of_userPage (h : userPage vm va = some pa) : (va + 1) % 2 ^ 64 = va + 1 := by
  have hM : MAXVA = 2 ^ 38 := rfl
  have hva := lt_of_userPage h
  exact Nat.mod_eq_of_lt (by omega)

theorem userPage_of_lt (vm : Vm) (hi : va % PGSIZE + i < PGSIZE) : userPage vm (va + i) = userPage vm va ∧ (va + i) % PGSIZE = va % PGSIZE + i := by
  have hP : PGSIZE = 4096 := rfl
  have hdiv : (va + i) / PGSIZE = va / PGSIZE := by
    rw [hP] at hi ⊢
    omega
  refine ⟨by rw [userPage, userPage, hdiv], ?_⟩
  rw [hP] at hi ⊢
  omega

/-! ### `copyout` -/

theorem store_append {m : ℕ} (p : Bytes m) (off : ℕ) (xs ys : List UInt8) : store (store p off xs) (off + xs.length) ys = store p off (xs ++ ys) := by
  funext k
  simp only [store, List.length_append, List.getD_eq_getElem?_getD, List.getElem?_append]
  by_cases h1 : off + xs.length ≤ (k : ℕ) ∧ (k : ℕ) < off + xs.length + ys.length
  · rw [if_pos h1, if_pos (by omega), if_neg (by omega), Nat.sub_add_eq]
  · rw [if_neg h1]
    by_cases h2 : off ≤ (k : ℕ) ∧ (k : ℕ) < off + xs.length
    · rw [if_pos h2, if_pos (by omega), if_pos (by omega)]
    · rw [if_neg h2, if_neg (by omega)]

theorem poke_poke (vm : Vm) (pa off : ℕ) (xs ys : List UInt8) : poke (poke vm pa off xs) pa (off + xs.length) ys = poke vm pa off (xs ++ ys) := by
  simp only [poke, update_idem, update_self, store_append]

@[simp] theorem poke_nil (off : ℕ) : poke vm pa off [] = vm := by
  have hstore : store (vm.data pa) off [] = vm.data pa := by
    funext k
    exact if_neg (by simp only [List.length_nil]; omega)
  rw [poke, hstore, update_eq_self]

theorem copyout_byte (vm : Vm) (va : ℕ) (b : UInt8) :
    copyout vm va [b] = (userPage vm va).elim (false, vm) fun pa => (true, poke vm pa (va % PGSIZE) [b]) := by
  have hP : va % PGSIZE < PGSIZE := Nat.mod_lt _ (by decide)
  rw [copyout, length_singleton, copyoutLoop, if_pos (by simp)]
  dsimp only
  rw [userPage, mod_pgsize, length_singleton, Nat.min_eq_right (by omega)]
  cases walkaddr vm (va / PGSIZE * PGSIZE) with
  | none | some pa => rfl

theorem copyoutBytes_page (ys : List UInt8) (hpa : userPage vm va = some pa) (hxs : va % PGSIZE + xs.length ≤ PGSIZE) :
    copyoutBytes vm va (xs ++ ys) = copyoutBytes (poke vm pa (va % PGSIZE) xs) (va + xs.length) ys := by
  -- on the bytes, from the first on
  induction xs generalizing vm va with
  | nil => rw [List.nil_append, poke_nil, List.length_nil, Nat.add_zero]
  | cons b xs ih =>
    rw [length_cons] at hxs
    rw [cons_append, copyoutBytes, copyout_byte, hpa]
    simp only [Option.elim_some, if_true]
    rw [succ_mod_of_userPage hpa]
    rcases xs with _ | ⟨x, xs⟩
    · rfl
    rw [length_cons] at hxs
    obtain ⟨hpage, hmod⟩ := userPage_of_lt vm (show va % PGSIZE + 1 < PGSIZE by omega)
    rw [ih (by rw [userPage_poke, hpage, hpa]) (by rw [hmod, length_cons]; omega), hmod]
    have := poke_poke vm pa (va % PGSIZE) [b] (x :: xs)
    rw [length_singleton] at this
    rw [this]
    simp only [List.singleton_append, length_cons]
    congr 1
    omega

theorem copyoutLoop_eq (vm : Vm) (va : ℕ) (src : List UInt8) (hfuel : src.length < fuel) :
    copyoutLoop fuel vm va src = copyoutBytes vm va src := by
  have hM : MAXVA = 2 ^ 38 := rfl
  have hP : PGSIZE = 4096 := rfl
  induction fuel generalizing vm va src with
  | zero => exact absurd hfuel (Nat.not_lt_zero _)
  | succ fuel ih =>
    rw [copyoutLoop]
    rcases hsrc : src with _ | ⟨b, bs⟩
    · rw [if_neg (by simp)]
      rfl
    rw [← hsrc, if_pos (by simp [hsrc])]
    have hpos : 0 < src.length := by simp [hsrc]
    dsimp only
    rw [mod_pgsize, ← userPage]
    cases hpa : userPage vm va with
    | none => rw [hsrc, copyoutBytes, copyout_byte, hpa]; rfl
    | some pa =>
      have hmod := Nat.mod_lt va (show 0 < PGSIZE by decide)
      obtain ⟨n, hn⟩ : ∃ n, n = min (PGSIZE - va % PGSIZE) src.length := ⟨_, rfl⟩
      have hlen : (src.take n).length = n := by
        rw [List.length_take]
        omega
      have hpage := copyoutBytes_page (src.drop n) hpa (show va % PGSIZE + (src.take n).length ≤ PGSIZE by omega)
      rw [List.take_append_drop, hlen] at hpage
      dsimp only
      rw [← hn, hpage, ih _ _ _ (by rw [List.length_drop]; omega)]
      change copyoutBytes (poke vm pa (va % PGSIZE) (src.take n)) _ _ = _
      by_cases hend : n = src.length
      · rw [hend, List.drop_length]
        rfl
      · congr 1
        have := Nat.div_add_mod va PGSIZE
        rw [Nat.mul_comm] at this
        omega

theorem copyout_eq_bytes (vm : Vm) (va : ℕ) (src : List UInt8) : copyout vm va src = copyoutBytes vm va src :=
  copyoutLoop_eq vm va src (Nat.lt_succ_self _)

/-! ### How far a copy comes -/

def reach (vm : Vm) : ℕ → ℕ → ℕ
  | _, 0 => 0
  | va, len + 1 => if (userPage vm va).isSome then reach vm ((va + 1) % 2 ^ 64) len + 1 else 0

theorem reach_congr (h : vm'.pt = vm.pt) (va len : ℕ) : reach vm' va len = reach vm va len := by
  induction len generalizing va with
  | zero => rfl
  | succ len ih => rw [reach, reach, userPage_congr h, ih]

@[simp] theorem reach_poke : reach (poke vm pa off bs) va len = reach vm va len :=
  reach_congr (show (poke vm pa off bs).pt = vm.pt from rfl) va len

theorem reach_le (vm : Vm) (va len : ℕ) : reach vm va len ≤ len := by
  induction len generalizing va with
  | zero => exact le_rfl
  | succ len ih =>
    rw [reach]
    split
    · exact Nat.succ_le_succ (ih _)
    · exact Nat.zero_le _

theorem reach_succ (h : userPage vm va = some pa) : reach vm va (len + 1) = reach vm (va + 1) len + 1 := by
  rw [reach, h, succ_mod_of_userPage h]
  rfl

theorem reach_none (h : userPage vm va = none) : reach vm va (len + 1) = 0 := by
  rw [reach, h]
  rfl

theorem reach_user (hi : i < reach vm va len) : va + i < MAXVA ∧ ∃ pa, userPage vm (va + i) = some pa := by
  induction len generalizing va i with
  | zero => exact absurd hi (Nat.not_lt_zero _)
  | succ len ih =>
    cases hpa : userPage vm va with
    | none =>
      rw [reach_none hpa] at hi
      exact absurd hi (Nat.not_lt_zero _)
    | some pa =>
      rw [reach_succ hpa] at hi
      rcases i with _ | i
      · exact ⟨lt_of_userPage hpa, pa, hpa⟩
      · have := ih (show i < reach vm (va + 1) len by omega)
        rwa [Nat.add_assoc, Nat.add_comm 1 i] at this

theorem reach_end (hva : va < 2 ^ 64) (h : reach vm va len < len) : userPage vm ((va + reach vm va len) % 2 ^ 64) = none := by
  induction len generalizing va with
  | zero => exact absurd h (Nat.not_lt_zero _)
  | succ len ih =>
    cases hpa : userPage vm va with
    | none =>
      rw [reach_none hpa, Nat.add_zero, Nat.mod_eq_of_lt hva, hpa]
    | some pa =>
      have hM : MAXVA = 2 ^ 38 := rfl
      have hlt := lt_of_userPage hpa
      rw [reach_succ hpa] at h ⊢
      have := ih (show va + 1 < 2 ^ 64 by omega) (by omega)
      rwa [Nat.add_right_comm, Nat.add_assoc] at this

/-- **A range is copied to its end if and only if the user may access all of it.** -/
theorem reach_eq_iff (h : Tree vm.pt) (hva : va < 2 ^ 64) : reach vm va len = len ↔ ∀ i, i < len → UserAt vm ((va + i) % 2 ^ 64) := by
  have hM : MAXVA = 2 ^ 38 := rfl
  constructor
  · intro heq i hi
    obtain ⟨hlt, pa, hpa⟩ := reach_user (heq.symm ▸ hi)
    rw [Nat.mod_eq_of_lt (by omega), userAt_iff h, hpa]
    rfl
  · intro hall
    refine (reach_le vm va len).antisymm (Nat.le_of_not_lt fun hlt => ?_)
    have hbad := (userAt_iff h).mp (hall _ hlt)
    rw [reach_end hva hlt] at hbad
    cases hbad

/-! ### What `copyout` leaves -/

theorem copyoutBytes_cons (hpa : userPage vm va = some pa) :
    copyoutBytes vm va (b :: bs) = copyoutBytes (poke vm pa (va % PGSIZE) [b]) (va + 1) bs := by
  rw [copyoutBytes, copyout_byte, hpa, succ_mod_of_userPage hpa]
  rfl

theorem copyoutBytes_none (hpa : userPage vm va = none) : copyoutBytes vm va (b :: bs) = (false, vm) := by
  rw [copyoutBytes, copyout_byte, hpa]
  rfl

theorem copyoutBytes_rest (vm : Vm) (va : ℕ) (bs : List UInt8) : ∃ data, (copyoutBytes vm va bs).2 = { vm with data := data } := by
  induction bs generalizing vm va with
  | nil => exact ⟨vm.data, rfl⟩
  | cons b bs ih =>
    cases hpa : userPage vm va with
    | none =>
      rw [copyoutBytes_none hpa]
      exact ⟨vm.data, rfl⟩
    | some pa =>
      rw [copyoutBytes_cons hpa]
      exact ih _ _

theorem copyoutBytes_pt (vm : Vm) (va : ℕ) (bs : List UInt8) : (copyoutBytes vm va bs).2.pt = vm.pt := by
  obtain ⟨data, hdata⟩ := copyoutBytes_rest vm va bs
  rw [hdata]

theorem copyoutBytes_ok (vm : Vm) (va : ℕ) (bs : List UInt8) : (copyoutBytes vm va bs).1 = true ↔ reach vm va bs.length = bs.length := by
  induction bs generalizing vm va with
  | nil => exact iff_of_true rfl rfl
  | cons b bs ih =>
    rw [length_cons]
    cases hpa : userPage vm va with
    | none =>
      rw [copyoutBytes_none hpa, reach_none hpa]
      simp
    | some pa =>
      rw [copyoutBytes_cons hpa, reach_succ hpa, ih, reach_poke]
      omega

theorem copyoutBytes_frame {q o : ℕ} (h : ∀ i, i < reach vm va bs.length → ¬(userPage vm (va + i) = some q ∧ (va + i) % PGSIZE = o)) :
    byteAt ((copyoutBytes vm va bs).2.data q) o = byteAt (vm.data q) o := by
  induction bs generalizing vm va with
  | nil => rfl
  | cons b bs ih =>
    cases hpa : userPage vm va with
    | none => rw [copyoutBytes_none hpa]
    | some pa =>
      rw [length_cons, reach_succ hpa] at h
      rw [copyoutBytes_cons hpa, ih]
      · by_cases hq : q = pa
        · subst hq
          have ho : va % PGSIZE ≠ o := fun ho => h 0 (Nat.succ_pos _) ⟨hpa, ho⟩
          rw [poke_data_self, byteAt_store_of_notMem]
          rw [length_singleton]
          omega
        · rw [poke_data_of_ne hq]
      · intro i hi
        rw [reach_poke] at hi
        have := h (i + 1) (by omega)
        rwa [userPage_poke, Nat.add_assoc, Nat.add_comm 1 i]

theorem Distinct.eq (hd : Distinct vm) (h : Tree vm.pt) {va' : ℕ} (hpa : userPage vm va = some pa)
    (hpa' : userPage vm va' = some pa) (hmod : va % PGSIZE = va' % PGSIZE) : va = va' := by
  obtain ⟨-, e, he, hu, rfl⟩ := (userPage_eq_some h).mp hpa
  obtain ⟨-, e', he', hu', heq⟩ := (userPage_eq_some h).mp hpa'
  have hdiv := hd _ _ _ _ he he' hu hu' heq.symm
  rw [← Nat.div_add_mod va PGSIZE, ← Nat.div_add_mod va' PGSIZE, hdiv, hmod]

theorem copyoutBytes_hit (h : Tree vm.pt) (hd : Distinct vm) (hi : i < reach vm va bs.length) :
    userByte (copyoutBytes vm va bs).2 (va + i) = bs[i]? := by
  induction bs generalizing vm va i with
  | nil => exact absurd hi (Nat.not_lt_zero _)
  | cons b bs ih =>
    cases hpa : userPage vm va with
    | none =>
      rw [length_cons, reach_none hpa] at hi
      exact absurd hi (Nat.not_lt_zero _)
    | some pa =>
      rw [length_cons, reach_succ hpa] at hi
      rw [copyoutBytes_cons hpa]
      rcases i with _ | i
      · -- the bytes after it do not come to the same place
        have hpage : userPage (copyoutBytes (Paging.poke vm pa (va % PGSIZE) [b]) (va + 1) bs).2 va = some pa :=
          (userPage_congr (copyoutBytes_pt ..)).trans (userPage_poke.trans hpa)
        change userByte _ va = some b
        rw [userByte, hpage, Option.map_some, copyoutBytes_frame]
        · have hmod := Nat.mod_lt va (show 0 < PGSIZE by decide)
          have hbyte := byteAt_store_of_mem (vm.data pa) (show 0 < [b].length from Nat.one_pos)
            (show va % PGSIZE + [b].length ≤ PGSIZE by rw [length_singleton]; omega)
          rw [Nat.add_zero] at hbyte
          rw [poke_data_self, hbyte]
          rfl
        · rintro j hj ⟨hj1, hj2⟩
          rw [userPage_poke] at hj1
          have := hd.eq h hj1 hpa hj2
          omega
      · have hnext := @ih (Paging.poke vm pa (va % PGSIZE) [b]) (va + 1) i h hd (by rw [reach_poke]; omega)
        rw [Nat.add_assoc, Nat.add_comm 1 i] at hnext
        rw [hnext, List.getElem?_cons_succ]

/-! ### `copyin` -/

theorem copyin_byte (vm : Vm) (va : ℕ) :
    copyin vm va 1 = (userPage vm va).elim ([], false) fun pa => ([byteAt (vm.data pa) (va % PGSIZE)], true) := by
  have hP : va % PGSIZE < PGSIZE := Nat.mod_lt _ (by decide)
  rw [copyin, copyinLoop, if_pos Nat.one_pos]
  dsimp only
  rw [userPage, mod_pgsize, Nat.min_eq_right (by omega), Nat.sub_self, copyinLoop, if_neg (lt_irrefl 0)]
  cases walkaddr vm (va / PGSIZE * PGSIZE) with
  | none => rfl
  | some pa => simp [load]

theorem copyinBytes_succ (hpa : userPage vm va = some pa) : copyinBytes vm va (len + 1) =
    (byteAt (vm.data pa) (va % PGSIZE) :: (copyinBytes vm (va + 1) len).1, (copyinBytes vm (va + 1) len).2) := by
  rw [copyinBytes, copyin_byte, hpa, succ_mod_of_userPage hpa]
  rfl

theorem copyinBytes_none (hpa : userPage vm va = none) : copyinBytes vm va (len + 1) = ([], false) := by
  rw [copyinBytes, copyin_byte, hpa]
  rfl

theorem load_succ {m : ℕ} (p : Bytes m) (off n : ℕ) : load p off (n + 1) = byteAt p off :: load p (off + 1) n := by
  simp only [load, List.range_succ_eq_map, List.map_cons, List.map_map, Nat.add_zero, Function.comp_def]
  simp only [Nat.succ_eq_add_one, Nat.add_assoc, Nat.add_comm 1]

theorem copyinBytes_page (len : ℕ) (hpa : userPage vm va = some pa) (hn : va % PGSIZE + n ≤ PGSIZE) : copyinBytes vm va (n + len) =
      (load (vm.data pa) (va % PGSIZE) n ++ (copyinBytes vm (va + n) len).1, (copyinBytes vm (va + n) len).2) := by
  induction n generalizing va with
  | zero => rw [Nat.zero_add, Nat.add_zero]; rfl
  | succ n ih =>
    rw [Nat.succ_add, copyinBytes_succ hpa, load_succ]
    rcases n with _ | n
    · rw [Nat.zero_add]
      rfl
    · obtain ⟨hpage, hmod⟩ := userPage_of_lt vm (show va % PGSIZE + 1 < PGSIZE by omega)
      rw [ih (hpage.trans hpa) (by omega), hmod, cons_append, Nat.add_assoc va 1, Nat.add_comm 1 (n + 1)]

/-- What lies on the page of an address, and the rest from the next page on. -/
theorem copyinBytes_next (len : ℕ) (hpa : userPage vm va = some pa) : copyinBytes vm va len =
    (load (vm.data pa) (va % PGSIZE) (min (PGSIZE - va % PGSIZE) len) ++
        (copyinBytes vm ((va / PGSIZE * PGSIZE + PGSIZE) % 2 ^ 64) (len - min (PGSIZE - va % PGSIZE) len)).1,
      (copyinBytes vm ((va / PGSIZE * PGSIZE + PGSIZE) % 2 ^ 64) (len - min (PGSIZE - va % PGSIZE) len)).2) := by
  have hM : MAXVA = 2 ^ 38 := rfl
  have hP : PGSIZE = 4096 := rfl
  have hva := lt_of_userPage hpa
  have hmod := Nat.mod_lt va (show 0 < PGSIZE by decide)
  generalize hn : min (PGSIZE - va % PGSIZE) len = n
  have hpage := copyinBytes_page (len - n) hpa (show va % PGSIZE + n ≤ PGSIZE by omega)
  rw [show n + (len - n) = len by omega] at hpage
  rw [hpage]
  by_cases hend : len - n = 0
  · rw [hend, copyinBytes, copyinBytes]
  · have hdiv := Nat.div_add_mod va PGSIZE
    rw [Nat.mul_comm] at hdiv
    rw [show va / PGSIZE * PGSIZE + PGSIZE = va + n by omega, Nat.mod_eq_of_lt (show va + n < 2 ^ 64 by omega)]

theorem copyinLoop_eq (vm : Vm) (va len : ℕ) (hfuel : len < fuel) : copyinLoop fuel vm va len = copyinBytes vm va len := by
  induction fuel generalizing va len with
  | zero => exact absurd hfuel (Nat.not_lt_zero _)
  | succ fuel ih =>
    rw [copyinLoop]
    rcases len with _ | len
    · rfl
    rw [if_pos (Nat.succ_pos _)]
    dsimp only
    rw [mod_pgsize, ← userPage]
    cases hpa : userPage vm va with
    | none => rw [copyinBytes_none hpa]
    | some pa =>
      have hmod := Nat.mod_lt va (show 0 < PGSIZE by decide)
      dsimp only
      rw [ih _ _ (by omega), copyinBytes_next (len + 1) hpa]

theorem copyin_eq_bytes (vm : Vm) (va len : ℕ) : copyin vm va len = copyinBytes vm va len :=
  copyinLoop_eq vm va len (Nat.lt_succ_self _)

theorem copyinBytes_spec (vm : Vm) (va len : ℕ) : ((copyinBytes vm va len).2 = true ↔ reach vm va len = len) ∧
      (copyinBytes vm va len).1.length = reach vm va len ∧ ∀ i, i < reach vm va len → (copyinBytes vm va len).1[i]? = userByte vm (va + i) := by
  induction len generalizing va with
  | zero => exact ⟨iff_of_true rfl rfl, rfl, fun i hi => absurd hi (Nat.not_lt_zero _)⟩
  | succ len ih =>
    cases hpa : userPage vm va with
    | none =>
      rw [copyinBytes_none hpa, reach_none hpa]
      exact ⟨by simp, rfl, fun i hi => absurd hi (Nat.not_lt_zero _)⟩
    | some pa =>
      obtain ⟨hok, hlen, hbytes⟩ := ih (va + 1)
      rw [copyinBytes_succ hpa, reach_succ hpa]
      refine ⟨hok.trans (by omega), by rw [length_cons, hlen], fun i hi => ?_⟩
      rcases i with _ | i
      · change some _ = userByte vm va
        rw [userByte, hpa]
        rfl
      · rw [List.getElem?_cons_succ, hbytes i (by omega), Nat.add_assoc, Nat.add_comm 1 i]

/-! ### Both ways -/

/-- **The first `k` bytes of a range were written**, and no others: the user finds them at their addresses, all of which they may
access, and what came after them they may not. -/
structure Written (vm : Vm) (va : ℕ) (src : List UInt8) (k : ℕ) (vm' : Vm) : Prop where
  le : k ≤ src.length
  user : ∀ i, i < k → UserAt vm ((va + i) % 2 ^ 64)
  bad : k < src.length → ¬UserAt vm ((va + k) % 2 ^ 64)
  rest : vm' = { vm with data := vm'.data }
  hit : ∀ i, i < k → userByte vm' ((va + i) % 2 ^ 64) = src[i]?
  frame : ∀ q o, (∀ i, i < k → ¬(userPage vm ((va + i) % 2 ^ 64) = some q ∧ (va + i) % 2 ^ 64 % PGSIZE = o)) →
    byteAt (vm'.data q) o = byteAt (vm.data q) o

structure Fetched (vm : Vm) (va len k : ℕ) (bytes : List UInt8) : Prop where
  le : k ≤ len
  user : ∀ i, i < k → UserAt vm ((va + i) % 2 ^ 64)
  bad : k < len → ¬UserAt vm ((va + k) % 2 ^ 64)
  length : bytes.length = k
  bytes : ∀ i, i < k → bytes[i]? = userByte vm ((va + i) % 2 ^ 64)

section Exact

variable (h : Tree vm.pt) (hva : va < 2 ^ 64)

include h

theorem reach_userAt (hi : i < reach vm va len) : (va + i) % 2 ^ 64 = va + i ∧ UserAt vm ((va + i) % 2 ^ 64) := by
  have hM : MAXVA = 2 ^ 38 := rfl
  obtain ⟨hlt, pa, hpa⟩ := reach_user hi
  have hmod : (va + i) % 2 ^ 64 = va + i := Nat.mod_eq_of_lt (by omega)
  rw [hmod, userAt_iff h, hpa]
  exact ⟨rfl, rfl⟩

include hva

theorem not_userAt_reach (hlt : reach vm va len < len) : ¬UserAt vm ((va + reach vm va len) % 2 ^ 64) := by
  rw [userAt_iff h, reach_end hva hlt]
  simp

theorem copyout_written (hd : Distinct vm) (src : List UInt8) : Written vm va src (reach vm va src.length) (copyoutBytes vm va src).2 := by
  obtain ⟨data, hdata⟩ := copyoutBytes_rest vm va src
  refine ⟨reach_le .., fun i hi => (reach_userAt h hi).2, not_userAt_reach h hva, by rw [hdata], fun i hi => ?_,
    fun q o hout => copyoutBytes_frame fun i hi => ?_⟩
  · rw [(reach_userAt h hi).1]
    exact copyoutBytes_hit h hd hi
  · have := hout i hi
    rwa [(reach_userAt h hi).1] at this

theorem copyin_fetched (len : ℕ) : Fetched vm va len (reach vm va len) (copyinBytes vm va len).1 := by
  obtain ⟨-, hlen, hbytes⟩ := copyinBytes_spec vm va len
  refine ⟨reach_le .., fun i hi => (reach_userAt h hi).2, not_userAt_reach h hva, hlen, fun i hi => ?_⟩
  rw [(reach_userAt h hi).1]
  exact hbytes i hi

/-- **`copyout` and `copyin` are copying one byte at a time.** They succeed if and only if the user may access the whole range; they copy
the bytes before the first one that the user may not access, and change nothing else. -/
theorem copy_exact (hd : Distinct vm) : (∀ src, copyout vm va src = copyoutBytes vm va src ∧
      ((copyout vm va src).1 = true ↔ ∀ i, i < src.length → UserAt vm ((va + i) % 2 ^ 64)) ∧
      ∃ k, ((copyout vm va src).1 = true ↔ k = src.length) ∧ Written vm va src k (copyout vm va src).2) ∧
    (∀ len, copyin vm va len = copyinBytes vm va len ∧ ((copyin vm va len).2 = true ↔ ∀ i, i < len → UserAt vm ((va + i) % 2 ^ 64)) ∧
      ∃ k, ((copyin vm va len).2 = true ↔ k = len) ∧ Fetched vm va len k (copyin vm va len).1) ∧
    ∀ src, (copyout vm va src).1 = true → copyin (copyout vm va src).2 va src.length = (src, true) := by
  refine ⟨fun src => ?_, fun len => ?_, fun src hok => ?_⟩
  · rw [copyout_eq_bytes]
    have hok := copyoutBytes_ok vm va src
    exact ⟨rfl, hok.trans (reach_eq_iff h hva), _, hok, copyout_written h hva hd src⟩
  · rw [copyin_eq_bytes]
    have hok := (copyinBytes_spec vm va len).1
    exact ⟨rfl, hok.trans (reach_eq_iff h hva), _, hok, copyin_fetched h hva len⟩
  · rw [copyout_eq_bytes] at hok ⊢
    have hpt := copyoutBytes_pt vm va src
    have hall := (copyoutBytes_ok vm va src).mp hok
    obtain ⟨hyes, hlen, hbytes⟩ := copyinBytes_spec (copyoutBytes vm va src).2 va src.length
    rw [reach_congr hpt, hall] at hyes hlen hbytes
    rw [copyin_eq_bytes]
    refine Prod.ext (List.ext_getElem? fun i => ?_) (hyes.mpr rfl)
    by_cases hi : i < src.length
    · rw [hbytes i hi]
      exact copyoutBytes_hit h hd (hall.symm ▸ hi)
    · rw [List.getElem?_eq_none (by rw [hlen]; omega), List.getElem?_eq_none (show src.length ≤ i by omega)]

end Exact

theorem twoPages_distinct : Distinct twoPages :=
  fun v w e e' h h' _ _ => (twoPages_space (by decide) le_rfl).inj v w e e' h h'

theorem twoPages_userAt {va : ℕ} (h : va < 8192) : UserAt twoPages va := by
  have hM : MAXVA = 2 ^ 38 := rfl
  exact ⟨by omega, _, if_pos (Nat.div_lt_of_lt_mul h), rfl⟩

/-- Three bytes on both pages are written and read again; of two bytes at the end of the memory one is written. -/
theorem copy_exact_twoPages : (copyout twoPages 4095 [1, 2, 3]).1 = true ∧
    copyin (copyout twoPages 4095 [1, 2, 3]).2 4095 3 = ([1, 2, 3], true) ∧
    ∃ vm', copyout twoPages 8191 [1, 2] = (false, vm') ∧ Written twoPages 8191 [1, 2] 1 vm' := by
  obtain ⟨hout, -, hback⟩ := copy_exact twoPages_tree (show 4095 < 2 ^ 64 by decide) twoPages_distinct
  have hok : (copyout twoPages 4095 [1, 2, 3]).1 = true := by
    refine (hout [1, 2, 3]).2.1.mpr fun i hi => ?_
    have hi : i < 3 := hi
    rw [Nat.mod_eq_of_lt (by omega)]
    exact twoPages_userAt (by omega)
  refine ⟨hok, hback _ hok, ?_⟩
  obtain ⟨-, -, k, hk, hw⟩ :=
    (copy_exact twoPages_tree (show 8191 < 2 ^ 64 by decide) twoPages_distinct).1 [1, 2]
  have hbad : (copyout twoPages 8191 [1, 2]).1 = false := by decide
  have hle : k ≤ 2 := hw.le
  have hne : k ≠ 2 := fun h => absurd (hk.mpr h) (by rw [hbad]; decide)
  have hpos : k ≠ 0 := by
    rintro rfl
    exact hw.bad (by decide) (twoPages_userAt (by decide))
  obtain rfl : k = 1 := by omega
  exact ⟨_, Prod.ext hbad rfl, hw⟩

/-! ### `copyinstr` -/

theorem strBytes_append (xs ys : List UInt8) : strBytes (xs ++ ys) =
    if (strBytes xs).2 then strBytes xs else ((strBytes xs).1 ++ (strBytes ys).1, (strBytes ys).2) := by
  induction xs with
  | nil => rfl
  | cons b xs ih =>
    rw [cons_append, strBytes, strBytes]
    by_cases hb : b = 0
    · rw [if_pos hb, if_pos hb]
      rfl
    · rw [if_neg hb, if_neg hb, ih]
      rcases strBytes xs with ⟨bytes, _ | _⟩ <;> rfl

theorem strBytes_found (xs : List UInt8) : (strBytes xs).2 = true ↔ ∃ k : ℕ, xs[k]? = some 0 := by
  rw [← List.mem_iff_getElem?]
  induction xs with
  | nil => simp [strBytes]
  | cons b xs ih =>
    rw [strBytes]
    by_cases hb : b = 0
    · simp [hb]
    · simp [hb, ih, Ne.symm hb]

theorem strBytes_take {k : ℕ} (hk : xs[k]? = some 0) (hleast : ∀ j, j < k → xs[j]? ≠ some 0) :
    (strBytes xs).1 = xs.take (k + 1) := by
  induction xs generalizing k with
  | nil => simp at hk
  | cons b xs ih =>
    rcases k with _ | k
    · obtain rfl : b = 0 := by simpa using hk
      simp [strBytes]
    · have hb : b ≠ 0 := fun hb => hleast 0 (Nat.succ_pos _) (by simp [hb])
      rw [strBytes, if_neg hb, List.take_succ_cons, ← ih hk fun j hj => hleast (j + 1) (by omega)]

theorem strBytes_length_le (xs : List UInt8) : (strBytes xs).1.length ≤ xs.length := by
  induction xs with
  | nil => exact le_rfl
  | cons b xs ih =>
    rw [strBytes]
    split
    · simp
    · exact Nat.succ_le_succ ih

/-- `copyinstr` is `copyin` up to the first zero. -/
theorem copyinstrLoop_eq (vm : Vm) (va max : ℕ) (hfuel : max < fuel) :
    copyinstrLoop fuel vm va max = strBytes (copyinBytes vm va max).1 := by
  induction fuel generalizing va max with
  | zero => exact absurd hfuel (Nat.not_lt_zero _)
  | succ fuel ih =>
    rw [copyinstrLoop]
    rcases max with _ | max
    · rfl
    rw [if_pos (Nat.succ_pos _)]
    dsimp only
    rw [mod_pgsize, ← userPage]
    cases hpa : userPage vm va with
    | none =>
      rw [copyinBytes_none hpa]
      rfl
    | some pa =>
      have hmod := Nat.mod_lt va (show 0 < PGSIZE by decide)
      dsimp only
      rw [ih _ _ (by omega), copyinBytes_next (max + 1) hpa, strBytes_append]
      rcases strBytes (load (vm.data pa) (va % PGSIZE) (min (PGSIZE - va % PGSIZE) (max + 1))) with ⟨bytes, _ | _⟩ <;> rfl

/-- The string at an address ends with its byte `k`: it is zero, and the user may access everything up to it. -/
def EndsAt (vm : Vm) (va k : ℕ) : Prop :=
  userByte vm ((va + k) % 2 ^ 64) = some 0 ∧ ∀ j, j ≤ k → UserAt vm ((va + j) % 2 ^ 64)

theorem endsAt_iff {k max : ℕ} (h : Tree vm.pt) (hva : va < 2 ^ 64) (hk : k < max) :
    EndsAt vm va k ↔ (copyinBytes vm va max).1[k]? = some 0 := by
  obtain ⟨-, hlen, hbytes⟩ := copyinBytes_spec vm va max
  constructor
  · rintro ⟨hzero, hall⟩
    have hreach : k < reach vm va max := by
      by_contra hle
      exact not_userAt_reach h hva (by omega) (hall _ (Nat.le_of_not_lt hle))
    rw [hbytes k hreach, ← (reach_userAt h hreach).1, hzero]
  · intro hzero
    have hreach : k < reach vm va max := hlen ▸ (List.getElem?_eq_some_iff.mp hzero).1
    refine ⟨?_, fun j hj => (reach_userAt h (Nat.lt_of_le_of_lt hj hreach)).2⟩
    rw [(reach_userAt h hreach).1, ← hbytes k hreach, hzero]

/-- **`copyinstr` is exact.** It finds a string if and only if one ends within `max` bytes, on pages that the user may access; then it has
written the string with its zero. It never writes more than `max` bytes. -/
theorem copyinstr_exact (h : Tree vm.pt) (hva : va < 2 ^ 64) (max : ℕ) : ((copyinstr vm va max).2 = true ↔ ∃ k, k < max ∧ EndsAt vm va k) ∧
      (∀ k, k < max → EndsAt vm va k → (∀ j, j < k → ¬EndsAt vm va j) → (copyinstr vm va max).1.length = k + 1 ∧
        ∀ j, j ≤ k → (copyinstr vm va max).1[j]? = userByte vm ((va + j) % 2 ^ 64)) ∧ (copyinstr vm va max).1.length ≤ max := by
  rw [copyinstr, copyinstrLoop_eq vm va max (Nat.lt_succ_self _)]
  obtain ⟨-, hlen, hbytes⟩ := copyinBytes_spec vm va max
  have hle : (copyinBytes vm va max).1.length ≤ max := hlen ▸ reach_le ..
  refine ⟨?_, fun k hk hend hleast => ?_, (strBytes_length_le _).trans hle⟩
  · rw [strBytes_found]
    constructor
    · rintro ⟨k, hk⟩
      have hlt : k < max := (List.getElem?_eq_some_iff.mp hk).1.trans_le hle
      exact ⟨k, hlt, (endsAt_iff h hva hlt).mpr hk⟩
    · rintro ⟨k, hlt, hend⟩
      exact ⟨k, (endsAt_iff h hva hlt).mp hend⟩
  · have hzero := (endsAt_iff h hva hk).mp hend
    have hlt := (List.getElem?_eq_some_iff.mp hzero).1
    rw [strBytes_take hzero fun j hj hj' => hleast j hj ((endsAt_iff h hva (hj.trans hk)).mpr hj')]
    refine ⟨by rw [List.length_take]; omega, fun j hj => ?_⟩
    have hreach : j < reach vm va max := by omega
    rw [List.getElem?_take_of_lt (by omega), hbytes j hreach, (reach_userAt h hreach).1]

/-- A string that begins on the first page and ends on the second. -/
theorem copyinstr_exact_twoPages : (copyinstr twoPages 4094 5).2 = true ∧
    (copyinstr twoPages 4094 5).1.length = 3 := by
  obtain ⟨hiff, hstr, -⟩ := copyinstr_exact twoPages_tree (show 4094 < 2 ^ 64 by decide) 5
  have hend : EndsAt twoPages 4094 2 :=
    ⟨by decide, fun j hj => by
      rw [Nat.mod_eq_of_lt (by omega)]
      exact twoPages_userAt (by omega)⟩
  refine ⟨hiff.mpr ⟨2, by decide, hend⟩, (hstr 2 (by decide) hend fun j hj hzero => ?_).1⟩
  obtain rfl | rfl : j = 0 ∨ j = 1 := by omega
  all_goals exact absurd hzero.1 (by decide)

end Xv6.Paging
