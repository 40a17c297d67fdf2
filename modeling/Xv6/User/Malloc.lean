import Xv6.Vm.Sbrk

/-!
# What `malloc` asks for

`malloc`, `morecore` and `free` of `user/umalloc.c`, on any heap, with the `sbrk` of the kernel. A header takes 16 bytes.
The bytes that a call needs are counted in 64 bits, but `sbrk` has a parameter of type `int`: for a request of more than
2³¹ - 32 bytes it is asked for another amount, which may be negative, while the header of the new block has the size that
was meant.
-/

namespace Xv6.Malloc

open Function Paging

/-- The headers at all addresses, `freep`, the memory and the size of the process, and the calls of `sbrk` so far. -/
structure Heap where
  ptr : ℕ → ℕ
  size : ℕ → ℕ
  freep : ℕ
  kernel : Vm × ℕ
  asked : List ℤ

/-- Write the header at `q`. -/
def Heap.set (h : Heap) (q a s : ℕ) : Heap := { h with ptr := update h.ptr q a, size := update h.size q s }

/-- The loop of `free`. -/
def findLoop (h : Heap) (bp : ℕ) : ℕ → ℕ → Option ℕ
  | 0, _ => none
  | fuel + 1, p =>
    if p < bp ∧ bp < h.ptr p then some p
    else if h.ptr p ≤ p ∧ (p < bp ∨ bp < h.ptr p) then some p
    else findLoop h bp fuel (h.ptr p)

/-- `free`, for the header of the block. -/
def free (fuel bp : ℕ) (h : Heap) : Option Heap :=
  (findLoop h bp fuel h.freep).map fun p =>
    let next := h.ptr p
    let h :=
      if bp + 16 * h.size bp = next then h.set bp (h.ptr next) ((h.size bp + h.size next) % 2 ^ 32)
      else h.set bp next (h.size bp)
    let h :=
      if p + 16 * h.size p = bp then h.set p (h.ptr bp) ((h.size p + h.size bp) % 2 ^ 32)
      else h.set p bp (h.size p)
    { h with freep := p }

/-- `sys_sbrk`, for the memory and the size of a process; `none` for a panic. -/
def sysSbrk (n : ℤ) (st : Vm × ℕ) : Option (ℤ × Vm × ℕ) :=
  match growproc st.1 st.2 n with
  | .error _ => none
  | .ok (r, sz, vm) => some (if r < 0 then -1 else (st.2 : ℤ).bmod (2 ^ 32), vm, sz)

/-- `morecore`. A `uint64` is passed to `sbrk` as an `int`. -/
def morecore (fuel nu : ℕ) (h : Heap) : Option (ℕ × Heap) :=
  let nu := if nu < 4096 then 4096 else nu
  let n := ((nu * 16 : ℕ) : ℤ).bmod (2 ^ 32)
  (sysSbrk n h.kernel).bind fun r =>
    let h := { h with kernel := r.2, asked := h.asked ++ [n] }
    if r.1 = -1 then some (0, h)
    else
      let hp := (r.1 % 2 ^ 64).toNat
      (free fuel hp { h with size := update h.size hp nu }).map fun h => (h.freep, h)

/-- The loop of `malloc`. -/
def mallocLoop (nunits : ℕ) : ℕ → ℕ → ℕ → Heap → Option (ℕ × Heap)
  | 0, _, _, _ => none
  | fuel + 1, prevp, p, h =>
    if nunits ≤ h.size p then
      if h.size p = nunits then
        some (p + 16, { h with ptr := update h.ptr prevp (h.ptr p), freep := prevp })
      else
        let q := p + 16 * (h.size p - nunits)
        some (q + 16,
          { h with size := update (update h.size p (h.size p - nunits)) q nunits, freep := prevp })
    else if p = h.freep then
      (morecore fuel nunits h).bind fun r =>
        if r.1 = 0 then some (0, r.2) else mallocLoop nunits fuel r.1 (r.2.ptr r.1) r.2
    else mallocLoop nunits fuel p (h.ptr p) h

variable {h h' : Heap} {fuel nunits nbytes nu prevp p r bp : ℕ}

theorem free_keeps (hfree : free fuel bp h = some h') : h'.kernel = h.kernel ∧ h'.asked = h.asked := by
  obtain ⟨p, -, rfl⟩ := Option.map_eq_some_iff.mp hfree
  dsimp only
  split_ifs <;> exact ⟨rfl, rfl⟩

/-- **Every header is that of a block in the memory from `lo` to `top`.** -/
def Fits (lo top : ℕ) (h : Heap) : Prop := ∀ p, h.size p = 0 ∨ lo ≤ p ∧ p + 16 * h.size p ≤ top

/-- **The heap of a process that has its memory from `sbrk`.** The pages up to its size are mapped, on a machine with at
most 128 megabytes, and the blocks are in the memory from `lo` on. -/
structure Sound (lo : ℕ) (h : Heap) : Prop where
  space : Space h.kernel.1 h.kernel.2
  card : (allPages h.kernel.1 h.kernel.2).card ≤ 2 ^ 15
  le : lo ≤ h.kernel.2
  fits : Fits lo h.kernel.2 h

namespace Fits

variable {lo top q a s : ℕ}

theorem set (hfit : Fits lo top h) (hs : s = 0 ∨ lo ≤ q ∧ q + 16 * s ≤ top) : Fits lo top (h.set q a s) := by
  intro p
  dsimp only [Heap.set]
  by_cases heq : p = q
  · rw [heq, update_self]
    exact hs
  · rw [update_of_ne heq]
    exact hfit p

/-- Two blocks that meet become one. -/
theorem join (hfit : Fits lo top h) (p q a b : ℕ) : Fits lo top (if p + 16 * h.size p = q then
    h.set p a ((h.size p + h.size q) % 2 ^ 32) else h.set p b (h.size p)) := by
  have hp := hfit p
  have hq := hfit q
  have hmod := Nat.mod_le (h.size p + h.size q) (2 ^ 32)
  split_ifs
  · exact hfit.set (by omega)
  · exact hfit.set hp

theorem free (hfit : Fits lo top h) (hrun : free fuel bp h = some h') : Fits lo top h' := by
  obtain ⟨p, -, rfl⟩ := Option.map_eq_some_iff.mp hrun
  exact (hfit.join bp (h.ptr p) _ _).join p bp _ _

end Fits

/-- **`sbrk` of more memory** returns -1 with the size as it was, or the old size with the memory that was asked for. -/
theorem sysSbrk_grows {st st' : Vm × ℕ} {n v : ℤ} (hs : Space st.1 st.2) (hcard : (allPages st.1 st.2).card ≤ 2 ^ 15)
    (hpos : 0 < n) (hn : n < 2 ^ 31) (hcall : sysSbrk n st = some (v, st')) :
    Space st'.1 st'.2 ∧ allPages st'.1 st'.2 = allPages st.1 st.2 ∧
      (v = -1 ∧ st'.2 = st.2 ∨ v = st.2 ∧ (st'.2 : ℤ) = st.2 + n) := by
  obtain ⟨r, sz, vm, hrun, hs', hall, hlt, hcase⟩ := hs.growproc_pos hcard hpos hn
  rw [sysSbrk, hrun] at hcall
  obtain ⟨rfl, rfl⟩ := Prod.mk.inj (Option.some.inj hcall)
  refine ⟨hs', hall, ?_⟩
  rcases hcase with ⟨rfl, hsz⟩ | ⟨rfl, hsz⟩
  · refine .inr ⟨?_, hsz⟩
    rw [if_neg (by decide), Int.bmod_eq_of_le (by omega) (by omega)]
  · exact .inl ⟨rfl, hsz⟩

namespace Sound

variable {lo : ℕ}

theorem morecore (hh : Sound lo h) (hnu : max nu 4096 * 16 < 2 ^ 31) (hrun : morecore fuel nu h = some (r, h')) :
    h.kernel.2 ≤ h'.kernel.2 ∧ Sound lo h' := by
  have hmax : (if nu < 4096 then 4096 else nu) = max nu 4096 := by split_ifs <;> omega
  have hint : ((max nu 4096 * 16 : ℕ) : ℤ).bmod (2 ^ 32) = (max nu 4096 * 16 : ℕ) :=
    Int.bmod_eq_of_le (by omega) (by omega)
  have hle := hh.le
  rw [Malloc.morecore, hmax] at hrun
  dsimp only at hrun
  rw [hint] at hrun
  obtain ⟨⟨v, st⟩, hcall, hrun⟩ := Option.bind_eq_some_iff.mp hrun
  obtain ⟨hspace, hall, hres⟩ := sysSbrk_grows hh.space hh.card (by omega) (by omega) hcall
  have hcard : (allPages st.1 st.2).card ≤ 2 ^ 15 := hall ▸ hh.card
  dsimp only at hrun
  split_ifs at hrun with hfail
  · obtain ⟨rfl, rfl⟩ := Prod.mk.inj (Option.some.inj hrun)
    have hbrk : st.2 = h.kernel.2 := by omega
    refine ⟨hbrk.ge, hspace, hcard, hbrk ▸ hle, ?_⟩
    dsimp only
    rw [hbrk]
    exact hh.fits
  obtain ⟨rfl, hbrk⟩ := hres.resolve_left fun hres => hfail hres.1
  obtain ⟨h₁, hfree, heq⟩ := Option.map_eq_some_iff.mp hrun
  obtain ⟨rfl, rfl⟩ := Prod.mk.inj heq
  have hsize := hh.space.size
  have hhp : (((h.kernel.2 : ℕ) : ℤ) % 2 ^ 64).toNat = h.kernel.2 := by omega
  rw [hhp] at hfree
  have hkernel : h₁.kernel = st := (free_keeps hfree).1
  have hgrown : Fits lo st.2 h := fun p => (hh.fits p).imp_right fun hp => ⟨hp.1, by omega⟩
  have hset := @Fits.set _ lo st.2 h.kernel.2 0 (max nu 4096) hgrown (.inr ⟨hle, by omega⟩)
  rw [hkernel]
  refine ⟨by omega, ?_⟩
  refine ⟨by rw [hkernel]; exact hspace, by rw [hkernel]; exact hcard, by rw [hkernel]; omega, ?_⟩
  rw [hkernel]
  refine Fits.free (fun p => ?_) hfree
  exact hset p

/-- **The rounds of `malloc`** do not shrink the process, and the block they find is in its memory. -/
theorem mallocLoop (hh : Sound lo h) (hmax : max nunits 4096 * 16 < 2 ^ 31) (hpos : 0 < nunits)
    (hrun : mallocLoop nunits fuel prevp p h = some (r, h')) : h.kernel.2 ≤ h'.kernel.2 ∧ Sound lo h' ∧
      (r ≠ 0 → lo + 16 ≤ r ∧ r + 16 * (nunits - 1) ≤ h'.kernel.2) := by
  induction fuel generalizing prevp p h with
  | zero => exact absurd hrun (by simp [Malloc.mallocLoop])
  | succ fuel ih =>
    rw [Malloc.mallocLoop] at hrun
    have hblock := hh.fits p
    split_ifs at hrun with hle heq hend
    · obtain ⟨rfl, rfl⟩ := Prod.mk.inj (Option.some.inj hrun)
      exact ⟨le_rfl, ⟨hh.space, hh.card, hh.le, hh.fits⟩, fun _ => ⟨by omega, by dsimp only; omega⟩⟩
    · obtain ⟨rfl, rfl⟩ := Prod.mk.inj (Option.some.inj hrun)
      have hhead := @Fits.set _ lo h.kernel.2 p 0 (h.size p - nunits) hh.fits (by omega)
      have htail := @Fits.set _ lo h.kernel.2 (p + 16 * (h.size p - nunits)) 0 nunits hhead (by omega)
      exact ⟨le_rfl, ⟨hh.space, hh.card, hh.le, htail⟩, fun _ => ⟨by omega, by dsimp only; omega⟩⟩
    · obtain ⟨⟨p₁, h₁⟩, hmore, hrun⟩ := Option.bind_eq_some_iff.mp hrun
      obtain ⟨hgrow, hh₁⟩ := hh.morecore hmax hmore
      dsimp only at hrun
      split_ifs at hrun with h0
      · obtain ⟨rfl, rfl⟩ := Prod.mk.inj (Option.some.inj hrun)
        exact ⟨hgrow, hh₁, fun h => absurd rfl h⟩
      · obtain ⟨hmon, hrest⟩ := ih hh₁ hrun
        exact ⟨hgrow.trans hmon, hrest⟩
    · exact ih hh hrun

end Sound

end Xv6.Malloc
