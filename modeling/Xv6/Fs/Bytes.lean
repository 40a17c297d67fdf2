import Xv6.Fs.Contents

/-!
# The bytes of a file

A file is the list of its bytes, which lie in its blocks. `readi` returns a part of this list, and
`writei` writes over a part of it, or goes on at its end; files other than the one that is written
have the bytes they had. All of this is for files without holes.
-/

namespace Xv6.FileSys

open Lib Function

open Logging (Block)

/-! ### Bytes -/

def byteOf (block : ℕ → Block) (e : Dinode) (x : ℕ) : UInt8 :=
  byteAt (block (blockOf block e (x / BSIZE))) (x % BSIZE)

/-- **The bytes of a file.** -/
def bytesOf (block : ℕ → Block) (e : Dinode) : List UInt8 := (List.range e.size).map (byteOf block e)

def Disk.bytes (d : Disk) (i : ℕ) : List UInt8 := bytesOf d.block (d.dinode i)

variable {d d' : Disk} {ino : ℕ → Dinode} {i j bn x off n tot fuel : ℕ} {e e' : Dinode}
  {block block' : ℕ → Block} {v : Block} {bs : List UInt8}

@[simp] theorem length_bytesOf : (bytesOf block e).length = e.size := by
  simp [bytesOf]

theorem getElem?_bytesOf : (bytesOf block e)[x]? = if x < e.size then some (byteOf block e x) else none := by
  split
  · next hx => simp [bytesOf, hx]
  · next hx =>
    rw [List.getElem?_eq_none]
    rw [length_bytesOf]
    omega

theorem Keeps.byteOf (h : Keeps block e block' e') (hx : blockOf block e (x / BSIZE) ≠ 0) :
    FileSys.byteOf block' e' x = FileSys.byteOf block e x := by
  obtain ⟨hmap, hblock⟩ := h _ hx
  rw [FileSys.byteOf, FileSys.byteOf, hmap, hblock]

theorem Dense.mapped_of_lt (h : Dense block e) (hx : x < e.size) : blockOf block e (x / BSIZE) ≠ 0 :=
  h.mapped _ (Nat.lt_of_le_of_lt (Nat.div_mul_le_self x BSIZE) hx)

theorem Keeps.bytesOf (h : Keeps block e block' e') (hd : Dense block e) (hs : e'.size = e.size) :
    FileSys.bytesOf block' e' = FileSys.bytesOf block e := by
  refine List.ext_getElem? fun x => ?_
  rw [getElem?_bytesOf, getElem?_bytesOf, hs]
  split
  · next hx => rw [h.byteOf (hd.mapped_of_lt hx)]
  · rfl

/-! ### Reading -/

theorem round_le (off n : ℕ) : off % BSIZE + min n (BSIZE - off % BSIZE) ≤ BSIZE := by
  have := Nat.mod_lt off (show 0 < BSIZE by decide)
  omega

theorem div_of_round {m y : ℕ} (hm : off % BSIZE + m ≤ BSIZE) (hy : y < m) :
    (off + y) / BSIZE = off / BSIZE ∧ (off + y) % BSIZE = off % BSIZE + y := by
  have hB : 0 < BSIZE := by decide
  have hdiv := Nat.div_add_mod off BSIZE
  have heq : off + y = off % BSIZE + y + BSIZE * (off / BSIZE) := by omega
  constructor
  · rw [heq, Nat.add_mul_div_left _ _ hB, Nat.div_eq_of_lt (by omega), Nat.zero_add]
  · rw [heq, Nat.add_mul_mod_self_left, Nat.mod_eq_of_lt (by omega)]

theorem readiLoop_bytes (hfuel : n ≤ fuel) (hmap : ∀ bn, bn * BSIZE < off + n → blockOf d.block e bn ≠ 0) : readiLoop toKernel fuel d e off tot n =
      .ok (some ((List.range n).map fun y => byteOf d.block e (off + y)), d, e) := by
  induction fuel generalizing off tot n with
  | zero =>
    obtain rfl : n = 0 := by omega
    rfl
  | succ fuel ih =>
    unfold readiLoop
    split
    · next hn =>
      subst hn
      rfl
    rename_i hn
    have hB : 0 < BSIZE := by decide
    have hmod := Nat.mod_lt off hB
    have h0 : blockOf d.block e (off / BSIZE) ≠ 0 := by
      refine hmap _ (Nat.lt_of_le_of_lt (Nat.div_mul_le_self off BSIZE) ?_)
      omega
    rw [bmap_of_ne h0]
    obtain ⟨m, hm⟩ : ∃ m, m = min n (BSIZE - off % BSIZE) := ⟨_, rfl⟩
    have hround := round_le off n
    rw [← hm] at hround
    change (readiLoop toKernel fuel d e (off + min n (BSIZE - off % BSIZE))
      (tot + min n (BSIZE - off % BSIZE)) (n - min n (BSIZE - off % BSIZE)) >>= fun q =>
        .ok (q.1.map (load (d.block (blockOf d.block e (off / BSIZE))) (off % BSIZE) (min n (BSIZE - off % BSIZE)) ++ ·), q.2)) = _
    rw [← hm, ih (by omega) fun bn hbn => hmap bn (by omega)]
    -- the bytes of this round, and those of the others
    have hload : load (d.block (blockOf d.block e (off / BSIZE))) (off % BSIZE) m = (List.range m).map fun y => byteOf d.block e (off + y) := by
      refine List.map_congr_left fun y hy => ?_
      obtain ⟨hd, hr⟩ := div_of_round hround (List.mem_range.mp hy)
      rw [byteOf, hd, hr]
    have hsplit : (List.range n).map (fun y => byteOf d.block e (off + y)) = (List.range m).map (fun y => byteOf d.block e (off + y)) ++
          (List.range (n - m)).map fun y => byteOf d.block e (off + m + y) := by
      rw [show n = m + (n - m) by omega, List.range_add, List.map_append, List.map_map]
      simp only [Nat.add_sub_cancel_left, Function.comp_def, Nat.add_assoc]
    rw [hsplit, ← hload]
    rfl

/-- **`readi` returns a part of the file**, if the end of the part is a `uint`. -/
theorem readi_bytes (hdense : Dense d.block e) (hn : off ≤ e.size → off + n < 2 ^ 32) :
    readi d e toKernel off n = .ok (some ((bytesOf d.block e).drop off |>.take n), d, e) := by
  unfold readi
  split
  · next hoff =>
    rw [List.drop_eq_nil_of_le, List.take_nil]
    rw [length_bytesOf]
    by_contra hlt
    rw [Nat.mod_eq_of_lt (hn (by omega))] at hoff
    omega
  rename_i hoff
  have hwrap : (off + n) % 2 ^ 32 = off + n := Nat.mod_eq_of_lt (hn (by omega))
  rw [hwrap] at hoff ⊢
  have htake : ∀ m, off + m ≤ e.size → ((bytesOf d.block e).drop off).take m = (List.range m).map fun y => byteOf d.block e (off + y) := by
    intro m hm
    refine List.ext_getElem? fun y => ?_
    by_cases hy : y < m
    · rw [List.getElem?_take_of_lt hy, List.getElem?_drop, getElem?_bytesOf, if_pos (by omega)]
      simp [hy]
    · rw [List.getElem?_eq_none (by simp; omega), List.getElem?_eq_none (by simp; omega)]
  dsimp only
  split
  · next hlong =>
    rw [readiLoop_bytes le_rfl fun bn hbn => hdense.mapped bn (by omega), List.take_of_length_le (by simp; omega)]
    have hall := htake (e.size - off) (by omega)
    rw [List.take_of_length_le (by simp)] at hall
    rw [hall]
  · rw [readiLoop_bytes le_rfl fun bn hbn => hdense.mapped bn (by omega), htake n (by omega)]

/-! ### Writing -/

/-- A source that gives the bytes `bs`, from wherever and in whatever pieces it is asked for
them. -/
def Source (src : ℕ → ℕ → List UInt8 × Bool) (bs : List UInt8) : Prop :=
  ∀ tot m, tot + m ≤ bs.length → src tot m = ((bs.drop tot).take m, true)

theorem source_fromKernel : Source (fromKernel bs) bs := fun _ _ _ => rfl

theorem byteOf_store (hgood : Good d ino) (hi : (ino i).type ≠ .free)
    (hb : blockOf d.block (ino i) bn ≠ 0) (hx : blockOf d.block (ino i) (x / BSIZE) ≠ 0) :
    byteOf (update d.block (blockOf d.block (ino i) bn) v) (ino i) x = if x / BSIZE = bn then byteAt v (x % BSIZE) else byteOf d.block (ino i) x := by
  have hmap : blockOf (update d.block (blockOf d.block (ino i) bn) v) (ino i) (x / BSIZE) = blockOf d.block (ino i) (x / BSIZE) :=
    blockOf_congr fun _ => update_of_ne (hgood.blockOf_ne_indirect hi hi hb).symm ..
  rw [byteOf, hmap]
  split
  · next heq => rw [heq, update_self]
  · next hne =>
    rw [update_of_ne]
    · rfl
    · intro heq
      exact hne (hgood.blockOf_inj hi hi hx heq).2

theorem byteOf_round {d₁ : Disk} {e₁ : Dinode} {ys : List UInt8} (hg : Grown i d e d₁ e₁) (hk : Keeps d.block e d₁.block e₁) (ht : e.type ≠ .free)
    (h0 : blockOf d₁.block e₁ (off / BSIZE) ≠ 0) (hys : off % BSIZE + ys.length ≤ BSIZE)
    (hx : blockOf d.block e (x / BSIZE) ≠ 0 ∨ off ≤ x ∧ x < off + ys.length) : byteOf (update d₁.block (blockOf d₁.block e₁ (off / BSIZE))
        (store (d₁.block (blockOf d₁.block e₁ (off / BSIZE))) (off % BSIZE) ys)) e₁ x =
      if off ≤ x ∧ x < off + ys.length then ys.getD (x - off) 0 else byteOf d.block e x := by
  have hti : (update d.dinode i e₁ i).type ≠ .free := by
    rw [update_self, hg.info]
    exact ht
  have hmapped : blockOf d₁.block e₁ (x / BSIZE) ≠ 0 := by
    rcases hx with hx | ⟨hle, hlt⟩
    · rw [(hk _ hx).1]
      exact hx
    · obtain ⟨hdiv, -⟩ := div_of_round hys (y := x - off) (by omega)
      rw [Nat.add_sub_cancel' hle] at hdiv
      rwa [hdiv]
  have hblock : blockOf d₁.block (update d.dinode i e₁ i) (off / BSIZE) ≠ 0 := by rwa [update_self]
  have hstore := byteOf_store (x := x) (v := store (d₁.block (blockOf d₁.block e₁ (off / BSIZE)))
    (off % BSIZE) ys) hg.good hti hblock (by rwa [update_self])
  rw [update_self] at hstore
  rw [hstore]
  split
  · next hblock =>
    by_cases hin : off ≤ x ∧ x < off + ys.length
    · obtain ⟨-, hmod⟩ := div_of_round hys (y := x - off) (by omega)
      rw [Nat.add_sub_cancel' hin.1] at hmod
      have hlt : x - off < ys.length := by omega
      rw [if_pos hin, hmod, byteAt_store_of_mem _ hlt hys, List.getD_eq_getElem?_getD, List.getElem?_eq_getElem hlt]
      rfl
    · -- another byte of the same block
      have hold := hx.resolve_right hin
      have hout : x % BSIZE < off % BSIZE ∨ off % BSIZE + ys.length ≤ x % BSIZE := by
        have hx' := Nat.div_add_mod x BSIZE
        have hoff := Nat.div_add_mod off BSIZE
        rw [hblock] at hx'
        omega
      rw [if_neg hin, byteAt_store_of_notMem _ hout, ← hk.byteOf hold, byteOf, hblock]
  · next hblock =>
    have hin : ¬(off ≤ x ∧ x < off + ys.length) := by
      rintro ⟨hle, hlt⟩
      obtain ⟨hdiv, -⟩ := div_of_round hys (y := x - off) (by omega)
      rw [Nat.add_sub_cancel' hle] at hdiv
      exact hblock hdiv
    rw [if_neg hin, hk.byteOf (hx.resolve_right hin)]

variable {src : ℕ → ℕ → List UInt8 × Bool}

theorem writeiLoop_bytes (hsrc : Source src bs)
    (hgood : Good d (update d.dinode i e)) (ht : e.type ≠ .free) (hfuel : n ≤ fuel) (htot : tot + n = bs.length) (hn : off + n ≤ MAXFILE * BSIZE) :
    Post (fun _ => True) (writeiLoop src fuel d e off tot n) fun (tot', d', e') =>
      tot' = tot + n ∧ ∀ x, blockOf d.block e (x / BSIZE) ≠ 0 ∨ off ≤ x ∧ x < off + n → byteOf d'.block e' x =
          if off ≤ x ∧ x < off + n then bs.getD (tot + (x - off)) 0 else byteOf d.block e x := by
  induction fuel generalizing d e off tot n with
  | zero =>
    obtain rfl : n = 0 := by omega
    exact ⟨rfl, fun x _ => by rw [if_neg (by omega)]⟩
  | succ fuel ih =>
    unfold writeiLoop
    split
    · next hn0 =>
      subst hn0
      exact ⟨rfl, fun x _ => by rw [if_neg (by omega)]⟩
    rename_i hn0
    have hmod := Nat.mod_lt off (show 0 < BSIZE by decide)
    have hbn := div_lt_maxfile hn0 hn
    obtain ⟨m, hm⟩ : ∃ m, m = min n (BSIZE - off % BSIZE) := ⟨_, rfl⟩
    have hround := round_le off n
    rw [← hm] at hround ⊢
    have hlen : ((bs.drop tot).take m).length = m := by
      rw [List.length_take, List.length_drop]
      omega
    cases hbmap : bmap d e (off / BSIZE) with
    | error err => exact trivial
    | ok q =>
      obtain ⟨addr, d₁, e₁⟩ := q
      obtain ⟨hg, hk, rfl, h0⟩ := (bmap_spec (E := (· = .outOfBlocks)) hgood ht hbn rfl).of_ok hbmap
      obtain ⟨⟨hg₂, hext⟩, hnew⟩ := (bmap_store_spec (v := fun d' addr => store (d'.block addr)
        (off % BSIZE) ((bs.drop tot).take m)) hgood ht hbn).of_ok hbmap
      simp only [ok_bind, hsrc tot m (by omega), if_true]
      obtain ⟨hgood₂, ht₂⟩ := hg₂.next ht
      refine (ih hgood₂ ht₂ (by omega) (by omega) (by omega)).mono ?_
      rintro ⟨tot', d', e'⟩ ⟨rfl, hbytes⟩
      refine ⟨by omega, fun x hx => ?_⟩
      by_cases hlater : off + m ≤ x ∧ x < off + m + (n - m)
      · rw [hbytes x (.inr hlater), if_pos hlater, if_pos (by omega)]
        congr 1
        omega
      -- written in this round, or not at all
      have hx' : blockOf d.block e (x / BSIZE) ≠ 0 ∨ off ≤ x ∧ x < off + m :=
        hx.imp id fun h => by omega
      have hmapped : blockOf (update d₁.block (blockOf d₁.block e₁ (off / BSIZE)) (store
          (d₁.block (blockOf d₁.block e₁ (off / BSIZE))) (off % BSIZE) ((bs.drop tot).take m))) e₁
          (x / BSIZE) ≠ 0 := by
        rcases hx' with hx' | ⟨hle, hlt⟩
        · exact hext _ hx'
        · obtain ⟨hdiv, -⟩ := div_of_round hround (y := x - off) (by omega)
          rw [Nat.add_sub_cancel' hle] at hdiv
          rw [hdiv]
          exact hnew
      rw [hbytes x (.inl hmapped), if_neg hlater, byteOf_round hg hk ht h0 (by rwa [hlen]) (by rwa [hlen]), hlen]
      by_cases hin : off ≤ x ∧ x < off + m
      · rw [if_pos hin, if_pos (by omega), List.getD_eq_getElem?_getD, List.getD_eq_getElem?_getD,
          List.getElem?_take_of_lt (by omega), List.getElem?_drop]
      · rw [if_neg hin, if_neg (by omega)]

theorem writei_bytes {r : Option ℕ} (hsrc : Source src bs)
    (hgood : Good d d.dinode) (ht : (d.dinode i).type ≠ .free) (hoff : off ≤ (d.dinode i).size) (hn : off + bs.length ≤ MAXFILE * BSIZE)
    (hw : writei d i (d.dinode i) src off bs.length = .ok (r, d', e)) : r = some bs.length ∧ bytesOf d'.block e = overwrite (d.bytes i) off bs := by
  have hmax : MAXFILE * BSIZE < 2 ^ 31 := by decide
  have hwrap : (off + bs.length) % 2 ^ 32 = off + bs.length := Nat.mod_eq_of_lt (by omega)
  have hgood' : Good d (update d.dinode i (d.dinode i)) := by rwa [update_eq_self]
  have hdense := hgood.dense i ht
  rw [writei, if_neg (by omega), if_neg (by omega)] at hw
  cases hloop : writeiLoop src bs.length d (d.dinode i) off 0 bs.length with
  | error err =>
    rw [hloop] at hw
    cases hw
  | ok q =>
    obtain ⟨tot, d₁, e₁⟩ := q
    rw [hloop] at hw
    obtain ⟨rfl, hbytes⟩ := (writeiLoop_bytes hsrc hgood' ht le_rfl (Nat.zero_add _) hn).of_ok hloop
    obtain ⟨-, -, hext, -⟩ := (writeiLoop_spec hgood' ht (fun bn hbn => hdense.mapped bn (by omega)) hn).of_ok hloop
    have hsize : e₁.size = (d.dinode i).size := by rw [hext.1.info]
    rw [Nat.zero_add] at hw
    cases hw
    refine ⟨rfl, List.ext_getElem? fun x => ?_⟩
    have hblock : ∀ x, byteOf d₁.block (if off + bs.length > e₁.size then
        { e₁ with size := off + bs.length } else e₁) x = byteOf d₁.block e₁ x := by
      intro x
      split <;> rfl
    have hlen : (if off + bs.length > e₁.size then
        { e₁ with size := off + bs.length } else e₁).size = max (d.dinode i).size (off + bs.length) := by
      rw [← hsize]
      split
      · dsimp only
        omega
      · omega
    have hold : (d.bytes i).length = (d.dinode i).size := length_bytesOf
    rw [getElem?_overwrite (by rw [hold]; exact hoff), getElem?_bytesOf, hlen]
    change (if _ then some (byteOf d₁.block _ x) else none) = _
    rw [hblock]
    by_cases hin : off ≤ x ∧ x < off + bs.length
    · rw [if_pos hin, if_pos (by omega), hbytes x (.inr hin), if_pos hin, Nat.zero_add,
        List.getD_eq_getElem?_getD, List.getElem?_eq_getElem (by omega)]
      rfl
    · rw [if_neg hin, Disk.bytes, getElem?_bytesOf]
      by_cases hx : x < (d.dinode i).size
      · rw [if_pos hx, if_pos (by omega), hbytes x (.inl (hdense.mapped_of_lt hx)), if_neg hin]
      · rw [if_neg hx, if_neg (by omega)]

end Xv6.FileSys
