import Mathlib.Algebra.Ring.Int.Defs
import Mathlib.Data.Nat.Notation
import Mathlib.Tactic.Ring

/-!
# The numbers that `printf` prints

`vprintf` of `user/printf.c` on any format and any arguments, each of which is in a word of 64 bits. What it prints is given in pieces: the
characters of the format, and one text for each conversion. A number that is read back from its text is the argument, with one exception:
the argument of `%l` is handed to `printint` as an `int`, so that only its lower half is printed.
-/

namespace Xv6.Printf

/-- `0123456789ABCDEF`. -/
def digits : List UInt8 := [48, 49, 50, 51, 52, 53, 54, 55, 56, 57, 65, 66, 67, 68, 69, 70]

/-- The loop of `printint` over the digits, with room for so many characters in `buf`; `none` if it overruns. -/
def digitLoop (base : ℕ) : ℕ → ℕ → List UInt8 → Option (List UInt8)
  | 0, _, _ => none
  | room + 1, x, buf =>
    let buf := buf ++ [digits.getD (x % base) 0]
    let x := x / base
    if x ≠ 0 then digitLoop base room x buf else some buf

/-- `printint`, whose `buf` has 16 characters. -/
def printint (xx : BitVec 32) (base : ℕ) (sgn : Bool) : Option (List UInt8) :=
  let neg := sgn = true ∧ xx.toInt < 0
  let x := if neg then -xx else xx
  (digitLoop base 16 x.toNat []).bind fun buf =>
    if neg then if buf.length < 16 then some (buf ++ [45]).reverse else none
    else some buf.reverse

def ptrLoop : ℕ → BitVec 64 → List UInt8
  | 0, _ => []
  | n + 1, x => digits.getD (x >>> 60).toNat 0 :: ptrLoop n (x <<< 4)

def printptr (x : BitVec 64) : List UInt8 := 48 :: 120 :: ptrLoop 16 x

/-- A part of a format: a character that is printed as it is, or a conversion. -/
inductive Item
  | char (c : UInt8)
  | conv (c : UInt8)
  deriving DecidableEq

/-- What was printed for an item, and the argument that was taken for it. -/
structure Piece where
  item : Item
  arg : Option (BitVec 64)
  text : List UInt8
  deriving DecidableEq

/-- The branches for the character after a `%`. The strings in memory are given by `str`. -/
def convert (str : BitVec 64 → List UInt8) (c : UInt8) (arg : BitVec 64) : Option (List UInt8) :=
  if c = 100 then printint (arg.setWidth 32) 10 true -- `d`
  else if c = 108 then printint (arg.setWidth 32) 10 false -- `l`
  else if c = 120 then printint (arg.setWidth 32) 16 false -- `x`
  else if c = 112 then some (printptr arg) -- `p`
  else if c = 115 then some (if arg = 0 then [40, 110, 117, 108, 108, 41] else str arg) -- `s`
  else if c = 99 then some [UInt8.ofBitVec (arg.setWidth 8)] -- `c`
  else if c = 37 then some [c]
  else some [37, c]

/-- The branch for the character calls `va_arg`. -/
def takesArg (c : UInt8) : Bool := [100, 108, 120, 112, 115, 99].contains c

/-- The loop of `vprintf`: `percent` is its state, and `k` the number of the next argument. -/
def vprintfLoop (str : BitVec 64 → List UInt8) (ap : ℕ → BitVec 64) :
    List UInt8 → Bool → ℕ → Option (List Piece)
  | [], _, _ => some []
  | c :: fmt, percent, k =>
    if percent then
      (convert str c (ap k)).bind fun text =>
        if takesArg c then
          (vprintfLoop str ap fmt false (k + 1)).map (⟨.conv c, some (ap k), text⟩ :: ·)
        else (vprintfLoop str ap fmt false k).map (⟨.conv c, none, text⟩ :: ·)
    else if c = 37 then vprintfLoop str ap fmt true k
    else (vprintfLoop str ap fmt false k).map (⟨.char c, none, [c]⟩ :: ·)

/-- **`vprintf`**, or `none` if a buffer was overrun. -/
def vprintf (str : BitVec 64 → List UInt8) (fmt : List UInt8) (ap : ℕ → BitVec 64) :
    Option (List Piece) :=
  vprintfLoop str ap fmt false 0

/-! ### What should be printed -/

/-- **The items of a format**: a `%` makes a conversion of the character behind it. -/
def items : List UInt8 → List Item
  | [] => []
  | [c] => if c = 37 then [] else [.char c]
  | c :: d :: fmt => if c = 37 then .conv d :: items fmt else .char c :: items (d :: fmt)

/-- **The items with their arguments**: the conversions that take one get them in order, from
number `k` on. -/
def paired (ap : ℕ → BitVec 64) : ℕ → List Item → List (Item × Option (BitVec 64))
  | _, [] => []
  | k, .char c :: is => (.char c, none) :: paired ap k is
  | k, .conv c :: is =>
    if takesArg c then (.conv c, some (ap k)) :: paired ap (k + 1) is
    else (.conv c, none) :: paired ap k is

/-! ### Reading numbers -/

/-- One more digit of a number. -/
def readStep (base n : ℕ) (c : UInt8) : Option ℕ :=
  if digits.idxOf c < base then some (n * base + digits.idxOf c) else none

/-- The number that a text denotes, if it consists of digits. -/
def readNat (base : ℕ) (text : List UInt8) : Option ℕ :=
  if text = [] then none else text.foldlM (readStep base) 0

/-- The decimal number that a text denotes, which may have a sign. -/
def readInt (text : List UInt8) : Option ℤ :=
  if text.head? = some 45 then (readNat 10 text.tail).map fun n : ℕ => -(n : ℤ)
  else (readNat 10 text).map fun n : ℕ => (n : ℤ)

/-- The text of conversion `c` denotes its argument. -/
def Shows (c : UInt8) (arg : BitVec 64) (text : List UInt8) : Prop :=
  (c = 100 → readInt text = some (arg.setWidth 32).toInt) ∧
  (c = 120 → readNat 16 text = some (arg.setWidth 32).toNat) ∧
  (c = 108 → readNat 10 text = some arg.toNat) ∧
  (c = 112 → text.take 2 = [48, 120] ∧ readNat 16 (text.drop 2) = some arg.toNat)

/-- **The text denotes the argument.** -/
def Piece.Denotes (p : Piece) : Prop :=
  ∀ c arg, p.item = .conv c → p.arg = some arg → Shows c arg p.text

variable {base room x n k r : ℕ} {buf text fmt : List UInt8} {c : UInt8} {xx : BitVec 32} {arg : BitVec 64}

theorem readStep_digit (hx : x < base) (hb : base ≤ 16) : readStep base n (digits.getD x 0) = some (n * base + x) := by
  have hidx : ∀ i < 16, digits.idxOf (digits.getD i 0) = i := by decide
  rw [readStep, hidx x (by omega), if_pos hx]

theorem digitLoop_spec (hb : 2 ≤ base) (hb' : base ≤ 16) (hx : x < base ^ k) (hk : 0 < k) (hroom : k ≤ room) :
    ∃ ds, digitLoop base room x buf = some (buf ++ ds) ∧ ds ≠ [] ∧ ds.length ≤ k ∧ ds.reverse.foldlM (readStep base) 0 = some x := by
  induction k generalizing x buf room with
  | zero => omega
  | succ k ih =>
    obtain ⟨room, rfl⟩ : ∃ r, room = r + 1 := ⟨room - 1, by omega⟩
    have hlast : ∀ m, readStep base m (digits.getD (x % base) 0) = some (m * base + x % base) :=
      fun m => readStep_digit (Nat.mod_lt _ (by omega)) hb'
    rw [digitLoop]
    by_cases hmore : x / base = 0
    · refine ⟨[digits.getD (x % base) 0], if_neg (by omega), by simp, by simp, ?_⟩
      rw [List.reverse_singleton, List.foldlM_cons, hlast, Nat.zero_mul, Nat.zero_add,
        Nat.mod_eq_of_lt ((Nat.div_eq_zero_iff_lt (by omega)).mp hmore)]
      rfl
    have hdiv : x / base < base ^ k := by
      rw [Nat.pow_succ, Nat.mul_comm] at hx
      exact Nat.div_lt_of_lt_mul hx
    have hk' : 0 < k := by
      refine Nat.pos_of_ne_zero fun h0 => ?_
      rw [h0, Nat.pow_zero] at hdiv
      exact hmore (Nat.lt_one_iff.mp hdiv)
    obtain ⟨ds, hds, -, hlen, hread⟩ := @ih room (x / base) (buf ++ [digits.getD (x % base) 0]) hdiv hk' (by omega)
    refine ⟨digits.getD (x % base) 0 :: ds, ?_, by simp, by simpa using hlen, ?_⟩
    · rw [if_pos hmore, hds, List.append_assoc, List.singleton_append]
    · rw [List.reverse_cons, List.foldlM_append, hread, Option.bind_eq_bind, Option.bind_some, List.foldlM_cons, hlast,
        Nat.mul_comm, Nat.div_add_mod]
      rfl

theorem printint_spec {sgn : Bool} (hb : 2 ≤ base) (hb' : base ≤ 16) (hk : 2 ^ 32 ≤ base ^ k) (hk' : k < 16) :
    ∃ text, readNat base text = some (if sgn = true ∧ xx.toInt < 0 then -xx else xx).toNat ∧
      printint xx base sgn = some (if sgn = true ∧ xx.toInt < 0 then 45 :: text else text) := by
  have hpos : 0 < k := by
    refine Nat.pos_of_ne_zero fun h0 => ?_
    rw [h0, Nat.pow_zero] at hk
    omega
  obtain ⟨ds, hds, hne, hlen, hread⟩ := @digitLoop_spec base 16 (if sgn = true ∧ xx.toInt < 0 then -xx else xx).toNat k [] hb hb'
    (Nat.lt_of_lt_of_le (BitVec.isLt _) hk) hpos (by omega)
  refine ⟨ds.reverse, ?_, ?_⟩
  · rw [readNat, if_neg (by simpa using hne), hread]
  · rw [printint, hds, List.nil_append, Option.bind_some]
    by_cases hneg : sgn = true ∧ xx.toInt < 0
    · rw [if_pos hneg, if_pos hneg, if_pos (by omega), List.reverse_append]
      rfl
    · rw [if_neg hneg, if_neg hneg]

theorem toNat_neg (h : xx.toInt < 0) : -((-xx).toNat : ℤ) = xx.toInt := by
  have hlt := xx.isLt
  rw [BitVec.toInt_eq_toNat_cond] at h ⊢
  rw [BitVec.toNat_neg]
  split at h <;> omega

theorem readInt_printint : ∃ text, printint xx 10 true = some text ∧ readInt text = some xx.toInt := by
  obtain ⟨text, hread, hprint⟩ := @printint_spec 10 10 xx true (by omega) (by omega) (by decide) (by omega)
  refine ⟨_, hprint, ?_⟩
  by_cases hneg : xx.toInt < 0
  · have hneg' : true = true ∧ xx.toInt < 0 := ⟨rfl, hneg⟩
    rw [if_pos hneg'] at hread ⊢
    rw [readInt, List.head?_cons, if_pos rfl, List.tail_cons, hread, Option.map_some, toNat_neg hneg]
  have hneg' : ¬(true = true ∧ xx.toInt < 0) := fun h => hneg h.2
  rw [if_neg hneg'] at hread ⊢
  have hhead : text.head? ≠ some 45 := by
    intro hhead
    obtain ⟨t, rfl⟩ := List.head?_eq_some_iff.mp hhead
    rw [readNat, if_neg (by simp), List.foldlM_cons, show readStep 10 0 45 = none by decide] at hread
    cases hread
  have hlt := xx.isLt
  rw [readInt, if_neg hhead, hread, Option.map_some, BitVec.toInt_eq_toNat_cond]
  rw [BitVec.toInt_eq_toNat_cond] at hneg
  split at hneg
  · next h => rw [if_pos h]
  · omega

theorem readNat_printint (hb : base = 10 ∨ base = 16) : ∃ text, printint xx base false = some text ∧ readNat base text = some xx.toNat := by
  have hpow : 2 ^ 32 ≤ base ^ 10 := by rcases hb with rfl | rfl <;> decide
  obtain ⟨text, hread, hprint⟩ := @printint_spec base 10 xx false (by omega) (by omega) hpow (by omega)
  exact ⟨text, hprint, hread⟩

theorem ptrLoop_read (hx : arg.toNat = r * 16 ^ (16 - k)) (hr : r < 16 ^ k) (hk : k ≤ 16) :
    (ptrLoop k arg).foldlM (readStep 16) n = some (n * 16 ^ k + r) := by
  induction k generalizing arg r n with
  | zero =>
    obtain rfl : r = 0 := by omega
    rw [Nat.pow_zero, Nat.mul_one]
    rfl
  | succ k ih =>
    have hsub : 16 - k = 16 - (k + 1) + 1 := by omega
    have hpos : 0 < 16 ^ (16 - (k + 1)) := Nat.pow_pos (by omega)
    have htop : (arg >>> 60).toNat = r / 16 ^ k := by
      have h60 : 2 ^ 60 = 16 ^ k * 16 ^ (16 - (k + 1)) := by
        rw [← Nat.pow_add, show k + (16 - (k + 1)) = 15 by omega]
        rfl
      rw [BitVec.toNat_ushiftRight, Nat.shiftRight_eq_div_pow, hx, h60, Nat.mul_div_mul_right _ _ hpos]
    have hshift : (arg <<< 4).toNat = r % 16 ^ k * 16 ^ (16 - k) := by
      have h4 : r * 16 ^ (16 - (k + 1)) * 2 ^ 4 = r * 16 ^ (16 - k) := by
        rw [hsub, Nat.pow_succ 16, Nat.mul_assoc]
        rfl
      have h64 : 2 ^ 64 = 16 ^ k * 16 ^ (16 - k) := by
        rw [← Nat.pow_add, show k + (16 - k) = 16 by omega]
        rfl
      rw [BitVec.toNat_shiftLeft, Nat.shiftLeft_eq, hx, h4, h64, Nat.mul_mod_mul_right]
    have hlt : r / 16 ^ k < 16 := by
      rw [Nat.pow_succ] at hr
      exact Nat.div_lt_of_lt_mul hr
    rw [ptrLoop, List.foldlM_cons, htop, readStep_digit hlt le_rfl, Option.bind_eq_bind, Option.bind_some,
      ih hshift (Nat.mod_lt _ (Nat.pow_pos (by omega))) (by omega)]
    refine congrArg some ?_
    calc (n * 16 + r / 16 ^ k) * 16 ^ k + r % 16 ^ k = n * 16 ^ (k + 1) + (16 ^ k * (r / 16 ^ k) + r % 16 ^ k) := by ring
      _ = n * 16 ^ (k + 1) + r := by rw [Nat.div_add_mod]

theorem readNat_printptr : readNat 16 ((printptr arg).drop 2) = some arg.toNat := by
  have hread := @ptrLoop_read 0 16 arg.toNat arg (by rw [Nat.sub_self, Nat.pow_zero, Nat.mul_one]) arg.isLt le_rfl
  rw [Nat.zero_mul, Nat.zero_add] at hread
  rw [printptr, readNat, if_neg (by simp [ptrLoop])]
  exact hread

/-- **One conversion** is printed without an overrun, and its number is right unless it is too
large for `%l`. -/
theorem convert_spec (str : BitVec 64 → List UInt8) (c : UInt8) (arg : BitVec 64) :
    ∃ text, convert str c arg = some text ∧
      (Shows c arg text ↔ (c = 108 → arg.toNat < 2 ^ 32)) := by
  by_cases hd : c = 100
  · obtain ⟨text, hprint, hread⟩ := @readInt_printint (arg.setWidth 32)
    exact ⟨text, by rw [convert, if_pos hd, hprint], by simp [Shows, hd, hread]⟩
  by_cases hl : c = 108
  · obtain ⟨text, hprint, hread⟩ := @readNat_printint 10 (arg.setWidth 32) (.inl rfl)
    refine ⟨text, by rw [convert, if_neg hd, if_pos hl, hprint], ?_⟩
    simp only [Shows, hl, hread, BitVec.toNat_setWidth]
    simp
  by_cases hx : c = 120
  · obtain ⟨text, hprint, hread⟩ := @readNat_printint 16 (arg.setWidth 32) (.inr rfl)
    refine ⟨text, by rw [convert, if_neg hd, if_neg hl, if_pos hx, hprint], ?_⟩
    simp [Shows, hx, hread]
  by_cases hp : c = 112
  · refine ⟨printptr arg, by rw [convert, if_neg hd, if_neg hl, if_neg hx, if_pos hp], ?_⟩
    have htake : (printptr arg).take 2 = [48, 120] := rfl
    simp [Shows, hp, readNat_printptr, htake]
  · have hsome : ∃ text, convert str c arg = some text := by
      rw [convert, if_neg hd, if_neg hl, if_neg hx, if_neg hp]
      split_ifs <;> exact ⟨_, rfl⟩
    obtain ⟨text, htext⟩ := hsome
    exact ⟨text, htext, by simp [Shows, hd, hl, hx, hp]⟩

theorem items_char (hc : c ≠ 37) : items (c :: fmt) = .char c :: items fmt := by
  cases fmt with
  | nil => exact if_neg hc
  | cons d fmt => exact if_neg hc

/-- What is printed is right for the items `is`, from argument `k` on. -/
structure Printed (ap : ℕ → BitVec 64) (k : ℕ) (is : List Item) (ps : List Piece) : Prop where
  pairs : ps.map (fun p => (p.item, p.arg)) = paired ap k is
  chars : ∀ p ∈ ps, ∀ c, p.item = .char c → p.text = [c]
  denotes : ∀ p ∈ ps, p.Denotes ↔ ∀ arg, p.item = .conv 108 → p.arg = some arg → arg.toNat < 2 ^ 32

theorem vprintfLoop_spec (str : BitVec 64 → List UInt8) (ap : ℕ → BitVec 64) (percent : Bool) :
    ∃ ps, vprintfLoop str ap fmt percent k = some ps ∧
      Printed ap k (items (if percent then 37 :: fmt else fmt)) ps := by
  induction fmt generalizing percent k with
  | nil => exact ⟨[], rfl, by cases percent <;> rfl, by simp, by simp⟩
  | cons c fmt ih =>
    rw [vprintfLoop]
    cases percent with
    | true =>
      obtain ⟨text, htext, hshows⟩ := convert_spec str c (ap k)
      have hitems : items (37 :: c :: fmt) = .conv c :: items fmt := rfl
      simp only [if_true, htext, Option.bind_some, hitems]
      cases harg : takesArg c with
      | true =>
        obtain ⟨ps, hps, hpairs, hchars, hexact⟩ := @ih (k + 1) false
        refine ⟨⟨.conv c, some (ap k), text⟩ :: ps, by rw [hps]; rfl, ?_, ?_, ?_⟩
        · rw [List.map_cons, hpairs, paired, harg]
          rfl
        · exact List.forall_mem_cons.mpr ⟨fun d hd => (by cases hd), hchars⟩
        · refine List.forall_mem_cons.mpr ⟨?_, hexact⟩
          simpa [Piece.Denotes] using hshows
      | false =>
        obtain ⟨ps, hps, hpairs, hchars, hexact⟩ := @ih k false
        refine ⟨⟨.conv c, none, text⟩ :: ps, by rw [hps]; rfl, ?_, ?_, ?_⟩
        · rw [List.map_cons, hpairs, paired, harg]
          rfl
        · exact List.forall_mem_cons.mpr ⟨fun d hd => (by cases hd), hchars⟩
        · exact List.forall_mem_cons.mpr ⟨by simp [Piece.Denotes], hexact⟩
    | false =>
      simp only [Bool.false_eq_true, if_false]
      by_cases hc : c = 37
      · rw [if_pos hc, hc]
        exact ih true
      obtain ⟨ps, hps, hpairs, hchars, hexact⟩ := @ih k false
      rw [if_neg hc, items_char hc]
      refine ⟨⟨.char c, none, [c]⟩ :: ps, by rw [hps]; rfl, ?_, ?_, ?_⟩
      · rw [List.map_cons, hpairs, paired]
        rfl
      · exact List.forall_mem_cons.mpr ⟨fun d hd => (by cases hd; rfl), hchars⟩
      · exact List.forall_mem_cons.mpr ⟨by simp [Piece.Denotes], hexact⟩

/-- **The printed numbers denote their arguments, except for `%l` with an argument of more than
32 bits.** For every format and all arguments no buffer is overrun, and there is one text for each
item of the format, in order: a character is printed as it is, and the conversions take the
arguments one after another. All texts denote their arguments if and only if no `%l` gets an
argument of more than 32 bits. -/
theorem vprintf_denotes (str : BitVec 64 → List UInt8) (fmt : List UInt8) (ap : ℕ → BitVec 64) :
    ∃ ps, vprintf str fmt ap = some ps ∧
      ps.map (fun p => (p.item, p.arg)) = paired ap 0 (items fmt) ∧
      (∀ p ∈ ps, ∀ c, p.item = .char c → p.text = [c]) ∧
      ((∀ p ∈ ps, p.Denotes) ↔
        ∀ arg, (.conv 108, some arg) ∈ paired ap 0 (items fmt) → arg.toNat < 2 ^ 32) := by
  obtain ⟨ps, hps, hpairs, hchars, hexact⟩ := @vprintfLoop_spec 0 fmt str ap false
  refine ⟨ps, hps, hpairs, hchars, fun hall arg hmem => ?_, fun hall p hp => ?_⟩
  · change _ ∈ paired ap 0 (items (if false = true then 37 :: fmt else fmt)) at hmem
    rw [← hpairs] at hmem
    obtain ⟨p, hp, heq⟩ := List.mem_map.mp hmem
    obtain ⟨hitem, harg⟩ := Prod.mk.inj heq
    exact (hexact p hp).mp (hall p hp) arg hitem harg
  · refine (hexact p hp).mpr fun arg hitem harg => hall arg ?_
    change _ ∈ paired ap 0 (items (if false = true then 37 :: fmt else fmt))
    rw [← hpairs]
    exact List.mem_map.mpr ⟨p, hp, by rw [hitem, harg]⟩

/-- For `%l` and 2³² a zero is printed. -/
theorem vprintf_long_zero : ∃ ps, vprintf (fun _ => []) [37, 108] (fun _ => 0x100000000) = some ps ∧
    ∃ p ∈ ps, p.text = [48] ∧ ¬p.Denotes := by
  refine ⟨[⟨.conv 108, some 0x100000000, [48]⟩], by decide, _, List.mem_singleton_self _, rfl, ?_⟩
  exact fun h => absurd ((h 108 _ rfl rfl).2.2.1 rfl) (by decide)

end Xv6.Printf
