import Xv6.Fs.Disk
import Xv6.Pipe.Basic
import Xv6.Vm.Copy

/-!
# Reading from a file

`fileread` asks a pipe, the console or an inode for so many bytes. The number is an `int`, and may be negative: the pipe
and the console deliver nothing then, while `readi` takes it for an unsigned number. Its test for an overflow only finds
this if the file has been read far enough; otherwise it delivers the rest of the file. A pipe gives a byte away before it
is known whether the byte can be delivered.

The state in which a process finds the pipe or the console when it has waited is a parameter.
-/

namespace Xv6.Reading

open Lib Function Paging Pipes

open FileSys (Disk Dinode bmap)

/-! ### The memory of the user -/

def span (va len : ℕ) : List ℕ := (List.range len).map fun i => (va + i) % 2 ^ 64

/-- The memory of the user, and the bytes that were stored in it, with their addresses. Nothing reads this list. -/
structure Dest where
  vm : Vm
  stored : List (ℕ × UInt8)

/-- `copyout`, which stores the bytes up to the first that it cannot. -/
def Dest.copyout (u : Dest) (va : ℕ) (src : List UInt8) : Bool × Dest :=
  ((Paging.copyout u.vm va src).1, ⟨(Paging.copyout u.vm va src).2,
    u.stored ++ ((span va src.length).zip src).take (reach u.vm va src.length)⟩)

/-! ### Pipes -/

def pipeLoop (addr : ℕ) (n : ℤ) : ℕ → Dest → Pipe → ℕ → ℕ × Dest × Pipe
  | 0, u, pi, i => (i, u, pi)
  | fuel + 1, u, pi, i =>
    if (i : ℤ) < n then
      if pi.Empty then (i, u, pi)
      else
        let ch := pi.next
        let pi := pi.take
        let (ok, u) := u.copyout ((addr + i) % 2 ^ 64) [ch]
        if ok then pipeLoop addr n fuel u pi (i + 1) else (i, u, pi)
    else (i, u, pi)

/-- `piperead`, for the pipe as it is when the process need not wait any longer; there is none if the process was
killed. -/
def piperead (u : Dest) (pi : Option Pipe) (addr : ℕ) (n : ℤ) : ℤ × Dest × Option Pipe :=
  match pi with
  | none => (-1, u, none)
  | some pi =>
    let (i, u, pi) := pipeLoop addr n n.toNat u pi 0
    (i, u, some pi)

/-! ### The console -/

def INPUT_BUF : ℕ := 128

/-- `C('D')`, the end of a file. -/
def EOF : UInt8 := 4

def NL : UInt8 := 10

/-- `cons`, as far as `consoleread` is concerned. The read index is a `uint`. -/
structure Cons where
  buf : Fin INPUT_BUF → UInt8
  r : ℕ

instance : NeZero INPUT_BUF := ⟨by decide⟩

def Cons.move (cons : Cons) (k : ℤ) : Cons := { cons with r := ((cons.r + k) % 2 ^ 32).toNat }

/-- The loop of `consoleread`: what is left of `n`, or nothing if the process was killed. `cons k` is the console when the process need
not wait for its `k`-th byte any longer. -/
def consLoop (cons : ℕ → Option Cons) (target : ℕ) : ℕ → ℕ → Dest → Option Cons → ℕ → ℤ → Option ℤ × Dest × Option Cons
  | 0, _, u, last, _, n => (some n, u, last)
  | fuel + 1, k, u, last, dst, n =>
    if n > 0 then
      match cons k with
      | none => (none, u, last)
      | some con =>
        let c := con.buf (Fin.ofNat INPUT_BUF con.r)
        let con := con.move 1
        if c = EOF then
          -- saved for the next time if this call has delivered something
          (some n, u, some (if n < target then con.move (-1) else con))
        else
          let (ok, u) := u.copyout dst [c]
          if ok then
            if c = NL then (some (n - 1), u, some con)
            else consLoop cons target fuel (k + 1) u (some con) ((dst + 1) % 2 ^ 64) (n - 1)
          else (some n, u, some con)
    else (some n, u, last)

/-- `consoleread`. The variable `target` is a `uint`, and so is the difference that is returned. -/
def consoleread (u : Dest) (cons : ℕ → Option Cons) (dst : ℕ) (n : ℤ) : ℤ × Dest × Option Cons :=
  let target := (n % 2 ^ 32).toNat
  match consLoop cons target n.toNat 0 u none dst n with
  | (none, u, con) => (-1, u, con)
  | (some n, u, con) => (wrapInt 32 ((target - n) % 2 ^ 32), u, con)

/-! ### Inodes -/

/-- The loop of `readi` for a destination of the user, in at most `fuel` rounds, with `n` bytes still to read: whether all
could be copied. -/
def readLoop : ℕ → Dest → Disk → Dinode → ℕ → ℕ → ℕ → Except FileSys.Panic (Bool × Dest × Disk × Dinode)
  | 0, u, d, ip, _, _, _ => .ok (true, u, d, ip)
  | fuel + 1, u, d, ip, dst, off, n =>
    if n = 0 then .ok (true, u, d, ip)
    else do
      let (addr, d, ip) ← bmap d ip (off / BSIZE)
      let m := min n (BSIZE - off % BSIZE)
      let (ok, u) := u.copyout dst (load (d.block addr) (off % BSIZE) m)
      if ok then readLoop fuel u d ip ((dst + m) % 2 ^ 64) (off + m) (n - m) else .ok (false, u, d, ip)

/-- `readi` for a destination of the user. The number is returned as an `int`. -/
def readi (u : Dest) (d : Disk) (ip : Dinode) (dst off n : ℕ) : Except FileSys.Panic (ℤ × Dest × Disk × Dinode) :=
  if off > ip.size ∨ (off + n) % 2 ^ 32 < off then .ok (0, u, d, ip)
  else do
    let n := if (off + n) % 2 ^ 32 > ip.size then ip.size - off else n
    let (ok, u, d, ip) ← readLoop n u d ip dst off n
    .ok (if ok then wrapInt 32 n else -1, u, d, ip)

/-! ### Files -/

inductive Origin
  | none
  | pipe (pi : Option Pipe)
  /-- A device, with the console if there is a function to read from it. -/
  | device (major : ℤ) (cons : Option (ℕ → Option Cons))
  | inode (d : Disk) (ip : Dinode)

structure File where
  readable : Bool
  origin : Origin
  /-- A `uint`. -/
  off : ℕ

def NDEV : ℤ := 10

def fileread (u : Dest) (f : File) (addr : ℕ) (n : ℤ) : Except FileSys.Panic (ℤ × Dest × File) :=
  if f.readable = false then .ok (-1, u, f)
  else
    match f.origin with
    | .pipe pi =>
      let (r, u, pi) := piperead u pi addr n
      .ok (r, u, { f with origin := .pipe pi })
    | .device major cons =>
      if major < 0 ∨ major ≥ NDEV then .ok (-1, u, f)
      else
        match cons with
        | none => .ok (-1, u, f)
        | some cons =>
          let (r, u, _) := consoleread u cons addr n
          .ok (r, u, f)
    | .inode d ip => do
      let (r, u, d, ip) ← readi u d ip addr f.off (n % 2 ^ 32).toNat
      let off := if r > 0 then ((f.off + r) % 2 ^ 32).toNat else f.off
      .ok (r, u, { f with origin := .inode d ip, off := off })
    | .none => .error .fileread

/-! ### What is stored -/

variable {u u' : Dest} {va n i len : ℕ} {bs : List UInt8}

@[simp] theorem length_span : (span va len).length = len := by simp [span]

theorem span_add (va m n : ℕ) : span va (m + n) = span va m ++ span ((va + m) % 2 ^ 64) n := by
  rw [span, List.range_add, List.map_append, List.map_map]
  refine congrArg _ (List.map_congr_left fun i _ => ?_)
  simp only [Function.comp_apply, Nat.mod_add_mod, Nat.add_assoc]

theorem span_take {k : ℕ} (hk : k ≤ len) : (span va len).take k = span va k := by
  rw [span, ← List.map_take, List.take_range, Nat.min_eq_left hk, span]

/-- The first `k` bytes of a range were stored at. -/
structure Stored (u : Dest) (va k : ℕ) (u' : Dest) : Prop where
  pt : u'.vm.pt = u.vm.pt
  kept : u.stored <+: u'.stored
  addrs : u'.stored.map Prod.fst = u.stored.map Prod.fst ++ span va k

theorem Stored.refl : Stored u va 0 u := ⟨rfl, List.prefix_refl _, by simp [span]⟩

theorem Stored.trans {u'' : Dest} {m : ℕ} (h : Stored u va m u') (h' : Stored u' ((va + m) % 2 ^ 64) n u'') : Stored u va (m + n) u'' :=
  ⟨h'.pt.trans h.pt, h.kept.trans h'.kept, by rw [h'.addrs, h.addrs, span_add, List.append_assoc]⟩

theorem Stored.length (h : Stored u va n u') : u'.stored.length = u.stored.length + n := by
  have := congrArg List.length h.addrs
  rwa [List.length_map, List.length_append, List.length_map, length_span] at this

theorem copyout_stored (u : Dest) (va : ℕ) (src : List UInt8) : Stored u va (reach u.vm va src.length) (u.copyout va src).2 ∧
      ((u.copyout va src).1 = true ↔ reach u.vm va src.length = src.length) := by
  refine ⟨⟨?_, List.prefix_append .., ?_⟩, ?_⟩
  · rw [Dest.copyout, copyout_eq_bytes]
    exact copyoutBytes_pt ..
  · rw [Dest.copyout, List.map_append, List.map_take, List.map_fst_zip (by rw [length_span])]
    exact congrArg _ (span_take (reach_le ..))
  · rw [Dest.copyout, copyout_eq_bytes]
    exact copyoutBytes_ok ..

/-- What `FileSys.readi` asks of the destination, for the memory of the user. -/
def reaches (vm : Vm) (addr tot m : ℕ) : Bool := decide (reach vm ((addr + tot) % 2 ^ 64) m = m)

/-- The answers of the two loops agree, whatever is made of a number of bytes. -/
theorem answer_congr {ε δ γ : Type} {x : Except ε (Bool × Dest × δ)} {y : Except ε (Option (List UInt8) × δ)}
    (h : x.map (fun r => (if r.1 then some n else none, r.2.2)) = y.map fun r => (r.1.map List.length, r.2)) (w : ℕ → γ) (c : γ) :
    x.map (fun r => (if r.1 then w n else c, r.2.2)) = y.map fun r => (r.1.elim c fun bs => w bs.length, r.2) := by
  cases x <;> cases y <;> simp only [Except.map, Except.error.injEq, Except.ok.injEq, reduceCtorEq] at h ⊢
  · exact h
  · rename_i x y
    obtain ⟨hlen, hrest⟩ := Prod.mk.inj h
    refine congrArg₂ Prod.mk ?_ hrest
    cases hx : x.1 <;> cases hy : y.1 <;> simp [hx, hy] at hlen ⊢
    rw [hlen]

theorem readLoop_readiLoop (fuel tot : ℕ) {vm : Vm} {d : Disk} {ip : Dinode} {off : ℕ} (hpt : u.vm.pt = vm.pt) (hn : n ≤ fuel) :
    (readLoop fuel u d ip ((va + tot) % 2 ^ 64) off n).map (fun r => (if r.1 then some n else none, r.2.2)) =
      (FileSys.readiLoop (reaches vm va) fuel d ip off tot n).map fun r => (r.1.map List.length, r.2) := by
  induction fuel generalizing u d ip off tot n with
  | zero =>
    obtain rfl : n = 0 := Nat.le_zero.mp hn
    rfl
  | succ fuel ih =>
    rw [readLoop, FileSys.readiLoop]
    by_cases h0 : n = 0
    · rw [if_pos h0, if_pos h0, h0]
      rfl
    rw [if_neg h0, if_neg h0]
    cases bmap d ip (off / BSIZE) with
    | error => rfl
    | ok r =>
      obtain ⟨addr, d', ip'⟩ := r
      have hm : 0 < min n (BSIZE - off % BSIZE) := by
        have := Nat.mod_lt off (show 0 < BSIZE by decide)
        omega
      dsimp only [bind, Except.bind]
      generalize hs : min n (BSIZE - off % BSIZE) = s at hm ⊢
      obtain ⟨hstep, hok⟩ := copyout_stored u ((va + tot) % 2 ^ 64) (load (d'.block addr) (off % BSIZE) s)
      rw [length_load, reach_congr hpt] at hok
      by_cases hb : reach vm ((va + tot) % 2 ^ 64) s = s
      · have hnext : ((va + tot) % 2 ^ 64 + s) % 2 ^ 64 = (va + (tot + s)) % 2 ^ 64 := by omega
        rw [if_pos (hok.mpr hb), if_pos (show reaches vm va tot s = true from decide_eq_true hb), hnext]
        have hrest := answer_congr (@ih _ (n - s) (tot + s) d' ip' (off + s) (hstep.pt.trans hpt) (by omega)) (fun k => some (s + k)) none
        rw [Nat.add_sub_of_le (show s ≤ n by omega)] at hrest
        rw [hrest]
        cases FileSys.readiLoop (reaches vm va) fuel d' ip' (off + s) (tot + s) (n - s) with
        | error => rfl
        | ok y =>
          obtain ⟨_ | bs, y⟩ := y
          · rfl
          · simp [Except.map]
      · rw [if_neg (mt hok.mp hb), if_neg (show ¬reaches vm va tot s = true from mt of_decide_eq_true hb)]
        rfl

/-- **`readi` for the memory of the user** does to the disk and the inode what `FileSys.readi` does, and returns the
number of the bytes that it reads, or -1 if not all can be stored. -/
theorem readi_reaches (u : Dest) (d : Disk) (ip : Dinode) (hva : va < 2 ^ 64) (off n : ℕ) :
    (readi u d ip va off n).map (fun r => (r.1, r.2.2)) = (FileSys.readi d ip (reaches u.vm va) off n).map fun r =>
      (r.1.elim (-1) fun bs => wrapInt 32 bs.length, r.2) := by
  rw [readi, FileSys.readi]
  split
  · have hzero : (0 : ℤ) = wrapInt 32 0 := (wrapInt_eq (by decide) (by decide) (by decide)).symm
    exact congrArg Except.ok (Prod.ext hzero rfl)
  dsimp only [bind, Except.bind]
  generalize (if (off + n) % 2 ^ 32 > ip.size then ip.size - off else n) = m
  have hloop := @readLoop_readiLoop u va m m 0 u.vm d ip off rfl le_rfl
  rw [Nat.add_zero, Nat.mod_eq_of_lt hva] at hloop
  rw [← answer_congr hloop (fun k => wrapInt 32 k) (-1)]
  cases readLoop m u d ip va off m <;> rfl

theorem copyout_one (u : Dest) (va : ℕ) (b : UInt8) : u.copyout va [b] = (userPage u.vm va).elim (false, u) fun pa =>
      (true, ⟨poke u.vm pa (va % PGSIZE) [b], u.stored ++ [(va % 2 ^ 64, b)]⟩) := by
  rw [Dest.copyout, copyout_byte]
  cases hpa : userPage u.vm va with
  | none =>
    rw [List.length_singleton, reach_none hpa, List.take_zero, List.append_nil]
    rfl
  | some pa =>
    rw [List.length_singleton, reach_succ hpa]
    rfl

/-! ### What a pipe delivers -/

def bytesIn (pi : Pipe) : List UInt8 :=
  (List.range ((pi.nwrite + UINT - pi.nread) % UINT)).map fun k => pi.data (Fin.ofNat PIPESIZE (pi.nread + k))

/-- The counters are of type `uint`. -/
def Counted (pi : Pipe) : Prop := pi.nread < UINT ∧ pi.nwrite < UINT

variable {pi pi' : Pipe} {addr : ℕ}

theorem Counted.take (h : Counted pi) : Counted pi.take := ⟨Nat.mod_lt _ (by decide), h.2⟩

theorem bytesIn_empty (h : Counted pi) : pi.Empty ↔ bytesIn pi = [] := by
  have hU : UINT = 2 ^ 32 := rfl
  have h1 := h.1
  have h2 := h.2
  rw [bytesIn, List.map_eq_nil_iff, List.range_eq_nil, Pipe.Empty]
  rw [hU] at h1 h2 ⊢
  omega

theorem bytesIn_take (h : Counted pi) (hne : ¬pi.Empty) : bytesIn pi = pi.next :: bytesIn pi.take := by
  have hU : UINT = 2 ^ 32 := rfl
  have h1 := h.1
  have h2 := h.2
  rw [Pipe.Empty] at hne
  have hcount : (pi.nwrite + UINT - pi.nread) % UINT = (pi.nwrite + UINT - (pi.nread + 1) % UINT) % UINT + 1 := by
    rw [hU] at h1 h2 ⊢
    omega
  rw [bytesIn, hcount, List.range_succ_eq_map, List.map_cons, List.map_map]
  refine congrArg₂ _ rfl (List.map_congr_left fun k _ => congrArg pi.data (Fin.ext ?_))
  have hP : PIPESIZE = 512 := rfl
  simp only [Pipe.take, Fin.ofNat_eq_cast, Fin.val_natCast, hP, hU]
  omega

/-- **The loop of `piperead`**: it delivers bytes up to the first it cannot deliver, and this one is lost. -/
theorem pipeLoop_spec (addr : ℕ) {m : ℤ} {fuel : ℕ} (hpi : Counted pi) (hfuel : m.toNat - i ≤ fuel) :
    ∃ k u' pi', pipeLoop addr m fuel u pi i = (i + k, u', pi') ∧ k = reach u.vm ((addr + i) % 2 ^ 64) (min (m.toNat - i) (bytesIn pi).length) ∧
      u'.stored = u.stored ++ (span ((addr + i) % 2 ^ 64) k).zip (bytesIn pi) ∧
      bytesIn pi' = (bytesIn pi).drop (if k < min (m.toNat - i) (bytesIn pi).length then k + 1 else k) := by
  induction fuel generalizing u pi i with
  | zero =>
    have h0 : min (m.toNat - i) (bytesIn pi).length = 0 := by omega
    refine ⟨0, u, pi, rfl, ?_, by simp [span], ?_⟩
    · rw [h0]
      rfl
    · rw [h0]
      rfl
  | succ fuel ih =>
    rw [pipeLoop]
    by_cases hi : (i : ℤ) < m
    · rw [if_pos hi]
      by_cases hempty : pi.Empty
      · rw [if_pos hempty]
        have hnil := (bytesIn_empty hpi).mp hempty
        refine ⟨0, u, pi, rfl, ?_, by simp [span], ?_⟩
        · rw [hnil, List.length_nil, Nat.min_zero]
          rfl
        · rw [hnil, List.drop_nil]
      rw [if_neg hempty]
      have hbytes := bytesIn_take hpi hempty
      have hmin : min (m.toNat - i) (bytesIn pi).length = min (m.toNat - (i + 1)) (bytesIn pi.take).length + 1 := by
        rw [hbytes, List.length_cons]
        omega
      dsimp only
      rw [copyout_one]
      cases hpa : userPage u.vm ((addr + i) % 2 ^ 64) with
      | none =>
        refine ⟨0, u, pi.take, rfl, ?_, by simp [span], ?_⟩
        · rw [hmin, reach_none hpa]
        · rw [hmin, if_pos (Nat.succ_pos _), hbytes]
          rfl
      | some pa =>
        have hmod : ((addr + i) % 2 ^ 64 + 1) % 2 ^ 64 = (addr + (i + 1)) % 2 ^ 64 := by
          rw [Nat.mod_add_mod, Nat.add_assoc]
        obtain ⟨k, u', pi', hloop, hk, hstored, hrest⟩ := ih (i := i + 1)
          (u := ⟨poke u.vm pa ((addr + i) % 2 ^ 64 % PGSIZE) [pi.next], u.stored ++ [((addr + i) % 2 ^ 64 % 2 ^ 64, pi.next)]⟩)
          hpi.take (by omega)
        rw [reach_poke] at hk
        refine ⟨k + 1, u', pi', ?_, ?_, ?_, ?_⟩
        · rw [Nat.add_comm k 1, ← Nat.add_assoc]
          exact hloop
        · rw [hmin, reach, hpa, hmod, hk]
          rfl
        · have hspan : span ((addr + i) % 2 ^ 64) (k + 1) = (addr + i) % 2 ^ 64 % 2 ^ 64 :: span ((addr + (i + 1)) % 2 ^ 64) k := by
            rw [Nat.add_comm k 1, span_add, hmod]
            rfl
          rw [hstored, hspan, hbytes, List.zip_cons_cons, List.append_assoc]
          rfl
        · rw [hrest, hmin, hbytes]
          by_cases hlt : k < min (m.toNat - (i + 1)) (bytesIn pi.take).length
          · rw [if_pos hlt, if_pos (by omega), List.drop_succ_cons]
          · rw [if_neg hlt, if_neg (by omega), List.drop_succ_cons]
    · rw [if_neg hi]
      have h0 : min (m.toNat - i) (bytesIn pi).length = 0 := by omega
      refine ⟨0, u, pi, rfl, ?_, by simp [span], ?_⟩
      · rw [h0]
        rfl
      · rw [h0]
        rfl

/-- **What `piperead` should do**, if it returns `r`: it has stored the first `r` bytes of the pipe, one after the other from `addr`
on, and the others are still there. -/
structure Delivers (u : Dest) (pi : Pipe) (addr : ℕ) (r : ℤ) (u' : Dest) (pi' : Option Pipe) : Prop where
  stored : u'.stored = u.stored ++ (span addr r.toNat).zip (bytesIn pi)
  length : r.toNat ≤ (bytesIn pi).length
  rest : pi'.map bytesIn = some ((bytesIn pi).drop r.toNat)

/-- **`piperead` does what it should if and only if it can deliver every byte that it tries to.** -/
theorem piperead_delivers_iff (h : Tree u.vm.pt) (hpi : Counted pi) (haddr : addr < 2 ^ 64) (m : ℤ) :
    ∃ r u' pi', piperead u (some pi) addr m = (r, u', pi') ∧ 0 ≤ r ∧ (Delivers u pi addr r u' pi' ↔
        ∀ i, i < min m.toNat (bytesIn pi).length → UserAt u.vm ((addr + i) % 2 ^ 64)) := by
  obtain ⟨k, u', pi', hloop, hk, hstored, hrest⟩ :=
    pipeLoop_spec (u := u) (m := m) (i := 0) addr hpi (show m.toNat - 0 ≤ m.toNat by omega)
  rw [Nat.zero_add] at hloop
  rw [Nat.add_zero, Nat.mod_eq_of_lt haddr, Nat.sub_zero] at hk
  rw [Nat.add_zero, Nat.mod_eq_of_lt haddr] at hstored
  rw [Nat.sub_zero] at hrest
  refine ⟨k, u', some pi', ?_, Int.natCast_nonneg k, ?_⟩
  · rw [piperead, hloop]
  have hle : k ≤ min m.toNat (bytesIn pi).length := hk ▸ reach_le ..
  rw [← reach_eq_iff h haddr, ← hk]
  constructor
  · intro hd
    have hdrop := Option.some.inj hd.rest
    rw [hrest, Int.toNat_natCast] at hdrop
    by_contra hne
    have hlen := congrArg List.length hdrop
    rw [if_pos (by omega), List.length_drop, List.length_drop] at hlen
    omega
  · intro heq
    refine ⟨hstored, by rw [Int.toNat_natCast]; omega, ?_⟩
    rw [Option.map_some, hrest, if_neg (by omega), Int.toNat_natCast]

def oneByte : Pipe := (pipealloc fun _ => 0).store 7

theorem oneByte_counted : Counted oneByte := ⟨by decide, by decide⟩

/-- The byte is read to the last address of the memory. -/
theorem piperead_delivers_twoPages : ∃ r u' pi', piperead ⟨twoPages, []⟩ (some oneByte) 8191 1 = (r, u', pi') ∧
    Delivers ⟨twoPages, []⟩ oneByte 8191 r u' pi' := by
  obtain ⟨r, u', pi', hrun, -, hiff⟩ :=
    piperead_delivers_iff (u := ⟨twoPages, []⟩) twoPages_tree oneByte_counted (show 8191 < 2 ^ 64 by decide) 1
  refine ⟨r, u', pi', hrun, hiff.mpr fun i hi => ?_⟩
  obtain rfl : i = 0 := by
    have : (1 : ℤ).toNat = 1 := rfl
    omega
  exact ⟨by decide, _, rfl, rfl⟩

/-- **A byte is lost** if the buffer cannot be written to: the call delivers nothing, and the pipe is empty. -/
theorem piperead_loses : Counted oneByte ∧ bytesIn oneByte = [7] ∧
    ∃ u' pi', piperead ⟨twoPages, []⟩ (some oneByte) 8192 1 = (0, u', some pi') ∧ u'.stored = [] ∧ bytesIn pi' = [] ∧
      ¬Delivers ⟨twoPages, []⟩ oneByte 8192 0 u' (some pi') := by
  refine ⟨oneByte_counted, by decide, ⟨twoPages, []⟩, oneByte.take, rfl, rfl, by decide, fun hd => ?_⟩
  exact absurd (Option.some.inj hd.rest) (by decide)

/-! ### How much a read delivers -/

/-- **What a read may do**, if it returns `r`: it stores at most as many bytes as were asked for, within the buffer, says how many
they were, and moves on by this number. -/
structure Bounded (u : Dest) (f : File) (addr : ℕ) (n r : ℤ) (u' : Dest) (f' : File) : Prop where
  stored : ∃ new, u'.stored = u.stored ++ new ∧ new.length ≤ n.toNat ∧
    (∀ x ∈ new, ∃ i, i < n.toNat ∧ x.1 = (addr + i) % 2 ^ 64) ∧ (r = -1 ∨ r = new.length)
  off : ∀ d ip, f.origin = .inode d ip → (f'.off : ℤ) = f.off + max r 0

variable {f f' : File} {k : ℕ} {m r : ℤ} {d d' : Disk} {ip ip' : Dinode}

theorem Stored.new (h : Stored u va k u') : ∃ new, u'.stored = u.stored ++ new ∧ new.map Prod.fst = span va k := by
  obtain ⟨new, hnew⟩ := h.kept
  have haddrs := h.addrs
  rw [← hnew, List.map_append] at haddrs
  exact ⟨new, hnew.symm, List.append_cancel_left haddrs⟩

theorem Stored.bounded (h : Stored u addr k u') (hk : k ≤ m.toNat) (hr : r = -1 ∨ r = k)
    (hoff : ∀ d ip, f.origin = .inode d ip → (f'.off : ℤ) = f.off + max r 0) : Bounded u f addr m r u' f' := by
  obtain ⟨new, hnew, hmap⟩ := h.new
  have hlen : new.length = k := by
    rw [← List.length_map Prod.fst, hmap, length_span]
  refine ⟨⟨new, hnew, hlen ▸ hk, fun x hx => ?_, hlen ▸ hr⟩, hoff⟩
  have hmem : x.1 ∈ span addr k := hmap ▸ List.mem_map_of_mem hx
  obtain ⟨i, hi, heq⟩ := List.mem_map.mp hmem
  exact ⟨i, (List.mem_range.mp hi).trans_le hk, heq.symm⟩

theorem Bounded.eq_zero (h : Bounded u f addr m r u' f') (hm : m ≤ 0) (hu : Stored u addr k u') : k = 0 := by
  obtain ⟨new, hnew, hlen, -⟩ := h.stored
  have := hu.length
  rw [hnew, List.length_append] at this
  omega

theorem pipeLoop_stored (fuel addr : ℕ) (u : Dest) (pi : Pipe) : ∃ k u' pi', pipeLoop addr m fuel u pi i = (i + k, u', pi') ∧ (k = 0 ∨ (i + k : ℤ) ≤ m) ∧
    Stored u ((addr + i) % 2 ^ 64) k u' := by
  induction fuel generalizing u pi i with
  | zero => exact ⟨0, u, pi, rfl, .inl rfl, Stored.refl⟩
  | succ fuel ih =>
    rw [pipeLoop]
    by_cases hi : (i : ℤ) < m
    · rw [if_pos hi]
      by_cases hempty : pi.Empty
      · rw [if_pos hempty]
        exact ⟨0, u, pi, rfl, .inl rfl, Stored.refl⟩
      rw [if_neg hempty]
      obtain ⟨hstep, hok⟩ := copyout_stored u ((addr + i) % 2 ^ 64) [pi.next]
      dsimp only
      by_cases hb : (u.copyout ((addr + i) % 2 ^ 64) [pi.next]).1 = true
      · rw [if_pos hb]
        rw [hok.mp hb, List.length_singleton] at hstep
        obtain ⟨k, u', pi', hloop, hk, hrest⟩ := ih (u.copyout ((addr + i) % 2 ^ 64) [pi.next]).2 pi.take (i := i + 1)
        rw [show (addr + (i + 1)) % 2 ^ 64 = ((addr + i) % 2 ^ 64 + 1) % 2 ^ 64 by
          rw [Nat.mod_add_mod, Nat.add_assoc]] at hrest
        refine ⟨1 + k, u', pi', ?_, .inr ?_, hstep.trans hrest⟩
        · rw [hloop, Nat.add_assoc]
        · push_cast at hk ⊢
          omega
      · rw [if_neg hb]
        have h0 : reach u.vm ((addr + i) % 2 ^ 64) [pi.next].length = 0 := by
          have hle := reach_le u.vm ((addr + i) % 2 ^ 64) [pi.next].length
          have hne := mt hok.mpr hb
          rw [List.length_singleton] at hle hne ⊢
          omega
        rw [h0] at hstep
        exact ⟨0, _, _, rfl, .inl rfl, hstep⟩
    · rw [if_neg hi]
      exact ⟨0, u, pi, rfl, .inl rfl, Stored.refl⟩

theorem consLoop_stored (cons : ℕ → Option Cons) (target fuel j va : ℕ) (u : Dest) (last : Option Cons) (m : ℤ) :
    ∃ k res u' con, consLoop cons target fuel j u last va m = (res, u', con) ∧ k ≤ m.toNat ∧ Stored u va k u' ∧
      (res = none ∨ res = some (m - k)) := by
  have hstop : ∀ con : Option Cons, ∃ (k : ℕ) (res : Option ℤ) (u' : Dest) (con' : Option Cons),
      (some m, u, con) = (res, u', con') ∧ k ≤ m.toNat ∧ Stored u va k u' ∧ (res = none ∨ res = some (m - k)) := by
    intro con
    exact ⟨0, _, _, _, rfl, Nat.zero_le _, .refl, .inr (by simp)⟩
  induction fuel generalizing u va m j last with
  | zero => exact hstop _
  | succ fuel ih =>
    rw [consLoop]
    by_cases hm : m > 0
    · rw [if_pos hm]
      cases cons j with
      | none => exact ⟨0, _, _, _, rfl, Nat.zero_le _, .refl, .inl rfl⟩
      | some con =>
        dsimp only
        by_cases heof : con.buf (Fin.ofNat INPUT_BUF con.r) = EOF
        · rw [if_pos heof]
          exact hstop _
        rw [if_neg heof]
        obtain ⟨hstep, hok⟩ := copyout_stored u va [con.buf (Fin.ofNat INPUT_BUF con.r)]
        have hle := reach_le u.vm va [con.buf (Fin.ofNat INPUT_BUF con.r)].length
        rw [List.length_singleton] at hstep hok hle
        by_cases hb : (u.copyout va [con.buf (Fin.ofNat INPUT_BUF con.r)]).1 = true
        · rw [if_pos hb]
          rw [hok.mp hb] at hstep
          by_cases hnl : con.buf (Fin.ofNat INPUT_BUF con.r) = NL
          · rw [if_pos hnl]
            exact ⟨1, _, _, _, rfl, by omega, hstep, .inr rfl⟩
          rw [if_neg hnl]
          obtain ⟨k, res, u', con', hloop, hk, hrest, hres⟩ := ih (j + 1) ((va + 1) % 2 ^ 64)
            (u.copyout va [con.buf (Fin.ofNat INPUT_BUF con.r)]).2 (some (con.move 1)) (m - 1)
            fun con => ⟨0, _, _, _, rfl, Nat.zero_le _, .refl, .inr (by simp)⟩
          refine ⟨1 + k, res, u', con', hloop, by omega, hstep.trans hrest, hres.imp_right fun h => ?_⟩
          rw [h]
          push_cast
          exact congrArg some (by omega)
        · rw [if_neg hb]
          have h0 : reach u.vm va 1 = 0 := by
            have hne := mt hok.mpr hb
            omega
          rw [h0] at hstep
          exact ⟨0, _, _, _, rfl, Nat.zero_le _, hstep, .inr (by simp)⟩
    · rw [if_neg hm]
      exact hstop _

theorem reach_pos_iff (vm : Vm) (va : ℕ) (hlen : 0 < len) : (userPage vm va).isSome ↔ 0 < reach vm va len := by
  obtain ⟨t, rfl⟩ : ∃ t, len = t + 1 := ⟨len - 1, by omega⟩
  cases hpa : userPage vm va with
  | none => simp [reach_none hpa]
  | some pa => simp [reach_succ hpa]

theorem readLoop_stored {fuel dst off : ℕ} {b : Bool} (hn : n ≤ fuel) (h : readLoop fuel u d ip dst off n = .ok (b, u', d', ip')) :
    ∃ k, k ≤ n ∧ Stored u dst k u' ∧ (b = true → k = n) ∧ (0 < n → ((userPage u.vm dst).isSome ↔ 0 < k)) := by
  have hB : BSIZE = 1024 := rfl
  induction fuel generalizing u d ip dst off n with
  | zero =>
    rw [readLoop] at h
    cases h
    exact ⟨0, Nat.zero_le _, .refl, fun _ => by omega, fun h0 => absurd h0 (by omega)⟩
  | succ fuel ih =>
    rw [readLoop] at h
    by_cases h0 : n = 0
    · rw [if_pos h0] at h
      cases h
      exact ⟨0, Nat.zero_le _, .refl, fun _ => h0.symm, fun hpos => absurd hpos (by omega)⟩
    rw [if_neg h0] at h
    obtain ⟨⟨pa, d₁, ip₁⟩, -, h⟩ := of_bind_eq_ok h
    dsimp only at h
    have hm : 0 < min n (BSIZE - off % BSIZE) ∧ min n (BSIZE - off % BSIZE) ≤ n := by
      have := Nat.mod_lt off (show 0 < BSIZE by decide)
      omega
    generalize min n (BSIZE - off % BSIZE) = s at h hm
    obtain ⟨hstep, hok⟩ := copyout_stored u dst (load (d₁.block pa) (off % BSIZE) s)
    have hle := reach_le u.vm dst s
    rw [length_load] at hstep hok
    have hfirst := reach_pos_iff u.vm dst hm.1
    by_cases hb : (u.copyout dst (load (d₁.block pa) (off % BSIZE) s)).1 = true
    · rw [if_pos hb] at h
      rw [hok.mp hb] at hstep
      obtain ⟨k, hk, hrest, hall, -⟩ := ih (by omega) h
      refine ⟨s + k, by omega, hstep.trans hrest, fun hb => by have := hall hb; omega, fun _ => ?_⟩
      rw [hfirst, hok.mp hb]
      omega
    · rw [if_neg hb] at h
      cases h
      exact ⟨_, hle.trans hm.2, hstep, fun hb => absurd hb (by decide), fun _ => hfirst⟩

theorem piperead_bounded {pi : Option Pipe} {pi' : Option Pipe} (hf : ∀ d ip, f.origin ≠ .inode d ip)
    (h : piperead u pi addr m = (r, u', pi')) (haddr : addr < 2 ^ 64) : Bounded u f addr m r u' f' := by
  have hoff : ∀ d ip, f.origin = .inode d ip → (f'.off : ℤ) = f.off + max r 0 := fun d ip h => absurd h (hf d ip)
  cases pi with
  | none =>
    cases h
    exact Stored.refl.bounded (Nat.zero_le _) (.inl rfl) hoff
  | some pi =>
    obtain ⟨k, u₁, pi₁, hloop, hk, hst⟩ := pipeLoop_stored m.toNat addr u pi (m := m) (i := 0)
    rw [piperead, hloop] at h
    cases h
    rw [Nat.add_zero, Nat.mod_eq_of_lt haddr] at hst
    exact hst.bounded (by omega) (.inr (by simp)) hoff

theorem consoleread_bounded {cons : ℕ → Option Cons} {con : Option Cons} (hm : -2 ^ 31 ≤ m ∧ m < 2 ^ 31)
    (hf : ∀ d ip, f.origin ≠ .inode d ip) (h : consoleread u cons addr m = (r, u', con)) : Bounded u f addr m r u' f' := by
  have hoff : ∀ d ip, f.origin = .inode d ip → (f'.off : ℤ) = f.off + max r 0 := fun d ip h => absurd h (hf d ip)
  obtain ⟨k, res, u₁, con₁, hloop, hk, hst, hres⟩ := consLoop_stored cons (m % 2 ^ 32).toNat m.toNat 0 addr u none m
  rw [consoleread, hloop] at h
  rcases hres with rfl | rfl
  · cases h
    exact hst.bounded hk (.inl rfl) hoff
  · cases h
    refine hst.bounded hk (.inr ?_) hoff
    -- the difference of the two unsigned numbers is the number of bytes
    have hmod : (((m % 2 ^ 32).toNat : ℤ) - (m - k)) % 2 ^ 32 = k := by omega
    rw [hmod, wrapInt_eq (by decide) (by omega) (by omega)]

theorem readi_stored {off N : ℕ} (hoff : off < 2 ^ 32) (hsize : ip.size < 2 ^ 32) (hN : N < 2 ^ 32)
    (h : readi u d ip addr off N = .ok (r, u', d', ip')) : ∃ k, k ≤ N ∧ Stored u addr k u' ∧ (r = -1 ∨ r = wrapInt 32 k) ∧ off + k < 2 ^ 32 ∧
      (0 < k ↔ off + N < 2 ^ 32 ∧ off < ip.size ∧ 0 < N ∧ (userPage u.vm addr).isSome) := by
  rw [readi] at h
  by_cases htest : off > ip.size ∨ (off + N) % 2 ^ 32 < off
  · rw [if_pos htest] at h
    cases h
    refine ⟨0, Nat.zero_le _, .refl, .inr (wrapInt_eq (by decide) (by decide) (by decide)).symm, hoff, ?_⟩
    constructor
    · intro h0
      exact absurd h0 (Nat.lt_irrefl 0)
    · rintro ⟨h1, h2, -, -⟩
      omega
  rw [if_neg htest] at h
  obtain ⟨⟨b, u₁, d₁, ip₁⟩, hloop, h⟩ := of_bind_eq_ok h
  have hlen : (if (off + N) % 2 ^ 32 > ip.size then ip.size - off else N) = min N (ip.size - off) := by
    split <;> omega
  dsimp only at h hloop
  rw [hlen] at h hloop
  cases h
  obtain ⟨k, hk, hst, hall, hfirst⟩ := readLoop_stored le_rfl hloop
  refine ⟨k, by omega, hst, ?_, by omega, ?_⟩
  · cases b with
    | true =>
      rw [hall rfl]
      exact .inr (if_pos rfl)
    | false => exact .inl (if_neg Bool.false_ne_true)
  · constructor
    · intro hpos
      exact ⟨by omega, by omega, by omega, (hfirst (by omega)).mpr hpos⟩
    · rintro ⟨-, h2, h3, hpa⟩
      exact (hfirst (by omega)).mp hpa

/-- A negative number of bytes is asked for, and bytes of the inode are delivered. -/
def Overread (u : Dest) (f : File) (addr : ℕ) (n : ℤ) : Prop :=
  f.readable = true ∧ n < 0 ∧ (userPage u.vm addr).isSome ∧ ∃ d ip, f.origin = .inode d ip ∧ (f.off : ℤ) < -n ∧ f.off < ip.size

/-- **`fileread` stores no more than it was asked for if and only if the number is not negative**, or there is nothing to read, or the
test for an overflow finds it, or nothing can be stored. -/
theorem fileread_bounded_iff (haddr : addr < 2 ^ 64) (hoff : f.off < 2 ^ 32) (hm : -2 ^ 31 ≤ m ∧ m < 2 ^ 31)
    (hsize : ∀ d ip, f.origin = .inode d ip → ip.size < 2 ^ 32) (h : fileread u f addr m = .ok (r, u', f')) :
    Bounded u f addr m r u' f' ↔ ¬Overread u f addr m := by
  have hother : (∀ d ip, f.origin ≠ .inode d ip) → ¬Overread u f addr m := by
    rintro hne ⟨-, -, -, d, ip, hf, -⟩
    exact hne d ip hf
  rw [fileread] at h
  by_cases hread : f.readable = false
  · rw [if_pos hread] at h
    cases h
    refine iff_of_true (Stored.refl.bounded (Nat.zero_le _) (.inl rfl) fun d ip _ => by simp) ?_
    rintro ⟨htrue, -⟩
    exact absurd (hread.symm.trans htrue) (by decide)
  rw [if_neg hread] at h
  cases hf : f.origin with
  | none =>
    rw [hf] at h
    cases h
  | pipe pi =>
    have hne : ∀ d ip, f.origin ≠ .inode d ip := by simp [hf]
    rw [hf] at h
    cases h
    exact iff_of_true (piperead_bounded hne rfl haddr) (hother hne)
  | device major cons =>
    have hne : ∀ d ip, f.origin ≠ .inode d ip := by simp [hf]
    have hfail : Bounded u f addr m (-1) u f := Stored.refl.bounded (Nat.zero_le _) (.inl rfl) fun d ip _ => by simp
    rw [hf] at h
    dsimp only at h
    refine iff_of_true ?_ (hother hne)
    by_cases hmajor : major < 0 ∨ major ≥ NDEV
    · rw [if_pos hmajor] at h
      cases h
      exact hfail
    rw [if_neg hmajor] at h
    cases cons with
    | none =>
      cases h
      exact hfail
    | some cons =>
      cases h
      exact consoleread_bounded hm hne rfl
  | inode d ip =>
    rw [hf] at h
    obtain ⟨⟨r₁, u₁, d₁, ip₁⟩, hrun, h⟩ := of_bind_eq_ok h
    cases h
    obtain ⟨k, hk, hst, hr, hend, hpos⟩ := readi_stored hoff (hsize d ip hf) (by omega) hrun
    have hover : Overread u f addr m ↔ m < 0 ∧ 0 < k := by
      rw [hpos]
      constructor
      · rintro ⟨-, hneg, hpa, d', ip', hf', hlt, hsz⟩
        cases hf.symm.trans hf'
        exact ⟨hneg, by omega, hsz, by omega, hpa⟩
      · rintro ⟨hneg, hlt, hsz, -, hpa⟩
        exact ⟨Bool.not_eq_false _ ▸ hread, hneg, hpa, d, ip, hf, by omega, hsz⟩
    rw [hover]
    constructor
    · rintro hb ⟨hneg, hk0⟩
      exact absurd (hb.eq_zero hneg.le hst) hk0.ne'
    intro hno
    have hkm : k ≤ m.toNat := by omega
    rw [wrapInt_eq (by decide) (by omega) (by omega)] at hr
    refine hst.bounded hkm hr fun _ _ _ => ?_
    dsimp only
    rcases hr with rfl | rfl
    · simp
    · split <;> omega

def sevens : Disk := ⟨⟨1000, 200, 45⟩, fun _ => true, fun _ => .zero, fun _ _ => 7⟩

def two : Dinode := ⟨.file, 0, 0, 1, 2, fun _ => 100⟩

def twoBytes : File := ⟨true, .inode sevens two, 0⟩

theorem twoBytes_size (d : Disk) (ip : Dinode) (h : twoBytes.origin = .inode d ip) : ip.size < 2 ^ 32 := by
  cases h
  decide

theorem readLoop_sevens {len : ℕ} (hlen : 0 < len) (hle : len ≤ 2) : readLoop len ⟨twoPages, []⟩ sevens two 0 0 len =
      .ok (true, (Dest.copyout ⟨twoPages, []⟩ 0 (List.replicate len 7)).2, sevens, two) := by
  have hmin : min len (BSIZE - 0 % BSIZE) = len := Nat.min_eq_left (hle.trans (by decide))
  have hload : load (sevens.block 100) (0 % BSIZE) len = List.replicate len 7 := by
    obtain rfl | rfl : len = 1 ∨ len = 2 := by omega
    · rfl
    · rfl
  have hreach : reach twoPages 0 len = len := by
    obtain rfl | rfl : len = 1 ∨ len = 2 := by omega
    · decide
    · decide
  obtain ⟨fuel, rfl⟩ : ∃ fuel, len = fuel + 1 := ⟨len - 1, by omega⟩
  rw [readLoop, if_neg (by omega), show bmap sevens two (0 / BSIZE) = .ok (100, sevens, two) from rfl, ok_bind]
  dsimp only
  rw [hmin, hload, if_pos ((copyout_stored _ _ _).2.mpr (by rw [List.length_replicate]; exact hreach)), Nat.sub_self]
  cases fuel <;> rfl

/-- The bytes of `twoBytes` that are read. -/
def taken (len : ℕ) : Dest := (Dest.copyout ⟨twoPages, []⟩ 0 (List.replicate len 7)).2

/-- A byte is asked for. -/
theorem fileread_bounded_twoBytes : fileread ⟨twoPages, []⟩ twoBytes 0 1 = .ok (1, taken 1, { twoBytes with off := 1 }) ∧
    Bounded ⟨twoPages, []⟩ twoBytes 0 1 1 (taken 1) { twoBytes with off := 1 } := by
  have hrun : fileread ⟨twoPages, []⟩ twoBytes 0 1 = .ok (1, taken 1, { twoBytes with off := 1 }) := by
    rw [fileread, if_neg (by decide), twoBytes]
    dsimp only
    have hN : ((1 : ℤ) % 2 ^ 32).toNat = 1 := by decide
    rw [hN, readi, if_neg (by decide)]
    dsimp only
    rw [if_neg (by decide), readLoop_sevens (by decide) (by decide), ok_bind]
    dsimp only
    rw [if_pos rfl, show wrapInt 32 (1 : ℕ) = 1 from by decide, ok_bind]
    rfl
  refine ⟨hrun, (fileread_bounded_iff (by decide) (by decide) (by decide) twoBytes_size hrun).mpr ?_⟩
  rintro ⟨-, hneg, -⟩
  exact absurd hneg (by decide)

/-- **Minus one byte is asked for**, and both are delivered. -/
theorem fileread_overreads : fileread ⟨twoPages, []⟩ twoBytes 0 (-1) = .ok (2, taken 2, { twoBytes with off := 2 }) ∧
    (taken 2).stored = [(0, 7), (1, 7)] ∧ ¬Bounded ⟨twoPages, []⟩ twoBytes 0 (-1) 2 (taken 2) { twoBytes with off := 2 } := by
  have hstored : (taken 2).stored = [(0, 7), (1, 7)] := by decide
  refine ⟨?_, hstored, fun hb => ?_⟩
  · rw [fileread, if_neg (by decide), twoBytes]
    dsimp only
    have hN : ((-1 : ℤ) % 2 ^ 32).toNat = 4294967295 := by decide
    rw [hN, readi, if_neg (by decide)]
    dsimp only
    rw [if_pos (by decide), show two.size - 0 = 2 from rfl, readLoop_sevens (by decide) (by decide), ok_bind]
    dsimp only
    rw [if_pos rfl, show wrapInt 32 (2 : ℕ) = 2 from by decide, ok_bind]
    rfl
  · obtain ⟨new, hnew, hlen, -⟩ := hb.stored
    rw [hstored] at hnew
    have := congrArg List.length hnew
    rw [List.length_append, List.length_cons, List.length_cons, List.length_nil] at this
    omega

end Xv6.Reading
