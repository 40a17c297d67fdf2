import Xv6.Fs.Bytes
import Xv6.Fs.Types

/-!
# Writing to one open file at once

Processes that share an open file share its offset. `filewrite` writes in chunks, and holds the
lock of the inode from before it looks at the offset until it has moved it on; in between the
chunks other processes may come. So the chunks of all the calls end up one after the other, in the
order in which the lock was taken.
-/

namespace Xv6.FileSys

open Lib Function

open Logging (Page copyinLoop copyin)

variable {ninodes : ℕ} {c : Pid → Option (ℕ × IType)} {src : ℕ → ℕ → List UInt8 × Bool} {prog : Prog Unit}
  {bs : List UInt8} {d : Pid → Draft} {u : Pid → View} {disk : Disk}

/-! ### Buffers -/

def userByte (user : ℕ → Option Page) (va : ℕ) : UInt8 :=
  (user (va / PGSIZE)).elim 0 fun page => byteAt page (va % PGSIZE)

def userBytes (user : ℕ → Option Page) (addr n : ℕ) : List UInt8 :=
  (List.range n).map fun j => userByte user (addr + j)

def ValidBuffer (user : ℕ → Option Page) (addr n : ℕ) : Prop :=
  ∀ j < n, (user ((addr + j) / PGSIZE)).isSome

instance (user : ℕ → Option Page) (addr n : ℕ) : Decidable (ValidBuffer user addr n) := by
  unfold ValidBuffer
  infer_instance

variable {user : ℕ → Option Page} {addr n m i fuel : ℕ}

@[simp] theorem length_userBytes : (userBytes user addr n).length = n := by
  simp [userBytes]

theorem userBytes_append : userBytes user addr (m + n) = userBytes user addr m ++ userBytes user (addr + m) n := by
  simp only [userBytes, List.range_add, List.map_append, List.map_map, Function.comp_def, Nat.add_assoc]

theorem take_userBytes (h : m ≤ n) : (userBytes user addr n).take m = userBytes user addr m := by
  obtain ⟨k, rfl⟩ := Nat.exists_eq_add_of_le h
  rw [userBytes_append, List.take_left' length_userBytes]

theorem drop_userBytes (h : m ≤ n) : (userBytes user addr n).drop m = userBytes user (addr + m) (n - m) := by
  obtain ⟨k, rfl⟩ := Nat.exists_eq_add_of_le h
  rw [userBytes_append, List.drop_left' length_userBytes, Nat.add_sub_cancel_left]

section

variable (h : ValidBuffer user addr n)

include h

theorem ValidBuffer.mono (hi : i + m ≤ n) : ValidBuffer user (addr + i) m := by
  intro j hj
  have := h (i + j) (by omega)
  rwa [← Nat.add_assoc] at this

theorem copyin_eq : copyin user addr n = (userBytes user addr n, true) := by
  have hloop : ∀ fuel n addr, n ≤ fuel → ValidBuffer user addr n → copyinLoop user fuel addr n = (userBytes user addr n, true) := by
    intro fuel
    induction fuel with
    | zero =>
      intro n addr hn _
      obtain rfl : n = 0 := by omega
      rfl
    | succ fuel ih =>
      intro n addr hn hv
      unfold copyinLoop
      split
      · next h0 =>
        subst h0
        rfl
      rename_i h0
      have hP : 0 < PGSIZE := by decide
      have hmod := Nat.mod_lt addr hP
      have hdiv := Nat.div_add_mod addr PGSIZE
      have hsub : addr - addr / PGSIZE * PGSIZE = addr % PGSIZE := by
        rw [Nat.mul_comm]
        omega
      obtain ⟨page, hpage⟩ := Option.isSome_iff_exists.mp (hv 0 (by omega))
      rw [Nat.add_zero] at hpage
      rw [hpage]
      dsimp only
      rw [hsub]
      obtain ⟨m, hm⟩ : ∃ m, m = min (PGSIZE - addr % PGSIZE) n := ⟨_, rfl⟩
      rw [← hm]
      have hload : load page (addr % PGSIZE) m = userBytes user addr m := by
        refine List.map_congr_left fun j hj => ?_
        have hj := List.mem_range.mp hj
        have heq : addr + j = addr % PGSIZE + j + PGSIZE * (addr / PGSIZE) := by omega
        have hd : (addr + j) / PGSIZE = addr / PGSIZE := by
          rw [heq, Nat.add_mul_div_left _ _ hP, Nat.div_eq_of_lt (by omega), Nat.zero_add]
        have hr : (addr + j) % PGSIZE = addr % PGSIZE + j := by
          rw [heq, Nat.add_mul_mod_self_left, Nat.mod_eq_of_lt (by omega)]
        rw [userByte, hd, hpage, hr]
        rfl
      -- the next page, if there is anything left
      have hrest : copyinLoop user fuel (addr / PGSIZE * PGSIZE + PGSIZE) (n - m) = (userBytes user (addr + m) (n - m), true) := by
        by_cases hlast : n - m = 0
        · rw [hlast]
          cases fuel <;> rfl
        · have hnext : addr / PGSIZE * PGSIZE + PGSIZE = addr + m := by
            rw [Nat.mul_comm]
            omega
          rw [hnext]
          exact ih _ _ (by omega) (hv.mono (by omega))
      rw [hload, hrest, show n = m + (n - m) by omega, userBytes_append, Nat.add_sub_cancel_left]
  exact hloop n n addr le_rfl h

theorem source_copyin : Source (fun tot m => copyin user (addr + tot) m) (userBytes user addr n) := by
  intro tot m htot
  rw [length_userBytes] at htot
  dsimp only
  rw [copyin_eq (h.mono htot), drop_userBytes (by omega), take_userBytes (by omega)]

end

/-- **The chunks of a call** of `filewrite`, for the bytes in its buffer. -/
def chunksOf (bs : List UInt8) : List (List UInt8) :=
  if bs = [] then [] else bs.take Prog.maxChunk :: chunksOf (bs.drop Prog.maxChunk)
termination_by bs.length
decreasing_by
  have : 0 < bs.length := List.length_pos_of_ne_nil (by assumption)
  rw [List.length_drop]
  have : 0 < Prog.maxChunk := by decide
  omega

theorem chunksOf_nil : chunksOf [] = [] := by
  rw [chunksOf, if_pos rfl]

theorem chunksOf_of_ne (h : bs ≠ []) : chunksOf bs = bs.take Prog.maxChunk :: chunksOf (bs.drop Prog.maxChunk) := by
  rw [chunksOf, if_neg h]

/-! ### What a writer is about -/

/-- How far a process has got with a `write` to the shared file. -/
inductive Job
  | idle
  /-- It has not looked for the file yet. -/
  | enter (fd : Fd) (todo : List UInt8)
  /-- It is outside the part under the lock. -/
  | between (todo : List UInt8)
  | locked (todo : List UInt8)
  /-- It has read the offset. -/
  | ready (todo : List UInt8) (off : ℕ)
  | wrote (todo : List UInt8) (m : ℕ)
  | moved (todo : List UInt8)

namespace Job

def todo : Job → List UInt8
  | .idle => []
  | .enter _ todo | .between todo | .locked todo | .ready todo _ | .wrote todo _ | .moved todo => todo

def Pre (f : FileId) (k : Slot) : {β : Type} → Act β → Job → Prop
  | _, .argfd fd, .enter fd' _ => fd = fd'
  | _, .beginOp, .between _ => True
  | _, .endOp, .between _ => True
  | _, .ilock j, .between _ => j = k
  | _, .offset g, .locked _ => g = f
  | _, .writei j src off m, .ready todo off' => j = k ∧ off = off' ∧ todo ≠ [] ∧
      m = (todo.take Prog.maxChunk).length ∧ Source src (todo.take Prog.maxChunk)
  | _, .advance g r, .wrote _ m => g = f ∧ r = m
  | _, .iunlock j, .moved _ => j = k
  | _, _, _ => False

def Post (f : FileId) (k : Slot) : {β : Type} → Act β → Job → β → Job → Prop
  | _, .argfd _, .enter _ todo, r, w => w = .between todo ∧ ∃ file : File, r = some (f, file) ∧
      file.type = .inode ∧ file.writable = true ∧ file.ip = k
  | _, .ilock _, .between todo, _, w => w = .locked todo
  | _, .offset _, .locked todo, off, w => w = .ready todo off
  | _, .writei _ _ _ m, .ready todo _, r, w => r = some m ∧ w = .wrote (todo.drop Prog.maxChunk) m
  | _, .advance _ _, .wrote todo _, _, w => w = .moved todo
  | _, .iunlock _, .moved todo, _, w => w = .between todo
  | _, _, v, _, w => w = v

end Job

/-- The discipline of processes that write to the file `f`, which is of the inode at `k`. -/
def sharing (f : FileId) (k : Slot) : Discipline Act Panic Job where
  pre := Job.Pre f k
  post := Job.Post f k
  stop _ _ := False

variable {f : FileId} {k : Slot} {fd : Fd}

namespace Prog

theorem writes_writeChunk {todo : List UInt8} (hne : todo ≠ [])
    (hm : m = (todo.take maxChunk).length) (hsrc : Source src (todo.take maxChunk)) : (writeChunk f k src m).Ok (sharing f k) (.between todo)
      fun r w => r = some m ∧ w = .between (todo.drop maxChunk) := by
  refine .act trivial ?_
  rintro _ w rfl
  refine .act rfl ?_
  rintro _ w rfl
  refine .act rfl ?_
  rintro off w rfl
  refine .act ⟨rfl, rfl, hne, hm, hsrc⟩ ?_
  rintro r w ⟨rfl, rfl⟩
  refine .act ⟨rfl, rfl⟩ ?_
  rintro _ w rfl
  refine .act rfl ?_
  rintro _ w rfl
  refine .act trivial ?_
  rintro _ w rfl
  exact .ret ⟨rfl, rfl⟩

theorem writes_filewrite {file : File} (hv : ValidBuffer user addr n) (htype : file.type = .inode) (hw : file.writable = true) :
    (filewrite f file user addr n).Ok (sharing f file.ip) (.between (userBytes user addr n)) fun _ w => w = .between [] := by
  have hloop : ∀ fuel i m, m ≤ fuel → i + m ≤ n → (filewriteLoop f file.ip user addr fuel i m).Ok
      (sharing f file.ip) (.between (userBytes user (addr + i) m)) fun _ w => w = .between [] := by
    intro fuel
    induction fuel with
    | zero =>
      intro i m hm _
      obtain rfl : m = 0 := by omega
      exact .ret rfl
    | succ fuel ih =>
      intro i m hm hi
      unfold filewriteLoop
      split
      · next h0 =>
        subst h0
        exact .ret rfl
      rename_i h0
      have hmax : 0 < maxChunk := by decide
      have htake : (userBytes user (addr + i) m).take maxChunk =
          userBytes user (addr + i) (min m maxChunk) := by
        rw [← take_userBytes (Nat.min_le_left m maxChunk)]
        rcases Nat.le_total m maxChunk with h | h
        · rw [Nat.min_eq_left h, List.take_of_length_le (by simpa using h), List.take_of_length_le (by simp)]
        · rw [Nat.min_eq_right h]
      have hdrop : (userBytes user (addr + i) m).drop maxChunk =
          userBytes user (addr + (i + min m maxChunk)) (m - min m maxChunk) := by
        rcases Nat.le_total m maxChunk with h | h
        · rw [Nat.min_eq_left h, List.drop_eq_nil_of_le (by simpa using h), Nat.sub_self]
          rfl
        · rw [Nat.min_eq_right h, drop_userBytes h, Nat.add_assoc]
      refine (writes_writeChunk (m := min m maxChunk) ?_ ?_ ?_).bind ?_
      · intro hnil
        have := congrArg List.length hnil
        rw [length_userBytes] at this
        exact h0 this
      · rw [htake, length_userBytes]
      · rw [htake]
        exact source_copyin (hv.mono (by omega))
      · rintro r w ⟨rfl, rfl⟩
        rw [if_pos rfl, hdrop]
        exact ih _ _ (by omega) (by omega)
  unfold filewrite
  rw [if_neg (by rw [hw]; decide), htype]
  exact hloop n 0 n le_rfl (by omega)

end Prog

theorem Call.writes_chunks (hv : ValidBuffer user addr n) :
    ((Call.write fd user addr n).prog ninodes).Ok (sharing f k) (.enter fd (userBytes user addr n)) fun _ w => w = .between [] := by
  refine Program.Ok.act rfl ?_
  rintro r w ⟨rfl, file, rfl, htype, hw, rfl⟩
  exact Prog.writes_filewrite hv htype hw

/-! ### What a run writes -/

/-- The chunk that a step writes to the inode at `k`, and who writes it. -/
def Sys.chunk (k : Slot) (s : Sys) : Event → List (Pid × List UInt8)
  | .act p =>
    match s.thr p with
    | .act (.writei j src _ m) _ => if j = k then [(p, (src 0 m).1)] else []
    | _ => []
  | _ => []

def Sys.buffer (_ : Sys) : Event → List (Pid × List UInt8)
  | .call p (.write _ user addr n) => [(p, userBytes user addr n)]
  | _ => []

/-- **Steps of processes that write to a file they share**, `f`, of the inode at `k`: they call `write` with good buffers, and go on with
these calls, as long as the file stays within the limit. Whoever was inside another call in the state `s` waits. -/
def Sharing (s : Sys) (f : FileId) (k : Slot) (x : Sys) : Event → Prop
  | .call p c =>
    match c with
    | .write fd user addr n => x.fs.ofile p fd = some f ∧ ValidBuffer user addr n
    | _ => False
  | .act p => ¬s.Inside p ∧
      match x.thr p with
      | .act (.writei j _ off m) _ => j = k → off + m ≤ MAXFILE * BSIZE
      | _ => True
  | .commit => True
  | .crash => False

def Sys.writing (x : Sys) (p : Pid) : Option (Slot × ℕ) :=
  match x.thr p with
  | .act (.writei j _ off m) _ => some (j, off + m)
  | _ => none

theorem sharing_act {s x : Sys} {f : FileId} {k : Slot} {p : Pid} : Sharing s f k x (.act p) ↔
      ¬s.Inside p ∧ ∀ w ∈ x.writing p, w.1 = k → w.2 ≤ MAXFILE * BSIZE := by
  rw [Sharing, Sys.writing]
  refine and_congr_right fun _ => ?_
  split <;> simp

instance (s : Sys) (f : FileId) (k : Slot) (x : Sys) : ∀ e, Decidable (Sharing s f k x e)
  | .call p (.write fd user addr n) =>
    inferInstanceAs (Decidable (x.fs.ofile p fd = some f ∧ ValidBuffer user addr n))
  | .call _ (.open _ _) | .call _ (.mkdir _) | .call _ (.mknod _ _ _) | .call _ (.link _ _)
  | .call _ (.unlink _) | .call _ (.chdir _) | .call _ (.exec _ _) | .call _ (.read _ _ _)
  | .call _ (.fstat _) | .call _ (.close _) | .call _ (.dup _) | .call _ (.fork _) | .call _ .exit =>
    inferInstanceAs (Decidable False)
  | .act _ => decidable_of_iff _ sharing_act.symm
  | .commit => inferInstanceAs (Decidable True)
  | .crash => inferInstanceAs (Decidable False)

def dueTo {α : Type} (p : Pid) (l : List (Pid × α)) : List α := (l.filter fun x => x.1 = p).map Prod.snd

section DueTo

variable {α : Type} {p q : Pid} {l l' : List (Pid × α)} {a : α}

theorem dueTo_append : dueTo p (l ++ l') = dueTo p l ++ dueTo p l' := by
  simp [dueTo]

theorem dueTo_self : dueTo p [(p, a)] = [a] := by
  simp [dueTo]

theorem dueTo_of_ne (h : q ≠ p) : dueTo q [(p, a)] = [] := by
  simp [dueTo, h.symm]

end DueTo

/-! ### The invariant -/

/-- Where a process is with its job, if all that has been written ends at `upto`. -/
def Placed (s : Fs) (f : FileId) (k : Slot) (upto : ℕ) (p : Pid) : Job → Prop
  | .idle | .between _ => True
  | .enter fd _ => s.ofile p fd = some f
  | .locked _ | .moved _ => (s.itable k).lock = some p
  | .ready _ o => (s.itable k).lock = some p ∧ o = (s.ftable f).off
  | .wrote _ m => (s.itable k).lock = some p ∧ (s.ftable f).off + m = upto ∧ upto ≤ MAXFILE * BSIZE

/-- **The file is what has been written to it**, one chunk after the other, and the offset is at
the end of them, unless a process is about to move it there. -/
structure Laid (s : Sys) (f : FileId) (k : Slot) (x : Sys) (v : Pid → Job) (log ask : List (Pid × List UInt8)) : Prop where
  file : (x.fs.ftable f).type = .inode ∧ (x.fs.ftable f).writable = true ∧ (x.fs.ftable f).ip = k
  inum : (x.fs.itable k).inum = (s.fs.itable k).inum
  bytes : x.fs.disk.bytes (s.fs.itable k).inum =
    overwrite (s.fs.disk.bytes (s.fs.itable k).inum) (s.fs.ftable f).off (log.flatMap Prod.snd)
  placed : ∀ p, Placed x.fs f k ((s.fs.ftable f).off + (log.flatMap Prod.snd).length) p (v p)
  offset : (∀ p todo m, v p ≠ .wrote todo m) →
    (x.fs.ftable f).off = (s.fs.ftable f).off + (log.flatMap Prod.snd).length
  idle : ∀ p, v p = .idle → x.thr p = s.thr p
  ok : ∀ p, v p ≠ .idle → (x.thr p).Ok (sharing f k) (v p) fun _ w => w = .between []
  chunks : ∀ p, dueTo p log ++ chunksOf (v p).todo = (dueTo p ask).flatMap chunksOf

variable {t t' : Fs} {upto upto' : ℕ} {p q : Pid} {j w : Job} {s x y : Sys} {v : Pid → Job}
  {log ask new : List (Pid × List UInt8)}

theorem Placed.same (h : Placed t f k upto q j) (hlock : (t'.itable k).lock = (t.itable k).lock)
    (hoff : (t'.ftable f).off = (t.ftable f).off) (hofile : t'.ofile q = t.ofile q) : Placed t' f k upto q j := by
  cases j with
  | idle | between todo => trivial
  | enter fd todo => exact (congrFun hofile fd).trans h
  | locked todo | moved todo => exact hlock.trans h
  | ready todo o => exact ⟨hlock.trans h.1, h.2.trans hoff.symm⟩
  | wrote todo m => exact ⟨hlock.trans h.1, hoff ▸ h.2⟩

section

variable (h : Placed t f k upto q j) (hlock : (t.itable k).lock ≠ some q)

include h hlock

theorem Placed.other
    (hofile : t'.ofile q = t.ofile q) : Placed t' f k upto' q j := by
  cases j with
  | idle | between todo => trivial
  | enter fd todo => exact (congrFun hofile fd).trans h
  | locked todo | moved todo => exact absurd h hlock
  | ready todo o | wrote todo m => exact absurd h.1 hlock

theorem Placed.not_wrote (todo : List UInt8) (m : ℕ) : j ≠ .wrote todo m := by
  rintro rfl
  exact hlock h.1

end

theorem lock_ne_of_ne (hlock : (t.itable k).lock = some p) (q : Pid) (hqp : q ≠ p) : (t.itable k).lock ≠ some q := by
  rw [hlock]
  rintro ⟨⟩
  exact hqp rfl

namespace Laid

theorem start (htype : (s.fs.ftable f).type = .inode) (hwritable : (s.fs.ftable f).writable = true) :
    Laid s f (s.fs.ftable f).ip s (fun _ => .idle) [] [] where
  file := ⟨htype, hwritable, rfl⟩
  inum := rfl
  bytes := overwrite_nil.symm
  placed _ := trivial
  offset _ := rfl
  idle _ _ := rfl
  ok _ hbusy := absurd rfl hbusy
  chunks _ := chunksOf_nil

variable (h : Laid s f k x v log ask)

include h

theorem idle_update (hw : w ≠ .idle) : ∀ q, update v p w q = .idle → update x.thr p prog q = s.thr q :=
  forall_update₂ (P := fun q j prog => j = Job.idle → prog = s.thr q) (fun hidle => absurd hidle hw) fun q _ => h.idle q

theorem ok_update (hok : prog.Ok (sharing f k) w fun _ w => w = .between []) :
    ∀ q, update v p w q ≠ .idle → (update x.thr p prog q).Ok (sharing f k) (update v p w q) fun _ w => w = .between [] :=
  forall_update₂ (P := fun _ j prog => j ≠ Job.idle → Program.Ok (sharing f k) prog j fun _ w => w = .between [])
    (fun _ => hok) fun q _ => h.ok q

theorem next {β : Type} {r : Act β} {rest : β → Prog Unit} {b : β}
    (hthr : x.thr p = .act r rest) (hbusy : v p ≠ .idle) (hpost : (sharing f k).post r (v p) b w)
    (hw : w ≠ .idle) (hfile : (t.ftable f).type = (x.fs.ftable f).type ∧
      (t.ftable f).writable = (x.fs.ftable f).writable ∧ (t.ftable f).ip = (x.fs.ftable f).ip) (hinum : (t.itable k).inum = (x.fs.itable k).inum)
    (hbytes : t.disk.bytes (s.fs.itable k).inum = overwrite (s.fs.disk.bytes (s.fs.itable k).inum)
      (s.fs.ftable f).off ((log ++ new).flatMap Prod.snd)) (hself : Placed t f k ((s.fs.ftable f).off + ((log ++ new).flatMap Prod.snd).length) p w)
    (hother : ∀ q, q ≠ p → Placed t f k ((s.fs.ftable f).off + ((log ++ new).flatMap Prod.snd).length) q (v q))
    (hoffset : (∀ todo m, w ≠ .wrote todo m) → (∀ q, q ≠ p → ∀ todo m, v q ≠ .wrote todo m) →
      (t.ftable f).off = (s.fs.ftable f).off + ((log ++ new).flatMap Prod.snd).length) (hchunk : dueTo p new ++ chunksOf w.todo = chunksOf (v p).todo)
    (hnew : ∀ q, q ≠ p → dueTo q new = []) : Laid s f k { x with fs := t, thr := update x.thr p (rest b), claim := c } (update v p w)
      (log ++ new) ask := by
  refine ⟨?_, hinum.trans h.inum, hbytes, forall_update hself hother, fun hno => ?_,
    h.idle_update hw, h.ok_update ?_, forall_update (P := fun q j =>
      dueTo q (log ++ new) ++ chunksOf (Job.todo j) = (dueTo q ask).flatMap chunksOf) ?_ fun q hqp => ?_⟩
  · rw [hfile.1, hfile.2.1, hfile.2.2]
    exact h.file
  · refine hoffset (fun todo m => ?_) fun q hqp todo m => ?_
    · simpa using hno p todo m
    · simpa [hqp] using hno q todo m
  · have hok := h.ok p hbusy
    rw [hthr] at hok
    exact hok.2 b w hpost
  · rw [dueTo_append, List.append_assoc, hchunk]
    exact h.chunks p
  · rw [dueTo_append, hnew q hqp, List.append_nil]
    exact h.chunks q

theorem offset_of (hp : ∀ todo m, v p ≠ .wrote todo m) (hq : ∀ q, q ≠ p → ∀ todo m, v q ≠ .wrote todo m) :
    (x.fs.ftable f).off = (s.fs.ftable f).off + (log.flatMap Prod.snd).length := by
  refine h.offset fun q => ?_
  by_cases hqp : q = p
  · exact hqp ▸ hp
  · exact hq q hqp

/-- A step that writes nothing, and leaves the table of files alone. -/
theorem go {β : Type} {r : Act β} {rest : β → Prog Unit} {b : β} (w : Job) (hthr : x.thr p = .act r rest)
    (hbusy : v p ≠ .idle) (hv : v p = j) (hpost : (sharing f k).post r j b w) (hw : w ≠ .idle) (hj : ∀ todo m, j ≠ .wrote todo m)
    (hquiet : x.chunk k (.act p) = []) (hftable : t.ftable = x.fs.ftable) (hinum : (t.itable k).inum = (x.fs.itable k).inum)
    (hdisk : t.disk = x.fs.disk) (hofile : t.ofile = x.fs.ofile) (hself : Placed t f k ((s.fs.ftable f).off + (log.flatMap Prod.snd).length) p w)
    (hother : (∀ q, q ≠ p → (x.fs.itable k).lock ≠ some q) ∨ (t.itable k).lock = (x.fs.itable k).lock) (htodo : w.todo = j.todo) :
    ∃ w, Laid s f k { x with fs := t, thr := update x.thr p (rest b), claim := c } (update v p w) (log ++ x.chunk k (.act p)) ask := by
  subst hv
  have hoff : (t.ftable f).off = (x.fs.ftable f).off := by rw [hftable]
  rw [hquiet]
  refine ⟨w, h.next hthr hbusy hpost hw (by rw [hftable]; exact ⟨rfl, rfl, rfl⟩) hinum ?_ ?_ (fun q hqp => ?_)
    (fun _ hq => ?_) (by rw [htodo]; rfl) fun _ _ => rfl⟩
  all_goals rw [List.append_nil]
  · rw [hdisk]
    exact h.bytes
  · exact hself
  · rcases hother with hlock | hlock
    · exact (h.placed q).other (hlock q hqp) (congrFun hofile q)
    · exact (h.placed q).same hlock hoff (congrFun hofile q)
  · exact hoff.trans (h.offset_of hj hq)

theorem ref_pos (hu : Rights x.fs u) : 0 < (x.fs.itable k).ref := by
  have hat : (x.fs.ftable f).at k = 1 := if_pos ⟨by rw [h.file.1]; decide, h.file.2.2⟩
  have := hu.at_le f k
  omega

theorem job_of_outside (hp : ¬x.Inside p) : v p = .idle ∨ v p = .between [] := by
  by_cases hidle : v p = .idle
  · exact .inl hidle
  · exact .inr (Sys.ok_of_outside (Q := fun w => w = Job.between []) (h.ok p hidle) hp)

theorem call {calls : Pid → Option Call} (hp : ¬x.Inside p) (hfd : x.fs.ofile p fd = some f) (hvalid : ValidBuffer user addr n) : Laid s f k { x with
        thr := update x.thr p ((Call.write fd user addr n).prog ninodes), call := calls }
      (update v p (.enter fd (userBytes user addr n))) log (ask ++ [(p, userBytes user addr n)]) := by
  have hjob := h.job_of_outside hp
  have hdone : (v p).todo = [] := by
    rcases hjob with hv | hv <;>
    · rw [hv]
      rfl
  refine ⟨h.file, h.inum, h.bytes, forall_update hfd fun q _ => h.placed q, fun hno => h.offset fun q => ?_,
    h.idle_update (by simp), h.ok_update (Call.writes_chunks hvalid), forall_update (P := fun q j =>
      dueTo q log ++ chunksOf (Job.todo j) = (dueTo q (ask ++ _)).flatMap chunksOf) ?_ fun q hqp => ?_⟩
  · by_cases hqp : q = p
    · rw [hqp]
      rcases hjob with hv | hv <;> simp [hv]
    · simpa only [update_of_ne hqp] using hno q
  · have hold := h.chunks p
    rw [hdone, chunksOf_nil, List.append_nil] at hold
    rw [dueTo_append, dueTo_self, List.flatMap_append, List.flatMap_singleton, hold]
    rfl
  · rw [dueTo_append, dueTo_of_ne hqp, List.append_nil]
    exact h.chunks q

variable (hoff : (s.fs.ftable f).off ≤ (s.fs.disk.bytes (s.fs.itable k).inum).length)

include hoff

theorem bytes_snoc :
    overwrite (x.fs.disk.bytes (s.fs.itable k).inum) ((s.fs.ftable f).off + (log.flatMap Prod.snd).length) bs =
      overwrite (s.fs.disk.bytes (s.fs.itable k).inum) (s.fs.ftable f).off ((log ++ [(p, bs)]).flatMap Prod.snd) := by
  rw [h.bytes, overwrite_append hoff, List.flatMap_append, List.flatMap_singleton]

theorem chunk {off m : ℕ} {rest : Option ℕ → Prog Unit} {r : Option ℕ} {todo : List UInt8}
    (hd : Coherent ninodes x.fs d) (hp : d p = none) (hm : m < UINT)
    (hthr : x.thr p = .act (.writei k src off m) rest) (hv : v p = .ready todo off)
    (hpre : Job.Pre f k (.writei k src off m) (v p)) (hlimit : off + m ≤ MAXFILE * BSIZE)
    (hinum : (t.itable k).inum = (x.fs.itable k).inum) (hexec : x.fs.writei k src off m = .ok (r, t)) :
    ∃ w, Laid s f k { x with fs := t, thr := update x.thr p (rest r), claim := c } (update v p w) (log ++ x.chunk k (.act p)) ask := by
  have hplaced := h.placed p
  rw [hv] at hpre hplaced
  obtain ⟨-, -, hne, rfl, hsrc⟩ := hpre
  obtain ⟨hlock, hcur⟩ := hplaced
  have hat : off = (s.fs.ftable f).off + (log.flatMap Prod.snd).length :=
    hcur.trans (h.offset_of (by simp [hv]) fun q hqp => (h.placed q).not_wrote (lock_ne_of_ne hlock q hqp))
  obtain ⟨d', e, hwrite, hrew, -, hfree, rfl⟩ := hd.of_writei hlock hp hm hexec
  rw [h.inum] at hwrite hrew
  have htype : (x.fs.disk.dinode (s.fs.itable k).inum).type ≠ .free := by
    rw [hrew.info] at hfree
    exact hfree
  have hsize : off ≤ (x.fs.disk.dinode (s.fs.itable k).inum).size := by
    have hlen : (x.fs.disk.bytes (s.fs.itable k).inum).length = _ := length_bytesOf
    rw [h.bytes, length_overwrite hoff] at hlen
    omega
  obtain ⟨rfl, hnew⟩ := writei_bytes hsrc hd.good htype hsize hlimit hwrite
  have hchunk : x.chunk k (.act p) = [(p, todo.take Prog.maxChunk)] := by
    rw [Sys.chunk, hthr]
    dsimp only
    rw [if_pos rfl, hsrc 0 _ (by omega), List.drop_zero, List.take_length]
  have htotal : ((log ++ [(p, todo.take Prog.maxChunk)]).flatMap Prod.snd).length =
      (log.flatMap Prod.snd).length + (todo.take Prog.maxChunk).length := by
    rw [List.flatMap_append, List.flatMap_singleton, List.length_append]
  rw [hchunk]
  refine ⟨.wrote (todo.drop Prog.maxChunk) _, h.next hthr (by simp [hv])
    (by rw [hv]; exact ⟨rfl, rfl⟩) (by simp) ⟨rfl, rfl, rfl⟩ hinum ?_ ⟨?_, ?_, ?_⟩ (fun q hqp => ?_)
    (fun hno => absurd rfl (hno _ _)) ?_ fun q hqp => dueTo_of_ne hqp⟩
  · rw [← h.bytes_snoc hoff, ← hat, ← hnew]
    change bytesOf d'.block (d'.dinode _) = _
    rw [hrew.dinode, update_self]
  · simpa [Fs.setCopy, Fs.setInode] using hlock
  · change (x.fs.ftable f).off + _ = _
    rw [htotal]
    omega
  · rw [htotal]
    omega
  · exact (h.placed q).other (lock_ne_of_ne hlock q hqp) rfl
  · rw [dueTo_self, hv]
    exact (chunksOf_of_ne hne).symm

theorem act {β : Type} {r : Act β} {rest : β → Prog Unit} {b : β} (hu : Rights x.fs u)
    (hd : Coherent ninodes x.fs d) (hdraft : Draft.Pre ninodes r (d p))
    (hthr : x.thr p = .act r rest) (hbusy : v p ≠ .idle) (hmax : Sharing s f k x (.act p)) (hexec : exec r p x.fs = .ok (some (b, t))) :
    ∃ w, Laid s f k { x with fs := t, thr := update x.thr p (rest b), claim := c } (update v p w) (log ++ x.chunk k (.act p)) ask := by
  have hinum := exec_inum hexec (h.ref_pos hu)
  have hpre : Job.Pre f k r (v p) := by
    have hok := h.ok p hbusy
    rw [hthr] at hok
    exact hok.1
  have hplaced := h.placed p
  -- in each state of its job a process has one action to perform, or may begin or end an operation
  cases hv : v p with
  | idle => exact absurd hv hbusy
  | enter fd todo =>
    rw [hv] at hpre hplaced
    cases r
    case argfd fd' =>
      obtain rfl : fd' = fd := hpre
      cases hexec
      refine h.go (.between todo) hthr hbusy hv ⟨rfl, x.fs.ftable f, ?_, h.file⟩ (by simp) (by simp) (by rw [Sys.chunk, hthr])
        rfl rfl rfl rfl trivial (.inr rfl) rfl
      rw [hplaced]
      rfl
    all_goals exact hpre.elim
  | between todo =>
    rw [hv] at hpre
    cases r
    case beginOp | endOp =>
      cases hexec
      exact h.go (.between todo) hthr hbusy hv rfl (by simp) (by simp) (by rw [Sys.chunk, hthr]) rfl rfl rfl rfl trivial (.inr rfl) rfl
    case ilock j =>
      obtain rfl : j = k := hpre
      obtain ⟨hfree, hcases⟩ := Fs.of_ilock (ok_of_map_map hexec)
      have hshape : t.ftable = x.fs.ftable ∧ t.disk = x.fs.disk ∧ t.ofile = x.fs.ofile ∧ (t.itable j).lock = some p := by
        rcases hcases with ⟨rfl, -⟩ | ⟨-, -, rfl⟩ <;>
        · refine ⟨rfl, rfl, rfl, ?_⟩
          simp [Fs.setInode, Fs.setLock]
      obtain ⟨hftable, hdisk, hofile, hlock⟩ := hshape
      exact h.go (.locked todo) hthr hbusy hv rfl (by simp) (by simp) (by rw [Sys.chunk, hthr]) hftable hinum hdisk hofile hlock
        (.inl fun q _ hq => absurd (hq.symm.trans hfree) (Option.some_ne_none _)) rfl
    all_goals exact hpre.elim
  | locked todo =>
    rw [hv] at hpre hplaced
    cases r
    case offset g =>
      obtain rfl : g = f := hpre
      cases hexec
      exact h.go (.ready todo _) hthr hbusy hv rfl (by simp) (by simp) (by rw [Sys.chunk, hthr]) rfl rfl rfl rfl ⟨hplaced, rfl⟩ (.inr rfl) rfl
    all_goals exact hpre.elim
  | ready todo o =>
    rw [hv] at hpre
    cases r
    case writei j src off m =>
      obtain ⟨rfl, rfl, -⟩ := id hpre
      have hlimit := hmax.2
      rw [hthr] at hlimit
      exact h.chunk hoff hd hdraft.1 hdraft.2 hthr hv (hv ▸ hpre) (hlimit rfl) hinum (ok_of_map_some hexec)
    all_goals exact hpre.elim
  | wrote todo m =>
    rw [hv] at hpre hplaced
    cases r
    case advance g m' =>
      obtain ⟨rfl, rfl⟩ := hpre
      obtain ⟨hlock, hupto, hle⟩ := hplaced
      cases hexec
      have hget : (x.fs.setFile g { x.fs.ftable g with
          off := ((x.fs.ftable g).off + m') % UINT }).ftable g =
          { x.fs.ftable g with off := ((x.fs.ftable g).off + m') % UINT } := update_self ..
      rw [Sys.chunk, hthr]
      refine ⟨.moved todo, h.next hthr hbusy (by rw [hv]; rfl) (by simp) (by rw [hget]; exact ⟨rfl, rfl, rfl⟩) rfl
        ?_ hlock (fun q hqp => (h.placed q).other (lock_ne_of_ne hlock q hqp) rfl) (fun _ _ => ?_) (by rw [hv]; rfl) fun _ _ => rfl⟩
      · rw [List.append_nil]
        exact h.bytes
      · -- an offset within the limit of a file does not wrap
        rw [hget, List.append_nil]
        dsimp only
        rw [hupto]
        exact Nat.mod_eq_of_lt (hle.trans_lt (by decide))
    all_goals exact hpre.elim
  | moved todo =>
    rw [hv] at hpre hplaced
    cases r
    case iunlock j =>
      obtain rfl : j = k := hpre
      obtain rfl := Fs.of_iunlock (ok_of_map_unit hexec)
      exact h.go (.between todo) hthr hbusy hv rfl (by simp) (by simp) (by rw [Sys.chunk, hthr]) rfl hinum rfl rfl trivial
        (.inl (lock_ne_of_ne hplaced)) rfl
    all_goals exact hpre.elim

end Laid

theorem laid_step {e : Event} (hgood : Good disk disk.dinode) (hreach : Reach step (start disk) x)
    (hoff : (s.fs.ftable f).off ≤ (s.fs.disk.bytes (s.fs.itable k).inum).length)
    (h : Laid s f k x v log ask) (he : Sharing s f k x e) (hstep : step x e = some y) :
    ∃ v', Laid s f k y v' (log ++ x.chunk k e) (ask ++ x.buffer e) := by
  cases e with
  | call p c =>
    cases c with
    | write fd user addr n =>
      simp only [step] at hstep
      split at hstep <;> cases hstep
      rename_i hready
      simp only [Sys.chunk, List.append_nil]
      exact ⟨_, h.call hready.1 he.1 he.2⟩
    | _ => exact he.elim
  | act p =>
    simp only [step] at hstep
    split at hstep <;> cases hstep
    rename_i fs rest hnext
    obtain ⟨β, r, rest, b, hthr, hexec, rfl⟩ := Program.of_next hnext
    obtain ⟨u, ⟨hu, -⟩, -⟩ := balanced_of_reach hreach
    obtain ⟨⟨d, hd, hdraft⟩, -, -⟩ := inOrder_of_reach hgood hreach
    have hdraft := hdraft p
    rw [hthr] at hdraft
    have hbusy : v p ≠ .idle := by
      intro hidle
      have hout := he.1
      rw [Sys.Inside, ← h.idle p hidle, hthr] at hout
      exact hout trivial
    simp only [Sys.buffer, List.append_nil]
    obtain ⟨w, hw⟩ := h.act hoff hu hd hdraft.1 hthr hbusy he hexec
    exact ⟨_, hw⟩
  | commit =>
    simp only [step] at hstep
    split at hstep <;> cases hstep
    simp only [Sys.chunk, Sys.buffer, List.append_nil]
    exact ⟨v, h.file, h.inum, h.bytes, h.placed, h.offset, h.idle, h.ok, h.chunks⟩
  | crash => exact he.elim

theorem laid_of_run {es : List Event} (hgood : Good disk disk.dinode)
    (hreach : Reach step (start disk) s) (htype : (s.fs.ftable f).type = .inode)
    (hwritable : (s.fs.ftable f).writable = true) (hip : (s.fs.ftable f).ip = k)
    (hoff : (s.fs.ftable f).off ≤ (s.fs.disk.bytes (s.fs.itable k).inum).length)
    (hal : Along step (Sharing s f k) s es) (hrun : run step s es = some x) :
    ∃ v, Laid s f k x v (collect step (Sys.chunk k) s es) (collect step Sys.buffer s es) := by
  subst hip
  refine Along.run_induction (J := fun es x => ∃ v, Laid s f (s.fs.ftable f).ip x v
    (collect step (Sys.chunk (s.fs.ftable f).ip) s es) (collect step Sys.buffer s es))
    ⟨_, Laid.start htype hwritable⟩ ?_ hal hrun
  rintro es e x y hrun ⟨v, hv⟩ he hstep
  rw [collect_snoc hrun, collect_snoc hrun]
  exact laid_step hgood (hreach.trans ⟨es, hrun⟩) hoff hv he hstep

/-- **No write to a shared file is lost.** Processes that share an open file, whose offset is not past the end, write to it at once. Then
the file has been overwritten from the offset on with the chunks of the calls, end to end, in the order of the lock; of each call all
chunks, in their order, or, while it runs, the first of them; and when nobody has the lock the offset has moved by the length of all that
was written. -/
theorem shared_writes_end_to_end {disk : Disk} {es : List Event} (hgood : Good disk disk.dinode)
    (hreach : Reach step (start disk) s) (htype : (s.fs.ftable f).type = .inode)
    (hwritable : (s.fs.ftable f).writable = true) (hip : (s.fs.ftable f).ip = k)
    (hoff : (s.fs.ftable f).off ≤ (s.fs.disk.bytes (s.fs.itable k).inum).length)
    (hal : Along step (Sharing s f k) s es) (hrun : run step s es = some x) : x.fs.disk.bytes (s.fs.itable k).inum =
        overwrite (s.fs.disk.bytes (s.fs.itable k).inum) (s.fs.ftable f).off ((collect step (Sys.chunk k) s es).flatMap Prod.snd) ∧
      ((x.fs.itable k).lock = none → (x.fs.ftable f).off = (s.fs.ftable f).off + ((collect step (Sys.chunk k) s es).flatMap Prod.snd).length) ∧
      ∀ p, ∃ todo, (¬x.Inside p → todo = []) ∧ dueTo p (collect step (Sys.chunk k) s es) ++ chunksOf todo =
          (dueTo p (collect step Sys.buffer s es)).flatMap chunksOf := by
  obtain ⟨v, hv⟩ := laid_of_run hgood hreach htype hwritable hip hoff hal hrun
  refine ⟨hv.bytes, fun hfree => hv.offset fun p => (hv.placed p).not_wrote ?_, fun p => ⟨(v p).todo, fun hp => ?_, hv.chunks p⟩⟩
  · rw [hfree]
    exact nofun
  · rcases hv.job_of_outside hp with h | h <;>
    · rw [h]
      rfl

instance : NeZero NOFILE := ⟨by decide⟩

def filled (b : UInt8) : ℕ → Option Page := fun _ => some fun _ => b

/-- A process makes a file and a child, and both write to it. The child gets the lock first. -/
theorem shared_writes_end_to_end_fork : ∃ s es x, Reach step (start emptyImage) s ∧ Along step (Sharing s 0 1) s es ∧ run step s es = some x ∧
    x.fs.disk.bytes (s.fs.itable 1).inum = [66, 66, 65, 65, 65] ∧ (x.fs.ftable 0).off = 5 := by
  let es : List Event := [.call 0 (.write 0 (filled 65) 0 3), .call 1 (.write 0 (filled 66) 0 2),
    .act 0, .act 1, .act 0, .act 1] ++ List.replicate 6 (.act 1) ++ List.replicate 6 (.act 0)
  have hplay : ((start emptyImage).play [⟨0, some (.«open» [120] rdwrCreate), 200⟩,
      ⟨0, some (.fork 1), 200⟩]).any (fun s => ((s.fs.ftable 0).type = .inode ∧
        (s.fs.ftable 0).writable = true ∧ (s.fs.ftable 0).ip = 1 ∧ (s.fs.ftable 0).off = 0 ∧
        s.fs.disk.bytes (s.fs.itable 1).inum = []) ∧ Along step (Sharing s 0 1) s es ∧
        collect step (Sys.chunk 1) s es = [(1, [66, 66]), (0, [65, 65, 65])] ∧
        (run step s es).any (fun x => (x.fs.itable 1).lock = none)) = true := by
    decide +kernel
  obtain ⟨s, hreach, hs⟩ := Sys.exists_reach hplay
  obtain ⟨⟨htype, hwritable, hip, hoff, hempty⟩, hal, hlog, hend⟩ := of_decide_eq_true hs
  obtain ⟨x, hrun, hlock⟩ := (Option.any_eq_true _ _).mp hend
  obtain ⟨hbytes, hmoved, -⟩ := shared_writes_end_to_end good_emptyImage hreach htype hwritable hip (by rw [hoff]; exact Nat.zero_le _) hal hrun
  rw [hlog, hempty, hoff] at hbytes
  rw [hlog, hoff] at hmoved
  exact ⟨s, es, x, hreach, hal, hrun, hbytes, hmoved (of_decide_eq_true hlock)⟩

/-- A second `open` has truncated the file, and the offset of the first one is past its end: `writei` refuses, and the offset does not
move. -/
theorem write_past_the_end : ∃ s es x, Reach step (start emptyImage) s ∧
    (s.fs.ftable 0).type = .inode ∧ (s.fs.ftable 0).writable = true ∧ (s.fs.ftable 0).ip = 1 ∧
    Along step (Sharing s 0 1) s es ∧ run step s es = some x ∧ (∀ p, ¬x.Inside p) ∧
    (x.fs.itable 1).lock = none ∧ collect step Sys.buffer s es = [(0, [66, 66])] ∧
    (x.fs.ftable 0).off = (s.fs.ftable 0).off ∧ x.fs.disk.bytes (s.fs.itable 1).inum = [] := by
  let es : List Event := .call 0 (.write 0 (filled 66) 0 2) :: List.replicate 7 (.act 0)
  have hplay : ((start emptyImage).play [⟨0, some (.«open» [120] rdwrCreate), 200⟩, ⟨0, some (.write 0 (filled 65) 0 3), 200⟩,
      ⟨0, some (.«open» [120] ⟨false, true, false, true, false⟩), 200⟩]).any (fun s =>
        (s.fs.ftable 0).type = .inode ∧ (s.fs.ftable 0).writable = true ∧ (s.fs.ftable 0).ip = 1 ∧
        Along step (Sharing s 0 1) s es ∧ collect step Sys.buffer s es = [(0, [66, 66])] ∧
        (run step s es).any (fun x => (∀ p, ¬x.Inside p) ∧ (x.fs.itable 1).lock = none ∧ (x.fs.ftable 0).off = (s.fs.ftable 0).off ∧
          x.fs.disk.bytes (s.fs.itable 1).inum = [])) = true := by
    decide +kernel
  obtain ⟨s, hreach, hs⟩ := Sys.exists_reach hplay
  obtain ⟨htype, hwritable, hip, hal, hask, hend⟩ := of_decide_eq_true hs
  obtain ⟨x, hrun, hx⟩ := (Option.any_eq_true _ _).mp hend
  obtain ⟨hout, hlock, hoff, hbytes⟩ := of_decide_eq_true hx
  exact ⟨s, es, x, hreach, htype, hwritable, hip, hal, hrun, hout, hlock, hask, hoff, hbytes⟩

end Xv6.FileSys
