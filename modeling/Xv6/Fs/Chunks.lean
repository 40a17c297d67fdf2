import Xv6.Fs.Rewrite
import Xv6.Fs.Shared
import Xv6.Lib.Alone

/-!
# A write in chunks

`filewrite` divides what it has to write into chunks, each of which is a transaction. If nobody else uses the inode meanwhile,
the chunks come to the same as one write of all the bytes. If the limit on the size of a file is in the way, the chunks before the
first one that does not fit are written, as by one write of so many bytes, and the call fails.
-/

namespace Xv6.FileSys

open Lib Function

open Logging (Page)

namespace Prog

/-- The loop of `filewrite` and its variable `i`: how many bytes have been written. -/
def countLoop (f : FileId) (ip : Slot) (user : ℕ → Option Page) (addr : ℕ) : ℕ → ℕ → ℕ → Prog ℕ
  | 0, i, _ => pure i
  | fuel + 1, i, n =>
    if n = 0 then pure i
    else do
      let r ← writeChunk f ip (fun tot m => Logging.copyin user (addr + i + tot) m) (min n maxChunk)
      if r = some (min n maxChunk) then
        countLoop f ip user addr fuel (i + min n maxChunk) (n - min n maxChunk)
      else pure i

def filewriteInode (f : FileId) (ip : Slot) (user : ℕ → Option Page) (addr : ℕ) (n : ℤ) : Prog ℤ := do
  let i ← countLoop f ip user addr n.toNat 0 n.toNat
  pure (if (i : ℤ) = n then n else -1)

/-- The loop of `filewrite` again, which forgets how far it came. -/
theorem countLoop_forget (f : FileId) (ip : Slot) (user : ℕ → Option Page) (addr fuel i n : ℕ) :
    (countLoop f ip user addr fuel i n >>= fun _ => pure ()) = filewriteLoop f ip user addr fuel i n := by
  induction fuel generalizing i n with
  | zero => rfl
  | succ fuel ih =>
    rw [countLoop, filewriteLoop]
    split
    · rfl
    refine (Program.bind_assoc _ _ _).trans (congrArg (_ >>= ·) (funext fun r => ?_))
    split
    · exact ih _ _
    · rfl

/-- **`filewrite`, for the file of an inode**, forgets the number. -/
theorem filewrite_inode {file : File} (hw : file.writable = true) (htype : file.type = .inode)
    (f : FileId) (user : ℕ → Option Page) (addr n : ℕ) :
    filewrite f file user addr n = filewriteInode f file.ip user addr n >>= fun _ => pure () := by
  rw [filewrite, if_neg (by simp [hw]), htype, filewriteInode, Program.bind_assoc, Int.toNat_natCast]
  exact (countLoop_forget f file.ip user addr n 0 n).symm

end Prog

variable {s s' : Fs} {p : Pid} {f : FileId} {ip : Slot} {src : ℕ → ℕ → List UInt8 × Bool} {bs cs : List UInt8}
  {d d' d'' : Disk} {e e' : Dinode} {i off n fuel : ℕ}

/-! ### One write after the other -/

theorem Unchanged.trans (h : Unchanged d d' i) (h' : Unchanged d' d'' i) : Unchanged d d'' i := by
  have hmap := h'.map
  have hblock := h'.block
  rw [h.dinode] at hmap hblock
  refine ⟨h'.dinode.trans h.dinode, fun bn => (hmap bn).trans (h.map bn), fun bn hbn => ?_⟩
  have := hblock bn (by rwa [h.map])
  rw [h.map] at this
  exact this.trans (h.block bn hbn)

theorem Wrote.refl (hown : Owned d) (hd : Dense d.block (d.dinode i)) : Wrote i off [] d d (d.dinode i) :=
  ⟨hown, rfl, rfl, hd, overwrite_nil.symm, fun _ _ _ => ⟨rfl, fun _ => rfl, fun _ _ => rfl⟩⟩

theorem Wrote.trans (h : Wrote i off bs d d' e) (h' : Wrote i (off + bs.length) cs d' d'' e')
    (hoff : off ≤ (d.dinode i).size) : Wrote i off (bs ++ cs) d d'' e' := by
  have hinfo := h'.info
  rw [h.dinode, h.info] at hinfo
  refine ⟨h'.owned, h'.dinode, hinfo, h'.dense, ?_, fun j hj htj => ?_⟩
  · have hlen : off ≤ (d.bytes i).length := by rwa [Disk.bytes, length_bytesOf]
    rw [h'.bytes, Disk.bytes, h.dinode, h.bytes, overwrite_append hlen]
  · have hfirst := h.others j hj htj
    exact hfirst.trans (h'.others j hj (by rwa [hfirst.dinode]))

theorem Wrote.size (h : Wrote i off bs d d' e) (hoff : off ≤ (d.dinode i).size) : e.size = max (d.dinode i).size (off + bs.length) := by
  have hlen : off ≤ (d.bytes i).length := by rwa [Disk.bytes, length_bytesOf]
  have := congrArg List.length h.bytes
  rwa [length_bytesOf, length_overwrite hlen, Disk.bytes, length_bytesOf] at this

/-! ### A chunk -/

/-- **Nobody uses the inode at `ip`**, which is in use and has no holes. -/
structure Quiet (s : Fs) (ip : Slot) : Prop where
  ref : 1 ≤ (s.itable ip).ref
  lock : (s.itable ip).lock = none
  copy : (s.itable ip).valid = true → s.copy ip = s.disk.dinode (s.itable ip).inum
  type : (s.disk.dinode (s.itable ip).inum).type ≠ .free
  owned : Owned s.disk
  dense : Dense s.disk.block (s.disk.dinode (s.itable ip).inum)

def Fs.ondisk (s : Fs) (ip : Slot) : Dinode := s.disk.dinode (s.itable ip).inum

theorem itable_setInode (s : Fs) (ip : Slot) (e : Inode) : (s.setInode ip e).itable ip = e := update_self ..

theorem ilock_quiet (h : Quiet s ip) : ∃ s', s.ilock p ip = .ok (some s') ∧ s'.disk = s.disk ∧ s'.ftable = s.ftable ∧
    (s'.itable ip).lock = some p ∧ (s'.itable ip).ref = (s.itable ip).ref ∧ (s'.itable ip).inum = (s.itable ip).inum ∧ s'.copy ip = s.ondisk ip := by
  have href := h.ref
  rw [Fs.ilock, if_neg (by omega), if_neg (by rw [h.lock]; simp)]
  dsimp only
  have hself : (s.setLock ip (some p)).itable ip = { s.itable ip with lock := some p } := update_self ..
  by_cases hv : (s.itable ip).valid = true
  · rw [hself, if_pos hv]
    refine ⟨_, rfl, rfl, rfl, ?_, ?_, ?_, ?_⟩
    · rw [hself]
    · rw [hself]
    · rw [hself]
    · rw [Fs.copy, hself]
      exact h.copy hv
  · rw [hself, if_neg hv]
    dsimp only
    rw [if_neg (show ((s.setLock ip (some p)).disk.dinode (s.itable ip).inum).type ≠ .free from h.type)]
    refine ⟨_, rfl, rfl, rfl, ?_, ?_, ?_, ?_⟩
    · rw [itable_setInode]
    · rw [itable_setInode]
    · rw [itable_setInode]
    · rw [Fs.copy, itable_setInode]
      rfl

theorem writeChunk_alone {r : Option ℕ} (h : Quiet s ip)
    (hw : writei s.disk (s.itable ip).inum (s.ondisk ip) src (s.ftable f).off n = .ok (r, d', e')) :
    Program.Alone exec p (fun _ => False) (Prog.writeChunk f ip src n) s fun r' s' => r' = r ∧ s'.disk = d' ∧
      (s'.itable ip).ref = (s.itable ip).ref ∧ (s'.itable ip).lock = none ∧ (s'.itable ip).inum = (s.itable ip).inum ∧
      s'.copy ip = e' ∧ (s'.ftable f).off = r.elim (s.ftable f).off fun m => ((s.ftable f).off + m) % UINT := by
  refine .act rfl ?_
  -- the inode is locked, and its copy in memory is that on the disk
  have hq : Quiet { s with ops := update s.ops p (s.ops p + 1) } ip := { h with }
  obtain ⟨s₁, hlock, hdisk, hft, hheld, href, hinum, hcopy⟩ := ilock_quiet (p := p) hq
  have hexec : exec (.ilock ip) p { s with ops := update s.ops p (s.ops p + 1) } = .ok (some ((), s₁)) := by
    dsimp only [exec]
    rw [hlock]
    rfl
  refine .act hexec (.act rfl ?_)
  have hwrite : exec (.writei ip src (s₁.ftable f).off n) p s₁ = .ok (some (r, ({ s₁ with disk := d' } : Fs).setCopy ip e')) := by
    dsimp only [exec, Fs.writei]
    rw [hdisk, hft, hinum, hcopy]
    change Except.map some (writei s.disk (s.itable ip).inum (s.ondisk ip) src (s.ftable f).off n >>= _) = _
    rw [hw]
    rfl
  refine .act hwrite ?_
  generalize hs₂ : ({ s₁ with disk := d' } : Fs).setCopy ip e' = s₂
  have hentry : s₂.itable ip = { s₁.itable ip with toDinode := e' } := by
    rw [← hs₂]
    exact update_self ..
  have hdisk₂ : s₂.disk = d' := by
    rw [← hs₂]
    rfl
  have hft₂ : s₂.ftable = s.ftable := by
    rw [← hs₂]
    exact hft
  -- the rest depends on whether the offset is moved
  have hrest : ∀ s₃ : Fs, s₃.itable = s₂.itable → s₃.disk = s₂.disk →
      (s₃.ftable f).off = r.elim (s.ftable f).off (fun m => ((s.ftable f).off + m) % UINT) →
      Program.Alone exec p (fun _ => False) (do Prog.iunlock ip; Prog.endOp; pure r) s₃ fun r' s' => r' = r ∧ s'.disk = d' ∧
        (s'.itable ip).ref = (s.itable ip).ref ∧ (s'.itable ip).lock = none ∧ (s'.itable ip).inum = (s.itable ip).inum ∧
        s'.copy ip = e' ∧ (s'.ftable f).off = r.elim (s.ftable f).off fun m => ((s.ftable f).off + m) % UINT := by
    intro s₃ hit hd hoff
    have hentry₃ : s₃.itable ip = { s₁.itable ip with toDinode := e' } := by rw [hit, hentry]
    have hunlock : exec (.iunlock ip) p s₃ = .ok (some ((), s₃.setLock ip none)) := by
      have := h.ref
      dsimp only [exec, Fs.iunlock]
      rw [hentry₃, if_neg (by simp only [hheld, href]; simpa using Nat.pos_iff_ne_zero.mp this)]
      rfl
    have hentry₄ : (s₃.setLock ip none).itable ip = { s₁.itable ip with toDinode := e', lock := none } := by
      rw [Fs.setLock, itable_setInode, hentry₃]
    refine .act hunlock (.act rfl (.ret ⟨rfl, hd.trans hdisk₂, ?_, ?_, ?_, ?_, hoff⟩))
    · exact (congrArg Inode.ref hentry₄).trans href
    · exact congrArg Inode.lock hentry₄
    · exact (congrArg Inode.inum hentry₄).trans hinum
    · exact congrArg Inode.toDinode hentry₄
  cases r with
  | none => exact hrest s₂ rfl rfl (by rw [hft₂]; rfl)
  | some m =>
    refine .act rfl (hrest _ rfl rfl ?_)
    have hfile : ∀ file, (s₂.setFile f file).ftable f = file := fun file => update_self ..
    rw [hfile, hft₂]
    rfl

/-! ### All chunks -/

open Prog (maxChunk)

/-- How many bytes of `n` are written from `off` on, if the file reaches as far as that: all of them, or the whole chunks that fit. -/
def fitting (off n : ℕ) : ℕ := if off + n ≤ MAXFILE * BSIZE then n else (MAXFILE * BSIZE - off) / maxChunk * maxChunk

theorem fitting_le (off n : ℕ) : fitting off n ≤ n := by
  rw [fitting]
  split
  · exact le_rfl
  · have := Nat.div_mul_le_self (MAXFILE * BSIZE - off) maxChunk
    omega

theorem fitting_add (hlen : off + min n maxChunk ≤ MAXFILE * BSIZE) :
    fitting off n = min n maxChunk + fitting (off + min n maxChunk) (n - min n maxChunk) := by
  have hc : 0 < maxChunk := by decide
  by_cases hall : off + n ≤ MAXFILE * BSIZE
  · rw [fitting, if_pos hall, fitting, if_pos (by omega)]
    omega
  · have hmin : min n maxChunk = maxChunk := by omega
    rw [hmin] at hlen ⊢
    obtain ⟨q, hq⟩ : ∃ q, MAXFILE * BSIZE - off = q + maxChunk := ⟨MAXFILE * BSIZE - off - maxChunk, by omega⟩
    have hrest : MAXFILE * BSIZE - (off + maxChunk) = q := by omega
    rw [fitting, if_neg hall, fitting, if_neg (by omega), hq, hrest, Nat.add_div_right _ hc, Nat.succ_mul, Nat.add_comm]

theorem fitting_eq_zero (hlen : MAXFILE * BSIZE < off + min n maxChunk) : fitting off n = 0 := by
  have hc : 0 < maxChunk := by decide
  rw [fitting, if_neg (by omega), Nat.div_eq_of_lt (by omega), Nat.zero_mul]

/-- Between `s` and `s'` bytes were written to the inode at `ip` through the file `f`. -/
structure Filled (f : FileId) (ip : Slot) (bs : List UInt8) (s s' : Fs) : Prop where
  inum : (s'.itable ip).inum = (s.itable ip).inum
  wrote : Wrote (s.itable ip).inum (s.ftable f).off bs s.disk s'.disk (s'.ondisk ip)
  off : (s'.ftable f).off = (s.ftable f).off + bs.length
  quiet : Quiet s' ip

theorem Filled.refl (h : Quiet s ip) : Filled f ip [] s s := ⟨rfl, .refl h.owned h.dense, rfl, h⟩

theorem Filled.trans {s'' : Fs} (h : Filled f ip bs s s') (h' : Filled f ip cs s' s'') (hoff : (s.ftable f).off ≤ (s.ondisk ip).size) :
    Filled f ip (bs ++ cs) s s'' := by
  have hw := h'.wrote
  rw [h.inum, h.off] at hw
  refine ⟨h'.inum.trans h.inum, h.wrote.trans hw hoff, ?_, h'.quiet⟩
  rw [h'.off, h.off, List.length_append, Nat.add_assoc]

theorem writeChunk_none (p : Pid) (src : ℕ → ℕ → List UInt8 × Bool) (h : Quiet s ip) (hoff : (s.ftable f).off < UINT) (hn : n < UINT)
    (hbad : (s.ftable f).off > (s.ondisk ip).size ∨ MAXFILE * BSIZE < (s.ftable f).off + n) :
    Program.Alone exec p (fun _ => False) (Prog.writeChunk f ip src n) s fun r s' => r = none ∧ Filled f ip [] s s' := by
  have hw := (writei_none_iff s.disk (s.itable ip).inum src hoff hn (e := s.ondisk ip)).mpr ⟨⟨rfl, rfl⟩, hbad.imp_right .inr⟩
  refine (writeChunk_alone h hw).mono ?_
  rintro r s' ⟨rfl, hdisk, href, hlock, hinum, hcopy, hoff'⟩
  have hon : s'.ondisk ip = s.ondisk ip := by rw [Fs.ondisk, hinum, hdisk]; rfl
  refine ⟨rfl, hinum, ?_, hoff', ⟨by rw [href]; exact h.ref, hlock, fun _ => ?_, ?_, ?_, ?_⟩⟩
  · rw [hon, hdisk]
    exact .refl h.owned h.dense
  · exact hcopy.trans hon.symm
  · exact (congrArg Dinode.type hon).trans_ne h.type
  · rw [hdisk]
    exact h.owned
  · have := h.dense
    rw [hinum, hdisk]
    exact this

theorem writeChunk_some {lo hi : ℕ} (h : Quiet s ip) (hsrc : Source src bs) (hoff : (s.ftable f).off ≤ (s.ondisk ip).size)
    (hn : (s.ftable f).off + bs.length ≤ MAXFILE * BSIZE) (hlo : lo ≤ (s.ftable f).off / BSIZE)
    (hhi : (s.ftable f).off + bs.length ≤ hi * BSIZE) (hen : Enough s.disk (s.ondisk ip) lo hi) :
    Program.Alone exec p (fun _ => False) (Prog.writeChunk f ip src bs.length) s fun r s' =>
      r = some bs.length ∧ Filled f ip bs s s' ∧ Enough s'.disk (s'.ondisk ip) lo hi := by
  have hmax : MAXFILE * BSIZE < UINT := by decide
  obtain ⟨d', e', hw, hen'⟩ := writei_enough h.owned h.type h.dense hsrc hoff hn hlo hhi hen
  obtain ⟨-, -, hwrote⟩ := writei_wrote h.owned h.type h.dense hsrc (lt_of_le_of_lt (by omega) hmax) (lt_of_le_of_lt (by omega) hmax) hw
  refine (writeChunk_alone h hw).mono ?_
  rintro r s' ⟨rfl, hdisk, href, hlock, hinum, hcopy, hoff'⟩
  have hon : s'.ondisk ip = e' := by rw [Fs.ondisk, hinum, hdisk, hwrote.dinode]
  refine ⟨rfl, ⟨hinum, ?_, ?_, ⟨by rw [href]; exact h.ref, hlock, fun _ => ?_, ?_, ?_, ?_⟩⟩, ?_⟩
  · rw [hon, hdisk]
    exact hwrote
  · rw [hoff']
    exact Nat.mod_eq_of_lt (by omega)
  · exact hcopy.trans hon.symm
  · change (s'.ondisk ip).type ≠ .free
    rw [hon, hwrote.info]
    exact h.type
  · rw [hdisk]
    exact hwrote.owned
  · change Dense s'.disk.block (s'.ondisk ip)
    rw [hon, hdisk]
    exact hwrote.dense
  · rw [hon, hdisk]
    exact hen'

theorem countLoop_alone {user : ℕ → Option Page} {addr lo hi : ℕ} (h : Quiet s ip) (hv : ValidBuffer user (addr + i) n)
    (hoff : (s.ftable f).off ≤ (s.ondisk ip).size) (hlo : lo ≤ (s.ftable f).off / BSIZE)
    (hhi : min ((s.ftable f).off + n) (MAXFILE * BSIZE) ≤ hi * BSIZE) (hen : Enough s.disk (s.ondisk ip) lo hi) (hfuel : n ≤ fuel) (hn : n < UINT) :
    Program.Alone exec p (fun _ => False) (Prog.countLoop f ip user addr fuel i n) s fun v s' =>
      v = i + fitting (s.ftable f).off n ∧ Filled f ip (userBytes user (addr + i) (fitting (s.ftable f).off n)) s s' := by
  have hmax : MAXFILE * BSIZE < UINT := by decide
  have hc : 0 < maxChunk := by decide
  induction fuel generalizing s i n with
  | zero =>
    obtain rfl : n = 0 := by omega
    have h0 : fitting (s.ftable f).off 0 = 0 := Nat.le_zero.mp (fitting_le ..)
    rw [h0]
    exact .ret ⟨rfl, .refl h⟩
  | succ fuel ih =>
    rw [Prog.countLoop]
    by_cases hn0 : n = 0
    · subst hn0
      have h0 : fitting (s.ftable f).off 0 = 0 := Nat.le_zero.mp (fitting_le ..)
      rw [if_pos rfl, h0]
      exact .ret ⟨rfl, .refl h⟩
    rw [if_neg hn0]
    have hsize : (s.ondisk ip).size ≤ MAXFILE * BSIZE := h.dense.size
    by_cases hfit : (s.ftable f).off + min n maxChunk ≤ MAXFILE * BSIZE
    · -- this chunk is written, and the others follow
      have hlen : (userBytes user (addr + i) (min n maxChunk)).length = min n maxChunk := length_userBytes
      have hsrc := source_copyin (hv.mono (i := 0) (m := min n maxChunk) (by omega))
      rw [Nat.add_zero] at hsrc
      have hchunk := writeChunk_some (p := p) h hsrc hoff (by rw [hlen]; exact hfit) hlo (show _ ≤ hi * BSIZE by rw [hlen]; omega) hen
      rw [hlen] at hchunk
      refine hchunk.bind ?_
      rintro r s₁ ⟨rfl, hfill, hen₁⟩
      have hoff₁ : (s₁.ftable f).off = (s.ftable f).off + min n maxChunk := by rw [hfill.off, hlen]
      have hsize₁ : (s₁.ondisk ip).size = max (s.ondisk ip).size ((s.ftable f).off + min n maxChunk) := by
        have := hfill.wrote.size hoff
        rwa [hlen] at this
      rw [if_pos rfl]
      have hv₁ : ValidBuffer user (addr + (i + min n maxChunk)) (n - min n maxChunk) := by
        rw [← Nat.add_assoc]
        exact hv.mono (by omega)
      refine (ih hfill.quiet hv₁ (by omega) (hlo.trans (Nat.div_le_div_right (by omega))) (by omega) hen₁ (by omega) (by omega)).mono ?_
      rintro v s₂ ⟨rfl, hrest⟩
      rw [hoff₁, ← Nat.add_assoc] at hrest
      rw [hoff₁, fitting_add hfit, userBytes_append]
      exact ⟨Nat.add_assoc .., hfill.trans hrest hoff⟩
    · -- the first chunk that does not fit
      have h0 := fitting_eq_zero (n := n) (Nat.lt_of_not_le hfit)
      rw [h0]
      refine (writeChunk_none p _ h (by omega) (show min n maxChunk < UINT by omega) (.inr (by omega))).bind ?_
      rintro r s₁ ⟨rfl, hfill⟩
      exact .ret ⟨rfl, hfill⟩

/-! ### What the call returns -/

/-- **A write in chunks is one write.** It returns `n` if and only if the offset is not behind the end of the file and the limit is not in
the way, and then all the bytes were written; otherwise as many chunks are written as fit, or none if the offset is behind the end. -/
theorem filewrite_chunks {user : ℕ → Option Page} {addr : ℕ} (p : Pid) (h : Quiet s ip) (hv : ValidBuffer user addr n)
    (hoff : (s.ftable f).off < UINT) (hpos : 0 < n) (hn : n < 2 ^ 31)
    (hen : Enough s.disk (s.ondisk ip) ((s.ftable f).off / BSIZE) (min MAXFILE (((s.ftable f).off + n + BSIZE - 1) / BSIZE))) :
    ∃ v s', (Prog.filewriteInode f ip user addr n).alone exec p s = .ok (some (v, s')) ∧
      (v = n ↔ (s.ftable f).off ≤ (s.ondisk ip).size ∧ (s.ftable f).off + n ≤ MAXFILE * BSIZE) ∧ (v = n → Filled f ip (userBytes user addr n) s s') ∧
      (v ≠ n → v = -1 ∧ Filled f ip (userBytes user addr (if (s.ftable f).off ≤ (s.ondisk ip).size then
        (MAXFILE * BSIZE - (s.ftable f).off) / maxChunk * maxChunk else 0)) s s') := by
  have hU : UINT = 2 ^ 32 := rfl
  have hc : 0 < maxChunk := by decide
  refine Program.Alone.exists_of_false ?_
  rw [Prog.filewriteInode, Int.toNat_natCast]
  by_cases hle : (s.ftable f).off ≤ (s.ondisk ip).size
  · have hB : 0 < BSIZE := by decide
    have hdiv := Nat.div_add_mod ((s.ftable f).off + n + BSIZE - 1) BSIZE
    have hmod := Nat.mod_lt ((s.ftable f).off + n + BSIZE - 1) hB
    have hhi : min ((s.ftable f).off + n) (MAXFILE * BSIZE) ≤ min MAXFILE (((s.ftable f).off + n + BSIZE - 1) / BSIZE) * BSIZE := by
      rw [← Nat.mul_min_mul_right]
      rw [Nat.mul_comm] at hdiv
      omega
    refine (countLoop_alone (p := p) h (show ValidBuffer user (addr + 0) n from hv) hle le_rfl hhi hen le_rfl (by omega)).bind ?_
    rintro v s' ⟨rfl, hfill⟩
    rw [Nat.add_zero] at hfill
    rw [Nat.zero_add, if_pos hle]
    have hfle := fitting_le (s.ftable f).off n
    refine .ret ?_
    by_cases hfit : (s.ftable f).off + n ≤ MAXFILE * BSIZE
    · have hall : fitting (s.ftable f).off n = n := if_pos hfit
      rw [hall] at hfill ⊢
      rw [if_pos rfl]
      exact ⟨iff_of_true rfl ⟨hle, hfit⟩, fun _ => hfill, fun hne => absurd rfl hne⟩
    · have hpart : fitting (s.ftable f).off n = (MAXFILE * BSIZE - (s.ftable f).off) / maxChunk * maxChunk := if_neg hfit
      have hlt := Nat.div_mul_le_self (MAXFILE * BSIZE - (s.ftable f).off) maxChunk
      rw [if_neg (by omega), ← hpart]
      exact ⟨iff_of_false (by omega) fun hboth => hfit hboth.2, fun heq => absurd heq (by omega), fun _ => ⟨rfl, hfill⟩⟩
  · -- the first chunk fails already
    obtain ⟨m, rfl⟩ : ∃ m, n = m + 1 := ⟨n - 1, by omega⟩
    rw [Prog.countLoop, if_neg (by omega), if_neg hle]
    refine Program.Alone.bind (Q := fun v s' => v = 0 ∧ Filled f ip [] s s') ?_ ?_
    · refine (writeChunk_none p _ h (by omega) (show min (m + 1) maxChunk < UINT by omega) (.inl (by omega))).bind ?_
      rintro r s₁ ⟨rfl, hfill⟩
      exact .ret ⟨rfl, hfill⟩
    · rintro v s' ⟨rfl, hfill⟩
      rw [if_neg (by omega)]
      exact .ret ⟨iff_of_false (by omega) fun hboth => hle hboth.1, fun heq => absurd heq (by omega), fun _ => ⟨rfl, hfill⟩⟩

def rootOpen : Fs where
  disk := emptyImage
  itable _ := ⟨Dinode.zero, ROOTINO, 1, none, false⟩
  ftable _ := ⟨.inode, 1, true, true, 0, 32, 0⟩
  procs _ := none
  ops _ := 0

theorem rootOpen_quiet : Quiet rootOpen 0 := by
  have hroot : (emptyImage.dinode ROOTINO).type ≠ .free := by decide
  exact ⟨le_rfl, rfl, fun hvalid => absurd hvalid Bool.false_ne_true, hroot, good_emptyImage.owned, good_emptyImage.dense ROOTINO hroot⟩

/-- Two chunks are written. -/
theorem filewrite_chunks_rootOpen : Prog.maxChunk < 4000 ∧ ∃ v s',
    (Prog.filewriteInode 0 0 (fun _ => some fun _ => 7) 0 4000).alone exec 0 rootOpen = .ok (some (v, s')) ∧ v = 4000 ∧ (s'.ftable 0).off = 4032 := by
  obtain ⟨v, s', hrun, hiff, hyes, -⟩ := filewrite_chunks (s := rootOpen) (f := 0) (n := 4000) 0 rootOpen_quiet
    (show ValidBuffer (fun _ => some fun _ => 7) 0 4000 from fun _ _ => rfl) (by decide) (by decide) (by decide) (by decide +kernel)
  have hv : v = 4000 := hiff.mpr ⟨by decide, by decide⟩
  exact ⟨by decide, v, s', hrun, hv, (hyes hv).off.trans (by decide +kernel)⟩

end Xv6.FileSys
