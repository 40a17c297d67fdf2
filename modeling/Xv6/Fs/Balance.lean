import Xv6.Fs.View
import Mathlib.Algebra.BigOperators.Fin

/-!
# The system calls keep to the discipline

Every system call unlocks the inodes it locks, puts those it gets or hands them on to a file or a working directory, and
ends the transaction it begins. There is one lemma for each function of the source.
-/

namespace Xv6.FileSys

open Lib Function

variable {v u : View} {k j ip dp : Slot} {f : FileId} {α : Type} {Q : α → View → Prop} {P : Unit → View → Prop}
  {parent : Bool}

/-! ### Taking and giving back -/

namespace View

@[simp] theorem addRef_refs_self : (v.addRef k).refs k = v.refs k + 1 := update_self ..

theorem addRef_refs_of_ne (h : j ≠ k) : (v.addRef k).refs j = v.refs j := update_of_ne h ..

theorem le_addRef_refs : v.refs j ≤ (v.addRef k).refs j := by
  by_cases h : j = k
  · rw [h, addRef_refs_self]
    omega
  · rw [addRef_refs_of_ne h]

@[simp] theorem addRef_locks : (v.addRef k).locks = v.locks := rfl

@[simp] theorem addRef_txn : (v.addRef k).txn = v.txn := rfl

@[simp] theorem addRef_light : (v.addRef k).light = v.light := rfl

@[simp] theorem lock_refs : (v.lock k).refs = v.refs := rfl

@[simp] theorem lock_txn : (v.lock k).txn = v.txn := rfl

@[simp] theorem lock_light : (v.lock k).light = v.light := rfl

@[simp] theorem lock_locks_self : (v.lock k).locks k = true := update_self ..

theorem lock_locks_of_ne (h : j ≠ k) : (v.lock k).locks j = v.locks j := update_of_ne h ..

theorem lock_locks (h : v.locks j = true) : (v.lock k).locks j = true := by
  by_cases hjk : j = k
  · rw [hjk, lock_locks_self]
  · rw [lock_locks_of_ne hjk, h]

@[simp] theorem dropRef_addRef : (v.addRef k).dropRef k = v := by
  ext <;> simp [addRef, dropRef]

@[simp] theorem dropFile_addFile : (v.addFile f).dropFile f = v := by
  ext <;> simp [addFile, dropFile]

@[simp] theorem unlock_lock (h : v.locks k = false) : (v.lock k).unlock k = v := by
  ext <;> simp [lock, unlock, ← h]

theorem unlock_addRef : (v.addRef j).unlock k = (v.unlock k).addRef j := rfl

theorem addRef_comm : (v.addRef j).addRef k = (v.addRef k).addRef j := by
  by_cases h : j = k
  · rw [h]
  · ext <;> simp [addRef, update_of_ne h, update_of_ne (Ne.symm h), update_comm h]

@[simp] theorem dropRef_addRef_addRef : ((v.addRef k).addRef j).dropRef k = v.addRef j := by
  rw [addRef_comm, dropRef_addRef]

theorem dropRef_lock : (v.lock j).dropRef k = (v.dropRef k).lock j := rfl

theorem unlock_lock_comm (h : j ≠ k) : (v.lock j).unlock k = (v.unlock k).lock j := by
  ext <;> simp [lock, unlock, update_comm h]

def hold (v : View) (k : Slot) : View := (v.addRef k).lock k

theorem unlock_hold (h : v.locks k = false) : (v.hold k).unlock k = v.addRef k :=
  unlock_lock (v := v.addRef k) h

theorem unlockput (h : v.locks k = false) : ((v.hold k).unlock k).dropRef k = v := by
  rw [unlock_hold h, dropRef_addRef]

theorem unlockput_comm (h : v.locks k = false) (hjk : j ≠ k) : (((v.hold k).hold j).unlock k).dropRef k = v.hold j := by
  rw [hold, unlock_lock_comm hjk, unlock_addRef, unlock_hold h, dropRef_lock, dropRef_addRef_addRef, hold]

@[simp] theorem hold_locks_self : (v.hold k).locks k = true := lock_locks_self

@[simp] theorem hold_refs_self : (v.hold k).refs k = v.refs k + 1 := addRef_refs_self

theorem hold_locks (h : v.locks j = true) : (v.hold k).locks j = true := lock_locks h

theorem le_hold_refs : v.refs j ≤ (v.hold k).refs j := le_addRef_refs

theorem hold_covered (h : ∀ j, v.locks j = true → 0 < v.refs j) (j : Slot) (hj : (v.hold k).locks j = true) : 0 < (v.hold k).refs j := by
  by_cases hjk : j = k
  · rw [hjk, hold_refs_self]
    omega
  · have hv : v.locks j = true := by rwa [hold, lock_locks_of_ne hjk] at hj
    exact Nat.lt_of_lt_of_le (h j hv) le_hold_refs

end View

namespace Prog

open View

variable {n off : ℕ} {path name : List UInt8} {type : IType} {e : Panic} {omode : Omode} {file : File} {major minor : ℤ} {mem : ℕ → Bool}

/-- The program ends with the rights it began with. -/
abbrev Keeps (p : Prog α) (v : View) : Prop := p.Ok rights v fun _ u => u = v

/-- A process inside a transaction that has locked nothing yet. -/
structure Clear (v : View) : Prop where
  locks : ∀ k, v.locks k = false
  txn : v.txn = true
  light : v.light = false

theorem Clear.addRef (h : Clear v) : Clear (v.addRef k) := { h with }

theorem Clear.covered (h : Clear v) : ∀ j, v.locks j = true → 0 < v.refs j := fun j hj => by
  rw [h.locks] at hj
  cases hj

/-! ### Actions -/

theorem ok_panic (h : e ≠ .iget) : (panic e : Prog α).Ok rights v Q := h

theorem ok_look {f : Inode → Prog α} (h : ∀ i, (f i).Ok rights v Q) : (look ip >>= f).Ok rights v Q :=
  .act trivial fun i _ hw => hw ▸ h i

theorem ok_ilock {f : Unit → Prog α} (h : 0 < v.refs ip ∨ ∃ f, v.known f = some ip) (hQ : v.locks ip = false → (f ()).Ok rights (v.lock ip) Q) :
    (ilock ip >>= f).Ok rights v Q :=
  .act h fun _ _ hw => hw.2 ▸ hQ hw.1

/-! ### Inodes -/

theorem ok_iput (hr : 0 < v.refs ip)
    (hl : v.locks ip = true → 2 ≤ v.refs ip) (ht : v.txn = true) (hQ : P () (v.dropRef ip)) : (iput ip).Ok rights v P := by
  refine .act ⟨hr, hl, ht⟩ fun last w hw => ?_
  cases last with
  | false =>
    obtain rfl : w = v.dropRef ip := hw
    exact hQ
  | true =>
    obtain ⟨hfree, rfl⟩ : v.locks ip = false ∧ w = v.lock ip := hw
    refine .act ⟨lock_locks_self, ht⟩ ?_
    rintro _ w rfl
    refine .act ⟨lock_locks_self, ht⟩ ?_
    rintro _ w rfl
    refine .act ⟨lock_locks_self, ht⟩ ?_
    rintro _ w rfl
    refine .act lock_locks_self ?_
    rintro _ w rfl
    rw [unlock_lock hfree]
    exact .perform ⟨hr, hfree⟩ fun _ w hw => hw ▸ hQ

theorem ok_iunlockput (hr : 0 < v.refs ip) (hl : v.locks ip = true)
    (ht : v.txn = true) (hQ : P () ((v.unlock ip).dropRef ip)) : (iunlockput ip).Ok rights v P := by
  refine .act hl ?_
  rintro _ w rfl
  refine ok_iput hr (fun h => ?_) ht hQ
  simp [View.unlock] at h

theorem ok_ilock_hold {f : Unit → Prog α} (hQ : v.locks ip = false → (f ()).Ok rights (v.hold ip) Q) :
    (ilock ip >>= f).Ok rights (v.addRef ip) Q :=
  ok_ilock (Or.inl (by simp)) hQ

theorem ok_iunlockput_hold (hl : v.locks ip = false) (ht : v.txn = true) (hQ : P () v) :
    (iunlockput ip).Ok rights (v.hold ip) P :=
  ok_iunlockput (by simp) hold_locks_self ht (by rwa [unlockput hl])

theorem Clear.unlockput {g : Unit → Prog α} (h : Clear v) (hQ : (g ()).Ok rights v Q) : (iunlockput ip >>= g).Ok rights (v.hold ip) Q :=
  .seq (ok_iunlockput_hold (h.locks ip) h.txn rfl) fun _ => hQ

theorem ok_iput_addRef (h : Clear v) (hQ : P () v) : (iput ip).Ok rights (v.addRef ip) P :=
  ok_iput (by simp) (fun hl => by simp [h.locks] at hl) h.txn (by rwa [dropRef_addRef])

/-- The directory is given up for what was found in it. -/
theorem ok_iunlockput_hold_addRef (h : Clear v) :
    (iunlockput dp).Ok rights ((v.hold dp).addRef ip) fun _ u => u = v.addRef ip := by
  refine ok_iunlockput (Nat.lt_of_lt_of_le (by simp) le_addRef_refs) hold_locks_self h.txn ?_
  rw [unlock_addRef, unlock_hold (h.locks dp), dropRef_addRef_addRef]

theorem ok_ialloc (hlight : v.light = false) (ht : v.txn = true) :
    (ialloc n type).Ok rights v fun ip w => w = v.addRef ip := by
  unfold ialloc
  induction List.range' 1 (n - 1) with
  | nil => exact ok_panic (by decide)
  | cons inum inums ih =>
    refine .act ht ?_
    rintro got w rfl
    cases got with
    | true => exact .perform hlight fun _ _ hw => hw
    | false => exact ih

/-! ### Directories -/

theorem ok_readDirent (he : e ≠ .iget) (hl : v.locks dp = true) : (readDirent e dp off).Keeps v := by
  refine .act hl ?_
  rintro r w rfl
  cases r with
  | none => exact ok_panic he
  | some bs =>
    dsimp only
    split
    · exact rfl
    · exact ok_panic he

theorem ok_scan {p : Dirent → Bool} {fuel off : ℕ} (he : e ≠ .iget) (hl : v.locks dp = true) :
    (scan e p dp fuel off).Keeps v := by
  induction fuel generalizing off with
  | zero => exact rfl
  | succ fuel ih =>
    refine ok_look fun d => ?_
    split
    · refine .seq (ok_readDirent he hl) fun de => ?_
      split
      · exact rfl
      · exact ih
    · exact rfl

theorem ok_dirlookup {Q : Option (Slot × ℕ) → View → Prop} (hl : v.locks dp = true) (hlight : v.light = false) (hnone : Q none v)
    (hsome : ∀ ip off, Q (some (ip, off)) (v.addRef ip)) : (dirlookup dp name).Ok rights v Q := by
  refine ok_look fun d => ?_
  split
  · exact ok_panic (by decide)
  · refine .seq (ok_scan (by decide) hl) fun r => ?_
    rcases r with _ | ⟨off, de⟩
    · exact hnone
    · exact .act hlight fun ip _ hw => hw ▸ hsome ip off

theorem ok_writeDirent {bs : List UInt8} (he : e ≠ .iget) (hl : v.locks dp = true) (ht : v.txn = true) :
    (writeDirent e dp bs off).Keeps v := by
  refine .act ⟨hl, ht⟩ ?_
  rintro r w rfl
  split
  · exact rfl
  · exact ok_panic he

theorem ok_dirlink {inum : ℕ} (hl : v.locks dp = true) (hr : ∀ k, v.locks k = true → 0 < v.refs k)
    (hlight : v.light = false) (ht : v.txn = true) : (dirlink dp name inum).Keeps v := by
  refine .into (ok_dirlookup hl hlight ?_ fun ip off => ?_)
  · refine ok_look fun d => ?_
    refine .seq (ok_scan (by decide) hl) fun r => ?_
    rcases r with _ | ⟨off, de⟩ <;> exact .seq (ok_writeDirent (by decide) hl ht) fun _ => rfl
  · refine .seq (ok_iput (by simp) (fun h => ?_) ht dropRef_addRef) fun _ => rfl
    -- the name may be `.`, but then there are two references
    have := hr ip h
    rw [addRef_refs_self]
    omega

theorem ok_isdirempty (hl : v.locks dp = true) : (isdirempty dp).Keeps v :=
  ok_look fun _ => .seq (ok_scan (by decide) hl) fun _ => rfl

/-! ### Paths -/

theorem ok_namexLoop {Q : Option (Slot × List UInt8) → View → Prop} {fuel : ℕ}
    {path name : List UInt8} (h : Clear v) (hnone : Q none v) (hsome : ∀ ip name, Q (some (ip, name)) (v.addRef ip)) :
    (namexLoop parent fuel ip path name).Ok rights (v.addRef ip) Q := by
  induction fuel generalizing ip path name with
  | zero => exact hsome ip name
  | succ fuel ih =>
    unfold namexLoop
    split
    · split
      · exact .seq (ok_iput_addRef h rfl) fun _ => hnone
      · exact hsome ip name
    rename_i name path _
    refine ok_ilock_hold fun _ => ok_look fun i => ?_
    split
    · exact h.unlockput hnone
    split
    · refine .act hold_locks_self ?_
      rintro _ w rfl
      rw [unlock_hold (h.locks ip)]
      exact hsome ip name
    · refine .into (ok_dirlookup hold_locks_self h.light ?_ fun next off => ?_)
      · exact h.unlockput hnone
      · exact .seq (ok_iunlockput_hold_addRef h) fun _ => ih

theorem ok_namex {Q : Option (Slot × List UInt8) → View → Prop} (h : Clear v) (hnone : Q none v)
    (hsome : ∀ ip name, Q (some (ip, name)) (v.addRef ip)) : (namex path parent).Ok rights v Q := by
  refine .bind (Q := fun ip w => w = v.addRef ip) ?_ fun ip w hw => ?_
  · unfold namexRoot
    split <;> exact .perform h.light fun _ _ hw => hw
  · rw [hw]
    exact ok_namexLoop h hnone hsome

theorem ok_namei {Q : Option Slot → View → Prop} (h : Clear v) (hnone : Q none v) (hsome : ∀ ip, Q (some ip) (v.addRef ip)) :
    (namei path).Ok rights v Q :=
  .bind (Q := fun (r : Option (Slot × List UInt8)) w => Q (r.map Prod.fst) w) (ok_namex h hnone fun ip _ => hsome ip)
    fun _ _ h => h

/-! ### Files -/

theorem ok_fileclose (hf : 0 < v.files f) (hlight : v.light = false)
    (ht : v.txn = false ∨ v.fresh f = true) (hl : ∀ k, v.fresh f = false → v.locks k = false)
    (hQ : P () ((v.dropFile f).setFresh f false)) : (fileclose f).Ok rights v P := by
  refine .act ⟨hf, hlight⟩ fun r w hw => ?_
  cases r with
  | none =>
    obtain rfl : w = (v.dropFile f).setFresh f false := hw
    exact hQ
  | some ip =>
    obtain ⟨hfresh, rfl⟩ : v.fresh f = false ∧ w = (v.dropFile f).addRef ip := hw
    have hsame : (v.dropFile f).setFresh f false = v.dropFile f := by
      ext <;> simp [View.setFresh, View.dropFile, ← hfresh]
    rw [hsame] at hQ
    refine .act (ht.resolve_right (by simp [hfresh])) ?_
    rintro _ w rfl
    refine .seq (w := (v.dropFile f).setTxn true) ?_ fun _ => ?_
    · refine ok_iput (by simp [View.setTxn]) (fun h => ?_) rfl ?_
      · simp [View.setTxn, View.dropFile, hl ip hfresh] at h
      · exact dropRef_addRef (v := (v.dropFile f).setTxn true)
    · refine .perform rfl ?_
      rintro _ w rfl
      convert hQ using 1
      ext <;> simp [View.setTxn, View.dropFile, ht.resolve_right (by simp [hfresh])]

section Known

variable (hknown : file.type ≠ .none → v.known f = some file.ip)

include hknown

theorem ok_filestat : (filestat file).Keeps v := by
  unfold filestat
  split
  · exact rfl
  rename_i htype
  refine ok_ilock (Or.inr ⟨f, hknown htype⟩) fun hfree => ok_look fun _ => ?_
  refine .act lock_locks_self ?_
  rintro _ w rfl
  rw [unlock_lock hfree]
  exact rfl

omit hknown in
theorem ok_advance {r : Option ℕ} (hf : v.known f = some ip) (hl : v.locks ip = true) : (advance f r).Keeps v := by
  cases r with
  | none => exact rfl
  | some r => exact .perform ⟨ip, hf, hl⟩ fun _ _ hw => hw

theorem ok_fileread {dst : ℕ → ℕ → Bool} : (fileread f file dst n).Keeps v := by
  unfold fileread
  split
  · exact rfl
  split
  · exact rfl
  · next htype =>
    have hf := hknown (by rw [htype]; simp)
    refine ok_ilock (Or.inr ⟨f, hf⟩) fun hfree => ?_
    refine .act ⟨_, hf, lock_locks_self⟩ ?_
    rintro off w rfl
    refine .act lock_locks_self ?_
    rintro r w rfl
    refine .seq (ok_advance hf lock_locks_self) fun _ => ?_
    refine .perform lock_locks_self ?_
    rintro _ w rfl
    exact unlock_lock hfree
  · exact ok_panic (by decide)

omit hknown in
theorem ok_writeChunk {src : ℕ → ℕ → List UInt8 × Bool} (hf : v.known f = some ip) (ht : v.txn = false) :
    (writeChunk f ip src n).Keeps v := by
  refine .act ht ?_
  rintro _ w rfl
  refine ok_ilock (Or.inr ⟨f, hf⟩) fun hfree => ?_
  refine .act ⟨_, hf, lock_locks_self⟩ ?_
  rintro off w rfl
  refine .act ⟨lock_locks_self, rfl⟩ ?_
  rintro r w rfl
  refine .seq (ok_advance hf lock_locks_self) fun _ => ?_
  refine .act lock_locks_self ?_
  rintro _ w rfl
  rw [unlock_lock hfree]
  refine .act rfl ?_
  rintro _ w rfl
  ext <;> simp [View.setTxn, ht]

theorem ok_filewrite {user : ℕ → Option Logging.Page} {addr n : ℕ} (ht : v.txn = false) :
    (filewrite f file user addr n).Keeps v := by
  unfold filewrite
  split
  · exact rfl
  split
  · exact rfl
  · next htype =>
    have hf := hknown (by rw [htype]; simp)
    have hloop : ∀ fuel i m, (filewriteLoop f file.ip user addr fuel i m).Keeps v := by
      intro fuel
      induction fuel with
      | zero => exact fun _ _ => rfl
      | succ fuel ih =>
        intro i m
        unfold filewriteLoop
        split
        · exact rfl
        · refine .seq (ok_writeChunk hf ht) fun r => ?_
          split
          · exact ih _ _
          · exact rfl
    exact hloop n 0 n
  · exact ok_panic (by decide)

end Known

/-! ### Names -/

theorem ok_endOp (ht : v.txn = true) (hQ : P () (v.setTxn false)) : endOp.Ok rights v P :=
  .perform ht fun _ _ hw => hw ▸ hQ

theorem ok_addLink_iupdate {g : Unit → Prog α} {n : ℤ} (hl : v.locks ip = true) (ht : v.txn = true) (hQ : (g ()).Ok rights v Q) :
    (addLink ip n >>= fun _ => iupdate ip >>= g).Ok rights v Q := by
  refine .act ⟨hl, ht⟩ ?_
  rintro _ w rfl
  refine .act ⟨hl, ht⟩ ?_
  rintro _ w rfl
  exact hQ

theorem ok_linkBad (h : Clear v) (hQ : P () (v.setTxn false)) : (linkBad ip).Ok rights (v.addRef ip) P := by
  refine ok_ilock_hold fun _ => ?_
  refine ok_addLink_iupdate hold_locks_self h.txn ?_
  exact h.unlockput (ok_endOp h.txn hQ)

theorem ok_linkNew {new : List UInt8} (h : Clear v)
    (hQ : P () (v.setTxn false)) : (linkNew ip new).Ok rights (v.addRef ip) P := by
  refine .into (ok_namex h.addRef (ok_linkBad h hQ) fun dp name => ?_)
  refine ok_ilock_hold fun _ => ok_look fun i => ?_
  refine .seq (ok_dirlink hold_locks_self (hold_covered h.addRef.covered) h.light h.txn) fun made => ?_
  cases made with
  | true =>
    refine h.addRef.unlockput ?_
    exact .seq (ok_iput_addRef h rfl) fun _ => ok_endOp h.txn hQ
  | false =>
    exact h.addRef.unlockput (ok_linkBad h hQ)

theorem ok_beginOp {f : Unit → Prog α} (ht : v.txn = false) (hQ : (f ()).Ok rights (v.setTxn true) Q) : (beginOp >>= f).Ok rights v Q :=
  .act ht fun _ _ hw => hw ▸ hQ

theorem ok_sysLink {old new : List UInt8} (h : Clear (v.setTxn true))
    (ht : v.txn = false) (hQ : P () ((v.setTxn true).setTxn false)) : (sysLink old new).Ok rights v P := by
  refine ok_beginOp ht ?_
  refine .into (ok_namei h (ok_endOp rfl hQ) fun ip => ?_)
  refine ok_ilock_hold fun hfree => ok_look fun i => ?_
  split
  · exact h.unlockput (ok_endOp h.txn hQ)
  · refine ok_addLink_iupdate hold_locks_self h.txn ?_
    refine .act hold_locks_self ?_
    rintro _ w rfl
    rw [unlock_hold hfree]
    exact ok_linkNew h hQ

theorem ok_unlinkBad (h : Clear v) (hQ : P () (v.setTxn false)) : (unlinkBad dp).Ok rights (v.hold dp) P :=
  h.unlockput (ok_endOp h.txn hQ)

theorem ok_unlinkParent (hl : v.locks dp = true) (ht : v.txn = true) : (unlinkParent dp ip).Keeps v := by
  refine ok_look fun i => ?_
  split
  · refine .act ⟨hl, ht⟩ ?_
    rintro _ w rfl
    exact .perform ⟨hl, ht⟩ fun _ _ hw => hw
  · exact rfl

theorem ok_unlinkEntry (h : Clear v) (hne : ip ≠ dp)
    (hQ : P () (v.setTxn false)) : (unlinkEntry dp ip off).Ok rights ((v.hold dp).hold ip) P := by
  have hdp : ((v.hold dp).hold ip).locks dp = true := hold_locks hold_locks_self
  have hr : 0 < ((v.hold dp).hold ip).refs dp := Nat.lt_of_lt_of_le (by simp) le_hold_refs
  refine .seq (ok_writeDirent (by decide) hdp h.txn) fun _ => ?_
  refine .seq (ok_unlinkParent hdp h.txn) fun _ => ?_
  refine .seq (ok_iunlockput hr hdp h.txn rfl) fun _ => ?_
  rw [unlockput_comm (h.locks dp) hne]
  refine ok_addLink_iupdate hold_locks_self h.txn ?_
  exact h.unlockput (ok_endOp h.txn hQ)

theorem ne_of_locks (h : (v.hold dp).locks ip = false) : ip ≠ dp := by
  rintro rfl
  rw [hold_locks_self] at h
  cases h

theorem ok_sysUnlink (h : Clear (v.setTxn true)) (ht : v.txn = false) (hQ : P () ((v.setTxn true).setTxn false)) :
    (sysUnlink path).Ok rights v P := by
  refine ok_beginOp ht ?_
  refine .into (ok_namex h (ok_endOp rfl hQ) fun dp name => ?_)
  refine ok_ilock_hold fun _ => ?_
  split
  · exact ok_unlinkBad h hQ
  refine .into (ok_dirlookup hold_locks_self h.light (ok_unlinkBad h hQ) fun ip off => ?_)
  refine ok_ilock_hold fun hfree => ok_look fun i => ?_
  have hne := ne_of_locks hfree
  split
  · exact ok_panic (by decide)
  split
  · refine .seq (ok_isdirempty hold_locks_self) fun empty => ?_
    cases empty with
    | true => exact ok_unlinkEntry h hne hQ
    | false => exact .seq (ok_iunlockput_hold hfree h.txn rfl) fun _ => ok_unlinkBad h hQ
  · exact ok_unlinkEntry h hne hQ

/-! ### New inodes -/

theorem ok_createDots (h : Clear v) : (createDots type dp ip).Keeps ((v.hold dp).hold ip) := by
  have hcov := hold_covered (k := ip) (hold_covered (k := dp) h.covered)
  unfold createDots
  split
  · refine ok_addLink_iupdate (hold_locks hold_locks_self) h.txn ?_
    refine ok_look fun i => .seq (ok_dirlink hold_locks_self hcov h.light h.txn) ?_
    rintro (_ | _)
    · exact ok_panic (by decide)
    · refine ok_look fun d => .seq (ok_dirlink hold_locks_self hcov h.light h.txn) ?_
      rintro (_ | _)
      · exact ok_panic (by decide)
      · exact rfl
  · exact rfl

theorem ok_createNew (h : Clear v) :
    (createNew n dp name type major minor).Ok rights (v.hold dp) fun ip w => w = v.hold ip := by
  refine .bind (ok_ialloc h.light h.txn) ?_
  rintro ip w rfl
  refine ok_ilock_hold fun hfree => ?_
  have hdp : ((v.hold dp).hold ip).locks dp = true := hold_locks hold_locks_self
  have hr : 0 < ((v.hold dp).hold ip).refs dp := Nat.lt_of_lt_of_le (by simp) le_hold_refs
  refine .act ⟨hold_locks_self, h.txn⟩ ?_
  rintro _ w rfl
  refine .act ⟨hold_locks_self, h.txn⟩ ?_
  rintro _ w rfl
  refine .seq (ok_createDots h) fun _ => ok_look fun i => ?_
  refine .seq (ok_dirlink hdp (hold_covered (hold_covered h.covered)) h.light h.txn) fun made => ?_
  cases made with
  | false => exact ok_panic (by decide)
  | true =>
    refine .seq (ok_iunlockput hr hdp h.txn rfl) fun _ => ?_
    exact unlockput_comm (h.locks dp) (ne_of_locks hfree)

theorem ok_create {Q : Option Slot → View → Prop} (h : Clear v) (hnone : Q none v) (hsome : ∀ ip, Q (some ip) (v.hold ip)) :
    (create n path type major minor).Ok rights v Q := by
  refine .into (ok_namex h hnone fun dp name => ?_)
  refine ok_ilock_hold fun _ => ?_
  refine .into (ok_dirlookup hold_locks_self h.light ?_ fun ip off => ?_)
  · exact .bind (ok_createNew h) fun ip w hw => hw ▸ hsome ip
  refine .seq (ok_iunlockput_hold_addRef h) fun _ => ?_
  refine ok_ilock_hold fun _ => ok_look fun i => ?_
  dsimp only
  split
  · exact hsome ip
  · exact h.unlockput hnone

theorem ok_openInode {Q : Option Slot → View → Prop} (h : Clear v) (hnone : Q none v) (hsome : ∀ ip, Q (some ip) (v.hold ip)) :
    (openInode n path omode).Ok rights v Q := by
  unfold openInode
  split
  · exact ok_create h hnone hsome
  · refine .into (ok_namei h hnone fun ip => ?_)
    refine ok_ilock_hold fun _ => ok_look fun i => ?_
    split
    · exact h.unlockput hnone
    · exact hsome ip

theorem ok_truncate (hl : v.locks ip = true) (ht : v.txn = true) : (truncate ip omode).Keeps v := by
  refine ok_look fun i => ?_
  split
  · exact .perform ⟨hl, ht⟩ fun _ _ hw => hw
  · exact rfl

/-! ### Calls -/

def inside (pr : Proc) : View := (View.idle (some pr) false).setTxn true

theorem clear_inside {pr : Proc} : Clear (inside pr) := ⟨fun _ => rfl, rfl, rfl⟩

theorem idle_idle {o : Option Proc} {light : Bool} : (View.idle o light).Idle :=
  ⟨rfl, fun _ => rfl, fun _ => rfl, fun _ => rfl, fun _ => rfl, rfl⟩

theorem idle_inside {pr : Proc} : ((inside pr).setTxn false).Idle := idle_idle

variable {pr : Proc}

/-- The call ends with no more than it began with. -/
abbrev Balanced (q : Prog Unit) (pr : Proc) : Prop := q.Ok rights (View.idle (some pr) false) fun _ => View.Idle

theorem ok_openFd : (openFd ip omode).Ok rights ((inside pr).hold ip) fun _ => View.Idle := by
  have hbad : (iunlockput ip >>= fun _ => endOp).Ok rights ((inside pr).hold ip) fun _ => View.Idle :=
    clear_inside.unlockput (ok_endOp rfl idle_inside)
  refine .act trivial fun r w hw => ?_
  cases r with
  | none =>
    obtain rfl : w = (inside pr).hold ip := hw
    exact hbad
  | some f =>
    obtain ⟨-, rfl⟩ : _ ∧ w = (((inside pr).hold ip).addFile f).setFresh f true := hw
    have hfile : 0 < ((((inside pr).hold ip).addFile f).setFresh f true).files f := by
      simp [View.setFresh, View.addFile]
    refine .act ⟨hfile, pr, rfl⟩ fun r w hw => ?_
    cases r with
    | none =>
      obtain rfl : w = (((inside pr).hold ip).addFile f).setFresh f true := hw
      have hback : (((((inside pr).hold ip).addFile f).setFresh f true).dropFile f).setFresh f false = (inside pr).hold ip := by
        ext <;> simp [View.setFresh, View.addFile, View.dropFile, View.hold, View.lock, View.addRef, inside, View.idle, View.setTxn]
      refine .seq (ok_fileclose hfile rfl (Or.inr ?_) (fun k h => ?_) rfl) fun _ => ?_
      · simp [View.setFresh]
      · simp [View.setFresh] at h
      · rw [hback]
        exact hbad
    | some fd =>
      obtain ⟨pr', -, rfl⟩ := hw
      refine .act ⟨?_, ?_, ?_⟩ ?_
      · simp [View.setOfile, View.dropFile, View.setFresh]
      · simp [View.setOfile, View.dropFile, View.setFresh, View.addFile, View.hold, View.lock, View.addRef, inside, View.idle, View.setTxn]
      · simp [View.setOfile, View.dropFile, View.setFresh, View.addFile]
      rintro _ w rfl
      refine .seq (ok_truncate hold_locks_self rfl) fun _ => .act hold_locks_self ?_
      rintro _ w rfl
      refine ok_endOp rfl ⟨rfl, fun k => ?_, fun k => ?_, fun g => ?_, fun g => ?_, rfl⟩
      all_goals simp [View.setTxn, View.unlock, View.dropRef, View.setFresh, View.setOfile,
        View.dropFile, View.addFile, View.hold, View.lock, View.addRef, inside, View.idle]

theorem ok_sysOpen : (sysOpen n path omode).Balanced pr := by
  refine ok_beginOp rfl ?_
  refine .bind (ok_openInode (Q := fun r w => w = r.elim (inside pr) (inside pr).hold) clear_inside rfl fun _ => rfl) ?_
  rintro (_ | ip) w rfl
  · exact ok_endOp rfl idle_inside
  · refine ok_look fun i => ?_
    split
    · exact clear_inside.unlockput (ok_endOp rfl idle_inside)
    · exact ok_openFd

theorem ok_withPath {path : Option (List UInt8)} {k : List UInt8 → Prog Unit} (hk : ∀ path, (k path).Ok rights (inside pr) fun _ => View.Idle) :
    (withPath path k).Balanced pr := by
  refine ok_beginOp rfl ?_
  cases path with
  | none => exact ok_endOp rfl idle_inside
  | some path => exact hk path

theorem ok_sysMake {path : Option (List UInt8)} : (sysMake n path type major minor).Balanced pr := by
  refine ok_withPath fun path => ?_
  refine .bind (ok_create (Q := fun r w => w = r.elim (inside pr) (inside pr).hold) clear_inside rfl fun _ => rfl) ?_
  rintro (_ | ip) w rfl
  · exact ok_endOp rfl idle_inside
  · exact clear_inside.unlockput (ok_endOp rfl idle_inside)

theorem ok_sysChdir {path : Option (List UInt8)} : (sysChdir path).Balanced pr := by
  refine ok_withPath fun path => ?_
  refine .into (ok_namei clear_inside (ok_endOp rfl idle_inside) fun ip => ?_)
  refine ok_ilock_hold fun hfree => ok_look fun i => ?_
  split
  · exact clear_inside.unlockput (ok_endOp rfl idle_inside)
  refine .act hold_locks_self ?_
  rintro _ w rfl
  rw [unlock_hold hfree]
  refine .act ⟨⟨pr, rfl⟩, rfl⟩ ?_
  rintro cwd w ⟨pr', -, -, rfl⟩
  have hput : ((((inside pr).addRef ip).addRef cwd).setCwd pr' none).dropRef cwd = ((inside pr).addRef ip).setCwd pr' none := by
    ext <;> simp [View.setCwd, View.addRef, View.dropRef]
  refine .seq (ok_iput (by simp [View.setCwd, View.addRef]) (fun h => ?_) rfl hput) fun _ => ?_
  · cases h
  refine .act rfl ?_
  rintro _ w rfl
  refine .perform ⟨⟨_, rfl, rfl⟩, ?_, rfl⟩ ?_
  · simp [View.setTxn, View.setCwd, View.addRef]
  · rintro _ w ⟨_, -, rfl⟩
    refine ⟨rfl, fun k => ?_, fun _ => rfl, fun _ => rfl, fun _ => rfl, rfl⟩
    simp [View.setCwd, View.dropRef, View.setTxn, View.addRef, inside, View.idle]

/-! ### Programs to execute -/

theorem ok_loadseg {offset sz fuel i : ℕ} (hl : v.locks ip = true) : (loadseg ip offset sz fuel i).Keeps v := by
  induction fuel generalizing i with
  | zero => exact rfl
  | succ fuel ih =>
    unfold loadseg
    split
    · refine .act hl ?_
      rintro (_ | bs) w rfl
      · exact rfl
      · dsimp only
        split
        · exact ih
        · exact rfl
    · exact rfl

theorem ok_loadAll {fuel off : ℕ} (hl : v.locks ip = true) : (loadAll ip mem fuel off).Keeps v := by
  induction fuel generalizing off with
  | zero => exact rfl
  | succ fuel ih =>
    refine .act hl ?_
    rintro (_ | ph) w rfl
    · exact rfl
    dsimp only
    repeat' split
    all_goals first
      | exact rfl
      | exact ih
      | refine .seq (ok_loadseg hl) fun loaded => ?_
    cases loaded with
    | true => exact ih
    | false => exact rfl

theorem ok_load (hl : v.locks ip = true) : (load ip mem).Keeps v := by
  refine .act hl ?_
  rintro (_ | elf) w rfl
  · exact rfl
  · dsimp only
    split
    · exact rfl
    · exact ok_loadAll hl

theorem ok_exec : (exec path mem).Balanced pr := by
  refine ok_beginOp rfl ?_
  refine .into (ok_namei clear_inside (ok_endOp rfl idle_inside) fun ip => ?_)
  refine ok_ilock_hold fun _ => .seq (ok_load hold_locks_self) fun _ => ?_
  exact clear_inside.unlockput (ok_endOp rfl idle_inside)

/-! ### Processes -/

theorem ok_sysClose {fd : Fd} (hQ : P () (View.idle (some { pr with ofile := update pr.ofile fd none }) false)) :
    (sysClose fd).Ok rights (View.idle (some pr) false) P := by
  refine .act ⟨⟨pr, rfl⟩, fun _ => ⟨rfl, rfl⟩⟩ ?_
  rintro r w ⟨pr', hpr, hr, rfl⟩
  obtain rfl : pr = pr' := Option.some.inj hpr
  cases r with
  | none =>
    have hsame : { pr with ofile := update pr.ofile fd none } = pr := by
      rw [← hr, update_eq_self]
    rw [hsame] at hQ
    exact hQ
  | some f =>
    refine ok_fileclose ?_ rfl (Or.inl rfl) (fun _ _ => rfl) ?_
    · simp [View.setOfile, View.addFile]
    · convert hQ using 1
      ext <;> simp [View.setFresh, View.dropFile, View.setOfile, View.addFile, View.idle]

theorem ok_exit : exit.Balanced pr := by
  refine .bind (Q := fun _ w => ∃ pr : Proc, w = View.idle (some pr) false ∧ ∀ fd, pr.ofile fd = none) ?_ ?_
  · -- the descriptors that are still to be closed are those left in the list
    refine (Program.Ok.forM (I := fun l w => ∃ pr : Proc, w = View.idle (some pr) false ∧
      ∀ fd, fd ∉ l → pr.ofile fd = none) ?_ ⟨pr, rfl, fun fd h => ?_⟩).mono ?_
    · rintro fd l w ⟨pr, rfl, hclosed⟩
      refine ok_sysClose ⟨_, rfl, fun fd' hfd' => ?_⟩
      change update pr.ofile fd none fd' = none
      by_cases heq : fd' = fd
      · rw [heq, update_self]
      · rw [update_of_ne heq]
        exact hclosed fd' (by simp [heq, hfd'])
    · exact absurd (List.mem_finRange fd) h
    · rintro _ w ⟨pr, rfl, hclosed⟩
      exact ⟨pr, rfl, fun fd => hclosed fd List.not_mem_nil⟩
  · rintro _ w ⟨pr, rfl, hclosed⟩
    refine ok_beginOp rfl ?_
    refine .act ⟨⟨pr, rfl⟩, rfl⟩ ?_
    rintro cwd w ⟨pr', hpr, -, rfl⟩
    obtain rfl : pr = pr' := Option.some.inj hpr
    have hput : (((inside pr).addRef cwd).setCwd pr none).dropRef cwd = (inside pr).setCwd pr none := by
      ext <;> simp [View.setCwd, View.addRef, View.dropRef]
    refine .seq (ok_iput (by simp [View.setCwd]) (fun h => ?_) rfl hput) fun _ => ?_
    · cases h
    · refine .act rfl ?_
      rintro _ w rfl
      refine .perform ⟨⟨_, rfl, rfl, hclosed⟩, rfl⟩ ?_
      rintro _ w rfl
      exact Prog.idle_idle

def fdsIn (pr : Proc) (f : FileId) (l : List Fd) : ℕ :=
  (l.map fun fd => if pr.ofile fd = some f then 1 else 0).sum

/-- The rights of a parent that has got references to some files for its child. -/
def forking (pr : Proc) (q : Pid) (files : FileId → ℕ) : View :=
  { View.idle (some pr) false with files := files, child := some q }

theorem ok_filedups {q : Pid} : ((List.finRange NOFILE).forM fun fd => (.perform (.filedup fd) : Prog Unit)).Ok rights (forking pr q fun _ => 0)
      fun _ w => w = forking pr q pr.fds := by
  -- what is still to be counted is what is left in the list
  refine (Program.Ok.forM (I := fun l w => ∃ files, w = forking pr q files ∧
    ∀ f, files f + fdsIn pr f l = pr.fds f) ?_ ⟨fun _ => 0, rfl, fun f => ?_⟩).mono ?_
  · rintro fd l w ⟨files, rfl, hfiles⟩
    refine .perform ⟨⟨pr, rfl⟩, fun _ => rfl⟩ ?_
    rintro _ w ⟨pr', hpr, rfl⟩
    obtain rfl : pr = pr' := Option.some.inj hpr
    cases hfd : pr.ofile fd with
    | none =>
      refine ⟨files, rfl, fun f => ?_⟩
      rw [← hfiles f]
      simp [fdsIn, hfd]
    | some g =>
      refine ⟨update files g (files g + 1), rfl, fun f => ?_⟩
      rw [← hfiles f]
      by_cases hfg : f = g
      · simp [fdsIn, hfd, hfg]
        omega
      · simp [fdsIn, hfd, hfg, Ne.symm hfg]
  · rw [Nat.zero_add, fdsIn, Proc.fds, Fin.sum_univ_def]
  · rintro _ w ⟨files, rfl, hfiles⟩
    have : files = pr.fds := funext fun f => by simpa [fdsIn] using hfiles f
    rw [this]

theorem ok_fork {q : Pid} : (fork q).Balanced pr := by
  refine .act ⟨⟨pr, rfl⟩, rfl⟩ ?_
  rintro (_ | _) w rfl
  · exact Prog.idle_idle
  refine .seq ok_filedups fun _ => ?_
  refine .act rfl ?_
  rintro cwd w rfl
  refine .perform ⟨rfl, by simp, rfl, pr, rfl, fun _ => rfl⟩ ?_
  rintro _ w rfl
  refine ⟨rfl, fun k => ?_, fun _ => rfl, fun _ => rfl, fun _ => rfl, rfl⟩
  rw [dropRef_addRef]
  rfl

theorem ok_withFile {fd : Fd} {k : FileId → File → Prog Unit} (hk : ∀ f file v, v.txn = false →
    (file.type ≠ .none → v.known f = some file.ip) → (k f file).Keeps v) :
    (withFile fd k).Ok rights (View.idle (some pr) true) fun _ => View.Idle := by
  refine .act trivial fun r w hw => ?_
  rcases r with _ | ⟨f, file⟩
  · obtain rfl : w = View.idle (some pr) true := hw
    exact idle_idle
  obtain rfl : w = if file.type = .none then View.idle (some pr) true else
      { View.idle (some pr) true with known := update _ f (some file.ip) } := hw
  refine (hk f file _ ?_ fun htype => ?_).mono fun _ u hu => hu ▸ ?_
  · split <;> rfl
  · rw [if_neg htype]
    exact update_self ..
  · split <;> exact (idle_idle : (View.idle (some pr) true).Idle)

end Prog

def Call.Light : Call → Bool
  | .read _ _ _ | .write _ _ _ _ | .fstat _ => true
  | _ => false

theorem Call.ok (c : Call) (n : ℕ) (pr : Proc) : (c.prog n).Ok rights (View.idle (some pr) c.Light) fun _ => View.Idle := by
  cases c with
  | «open» path omode => exact Prog.ok_sysOpen
  | mkdir path | mknod path major minor => exact Prog.ok_sysMake
  | link old new => exact Prog.ok_sysLink Prog.clear_inside rfl Prog.idle_inside
  | unlink path => exact Prog.ok_sysUnlink Prog.clear_inside rfl Prog.idle_inside
  | chdir path => exact Prog.ok_sysChdir
  | exec path mem => exact Prog.ok_exec
  | read fd dst n => exact Prog.ok_withFile fun f file v _ hf => Prog.ok_fileread hf
  | write fd user addr n => exact Prog.ok_withFile fun f file v ht hf => Prog.ok_filewrite hf ht
  | fstat fd => exact Prog.ok_withFile fun f file v _ hf => .seq (Prog.ok_filestat hf) fun _ => rfl
  | close fd => exact Prog.ok_sysClose Prog.idle_idle
  | dup fd =>
    refine .act ⟨⟨pr, rfl⟩, fun _ => rfl⟩ fun r w hw => ?_
    obtain ⟨pr', -, hw⟩ := hw
    cases r with
    | true =>
      obtain ⟨fd', f, -, rfl⟩ := hw
      exact Prog.idle_idle
    | false =>
      obtain rfl := hw
      exact Prog.idle_idle
  | fork q => exact Prog.ok_fork
  | exit => exact Prog.ok_exit

end Xv6.FileSys
