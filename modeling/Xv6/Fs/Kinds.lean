import Xv6.Fs.Draft

/-!
# What a process knows about types

`sys_open` looks at the type of an inode it has locked, and relies on it for as long as the file is open. The discipline
`Xv6.FileSys.kinds` follows what a process knows: the types of the inodes it has locked, and the files it has open for
writing. It says that only a plain file (or a device) is opened for writing, that an inode is truncated only if it is a
plain file or is about to be freed, that only what `iput` frees changes its type, and that what is not written by `write`
is a directory entry. That an inode from `ialloc` still has its type when it is locked is assumed here.
-/

namespace Xv6.FileSys

open Lib Function

@[ext] structure Kinds where
  /-- The types of the inodes it has locked. -/
  held : Slot → Option IType
  /-- The type of the inode it has got from `ialloc` and not locked yet. -/
  claimed : Option IType
  /-- The inode it is about to free, which nobody else refers to. -/
  doomed : Option Slot
  /-- The inodes of files it has open for writing. -/
  writes : FileId → Option Slot
  user : Bool

def Omode.Fits (omode : Omode) (T : IType) : Prop :=
  (omode.wronly || omode.rdwr) = true → T = .file ∨ T = .device

namespace Kinds

variable (v : Kinds) (k : Slot)

def idle (user : Bool) : Kinds where
  held _ := none
  claimed := none
  doomed := none
  writes _ := none
  user := user

def lock (T : IType) : Kinds := { v with held := update v.held k (some T) }

def unlock : Kinds := { v with held := update v.held k none }

def setClaimed (T : Option IType) : Kinds := { v with claimed := T }

def setDoomed (k : Option Slot) : Kinds := { v with doomed := k }

def learn (f : FileId) (file : File) : Kinds :=
  if file.type = .inode ∧ file.writable = true then
    { v with writes := update v.writes f (some file.ip) }
  else v

def Pre : {β : Type} → Act β → Kinds → Prop
  | _, .iunlock _, v => v.doomed = none
  | _, .iput _, v => v.doomed = none
  | _, .invalidate k, v => v.doomed = some k
  | _, .iclaim _ _, v => v.claimed = none
  | _, .assign k g, v => v.doomed = none ∧ Draft.Mild g ∨ v.doomed = some k ∧ g = Draft.setFree
  | _, .itrunc k, v => v.held k = some .file ∨ v.doomed = some k
  | _, .writei k src _ m, v => if v.user then ∃ f, v.writes f = some k
      else m = DIRENT ∧ ∃ bs, src = fromKernel bs
  | _, .openFile _ k omode, v => v.doomed = none ∧
      ∃ T, v.held k = some T ∧ omode.Fits T
  | _, .clearFd _, v => ∀ f, v.writes f = none
  | _, .zombie, v => ∀ f, v.writes f = none
  | _, _, _ => True

def Post : {β : Type} → Act β → Kinds → β → Kinds → Prop
  | _, .look k, v, i, w => w = v ∧ ∀ T, v.held k = some T → i.type = T
  | _, .ilock k, v, _, w => v.held k = none ∧ ∃ T, T ≠ .free ∧
      (∀ T', v.claimed = some T' → T = T') ∧ w = (v.lock k T).setClaimed none
  | _, .iunlock k, v, _, w => w = v.unlock k
  | _, .iput k, v, last, w =>
    if last then v.held k = none ∧ ∃ T, w = (v.lock k T).setDoomed (some k) else w = v
  | _, .invalidate k, v, _, w => w = (v.unlock k).setDoomed none
  | _, .iclaim _ T, v, b, w => w = if b then v.setClaimed (some T) else v
  | _, .assign k _, v, _, w => w = if v.doomed = some k then v.lock k .free else v
  | _, .argfd _, v, r, w => w = match r with
      | some (f, file) => v.learn f file
      | none => v
  | _, _, v, _, w => w = v

variable {v : Kinds} {k : Slot}

theorem unlock_lock {T : IType} (h : v.held k = none) : (v.lock k T).unlock k = v := by
  ext <;> simp [lock, unlock, ← h]

theorem lock_held {T : IType} : (v.lock k T).held k = some T := update_self ..

theorem lock_held_of_ne {j : Slot} {T : IType} (h : j ≠ k) : (v.lock k T).held j = v.held j :=
  update_of_ne h ..

theorem lock_comm {j : Slot} {T T' : IType} (h : j ≠ k) : (v.lock k T).lock j T' = (v.lock j T').lock k T := by
  ext <;> simp [lock, update_comm h]

theorem ne_of_held {j : Slot} {T : IType} (h : (v.lock k T).held j = none) : j ≠ k := by
  rintro rfl
  rw [lock_held] at h
  cases h

structure Clear (v : Kinds) : Prop where
  held : ∀ k, v.held k = none
  claimed : v.claimed = none
  doomed : v.doomed = none

structure Calm (v : Kinds) : Prop where
  claimed : v.claimed = none
  doomed : v.doomed = none
  user : v.user = false

theorem Calm.lock {T : IType} (h : v.Calm) : (v.lock k T).Calm := { h with }

theorem Calm.learn {f : FileId} {file : File} (h : v.Calm) : (v.learn f file).Calm := by
  unfold Kinds.learn
  split <;> exact { h with }

theorem Clear.learn {f : FileId} {file : File} (h : v.Clear) : (v.learn f file).Clear := by
  unfold Kinds.learn
  split <;> exact { h with }

theorem learn_user {f : FileId} {file : File} : (v.learn f file).user = v.user := by
  unfold learn
  split <;> rfl

end Kinds

def kinds : Discipline Act Panic Kinds where
  pre := Kinds.Pre
  post := Kinds.Post
  stop _ _ := True

/-- **A program that does not change what is known**, for a process that is about nothing else. -/
def Even {α : Type} (p : Prog α) : Prop := ∀ v : Kinds, v.Calm → p.Ok kinds v fun _ w => w = v

namespace Even

variable {α β : Type} {p : Prog α} {f : α → Prog β}

theorem done {a : α} : Even (pure a : Prog α) := fun _ _ => rfl

theorem stop {e : Panic} : Even (Prog.panic e : Prog α) := fun _ _ => trivial

theorem bind (hp : Even p) (hf : ∀ a, Even (f a)) : Even (p >>= f) :=
  fun v hv => .seq (hp v hv) fun a => hf a v hv

theorem perform {r : Act α} (hpre : ∀ v : Kinds, v.Calm → Kinds.Pre r v) (hpost : ∀ v b w, Kinds.Post r v b w → w = v) : Even (.perform r) :=
  fun v hv => .perform (hpre v hv) fun b w hw => hpost v b w hw

/-- An action that needs nothing, and changes nothing. -/
theorem still {r : Act α} (hpre : Kinds.Pre r = fun _ => True) (hpost : Kinds.Post r = fun v _ w => w = v) : Even (.perform r) :=
  .perform (fun _ _ => hpre ▸ trivial) fun _ _ _ h => by rwa [hpost] at h

theorem forM {γ : Type} {g : γ → Prog PUnit} (hg : ∀ c, Even (g c)) (l : List γ) : Even (l.forM g) := by
  induction l with
  | nil => exact done
  | cons c l ih => exact (hg c).bind fun _ => ih

theorem ite {c : Prop} [Decidable c] {q : Prog α} (hp : c → Even p) (hq : ¬c → Even q) : Even (if c then p else q) := by
  split
  · exact hp ‹_›
  · exact hq ‹_›

end Even

namespace Prog

open Kinds

variable {n off : ℕ} {path name : List UInt8} {f : FileId} {type : IType} {e : Panic} {omode : Omode} {j : Slot} {file : File} {major minor : ℤ} {mem : ℕ → Bool}

variable {ip dp : Slot} {v : Kinds} {T : IType} {α : Type} {Q : α → Kinds → Prop}

/-! ### Actions -/

theorem even_beginOp : Even beginOp := .still rfl rfl

theorem even_endOp : Even endOp := .still rfl rfl

theorem even_iget {inum : ℕ} : Even (iget inum) := .still rfl rfl

theorem even_dupCwd : Even dupCwd := .still rfl rfl

theorem even_look : Even (look ip) := .perform (fun _ _ => trivial) fun _ _ _ h => h.1

theorem even_iupdate : Even (iupdate ip) := .still rfl rfl

theorem even_readi {dst : ℕ → ℕ → Bool} {off n : ℕ} : Even (readi ip dst off n) := .still rfl rfl

theorem even_assign {g : Dinode → Dinode} (hg : Draft.Mild g) : Even (assign ip g) := by
  refine fun v hv => .perform (.inl ⟨hv.doomed, hg⟩) fun _ w hw => ?_
  rw [show w = _ from hw, if_neg (by rw [hv.doomed]; simp)]

theorem know_act {β : Type} {r : Act β} {f : β → Prog α} (hpre : Kinds.Pre r v)
    (hpost : ∀ b w, Kinds.Post r v b w → w = v) (hf : ∀ b, (f b).Ok kinds v Q) : (Program.perform r >>= f).Ok kinds v Q :=
  .act hpre fun b w hw => hpost b w hw ▸ hf b

theorem know_ilock {f : Unit → Prog α} (hc : v.claimed = none) (h : ∀ T, T ≠ .free → v.held ip = none → (f ()).Ok kinds (v.lock ip T) Q) :
    (ilock ip >>= f).Ok kinds v Q := by
  refine .act trivial ?_
  rintro _ w ⟨hfree, T, hT, -, rfl⟩
  have hsame : (v.lock ip T).setClaimed none = v.lock ip T := by
    rw [Kinds.setClaimed, ← hc]
    rfl
  rw [hsame]
  exact h T hT hfree

theorem know_iunlock (h : v.held ip = none) (hd : v.doomed = none) : (iunlock ip).Ok kinds (v.lock ip T) fun _ w => w = v := by
  refine .perform hd fun _ w hw => ?_
  rw [show w = _ from hw, Kinds.unlock_lock h]

/-! ### Inodes -/

theorem know_iput (hd : v.doomed = none) : (iput ip).Ok kinds v fun _ w => w = v := by
  refine .act hd fun last w hw => ?_
  cases last with
  | false => exact hw
  | true =>
    obtain ⟨hfree, T, rfl⟩ := hw
    refine .act (.inr rfl) ?_
    rintro _ w rfl
    refine .act (.inr ⟨rfl, rfl⟩) ?_
    rintro _ w rfl
    have hdoomed : ((v.lock ip T).setDoomed (some ip)).doomed = some ip := rfl
    rw [if_pos hdoomed]
    refine .act trivial ?_
    rintro _ w rfl
    refine .act rfl ?_
    rintro _ w rfl
    refine .perform trivial fun _ w hw => ?_
    rw [show w = _ from hw]
    ext <;> simp [Kinds.lock, Kinds.unlock, Kinds.setDoomed, ← hfree, hd]

theorem even_iput : Even (iput ip) := fun _ hv => know_iput hv.doomed

theorem know_iunlockput (h : v.held ip = none) (hd : v.doomed = none) : (iunlockput ip).Ok kinds (v.lock ip T) fun _ w => w = v :=
  .seq (know_iunlock h hd) fun _ => know_iput hd

/-- A program that begins with an inode locked, and unlocks it. -/
def Unlocks (ip : Slot) (p : Prog α) : Prop := ∀ ⦃v T⦄, v.Calm → v.held ip = none → p.Ok kinds (v.lock ip T) fun _ w => w = v

section Unlocks

variable {β : Type} {p : Prog α} {g : α → Prog β}

theorem even_ilock {g : Unit → Prog β} (h : Unlocks ip (g ())) : Even (ilock ip >>= g) :=
  fun _ hv => know_ilock hv.claimed fun _ _ hip => h hv hip

theorem Unlocks.seq (hp : Even p) (hg : ∀ a, Unlocks ip (g a)) : Unlocks ip (p >>= g) :=
  fun _ _ hv hip => .seq (hp _ hv.lock) fun a => hg a hv hip

theorem Unlocks.unlock (hp : Even p) : Unlocks ip (iunlock ip >>= fun _ => p) :=
  fun _ _ hv hip => .seq (know_iunlock hip hv.doomed) fun _ => hp _ hv

theorem Unlocks.put (hp : Even p) : Unlocks ip (iunlockput ip >>= fun _ => p) :=
  fun _ _ hv hip => .seq (know_iunlockput hip hv.doomed) fun _ => hp _ hv

theorem Unlocks.ite {c : Prop} [Decidable c] {q : Prog α} (hp : Unlocks ip p) (hq : Unlocks ip q) : Unlocks ip (if c then p else q) := by
  intro v T hv hip
  split
  · exact hp hv hip
  · exact hq hv hip

end Unlocks

/-! ### Directories -/

theorem even_readDirent : Even (readDirent e dp off) := by
  refine even_readi.bind fun r => ?_
  cases r with
  | none => exact .stop
  | some bs => exact .ite (fun _ => .done) fun _ => .stop

theorem even_scan {p : Dirent → Bool} {fuel off : ℕ} : Even (scan e p dp fuel off) := by
  induction fuel generalizing off with
  | zero => exact .done
  | succ fuel ih =>
    refine even_look.bind fun d => .ite (fun _ => ?_) fun _ => .done
    exact even_readDirent.bind fun de => .ite (fun _ => .done) fun _ => ih

theorem even_dirlookup : Even (dirlookup dp name) := by
  refine even_look.bind fun d => .ite (fun _ => .stop) fun _ => even_scan.bind fun r => ?_
  rcases r with _ | ⟨off, de⟩
  · exact .done
  · exact even_iget.bind fun _ => .done

theorem even_writeDirent {bs : List UInt8} : Even (writeDirent e dp bs off) := by
  refine Even.bind (.perform (fun v hv => ?_) fun _ _ _ h => h) fun _ =>
    .ite (fun _ => .done) fun _ => .stop
  exact (if_neg (by rw [hv.user]; exact Bool.false_ne_true)).mpr ⟨rfl, bs, rfl⟩

theorem even_dirlink {inum : ℕ} : Even (dirlink dp name inum) := by
  refine even_dirlookup.bind fun r => ?_
  rcases r with _ | ⟨ip, off⟩
  · refine even_look.bind fun d => even_scan.bind fun r => ?_
    rcases r with _ | ⟨off, de⟩
    all_goals exact even_writeDirent.bind fun _ => .done
  · exact even_iput.bind fun _ => .done

theorem even_isdirempty : Even (isdirempty dp) :=
  even_look.bind fun _ => even_scan.bind fun _ => .done

/-! ### Paths -/

theorem even_namexLoop {parent : Bool} {fuel : ℕ} {path name : List UInt8} : Even (namexLoop parent fuel ip path name) := by
  induction fuel generalizing ip path name with
  | zero => exact .done
  | succ fuel ih =>
    unfold namexLoop
    split
    · exact .ite (fun _ => even_iput.bind fun _ => .done) fun _ => .done
    · refine even_ilock (.seq even_look fun i => .ite (.put .done) (.ite (.unlock .done) (.seq even_dirlookup fun r => ?_)))
      rcases r with _ | ⟨next, off⟩
      · exact .put .done
      · exact .put ih

theorem even_namex {parent : Bool} : Even (namex path parent) :=
  Even.bind (.ite (fun _ => even_iget) fun _ => even_dupCwd) fun _ => even_namexLoop

theorem even_namei : Even (namei path) := even_namex.bind fun _ => .done

/-! ### Files -/

theorem even_fileclose : Even (fileclose f) := by
  refine Even.bind (.still rfl rfl) fun r => ?_
  cases r with
  | none => exact .done
  | some ip => exact even_beginOp.bind fun _ => even_iput.bind fun _ => even_endOp

theorem even_filestat : Even (filestat file) := by
  refine .ite (fun _ => .done) fun _ => ?_
  exact even_ilock (.seq even_look fun _ => .unlock .done)

theorem even_advance {r : Option ℕ} : Even (advance f r) := by
  cases r with
  | none => exact .done
  | some r => exact .still rfl rfl

theorem even_fileread {dst : ℕ → ℕ → Bool} {m : ℕ} : Even (fileread f file dst m) := by
  refine .ite (fun _ => .done) fun _ => ?_
  split
  · exact .done
  · have hoff : Even (.perform (.offset f) : Prog ℕ) := .still rfl rfl
    refine even_ilock (.seq hoff fun off => .seq even_readi fun r => .seq even_advance fun _ => ?_)
    exact fun _ _ hv hip => know_iunlock hip hv.doomed
  · exact .stop

theorem know_writeChunk {src : ℕ → ℕ → List UInt8 × Bool} {m : ℕ} (hv : v.Clear)
    (hu : v.user = true) (hf : v.writes f = some ip) : (writeChunk f ip src m).Ok kinds v fun _ w => w = v := by
  refine know_act trivial (fun _ _ h => h) fun _ => know_ilock hv.claimed fun T _ hfree => ?_
  refine know_act trivial (fun _ _ h => h) fun off => ?_
  refine know_act ((if_pos hu).mpr ⟨f, hf⟩) (fun _ _ h => h) fun r => ?_
  have hadv : (advance f r).Ok kinds (v.lock ip T) fun _ w => w = v.lock ip T := by
    cases r with
    | none => exact .ret rfl
    | some r => exact .perform trivial fun _ _ h => h
  refine .seq hadv fun _ => .seq (know_iunlock hfree hv.doomed) fun _ => ?_
  exact know_act trivial (fun _ _ h => h) fun _ => .ret rfl

theorem know_filewrite {user : ℕ → Option Logging.Page} {addr m : ℕ}
    (hv : v.Clear) (hu : v.user = true) (hf : file.type = .inode → file.writable = true → v.writes f = some file.ip) :
    (filewrite f file user addr m).Ok kinds v fun _ w => w = v := by
  unfold filewrite
  split
  · exact .ret rfl
  rename_i hw
  split
  · exact .ret rfl
  · next htype =>
    have hloop : ∀ fuel i m, (filewriteLoop f file.ip user addr fuel i m).Ok kinds v fun _ w => w = v := by
      intro fuel
      induction fuel with
      | zero => exact fun _ _ => .ret rfl
      | succ fuel ih =>
        intro i m
        unfold filewriteLoop
        split
        · exact .ret rfl
        · refine .seq (know_writeChunk hv hu (hf htype (by simpa using hw))) fun r => ?_
          split
          · exact ih _ _
          · exact .ret rfl
    exact hloop _ _ _
  · exact trivial

/-! ### Names -/

theorem even_addLink {n : ℤ} : Even (addLink ip n) := even_assign mild_addLink

theorem even_linkBad : Even (linkBad ip) :=
  even_ilock (.seq even_addLink fun _ => .seq even_iupdate fun _ => .put even_endOp)

theorem even_linkNew {new : List UInt8} : Even (linkNew ip new) := by
  refine even_namex.bind fun r => ?_
  rcases r with _ | ⟨dp, name⟩
  · exact even_linkBad
  · refine even_ilock (.seq even_look fun i => .seq even_dirlink fun made => ?_)
    cases made with
    | true => exact .put (even_iput.bind fun _ => even_endOp)
    | false => exact .put even_linkBad

theorem even_sysLink {old new : List UInt8} : Even (sysLink old new) := by
  refine even_beginOp.bind fun _ => even_namei.bind fun r => ?_
  rcases r with _ | ip
  · exact even_endOp
  · refine even_ilock (.seq even_look fun i => .ite (.put even_endOp) (.seq even_addLink fun _ => ?_))
    exact .seq even_iupdate fun _ => .unlock even_linkNew

theorem even_unlinkParent : Even (unlinkParent dp ip) :=
  even_look.bind fun _ => .ite (fun _ => even_addLink.bind fun _ => even_iupdate) fun _ => .done

theorem know_unlinkEntry {T' : IType} (hv : v.Calm) (hdp : v.held dp = none) (hip : (v.lock dp T).held ip = none) :
    (unlinkEntry dp ip off).Ok kinds ((v.lock dp T).lock ip T') fun _ w => w = v := by
  have hne : ip ≠ dp := Kinds.ne_of_held hip
  have hip' : v.held ip = none := by rwa [Kinds.lock_held_of_ne hne] at hip
  have hdp' : (v.lock ip T').held dp = none := by rwa [Kinds.lock_held_of_ne hne.symm]
  have hcalm := hv.lock (k := ip) (T := T')
  rw [Kinds.lock_comm hne]
  refine .seq (even_writeDirent _ hcalm.lock) fun _ => ?_
  refine .seq (even_unlinkParent _ hcalm.lock) fun _ => ?_
  refine .seq (know_iunlockput hdp' hcalm.doomed) fun _ => ?_
  refine .seq (even_addLink _ hcalm) fun _ => .seq (even_iupdate _ hcalm) fun _ => ?_
  exact .seq (know_iunlockput hip' hv.doomed) fun _ => even_endOp v hv

theorem even_sysUnlink : Even (sysUnlink path) := by
  refine even_beginOp.bind fun _ => even_namex.bind fun r => ?_
  rcases r with _ | ⟨dp, name⟩
  · exact even_endOp
  intro v hv
  refine know_ilock hv.claimed fun T _ hfree => ?_
  have hcalm := hv.lock (k := dp) (T := T)
  have hbad : (unlinkBad dp).Ok kinds (v.lock dp T) fun _ w => w = v :=
    .seq (know_iunlockput hfree hv.doomed) fun _ => even_endOp v hv
  split
  · exact hbad
  refine .seq (even_dirlookup _ hcalm) fun r => ?_
  rcases r with _ | ⟨ip, off⟩
  · exact hbad
  refine know_ilock hv.claimed fun T' _ hip => ?_
  refine .seq (even_look _ hcalm.lock) fun i => ?_
  split
  · exact trivial
  split
  · refine .seq (even_isdirempty _ hcalm.lock) fun empty => ?_
    cases empty with
    | true => exact know_unlinkEntry hv hfree hip
    | false => exact .seq (know_iunlockput hip hv.doomed) fun _ => hbad
  · exact know_unlinkEntry hv hfree hip

/-! ### New inodes -/

theorem know_ialloc (hc : v.claimed = none) : (ialloc n type).Ok kinds v fun _ w => w = v.setClaimed (some type) := by
  have hloop : ∀ l : List ℕ, (iallocLoop type l).Ok kinds v fun _ w => w = v.setClaimed (some type) := by
    intro l
    induction l with
    | nil => exact trivial
    | cons inum l ih =>
      refine .act hc fun b w hw => ?_
      cases b with
      | true => exact (show w = v.setClaimed (some type) from hw) ▸ .perform trivial fun _ _ h => h
      | false => exact (show w = v from hw) ▸ ih
  exact hloop _

theorem even_createDots : Even (createDots type dp ip) := by
  refine .ite (fun _ => ?_) fun _ => .done
  refine even_addLink.bind fun _ => even_iupdate.bind fun _ => even_look.bind fun i => ?_
  refine even_dirlink.bind fun made => ?_
  cases made with
  | false => exact .stop
  | true =>
    refine even_look.bind fun d => even_dirlink.bind fun made => ?_
    cases made with
    | false => exact .stop
    | true => exact .done

theorem know_createNew (hv : v.Calm) (hdp : v.held dp = none) : (createNew n dp name type major minor).Ok kinds (v.lock dp T)
      fun ip w => v.held ip = none ∧ w = v.lock ip type := by
  refine .seq (know_ialloc hv.claimed) fun ip => .act trivial ?_
  rintro _ w ⟨hfree, T', -, hT', rfl⟩
  obtain rfl : T' = type := hT' type rfl
  have hfree : (v.lock dp T).held ip = none := hfree
  have hne : ip ≠ dp := Kinds.ne_of_held hfree
  have hip : v.held ip = none := by rwa [Kinds.lock_held_of_ne hne] at hfree
  have hview : (((v.lock dp T).setClaimed (some T')).lock ip T').setClaimed none = (v.lock ip T').lock dp T := by
    rw [← Kinds.lock_comm hne]
    ext <;> simp [Kinds.lock, Kinds.setClaimed, hv.claimed]
  rw [hview]
  have hcalm := (hv.lock (k := ip) (T := T')).lock (k := dp) (T := T)
  have hmild : Draft.Mild fun c => { c with
      major := wrapInt 16 major, minor := wrapInt 16 minor, nlink := 1 } := fun _ => ⟨rfl, rfl, rfl⟩
  refine .seq (even_assign hmild _ hcalm) fun _ => ?_
  refine .seq (even_iupdate _ hcalm) fun _ => .seq (even_createDots _ hcalm) fun _ => ?_
  refine .seq (even_look _ hcalm) fun i => .seq (even_dirlink _ hcalm) fun made => ?_
  cases made with
  | false => exact trivial
  | true =>
    have hdp' : (v.lock ip T').held dp = none := by rwa [Kinds.lock_held_of_ne hne.symm]
    exact .seq (know_iunlockput hdp' hv.doomed) fun _ => .ret ⟨hip, rfl⟩

/-- What `create` and `open` leave: one inode more is locked, and its type is known to be one of
those in `P`. -/
def Opened (P : IType → Prop) (v : Kinds) : Option Slot → Kinds → Prop
  | none, w => w = v
  | some ip, w => v.held ip = none ∧ ∃ T, P T ∧ w = v.lock ip T

theorem know_create (hv : v.Calm) : (create n path type major minor).Ok kinds v (Opened (fun T => T = type ∨ T = .file ∨ T = .device) v) := by
  refine .seq (even_namex v hv) fun r => ?_
  rcases r with _ | ⟨dp, name⟩
  · exact .ret rfl
  refine know_ilock hv.claimed fun T _ hdp => .seq (even_dirlookup _ hv.lock) fun r => ?_
  rcases r with _ | ⟨ip, off⟩
  · refine (know_createNew hv hdp).bind ?_
    rintro ip w ⟨hip, rfl⟩
    exact .ret ⟨hip, type, .inl rfl, rfl⟩
  refine .seq (know_iunlockput hdp hv.doomed) fun _ => know_ilock hv.claimed fun T' _ hip => ?_
  refine .act trivial ?_
  rintro i w ⟨rfl, hi⟩
  have hT' : i.type = T' := hi T' Kinds.lock_held
  dsimp only
  split
  · next hopen => exact .ret ⟨hip, T', .inr (hT' ▸ hopen.2), rfl⟩
  · exact .seq (know_iunlockput hip hv.doomed) fun _ => .ret rfl

theorem know_openInode (hv : v.Calm) : (openInode n path omode).Ok kinds v (Opened omode.Fits v) := by
  unfold openInode
  split
  · refine (know_create hv).mono fun r w hw => ?_
    rcases r with _ | ip
    · exact hw
    · obtain ⟨hip, T, hT, rfl⟩ := hw
      refine ⟨hip, T, fun _ => ?_, rfl⟩
      rcases hT with hT | hT
      · exact .inl hT
      · exact hT
  refine .seq (even_namei v hv) fun r => ?_
  rcases r with _ | ip
  · exact .ret rfl
  refine know_ilock hv.claimed fun T hfree hip => .act trivial ?_
  rintro i w ⟨rfl, hi⟩
  have hT : i.type = T := hi T Kinds.lock_held
  split
  · exact .seq (know_iunlockput hip hv.doomed) fun _ => .ret rfl
  rename_i hdir
  refine .ret ⟨hip, T, fun hmode => ?_, rfl⟩
  -- any bit at all is enough to keep directories out
  have hnot : omode ≠ .rdonly := by
    rintro rfl
    exact Bool.false_ne_true hmode
  cases T with
  | free => exact absurd rfl hfree
  | dir => exact absurd ⟨hT, hnot⟩ hdir
  | file => exact .inl rfl
  | device => exact .inr rfl

theorem know_truncate : (truncate ip omode).Ok kinds (v.lock ip T) fun _ w => w = v.lock ip T := by
  refine .act trivial ?_
  rintro i w ⟨rfl, hi⟩
  have hT : i.type = T := hi T Kinds.lock_held
  split
  · next htrunc =>
    refine .perform (.inl ?_) fun _ _ h => h
    rw [Kinds.lock_held, ← hT, htrunc.2]
  · exact .ret rfl

theorem know_openFd (hv : v.Calm) (hip : v.held ip = none) (hT : omode.Fits T) : (openFd ip omode).Ok kinds (v.lock ip T) fun _ w => w = v := by
  have hput : (iunlockput ip >>= fun _ => endOp).Ok kinds (v.lock ip T) fun _ w => w = v :=
    .seq (know_iunlockput hip hv.doomed) fun _ => even_endOp v hv
  refine know_act trivial (fun _ _ h => h) fun r => ?_
  rcases r with _ | f
  · exact hput
  · refine know_act trivial (fun _ _ h => h) fun r => ?_
    rcases r with _ | fd
    · exact .seq (even_fileclose _ hv.lock) fun _ => hput
    · refine know_act ⟨hv.doomed, T, Kinds.lock_held, hT⟩ (fun _ _ h => h) fun _ => ?_
      refine .seq know_truncate fun _ => .seq (know_iunlock hip hv.doomed) fun _ => even_endOp v hv

theorem even_sysOpen : Even (sysOpen n path omode) := by
  refine even_beginOp.bind fun _ v hv => (know_openInode hv).bind fun r w hw => ?_
  rcases r with _ | ip
  · exact (show w = v from hw) ▸ even_endOp v hv
  · obtain ⟨hip, T, hT, rfl⟩ := hw
    refine .seq (even_look _ hv.lock) fun i => ?_
    split
    · exact .seq (know_iunlockput hip hv.doomed) fun _ => even_endOp v hv
    · exact know_openFd hv hip hT

theorem even_withPath {path : Option (List UInt8)} {k : List UInt8 → Prog Unit} (hk : ∀ path, Even (k path)) : Even (withPath path k) := by
  refine even_beginOp.bind fun _ => ?_
  cases path with
  | none => exact even_endOp
  | some path => exact hk path

theorem even_sysMake {path : Option (List UInt8)} : Even (sysMake n path type major minor) := by
  refine even_withPath fun path v hv => (know_create hv).bind fun r w hw => ?_
  rcases r with _ | ip
  · exact (show w = v from hw) ▸ even_endOp v hv
  · obtain ⟨hip, T, -, rfl⟩ := hw
    exact .seq (know_iunlockput hip hv.doomed) fun _ => even_endOp v hv

theorem even_sysChdir {path : Option (List UInt8)} : Even (sysChdir path) := by
  refine even_withPath fun path => even_namei.bind fun r => ?_
  rcases r with _ | ip
  · exact even_endOp
  · refine even_ilock (.seq even_look fun i => .ite (.put even_endOp) (.unlock ?_))
    refine Even.bind (.still rfl rfl) fun cwd => even_iput.bind fun _ => even_endOp.bind fun _ => ?_
    exact .still rfl rfl

/-! ### Programs and processes -/

theorem even_loadseg {offset sz fuel i : ℕ} : Even (loadseg ip offset sz fuel i) := by
  induction fuel generalizing i with
  | zero => exact .done
  | succ fuel ih =>
    refine .ite (fun _ => even_readi.bind fun r => ?_) fun _ => .done
    cases r with
    | none => exact .done
    | some bs => exact .ite (fun _ => ih) fun _ => .done

theorem even_loadAll {fuel off : ℕ} : Even (loadAll ip mem fuel off) := by
  induction fuel generalizing off with
  | zero => exact .done
  | succ fuel ih =>
    refine even_readi.bind fun r => ?_
    cases r with
    | none => exact .done
    | some ph =>
      refine .ite (fun _ => .done) fun _ => .ite (fun _ => ih) fun _ => .ite (fun _ => .done) fun _ =>
        .ite (fun _ => .done) fun _ => .ite (fun _ => .done) fun _ => even_loadseg.bind fun loaded => ?_
      cases loaded with
      | true => exact ih
      | false => exact .done

theorem even_load : Even (load ip mem) := by
  refine even_readi.bind fun r => ?_
  cases r with
  | none => exact .done
  | some elf => exact .ite (fun _ => .done) fun _ => even_loadAll

theorem even_exec : Even (exec path mem) := by
  refine even_beginOp.bind fun _ => even_namei.bind fun r => ?_
  rcases r with _ | ip
  · exact even_endOp
  · exact even_ilock (.seq even_load fun _ => .put even_endOp)

theorem even_fork {q : Pid} : Even (fork q) := by
  refine Even.bind (.still rfl rfl) fun b => ?_
  cases b with
  | false => exact .done
  | true =>
    refine Even.bind (.forM (fun fd => ?_) _) fun _ => ?_
    · exact .still rfl rfl
    · exact even_dupCwd.bind fun _ => .still rfl rfl

theorem know_sysClose {fd : Fd} : (sysClose fd).Ok kinds (.idle false) fun _ w => w = .idle false := by
  have hv : (Kinds.idle false).Calm := ⟨rfl, rfl, rfl⟩
  refine know_act (fun _ => rfl) (fun _ _ h => h) fun r => ?_
  cases r with
  | none => exact .ret rfl
  | some f => exact even_fileclose _ hv

theorem know_exit : exit.Ok kinds (.idle false) fun _ w => w = .idle false := by
  have hv : (Kinds.idle false).Calm := ⟨rfl, rfl, rfl⟩
  refine .seq (.forM (I := fun _ w => w = Kinds.idle false) ?_ rfl) fun _ => ?_
  · rintro fd l w rfl
    exact know_sysClose
  · refine .seq (even_beginOp _ hv) fun _ => know_act trivial (fun _ _ h => h) fun cwd => ?_
    refine .seq (even_iput _ hv) fun _ => .seq (even_endOp _ hv) fun _ => ?_
    exact .perform (fun _ => rfl) fun _ _ h => h

theorem know_withFile {fd : Fd} {k : FileId → File → Prog Unit} {b : Bool} (hk : ∀ f file, (k f file).Ok kinds ((Kinds.idle b).learn f file)
      fun _ w => w = (Kinds.idle b).learn f file) : (withFile fd k).Ok kinds (.idle b) fun _ => Kinds.Clear := by
  have hidle : (Kinds.idle b).Clear := ⟨fun _ => rfl, rfl, rfl⟩
  refine .act trivial ?_
  rintro r w rfl
  rcases r with _ | ⟨f, file⟩
  · exact .ret hidle
  · refine (hk f file).mono ?_
    rintro _ w rfl
    exact hidle.learn

end Prog

def Call.writes : Call → Bool
  | .write _ _ _ _ => true
  | _ => false

theorem Call.knows (c : Call) (n : ℕ) : (c.prog n).Ok kinds (.idle c.writes) fun _ => Kinds.Clear := by
  have hidle : ∀ b, (Kinds.idle b).Clear := fun b => ⟨fun _ => rfl, rfl, rfl⟩
  have hcalm : (Kinds.idle false).Calm := ⟨rfl, rfl, rfl⟩
  have heven : ∀ p : Prog Unit, Even p → p.Ok kinds (.idle false) fun _ => Kinds.Clear := by
    intro p hp
    refine (hp _ hcalm).mono ?_
    rintro _ w rfl
    exact hidle false
  cases c with
  | «open» path omode => exact heven _ Prog.even_sysOpen
  | mkdir path | mknod path major minor => exact heven _ Prog.even_sysMake
  | link old new => exact heven _ Prog.even_sysLink
  | unlink path => exact heven _ Prog.even_sysUnlink
  | chdir path => exact heven _ Prog.even_sysChdir
  | exec path mem => exact heven _ Prog.even_exec
  | read fd dst m => exact Prog.know_withFile fun f file => Prog.even_fileread _ hcalm.learn
  | write fd user addr m =>
    refine Prog.know_withFile fun f file => Prog.know_filewrite (hidle true).learn Kinds.learn_user fun htype hw => ?_
    rw [Kinds.learn, if_pos ⟨htype, hw⟩]
    exact update_self ..
  | fstat fd =>
    exact Prog.know_withFile fun f file => (Prog.even_filestat.bind fun _ => .done) _ hcalm.learn
  | close fd =>
    refine Program.Ok.mono Prog.know_sysClose ?_
    rintro _ w rfl
    exact hidle false
  | dup fd => exact heven _ (Even.bind (.still rfl rfl) fun _ => .done)
  | fork q => exact heven _ Prog.even_fork
  | exit =>
    refine Program.Ok.mono Prog.know_exit ?_
    rintro _ w rfl
    exact hidle false

end Xv6.FileSys
