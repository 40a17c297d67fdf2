import Xv6.Fs.Held

/-!
# Which actions panic, and how

Every panic of the file system is raised by an action of one kind, or by a program itself.
So to see that one of them cannot happen it is enough to look at the actions that raise it.
-/

namespace Xv6.FileSys

open Lib Function

def Act.panics : {β : Type} → Act β → List Panic
  | _, .iget _ => [.iget]
  | _, .ilock _ => [.ilock, .noType]
  | _, .iunlock _ => [.iunlock]
  | _, .itrunc _ => [.freeingFreeBlock]
  | _, .readi _ _ _ _ => [.outOfBlocks, .bmap]
  | _, .writei _ _ _ _ => [.outOfBlocks, .bmap]
  | _, .fileclose _ => [.fileclose]
  | _, .dup _ => [.filedup]
  | _, .filedup _ => [.filedup]
  | _, _ => []

abbrev Only {α : Type} (es : List Panic) (x : Except Panic α) : Prop :=
  Post (· ∈ es) x fun _ => True

variable {α β : Type} {es : List Panic} {x : Except Panic α}

theorem Only.bind {f : α → Except Panic β} (hx : Only es x) (hf : ∀ a, Only es (f a)) : Only es (x >>= f) :=
  Post.bind hx fun a _ => hf a

theorem Only.map {γ : Type} {f : α → γ} (hx : Only es x) : Only es (x.map f) := by
  cases x with
  | ok a => trivial
  | error e => exact hx

/-! ### The functions of `fs.c` -/

theorem only_balloc (d : Disk) : Only [.outOfBlocks, .bmap] (balloc d) := by
  unfold balloc
  split
  · trivial
  · exact List.mem_cons_self

theorem only_bmap (d : Disk) (ip : Dinode) (bn : ℕ) : Only [.outOfBlocks, .bmap] (bmap d ip bn) := by
  unfold bmap
  split
  · split
    · exact (only_balloc d).bind fun _ => trivial
    · trivial
  split
  · refine Only.bind ?_ fun r => ?_
    · unfold bmapIndirect
      split
      · exact (only_balloc d).bind fun _ => trivial
      · trivial
    · dsimp only
      split
      · exact (only_balloc _).bind fun _ => trivial
      · trivial
  · exact List.mem_cons_of_mem _ List.mem_cons_self

theorem only_bfree (d : Disk) (b : ℕ) : Only [.freeingFreeBlock] (bfree d b) := by
  unfold bfree
  split
  · trivial
  · exact List.mem_cons_self

theorem only_itrunc (d : Disk) (inum : ℕ) (ip : Dinode) : Only [.freeingFreeBlock] (itrunc d inum ip) := by
  refine Only.bind ?_ fun r => Only.bind ?_ fun _ => trivial
  · refine Post.foldlM (I := fun _ _ => True) (fun i l a _ => ?_) trivial
    split
    · exact (only_bfree ..).bind fun _ => trivial
    · trivial
  unfold freeIndirect
  split
  · refine Only.bind ?_ fun _ => (only_bfree ..).bind fun _ => trivial
    refine Post.foldlM (I := fun _ _ => True) (fun i l a _ => ?_) trivial
    split
    · exact only_bfree ..
    · trivial
  · trivial

theorem only_readiLoop (dst : ℕ → ℕ → Bool) (fuel : ℕ) (d : Disk) (ip : Dinode) (off tot n : ℕ) :
    Only [.outOfBlocks, .bmap] (readiLoop dst fuel d ip off tot n) := by
  induction fuel generalizing d ip off tot n with
  | zero => trivial
  | succ fuel ih =>
    unfold readiLoop
    split
    · trivial
    · refine (only_bmap ..).bind fun r => ?_
      dsimp only
      split
      · exact (ih ..).bind fun _ => trivial
      · trivial

theorem only_readi (d : Disk) (ip : Dinode) (dst : ℕ → ℕ → Bool) (off n : ℕ) : Only [.outOfBlocks, .bmap] (readi d ip dst off n) := by
  unfold readi
  split
  · trivial
  · exact only_readiLoop ..

theorem only_writeiLoop (src : ℕ → ℕ → List UInt8 × Bool) (fuel : ℕ) (d : Disk) (ip : Dinode)
    (off tot n : ℕ) : Only [.outOfBlocks, .bmap] (writeiLoop src fuel d ip off tot n) := by
  induction fuel generalizing d ip off tot n with
  | zero => trivial
  | succ fuel ih =>
    unfold writeiLoop
    split
    · trivial
    · refine (only_bmap ..).bind fun r => ?_
      dsimp only
      split
      · exact ih ..
      · trivial

theorem only_writei (d : Disk) (inum : ℕ) (ip : Dinode) (src : ℕ → ℕ → List UInt8 × Bool)
    (off n : ℕ) : Only [.outOfBlocks, .bmap] (writei d inum ip src off n) := by
  unfold writei
  split
  · trivial
  · split
    · trivial
    · exact (only_writeiLoop ..).bind fun _ => trivial

/-! ### The tables -/

theorem only_iget (s : Fs) (inum : ℕ) : Only [.iget] (s.iget inum) := by
  unfold Fs.iget
  split
  · trivial
  · split
    · trivial
    · exact List.mem_cons_self

theorem only_ilock (s : Fs) (p : Pid) (k : Slot) : Only [.ilock, .noType] (s.ilock p k) := by
  unfold Fs.ilock
  split
  · exact List.mem_cons_self
  split
  · trivial
  dsimp only
  split
  · trivial
  split
  · exact List.mem_cons_of_mem _ List.mem_cons_self
  · trivial

theorem only_iunlock (s : Fs) (p : Pid) (k : Slot) : Only [.iunlock] (s.iunlock p k) := by
  unfold Fs.iunlock
  split
  · exact List.mem_cons_self
  · trivial

theorem only_fileclose (s : Fs) (f : FileId) : Only [.fileclose] (s.fileclose f) := by
  unfold Fs.fileclose
  split
  · exact List.mem_cons_self
  · split <;> trivial

theorem only_filedup (s : Fs) (f : FileId) : Only [.filedup] (s.filedup f) := by
  unfold Fs.filedup
  split
  · exact List.mem_cons_self
  · trivial

theorem only_exec (r : Act β) (p : Pid) (s : Fs) : Only r.panics (exec r p s) := by
  cases r
  case iget inum => exact (only_iget s inum).map
  case ilock k => exact (only_ilock s p k).map
  case iunlock k => exact (only_iunlock s p k).map
  case itrunc k => exact ((only_itrunc ..).bind fun _ => trivial : Only _ (s.itrunc k)).map
  case readi k dst off n =>
    exact ((only_readi ..).bind fun _ => trivial : Only _ (s.readi k dst off n)).map
  case writei k src off n =>
    exact ((only_writei ..).bind fun _ => trivial : Only _ (s.writei k src off n)).map
  case fileclose f => exact (only_fileclose s f).map
  case dup fd | filedup fd =>
    dsimp only [exec]
    split
    · exact (only_filedup ..).map
    · trivial
  all_goals trivial

theorem of_next_eq_error {ν : Type} {D : Discipline Act Panic ν} {v : ν} {k : Prog α}
    {Q : α → ν → Prop} {p : Pid} {s : Fs} {e : Panic} (hok : k.Ok D v Q) (hstop : ¬D.stop e v)
    (h : k.next exec p s = .error e) : ∃ (β : Type) (r : Act β) (rest : β → Prog α),
      k = .act r rest ∧ e ∈ r.panics ∧ D.pre r v ∧ exec r p s = .error e := by
  cases k with
  | ret a => cases h
  | panic e' =>
    cases h
    exact absurd hok hstop
  | act r rest =>
    have hexec : exec r p s = .error e := of_map_eq_error (show (exec r p s).map _ = .error e from h)
    exact ⟨_, r, rest, rfl, (only_exec r p s).of_error hexec, hok.1, hexec⟩

end Xv6.FileSys
