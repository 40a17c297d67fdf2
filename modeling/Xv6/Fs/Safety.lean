import Xv6.Fs.Blocks
import Xv6.Fs.Demand
import Xv6.Fs.Fresh

/-!
# The panics that are left

The actions of a process on the tables and the disk (`Xv6.FileSys.Act`) check what they are called with, and panic. From a disk in order
no call brings them to do so, whatever the processes do, but for three cases: all entries of the table of inodes are in use, the disk is full,
or an inode that is looked for is free. This leaves out the panics between actions, as in `ialloc`, `dirlookup` and `fileread`.
-/

namespace Xv6.FileSys

open Lib Function

variable {s : Fs} {u : Pid → View} {w : Pid → Draft} {n : ℕ} {p : Pid} {k : Slot} {f : FileId} {e : Panic}
  {off m : ℕ}

theorem of_ilock_error (hk : 0 < (s.itable k).ref) (he : s.ilock p k = .error e) : e = .noType ∧ (s.disk.dinode (s.itable k).inum).type = .free := by
  rw [Fs.ilock, if_neg (by omega)] at he
  split at he
  · cases he
  dsimp only at he
  split at he
  · cases he
  split at he <;> cases he
  rename_i hfree
  exact ⟨rfl, by simpa [Fs.setLock, Fs.setInode] using hfree⟩

theorem iunlock_ne_error (hlock : (s.itable k).lock = some p) (hk : 0 < (s.itable k).ref) : s.iunlock p k ≠ .error e := by
  rw [Fs.iunlock, if_neg (by rw [not_or, not_not]; exact ⟨hlock, by omega⟩)]
  exact fun h => by cases h

theorem fileclose_ne_error (hf : 0 < (s.ftable f).ref) : s.fileclose f ≠ .error e := by
  rw [Fs.fileclose, if_neg (by omega)]
  split <;> exact fun h => by cases h

theorem filedup_ne_error (hf : 0 < (s.ftable f).ref) : s.filedup f ≠ .error e := by
  rw [Fs.filedup, if_neg (by omega)]
  exact fun h => by cases h

section Contents

variable (h : Coherent n s w) (hk : (s.itable k).lock = some p)

include h hk

theorem itrunc_ne_error (hw : w p = none) : s.itrunc k ≠ .error e := by
  intro he
  obtain ⟨-, hm⟩ := h.held k p hk
  rw [hw] at hm
  obtain ⟨hc, htype⟩ := hm
  obtain ⟨d', c, htrunc, -⟩ := h.good.itrunc_frees (hc ▸ htype)
  rw [Fs.itrunc, hc, htrunc] at he
  cases he

theorem readi_ne_error {dst : ℕ → ℕ → Bool} (hw : (w p).Settled) (hm : m < UINT) : s.readi k dst off m ≠ .error e := by
  obtain ⟨hc, htype⟩ := (h.held k p hk).2.settled hw
  obtain ⟨r, hr⟩ := readi_spec dst off (h.good.dense _ (hc ▸ htype)) hm
  rw [Fs.readi, hc, hr]
  exact fun h => by cases h

theorem of_writei_error {src : ℕ → ℕ → List UInt8 × Bool} (hw : w p = none) (hm : m < UINT)
    (he : s.writei k src off m = .error e) : e = .outOfBlocks := by
  obtain ⟨-, hmatch⟩ := h.held k p hk
  rw [hw] at hmatch
  obtain ⟨hc, htype⟩ := hmatch
  have hspec := @writei_spec _ _ src off m h.good (hc ▸ htype) hm
  cases hwrite : FileSys.writei s.disk (s.itable k).inum (s.disk.dinode (s.itable k).inum) src off m with
  | error e' =>
    rw [Fs.writei, hc, hwrite] at he
    cases he
    exact hspec.of_error hwrite
  | ok r =>
    rw [Fs.writei, hc, hwrite] at he
    cases he

end Contents

/-- **The panics that are left.** In every state the processes can reach from a disk in order, the next action of a process
has three ways to panic. -/
theorem action_panics (disk : Disk) (hgood : Good disk disk.dinode) (s : Sys) (h : Reach step (start disk) s) (p : Pid) {β : Type} (r : Act β)
    (rest : β → Prog Unit) (hthr : s.thr p = .act r rest) : Post (fun e => (e = .iget ∧ ∀ k, 0 < (s.fs.itable k).ref) ∨
      (e = .noType ∧ ∃ k, r.locks = some k ∧ (s.fs.disk.dinode (s.fs.itable k).inum).type = .free) ∨ e = .outOfBlocks)
      (exec r p s.fs) fun _ => True := by
  rcases he : exec r p s.fs with e | a
  swap
  · trivial
  refine Post.error ?_
  obtain ⟨u, ⟨hu, -⟩, hok⟩ := balanced_of_reach h
  obtain ⟨⟨w, hw, hok'⟩, -, -⟩ := inOrder_of_reach hgood h
  have hpre := hok p
  have hpre' := hok' p
  rw [hthr] at hpre hpre'
  obtain ⟨hpre, -⟩ := hpre
  obtain ⟨hpre', -⟩ := hpre'
  have hmem := (only_exec r p s.fs).of_error he
  have hfile : ∀ fd f, s.fs.ofile p fd = some f → 0 < (s.fs.ftable f).ref := by
    intro fd f hf
    have := fdsAt_pos hf
    have := hu.files_le p f
    omega
  cases r
  case iget inum =>
    obtain rfl := List.mem_singleton.mp hmem
    exact .inl ⟨rfl, fun k => (Fs.iget_eq_error_iff.mp (of_map_eq_error he) k).1⟩
  case ilock k =>
    obtain ⟨rfl, hfree⟩ := of_ilock_error (hu.ref_pos hpre) (of_map_eq_error he)
    exact .inr (.inl ⟨rfl, k, rfl, hfree⟩)
  case iunlock k => exact absurd (of_map_eq_error he) (iunlock_ne_error (hu.locked hpre) (hu.ref_pos ((hu.each p).held k hpre)))
  case itrunc k => exact absurd (of_map_eq_error he) (itrunc_ne_error hw (hu.locked hpre.1) hpre')
  case readi k dst off m => exact absurd (of_map_eq_error he) (readi_ne_error hw (hu.locked hpre) hpre'.1 hpre'.2)
  case writei k src off m => exact .inr (.inr (of_writei_error hw (hu.locked hpre.1) hpre'.1 hpre'.2 (of_map_eq_error he)))
  case fileclose f =>
    have := hu.files_le p f
    have := hpre.1
    exact absurd (of_map_eq_error he) (fileclose_ne_error (by omega))
  case dup fd =>
    dsimp only [exec] at he
    split at he
    · rename_i f fd' hf hfd
      exact absurd (of_map_eq_error he) (filedup_ne_error (hfile fd f hf))
    · cases he
  case filedup fd =>
    dsimp only [exec] at he
    split at he
    · rename_i f hf
      exact absurd (of_map_eq_error he) (filedup_ne_error (hfile fd f hf))
    · cases he
  -- the others do not panic at all
  all_goals simp [Act.panics] at hmem

/-- The first process calls `open`, and `namei` is about to get the root. -/
theorem action_panics_open : ∃ s : Sys, Reach step (start emptyImage) s ∧ ∃ rest, s.thr 0 = .act (.iget ROOTINO) rest ∧
    Post (fun e => (e = .iget ∧ ∀ k, 0 < (s.fs.itable k).ref) ∨
      (e = .noType ∧ ∃ k, (Act.iget ROOTINO).locks = some k ∧ (s.fs.disk.dinode (s.fs.itable k).inum).type = .free) ∨ e = .outOfBlocks)
      (exec (.iget ROOTINO) 0 s.fs) fun _ => True := by
  obtain ⟨s, hs⟩ : ∃ s, run step (start emptyImage) [.call 0 (.open [slash] .rdonly), .act 0] = some s := ⟨_, rfl⟩
  have hreach : Reach step (start emptyImage) s := ⟨_, hs⟩
  obtain rfl := Option.some.inj hs
  exact ⟨_, hreach, _, rfl, action_panics emptyImage good_emptyImage _ hreach 0 (.iget ROOTINO) _ rfl⟩

end Xv6.FileSys
