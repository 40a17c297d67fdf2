import Xv6.Fs.Chunks
import Mathlib.Data.List.TakeWhile

/-!
# Where a path leads

The elements of a path are the longest runs of characters other than `/`, cut to `DIRSIZ` characters. A path leads from the root
or the working directory through directories, from one element to the next. `namei` and `nameiparent` find where it leads, if nobody
else is at work, and keep a reference to this inode and to no other.
-/

namespace Xv6.FileSys

open Lib Function

/-! ### Paths -/

variable {path rest name : List UInt8} {e : Inode} {cs : List UInt8}

def Disk.entries (d : Disk) (i : ℕ) : List Dirent :=
  (List.range ((d.dinode i).size / DIRENT)).map fun k => Dirent.decode (((d.bytes i).drop (k * DIRENT)).take DIRENT)

def wanted (name : List UInt8) (de : Dirent) : Bool := de.inum ≠ 0 && sameName name de.name

def Disk.lookup (d : Disk) (i : ℕ) (name : List UInt8) : Option ℕ := ((d.entries i).find? (wanted name)).map Dirent.inum

variable {d : Disk} {i j : ℕ} {parent : Bool} {names : List (List UInt8)}

def Alive (s : Fs) (i : ℕ) : Prop :=
  (s.disk.dinode i).type ≠ .free ∧ ((s.disk.dinode i).nlink ≠ 0 ∨ ∃ k, 0 < (s.itable k).ref ∧ (s.itable k).inum = i)

/-- **The references that have been taken** since the state `s₀`, by a process that holds the lock `h`. -/
structure Borrowed (s₀ : Fs) (p : Pid) (x : Slot → ℕ) (h : Option Slot) (s : Fs) : Prop where
  disk : s.disk = s₀.disk
  procs : s.procs = s₀.procs
  ref : ∀ k, (s.itable k).ref = (s₀.itable k).ref + x k
  inum : ∀ k, 0 < (s₀.itable k).ref → (s.itable k).inum = (s₀.itable k).inum
  lock : ∀ k, (s.itable k).lock = if h = some k then some p else none
  copy : ∀ k, 0 < (s.itable k).ref → (s.itable k).valid = true → s.copy k = s₀.disk.dinode (s.itable k).inum
  uniq : ∀ k j, 0 < (s.itable k).ref → 0 < (s.itable j).ref → (s.itable k).inum = (s.itable j).inum → k = j

variable {s₀ s s' : Fs} {p : Pid} {x x' : Slot → ℕ} {h h' : Option Slot} {k ip : Slot}

section

variable (hb : Borrowed s₀ p x h s) (hx : ∀ j, j ≠ k → x' j = x j) (hh : ∀ j, j ≠ k → (h' = some j ↔ h = some j))

include hb hx hh

theorem Borrowed.set (href : e.ref = (s₀.itable k).ref + x' k)
    (hinum : 0 < (s₀.itable k).ref → e.inum = (s₀.itable k).inum) (hlock : e.lock = if h' = some k then some p else none)
    (hcopy : 0 < e.ref → e.valid = true → e.toDinode = s₀.disk.dinode e.inum)
    (huniq : 0 < e.ref → ∀ j, j ≠ k → 0 < (s.itable j).ref → (s.itable j).inum ≠ e.inum) : Borrowed s₀ p x' h' (s.setInode k e) := by
  have hself : (s.setInode k e).itable k = e := itable_setInode ..
  have hother : ∀ j, j ≠ k → (s.setInode k e).itable j = s.itable j := fun j hj => update_of_ne hj ..
  refine ⟨hb.disk, hb.procs, fun j => ?_, fun j hj => ?_, fun j => ?_, fun j hj hv => ?_, fun j j' hj hj' heq => ?_⟩
  · by_cases hjk : j = k
    · rw [hjk, hself, href]
    · rw [hother j hjk, hb.ref, hx j hjk]
  · by_cases hjk : j = k
    · subst hjk
      rw [hself, hinum hj]
    · rw [hother j hjk, hb.inum j hj]
  · by_cases hjk : j = k
    · rw [hjk, hself, hlock]
    · rw [hother j hjk, hb.lock]
      exact if_congr (hh j hjk).symm rfl rfl
  · by_cases hjk : j = k
    · subst hjk
      rw [hself] at hj hv ⊢
      rw [Fs.copy, hself]
      exact hcopy hj hv
    · rw [hother j hjk] at hj hv ⊢
      rw [Fs.copy, hother j hjk]
      exact hb.copy j hj hv
  · by_cases hjk : j = k <;> by_cases hjk' : j' = k
    · rw [hjk, hjk']
    · subst hjk
      rw [hself, hother j' hjk'] at heq
      rw [hself] at hj
      rw [hother j' hjk'] at hj'
      exact absurd heq.symm (huniq hj j' hjk' hj')
    · subst hjk'
      rw [hself, hother j hjk] at heq
      rw [hself] at hj'
      rw [hother j hjk] at hj
      exact absurd heq (huniq hj' j hjk hj)
    · rw [hother j hjk, hother j' hjk'] at heq
      rw [hother j hjk] at hj
      rw [hother j' hjk'] at hj'
      exact hb.uniq j j' hj hj' heq

theorem Borrowed.modify (hk : 0 < (s.itable k).ref) (href : e.ref = (s₀.itable k).ref + x' k)
    (hinum : e.inum = (s.itable k).inum) (hlock : e.lock = if h' = some k then some p else none)
    (hcopy : e.valid = true → e.toDinode = s₀.disk.dinode e.inum) : Borrowed s₀ p x' h' (s.setInode k e) := by
  refine hb.set hx hh href (fun h0 => hinum.trans (hb.inum k h0)) hlock (fun _ => hcopy) fun _ j hj hj' heq => ?_
  exact hj (hb.uniq j k hj' hk (heq.trans hinum))

end

theorem Borrowed.incRef (hb : Borrowed s₀ p x h s) (hk : 0 < (s.itable k).ref) : Borrowed s₀ p (update x k (x k + 1)) h (s.incRef k) := by
  refine hb.modify (fun j hj => update_of_ne hj ..) (fun _ _ => Iff.rfl) hk ?_ rfl (hb.lock k) (hb.copy k hk)
  rw [update_self, ← Nat.add_assoc, ← hb.ref k]

def Roomy (s : Fs) : Prop := ∃ a b, a ≠ b ∧ (s.itable a).ref = 0 ∧ (s.itable b).ref = 0

def Full (s₀ : Fs) (e : Panic) : Prop := e = .iget ∧ ¬Roomy s₀

variable {E : Panic → Prop}

theorem length_entries : (d.entries i).length = (d.dinode i).size / DIRENT := by
  simp [Disk.entries]

def single (ip : Slot) : Slot → ℕ := update (fun _ => 0) ip 1

def Fs.origin (s : Fs) (p : Pid) (path : List UInt8) : Option ℕ :=
  if path.head? = some slash then some ROOTINO
  else ((s.procs p).bind fun pr => pr.cwd).map fun ip => (s.itable ip).inum

/-- `a/b` becomes the working directory, and `/a/b` and `/a` are removed. -/
def orphan : List Turn :=
  [⟨0, some (.mkdir (some [97])), 1000⟩, ⟨0, some (.mkdir (some [97, slash, 98])), 1000⟩,
    ⟨0, some (.chdir (some [97, slash, 98])), 1000⟩, ⟨0, some (.unlink [slash, 97, slash, 98]), 1000⟩,
    ⟨0, some (.unlink [slash, 97]), 1000⟩]

end Xv6.FileSys
