import Xv6.Fs.Calls

/-!
# Processes at the file system

The machine: any number of processes make system calls, and take turns at every atomic
action. The disk that a crash leaves, once the log has been replayed, is the one of the last
commit: a commit is made when no process is inside a transaction, and writes what all
transactions before it have written. This is what `Xv6.Logging` shows of the log.
-/

namespace Xv6.FileSys

open Lib Function

structure Sys where
  fs : Fs
  thr : Pid → Prog Unit
  call : Pid → Option Call
  /-- What recovery would find. -/
  image : Disk
  /-- The inode each process has got from `ialloc` and not locked yet, and its type. No part of
  the source; the machine never reads it. -/
  claim : Pid → Option (ℕ × IType)

/-- The tables after boot. The first process is in the root directory, whose inode has not
been read yet. -/
def boot (disk : Disk) : Fs where
  disk := disk
  itable k :=
    { Dinode.zero with inum := ROOTINO, ref := if k = 0 then 1 else 0, lock := none, valid := false }
  ftable _ :=
    { type := .none, ref := 0, readable := false, writable := false, ip := 0, off := 0, major := 0 }
  procs p := if p = 0 then some ⟨some 0, fun _ => none, true⟩ else none
  ops _ := 0

def start (disk : Disk) : Sys where
  fs := boot disk
  thr _ := .ret ()
  call _ := none
  image := disk
  claim _ := none

inductive Event
  | call (p : Pid) (c : Call)
  | act (p : Pid)
  | commit
  | crash

def Sys.next (s : Sys) (p : Pid) : Except Panic (Option (Fs × Prog Unit)) :=
  (s.thr p).next exec p s.fs

def Sys.claimNext (s : Sys) (p : Pid) : Option (ℕ × IType) :=
  match s.thr p with
  | .act (.iclaim inum type) _ =>
    if (s.fs.disk.dinode inum).type = .free then some (inum, type) else none
  | .act (.ilock _) _ => none
  | _ => s.claim p

def Sys.Inside (s : Sys) (p : Pid) : Prop :=
  match s.thr p with
  | .ret _ => False
  | _ => True

instance (s : Sys) (p : Pid) : Decidable (s.Inside p) := by
  unfold Sys.Inside
  split <;> infer_instance

theorem Sys.ok_of_outside {ν : Type} {D : Discipline Act Panic ν} {v : ν} {Q : ν → Prop} {s : Sys} {p : Pid}
    (hok : (s.thr p).Ok D v fun _ => Q) (hout : ¬s.Inside p) : Q v := by
  unfold Inside at hout
  split at hout
  · rename_i a hret
    rw [hret] at hok
    exact hok
  · exact absurd trivial hout

def Sys.Ready (s : Sys) (p : Pid) : Prop :=
  ¬s.Inside p ∧ ((s.fs.procs p).any fun pr => pr.ready) = true

instance (s : Sys) (p : Pid) : Decidable (s.Ready p) := by
  unfold Sys.Ready
  infer_instance

def step (s : Sys) : Event → Option Sys
  | .call p c =>
    if s.Ready p then
      some { s with
        thr := update s.thr p (c.prog s.fs.disk.sb.ninodes)
        call := update s.call p (some c) }
    else none
  | .act p =>
    match s.next p with
    | .ok (some (fs, k)) =>
      some { s with
        fs := fs
        thr := update s.thr p k
        claim := update s.claim p (s.claimNext p) }
    | _ => none
  | .commit => if ∀ p, s.fs.ops p = 0 then some { s with image := s.fs.disk } else none
  | .crash => some (start s.image)

end Xv6.FileSys
