import Xv6.Fs.Machine

/-!
# Runs by turns

Most runs of the machine are too long to be written down action by action. A run in which the
processes take turns is told by its turns: who makes which call, and how far they get with it
before the next turn. A turn with more actions than are left to do ends with the call.
-/

namespace Xv6.FileSys

open Lib Function

/-! ### Images -/

def dirBlock (es : List Dirent) : Logging.Block := fun i => (es.flatMap Dirent.encode).getD i.val 0

/-- A file system with nothing in it but the root directory. -/
def emptyImage : Disk where
  sb := ⟨60, 10, 5⟩
  bitmap b := b < 7
  dinode i :=
    if i = ROOTINO then ⟨.dir, 0, 0, 1, 2 * DIRENT, fun n => if n = 0 then 6 else 0⟩
    else Dinode.zero
  block b := if b = 6 then dirBlock [⟨ROOTINO, dot⟩, ⟨ROOTINO, dotdot⟩] else fun _ => 0

/-! ### Turns -/

structure Turn where
  pid : Pid
  /-- The call the process makes first, unless it goes on with the one it is in. -/
  call : Option Call
  /-- How many actions it performs then at most. -/
  acts : ℕ

namespace Sys

def acts (p : Pid) : ℕ → Sys → Sys
  | 0, s => s
  | n + 1, s =>
    match step s (.act p) with
    | some t => acts p n t
    | none => s

def turn (s : Sys) (t : Turn) : Option Sys :=
  match t.call with
  | some c => (step s (.call t.pid c)).map (acts t.pid t.acts)
  | none => some (s.acts t.pid t.acts)

def play (s : Sys) (ts : List Turn) : Option Sys := ts.foldlM turn s

variable {s t : Sys}

theorem reach_acts (p : Pid) (n : ℕ) (s : Sys) : Reach step s (s.acts p n) := by
  induction n generalizing s with
  | zero => exact .refl
  | succ n ih =>
    unfold acts
    split
    · exact (Reach.refl.tail ‹_›).trans (ih _)
    · exact .refl

theorem reach_turn {x : Turn} (h : s.turn x = some t) : Reach step s t := by
  unfold turn at h
  split at h
  · obtain ⟨u, hu, rfl⟩ := Option.map_eq_some_iff.mp h
    exact (Reach.refl.tail hu).trans (reach_acts ..)
  · cases h
    exact reach_acts ..

theorem reach_play {xs : List Turn} (h : s.play xs = some t) : Reach step s t := by
  induction xs generalizing s with
  | nil =>
    cases h
    exact .refl
  | cons x xs ih =>
    obtain ⟨u, hu, hrest⟩ := Option.bind_eq_some_iff.mp h
    exact (reach_turn hu).trans (ih hrest)

theorem exists_reach {P : Sys → Bool} {xs : List Turn} (h : (s.play xs).any P = true) : ∃ t, Reach step s t ∧ P t = true := by
  cases hplay : s.play xs with
  | none =>
    rw [hplay] at h
    cases h
  | some t =>
    rw [hplay] at h
    exact ⟨t, reach_play hplay, h⟩

end Sys

end Xv6.FileSys
