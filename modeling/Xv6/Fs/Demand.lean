import Xv6.Fs.Panics

/-!
# When the table of inodes is full

`iget` panics if the inode is not in the table, and all entries are in use. An entry is in use as long as an open file, a
working directory or a call that goes on refers to it. Nothing keeps the processes from using more than `NINODE` inodes at
a time: `NPROC` working directories are enough.
-/

namespace Xv6.FileSys

open Lib Function

variable {s : Fs} {p : Pid} {inum : ℕ}

theorem Fs.iget_eq_error_iff : s.iget inum = .error .iget ↔ ∀ k, 0 < (s.itable k).ref ∧ (s.itable k).inum ≠ inum := by
  unfold Fs.iget
  constructor
  · intro h k
    split at h
    · cases h
    rename_i hnone
    have hmatch := List.find?_eq_none.mp hnone k (List.mem_finRange k)
    split at h
    · cases h
    rename_i hfull
    have hused := List.find?_eq_none.mp hfull k (List.mem_finRange k)
    have hpos : 0 < (s.itable k).ref := by
      simp at hused
      omega
    refine ⟨hpos, fun heq => hmatch ?_⟩
    simp [hpos, heq]
  · intro h
    rw [List.find?_eq_none.mpr fun k _ => by simp [h k], List.find?_eq_none.mpr fun k _ => ?_]
    have := (h k).1
    simp
    omega

theorem next_eq_error_iget_iff {α : Type} {k : Prog α} {v : View} {Q : α → View → Prop} (hok : k.Ok rights v Q) : k.next exec p s = .error .iget ↔
      ∃ inum rest, k = .act (.iget inum) rest ∧ ∀ j, 0 < (s.itable j).ref ∧ (s.itable j).inum ≠ inum := by
  constructor
  · intro h
    obtain ⟨β, r, rest, rfl, hmem, -, hexec⟩ := of_next_eq_error hok (not_not.mpr rfl) h
    cases r
    case iget inum => exact ⟨inum, rest, rfl, Fs.iget_eq_error_iff.mp (of_map_eq_error hexec)⟩
    all_goals simp [Act.panics] at hmem
  · rintro ⟨inum, rest, rfl, hfull⟩
    change Except.map _ (Except.map some (s.iget inum)) = _
    rw [Fs.iget_eq_error_iff.mpr hfull]
    rfl

/-! ### What the entries are in use for -/

/-- The references that the calls hold after a run from `s`, where they held `x`. -/
def ledger : Sys → (Pid → Slot → ℕ) → List Event → Pid → Slot → ℕ
  | _, x, [] => x
  | s, x, e :: es => (step s e).elim x fun t => ledger t (s.charge x e) es

/-- **The references that the calls of the processes hold** after a run from the start: what their actions have taken, less
what they have given away. -/
def inFlight (disk : Disk) (es : List Event) : Pid → Slot → ℕ := ledger (start disk) (fun _ _ => 0) es

theorem views_of_run {x : Sys} {w : Pid → View} {es : List Event} {y : Sys} (hw : Rights x.fs w)
    (hlight : ∀ p, (w p).light = x.light p) (hok : ∀ p, (x.thr p).Ok rights (w p) fun _ => View.Idle)
    (hrun : run step x es = some y) : ∃ w', Rights y.fs w' ∧ (∀ p, (y.thr p).Ok rights (w' p) fun _ => View.Idle) ∧
      (fun p => (w' p).refs) = ledger x (fun p => (w p).refs) es := by
  induction es generalizing x w with
  | nil =>
    obtain rfl := Option.some.inj hrun
    exact ⟨w, hw, hok, rfl⟩
  | cons e es ih =>
    obtain ⟨t, hstep, hrest⟩ := run_cons_eq_some.mp hrun
    obtain ⟨w₁, ⟨hw₁, hlight₁⟩, hok₁, hrefs₁⟩ := kept_step hw hlight hok hstep
    obtain ⟨w', hw', hok', hrefs⟩ := ih hw₁ hlight₁ hok₁ hrest
    refine ⟨w', hw', hok', ?_⟩
    rw [hrefs, ledger, hstep, hrefs₁]
    rfl

/-- **When `iget` panics.** An entry of the table has a reference for each open file, for each working directory, and for
each one that a call holds. The next action of a process is the panic of `iget` if and only if it asks for an inode that is
not in the table, and each of the `NINODE` entries is there for one of these. -/
theorem iget_panics_iff (disk : Disk) (es : List Event) (s : Sys) (h : run step (start disk) es = some s) :
    (∀ k, (s.fs.itable k).ref = (s.fs.files k).card + (s.fs.cwds k).card + ∑ q, inFlight disk es q k) ∧
      ∀ p, s.next p = .error .iget ↔ ∃ inum rest, s.thr p = .act (.iget inum) rest ∧ ∀ k, (s.fs.itable k).inum ≠ inum ∧
        ((s.fs.files k).Nonempty ∨ (s.fs.cwds k).Nonempty ∨ ∃ q, s.Inside q ∧ 0 < inFlight disk es q k) := by
  obtain ⟨w, hw, hok, hrefs⟩ := @views_of_run (start disk) (fun _ => View.idle none false) es s (rights_boot disk)
    (fun _ => rfl) (fun _ => View.idle_idle) h
  have hheld : ∀ q k, inFlight disk es q k = (w q).refs k := fun q k => (congrFun (congrFun hrefs q) k).symm
  have hcount : ∀ k, (s.fs.itable k).ref = (s.fs.files k).card + (s.fs.cwds k).card + ∑ q, inFlight disk es q k := by
    intro k
    rw [hw.refs k, hw.card_files, Fs.card_cwds]
    simp only [hheld]
  have hinside : ∀ q k, 0 < inFlight disk es q k → s.Inside q := by
    intro q k hpos
    by_contra hout
    rw [hheld, (Sys.ok_of_outside (hok q) hout).2.1 k] at hpos
    exact absurd hpos (Nat.lt_irrefl 0)
  have hused : ∀ k, 0 < (s.fs.itable k).ref ↔
      (s.fs.files k).Nonempty ∨ (s.fs.cwds k).Nonempty ∨ ∃ q, s.Inside q ∧ 0 < inFlight disk es q k := by
    intro k
    rw [hcount, ← Finset.card_pos, ← Finset.card_pos, Nat.add_pos_iff_pos_or_pos, Nat.add_pos_iff_pos_or_pos, or_assoc]
    refine or_congr_right (or_congr_right ?_)
    rw [Finset.sum_pos_iff]
    constructor
    · rintro ⟨q, -, hq⟩
      exact ⟨q, hinside q k hq, hq⟩
    · rintro ⟨q, -, hq⟩
      exact ⟨q, Finset.mem_univ q, hq⟩
  refine ⟨hcount, fun p => ?_⟩
  rw [Sys.next, next_eq_error_iget_iff (hok p)]
  simp only [hused, and_comm]

/-- The first process has found the root directory for `open`, and most of the table is free. -/
theorem iget_panics_iff_root : ∃ es s, run step (start emptyImage) es = some s ∧ ∑ q, inFlight emptyImage es q 0 = 1 ∧
    s.next 0 ≠ .error .iget := by
  have hplay : ((start emptyImage).play [⟨0, some (.open [slash] .rdonly), 2⟩]).any (fun s =>
      (s.fs.itable 0).ref = 2 ∧ (s.fs.files 0).card = 0 ∧ (s.fs.cwds 0).card = 1 ∧ (s.fs.itable 1).ref = 0) = true := by
    decide +kernel
  obtain ⟨s, ⟨es, hrun⟩, hp⟩ := Sys.exists_reach hplay
  obtain ⟨href, hfiles, hcwds, hfree⟩ := of_decide_eq_true hp
  obtain ⟨hcount, hiff⟩ := iget_panics_iff emptyImage es s hrun
  have h0 := hcount 0
  refine ⟨es, s, hrun, by omega, fun hpanic => ?_⟩
  obtain ⟨inum, rest, -, hall⟩ := (hiff 0).mp hpanic
  have h1 := hcount 1
  rw [hfree] at h1
  rcases (hall 1).2 with hne | hne | ⟨q, -, hq⟩
  · have := hne.card_pos
    omega
  · have := hne.card_pos
    omega
  · have := Finset.single_le_sum (f := fun q => inFlight emptyImage es q 1) (fun _ _ => Nat.zero_le _) (Finset.mem_univ q)
    omega

/-! ### Too many inodes -/

/-- A file system with a chain of directories, each of which has one entry `a` besides its own
and that of its parent. -/
def chainImage : Disk where
  sb := ⟨70, 60, 5⟩
  bitmap b := b < 63
  dinode i :=
    if 1 ≤ i ∧ i < 52 then ⟨.dir, 0, 0, 2, 3 * DIRENT, fun n => if n = 0 then 10 + i else 0⟩
    else if i = 52 then ⟨.dir, 0, 0, 1, 2 * DIRENT, fun n => if n = 0 then 10 + i else 0⟩
    else Dinode.zero
  block b :=
    if b < 11 ∨ 62 < b then fun _ => 0
    else dirBlock ([⟨b - 10, dot⟩, ⟨max 1 (b - 11), dotdot⟩] ++
      if b < 62 then [⟨b - 9, [97]⟩] else [])

/-- A process makes a child, and goes one directory further down. -/
def descend (i : ℕ) : List Turn :=
  [⟨0, some (.fork (Fin.ofNat _ (i + 1))), 100⟩, ⟨0, some (.chdir (some [97])), 100⟩]

/-- Fifty processes in different directories are too many. -/
theorem iget_panics : ∃ s, Reach step (start chainImage) s ∧ s.next 0 = .error .iget := by
  have hplay : ((start chainImage).play ((List.range 50).flatMap descend)).any (fun s => match s.next 0 with
        | .error e => e = .iget
        | .ok _ => false) = true := by decide +kernel
  obtain ⟨s, hs, hp⟩ := Sys.exists_reach hplay
  refine ⟨s, hs, ?_⟩
  cases hnext : s.next 0 with
  | error e =>
    rw [hnext] at hp
    exact congrArg Except.error (of_decide_eq_true hp)
  | ok o =>
    rw [hnext] at hp
    cases hp

end Xv6.FileSys
