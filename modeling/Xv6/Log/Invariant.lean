import Xv6.Log.Commit

/-!
# The invariant of the log

At every moment the disk, read through its log, stands for the state after some number of whole commits: this is
`Inv.replays`, and it is all that a recovery needs.

While no commit is going on, the header on the disk is empty, and the home blocks on the disk are those of the last commit;
the blocks changed since are pinned in the cache, or marked, because their operation is still at work on them. While
`write_log` runs, the log fills behind the empty header. The write of the header is the commit. While the blocks are then
installed, the log holds all of them, so that it does not matter which are home already; and when all are, the header may
be cleared. A recovery goes through the same last stage.
-/

namespace Xv6.Logging

open Lib Function

variable {base : ℕ → Block} {s s' : Sys}

/-! ### Contents -/

theorem applyUpdates_append (us vs : List Update) (c : ℕ → Block) : applyUpdates (us ++ vs) c = applyUpdates vs (applyUpdates us c) := by
  induction us generalizing c with
  | nil => rfl
  | cons u us ih => rw [List.cons_append, applyUpdates, applyUpdates, ih]

namespace Sys

def content (base : ℕ → Block) (s : Sys) : ℕ → Block :=
  applyUpdates (s.txns.flatten ++ s.cur) base

/-- The contents of the blocks after the commits whose header has reached the disk. -/
def durably (base : ℕ → Block) (s : Sys) : ℕ → Block :=
  applyUpdates (s.txns.take s.durable).flatten base

def pins (s : Sys) : List ℕ :=
  match s.stage with
  | .readHead | .replay _ => []
  | .install tail => s.log.lh.drop tail
  | .idle | .writeLog _ | .done => s.log.lh

/-- An operation has changed block `b` and not logged it yet. -/
def Dirty (s : Sys) (b : ℕ) : Prop := ∃ i, s.dirty i = true ∧ (s.buf i).blockno = b

/-- The home blocks on the disk show their present contents, but for those that are
pinned or marked. -/
def Settled (base : ℕ → Block) (s : Sys) : Prop :=
  ∀ b, s.log.Home b → b ∉ s.pins → ¬s.Dirty b → s.disk b = s.content base b

def slot (s : Sys) (i : ℕ) : ℕ := s.log.start + i + 1

end Sys

structure Fits (l : Log) (bs : List ℕ) : Prop where
  home : ∀ b ∈ bs, l.Home b
  nodup : bs.Nodup
  room : bs.length ≤ LOGSIZE
  slots : bs.length ≤ l.size - 1

variable {l : Log} {b : ℕ}

theorem fits_nil : Fits l [] := ⟨by simp, List.nodup_nil, Nat.zero_le _, Nat.zero_le _⟩

theorem Log.home_congr {l' : Log} (hstart : l'.start = l.start) (hsize : l'.size = l.size) :
    l'.Home b ↔ l.Home b := by rw [Log.Home, Log.Home, hstart, hsize]

theorem Fits.congr {l' : Log} {bs : List ℕ} (h : Fits l bs) (hstart : l'.start = l.start) (hsize : l'.size = l.size) : Fits l' bs :=
  ⟨fun b hb => (Log.home_congr hstart hsize).mpr (h.home b hb), h.nodup, h.room, hsize ▸ h.slots⟩

def Sys.head (s : Sys) : List ℕ := header (s.disk s.log.start)

/-- **What is special to each stage.** -/
def StageOk (base : ℕ → Block) (s : Sys) : Prop :=
  match s.stage with
  | .readHead => s.ops = [] ∧ s.cur = [] ∧ s.durable = s.txns.length ∧ s.log.committing = false
  | .replay tail =>
    (s.ops = [] ∧ s.cur = [] ∧ s.durable = s.txns.length ∧ s.log.committing = false) ∧
      s.log.lh = s.head ∧
      ∀ i < tail, ∀ h : i < s.log.lh.length, s.disk s.log.lh[i] = s.disk (s.slot i)
  | .idle => s.log.committing = false ∧ s.durable = s.txns.length ∧ s.head = [] ∧ s.Settled base
  | .writeLog tail =>
    (s.ops = [] ∧ s.cur = [] ∧ s.durable + 1 = s.txns.length ∧ s.log.committing = true) ∧
      s.head = [] ∧ s.Settled base ∧
      ∀ i < tail, ∀ h : i < s.log.lh.length, s.disk (s.slot i) = s.content base s.log.lh[i]
  | .install _ =>
    (s.ops = [] ∧ s.cur = [] ∧ s.durable = s.txns.length ∧ s.log.committing = true) ∧
      s.head = s.log.lh ∧ s.Settled base ∧
      ∀ i, ∀ h : i < s.log.lh.length, s.disk (s.slot i) = s.content base s.log.lh[i]
  | .done =>
    (s.ops = [] ∧ s.cur = [] ∧ s.durable = s.txns.length ∧ s.log.committing = true) ∧
      s.head = [] ∧ s.log.lh = [] ∧ s.Settled base

structure Inv (base : ℕ → Block) (s : Sys) : Prop where
  size : 0 < s.log.size
  core : Core s.pins (s.content base) s
  outstanding : s.log.outstanding = s.ops.length
  lh : Fits s.log s.log.lh
  head : Fits s.log s.head
  durable : s.durable ≤ s.txns.length
  replays : ∀ b, s.log.Home b → replay s.log.start s.disk b = s.durably base b
  stage : StageOk base s

theorem Log.Home.ne (h : l.Home b) (hsize : 0 < l.size) : b ≠ l.start ∧ ∀ i < l.size - 1, b ≠ l.start + i + 1 := by
  have := h.1
  exact ⟨by omega, fun i hi => by omega⟩

theorem Inv.home_ne (h : Inv base s) (hb : s.log.Home b) : b ≠ s.log.start ∧ ∀ i < s.log.size - 1, b ≠ s.slot i := hb.ne h.size

theorem Core.not_dirty {pins : List ℕ} {c : ℕ → Block} (h : Core pins c s) (hops : s.ops = []) : ¬s.Dirty b := by
  rintro ⟨i, hi, -⟩
  obtain ⟨-, -, p, hp, -⟩ := (h.bufs i).dirty hi
  simp [hops] at hp

theorem Inv.idle_of_ops (h : Inv base s) {p : Pid} (hp : p ∈ s.ops) : s.stage = .idle := by
  have hne : s.ops ≠ [] := List.ne_nil_of_mem hp
  have hst := h.stage
  rw [StageOk] at hst
  split at hst
  · exact absurd hst.1 hne
  · exact absurd hst.1.1 hne
  · next heq => exact heq
  all_goals exact absurd hst.1.1 hne

theorem Inv.data_eq_content (h : Inv base s) (hset : s.Settled base) {i : BufId} (hv : (s.buf i).valid = true) (hb : s.log.Home (s.buf i).blockno) :
    (s.buf i).data = s.content base (s.buf i).blockno := by
  have hi := h.core.bufs i
  by_cases hpin : (s.buf i).blockno ∈ s.pins
  · exact hi.hot hv hpin
  by_cases hd : s.dirty i = true
  · exact (hi.dirty hd).2.1
  rw [hi.clean hv hpin (by simpa using hd)]
  refine hset _ hb hpin ?_
  rintro ⟨j, hj, hjb⟩
  have hj' := h.core.bufs j
  obtain rfl : j = i := h.core.uniq j i _ ⟨hj'.rooted (Or.inl (hj'.dirty hj).1), hjb⟩ ⟨hi.rooted (Or.inl hv), rfl⟩
  exact hd hj

/-! ### Steps that leave the disk and the log alone -/

theorem Inv.of_frame (h : Inv base s) (hf : Frame s s') (hdisk : s'.disk = s.disk)
    (hcore : Core s.pins (s.content base) s') (hdirty : ∀ b, s.Dirty b → s'.Dirty b) : Inv base s' := by
  have hpins : s'.pins = s.pins := by simp only [Sys.pins, hf.stage, hf.log]
  have hcontent : s'.content base = s.content base := by simp only [Sys.content, hf.txns, hf.cur]
  have hdurably : s'.durably base = s.durably base := by
    simp only [Sys.durably, hf.txns, hf.durable]
  have hhead : s'.head = s.head := by simp only [Sys.head, hdisk, hf.log]
  have hset : s.Settled base → s'.Settled base := by
    intro hset b hb hpin hd
    rw [hf.log] at hb
    rw [hpins] at hpin
    rw [hdisk, hcontent]
    exact hset b hb hpin fun hd' => hd (hdirty b hd')
  refine ⟨?_, ?_, ?_, ?_, ?_, ?_, ?_, ?_⟩
  · rw [hf.log]
    exact h.size
  · rw [hpins, hcontent]
    exact hcore
  · rw [hf.log, hf.ops]
    exact h.outstanding
  · rw [hf.log]
    exact h.lh
  · rw [hf.log, hhead]
    exact h.head
  · rw [hf.durable, hf.txns]
    exact h.durable
  · rw [hf.log, hdisk, hdurably]
    exact h.replays
  · have hst := h.stage
    simp only [StageOk, hf.stage, hf.ops, hf.cur, hf.durable, hf.txns, hf.log, hhead, hdisk, hcontent, Sys.slot] at hst ⊢
    split at hst
    · exact hst
    · exact hst
    · exact ⟨hst.1, hst.2.1, hst.2.2.1, hset hst.2.2.2⟩
    · exact ⟨hst.1, hst.2.1, hset hst.2.2.1, hst.2.2.2⟩
    · exact ⟨hst.1, hst.2.1, hset hst.2.2.1, hst.2.2.2⟩
    · exact ⟨hst.1, hst.2.1, hst.2.2.1, hset hst.2.2.2⟩

end Xv6.Logging
