import Xv6.Log.Basic
import Xv6.Lib.Run
import Mathlib.Data.Finset.Card
import Mathlib.Data.Finset.Dedup

/-!
# The reservation of log space

`begin_op` lets an operation in only if the log has room for `MAXOPBLOCKS` blocks of it and of every other operation
that is in, and `log_write` panics when the room is used up. `begin_op` counts against `LOGSIZE`; `log_write` counts
against `log.size - 1`, because one of the `log.size` blocks is the header, and `mkfs` gives the log `LOGSIZE` blocks in
all. So three operations may be let in, each may write ten blocks, and the thirtieth block finds no room. Moreover
`log_write` tests for room before it looks whether the block is logged already.

The machine of this module has the operations, with the set of at most `MAXOPBLOCKS` blocks each has passed to
`log_write`.
-/

namespace Xv6.Logging.Reserve

open Lib

/-! ### The operations -/

/-- The log and the operations it has let in. The last two fields are not in the
source: the blocks passed to `log_write` since the last commit, and whether it has
panicked. -/
structure Sys where
  log : Log
  /-- The operations that are in, each with the blocks it has passed so far. -/
  ops : List (Finset ℕ)
  passed : Finset ℕ
  panicked : Bool

inductive Event
  | begin
  | write (k b : ℕ)
  | leave (k : ℕ)
  | commit
  deriving DecidableEq, Repr

def boot : Sys where
  log := { start := 2, size := LOGSIZE, outstanding := 0, committing := false, lh := [] }
  ops := []
  passed := ∅
  panicked := false

/-- What an event does. An operation is not allowed more than `MAXOPBLOCKS` different
blocks. -/
def act (s : Sys) : Event → Option Sys
  | .begin => (beginOp s.log).map fun l => { s with log := l, ops := s.ops ++ [∅] }
  | .write k b =>
    match s.ops[k]? with
    | none => none
    | some blocks =>
      if (insert b blocks).card ≤ MAXOPBLOCKS then
        match logWrite s.log b with
        | .error _ => some { s with panicked := true }
        | .ok (_, l) => some { s with
            log := l, ops := s.ops.set k (insert b blocks), passed := insert b s.passed }
      else none
  | .leave k =>
    match s.ops[k]? with
    | none => none
    | some _ =>
      match endOp s.log with
      | .error _ => some { s with panicked := true }
      | .ok (_, l) => some { s with log := l, ops := s.ops.eraseIdx k }
  | .commit =>
    if s.log.committing then
      some { s with log := { s.log with lh := [], committing := false }, passed := ∅ }
    else none

def step (s : Sys) (e : Event) : Option Sys := if s.panicked then none else act s e

/-! ### The books -/

structure Books (s : Sys) : Prop where
  size : s.log.size = LOGSIZE
  outstanding : s.log.outstanding = s.ops.length
  committing : s.log.committing = true → s.ops = []
  /-- The log holds what was passed, each block once. -/
  passed : s.passed = s.log.lh.toFinset
  nodup : s.log.lh.Nodup
  room : s.log.lh.length ≤ s.log.size - 1

theorem books_boot : Books boot where
  size := rfl
  outstanding := rfl
  committing := by simp [boot]
  passed := rfl
  nodup := List.nodup_nil
  room := Nat.zero_le _

theorem Books.card_passed {s : Sys} (h : Books s) : s.passed.card = s.log.lh.length := by
  rw [h.passed, List.toFinset_card_of_nodup h.nodup]

def Spare (s : Sys) : Event → Prop
  | .write _ _ => s.passed.card < s.log.size - 1
  | _ => True

variable {s t : Sys} {e : Event} {l : Log}

theorem step_some (he : step s e = some t) : s.panicked = false ∧ act s e = some t := by
  rw [step] at he
  split at he
  · simp at he
  · next hp => exact ⟨by simpa using hp, he⟩

theorem Books.begin (h : Books s) (hl : beginOp s.log = some l) : Books { s with log := l, ops := s.ops ++ [∅] } := by
  obtain ⟨hc, -, rfl⟩ := beginOp_some hl
  refine ⟨h.size, ?_, fun hc' => ?_, h.passed, h.nodup, h.room⟩
  · simp [h.outstanding]
  · exact absurd (hc.symm.trans hc') (by simp)

variable {blocks : Finset ℕ}

theorem Books.write (h : Books s) {k b : ℕ} {new : Bool}
    (hk : s.ops[k]? = some blocks) (hl : logWrite s.log b = .ok (new, l)) : Books { s with
      log := l, ops := s.ops.set k (insert b blocks), passed := insert b s.passed } := by
  obtain ⟨-, hroom, -, hlh, hlog⟩ := logWrite_ok hl
  have hops : s.ops ≠ [] := by
    rintro hnil
    simp [hnil] at hk
  have hlog' : l.size = s.log.size ∧ l.outstanding = s.log.outstanding ∧ l.committing = s.log.committing := by
    rw [hlog]
    exact ⟨rfl, rfl, rfl⟩
  refine ⟨hlog'.1.trans h.size, ?_, fun hc => ?_, ?_, ?_, ?_⟩
  · rw [List.length_set]
    exact hlog'.2.1.trans h.outstanding
  · exact absurd (h.committing (hlog'.2.2 ▸ hc)) hops
  · -- what is logged already is passed already
    simp only [h.passed]
    split at hlh
    · next hb =>
      rw [(Prod.mk.inj hlh).2]
      exact Finset.insert_eq_self.mpr (List.mem_toFinset.mpr hb)
    · rw [(Prod.mk.inj hlh).2]
      ext c
      simp
  · split at hlh
    · rw [(Prod.mk.inj hlh).2]
      exact h.nodup
    · next hb =>
      rw [(Prod.mk.inj hlh).2]
      exact List.nodup_append.mpr ⟨h.nodup, List.nodup_singleton b, by
        rintro c hc _ hb' rfl
        exact hb (List.mem_singleton.mp hb' ▸ hc)⟩
  · simp only [hlog'.1]
    split at hlh
    · rw [(Prod.mk.inj hlh).2]
      exact h.room
    · rw [(Prod.mk.inj hlh).2, List.length_append, List.length_singleton]
      exact hroom

theorem Books.leave (h : Books s) {k : ℕ} {commit : Bool}
    (hk : s.ops[k]? = some blocks) (hl : endOp s.log = .ok (commit, l)) : Books { s with log := l, ops := s.ops.eraseIdx k } := by
  obtain ⟨hlt, -⟩ := List.getElem?_eq_some_iff.mp hk
  have hlen : (s.ops.eraseIdx k).length = s.ops.length - 1 := by
    rw [List.length_eraseIdx, if_pos hlt]
  have hout := h.outstanding
  obtain ⟨-, ⟨-, hz, rfl⟩ | ⟨-, hz, rfl⟩⟩ := endOp_ok hl
  · refine ⟨h.size, ?_, fun _ => ?_, h.passed, h.nodup, h.room⟩
    · simp only [hlen, hout]
    · exact List.eq_nil_of_length_eq_zero (by simp only [hlen]; omega)
  · refine ⟨h.size, ?_, fun hc => ?_, h.passed, h.nodup, h.room⟩
    · simp only [hlen, hout]
    · simp [h.committing hc] at hlt

theorem Books.logWrite_error (h : Books s) {k b : ℕ}
    (hk : s.ops[k]? = some blocks) {p : Panic} (hl : logWrite s.log b = .error p) : s.log.size - 1 ≤ s.log.lh.length := by
  obtain ⟨hlt, -⟩ := List.getElem?_eq_some_iff.mp hk
  have hout := h.outstanding
  have hsize := h.size
  rw [logWrite] at hl
  split at hl
  · next hroom => omega
  · split at hl
    · next hno => omega
    · simp at hl

theorem Books.step (h : Books s) (he : step s e = some t) : Books t ∧ (t.panicked = false ↔ Spare s e) := by
  obtain ⟨hp, he⟩ := step_some he
  cases e with
  | begin =>
    rw [act] at he
    obtain ⟨l, hl, rfl⟩ := Option.map_eq_some_iff.mp he
    exact ⟨h.begin hl, iff_of_true hp trivial⟩
  | write k b =>
    rcases hk : s.ops[k]? with _ | blocks <;> simp only [act, hk] at he
    · simp at he
    split at he
    · rcases hl : logWrite s.log b with p | ⟨new, l⟩ <;> simp only [hl] at he
      · obtain rfl := Option.some.inj he
        have := h.logWrite_error hk hl
        refine ⟨{ h with }, ?_⟩
        exact iff_of_false (by simp) fun hs => by
          rw [Spare, h.card_passed] at hs
          omega
      · obtain rfl := Option.some.inj he
        refine ⟨h.write hk hl, iff_of_true hp ?_⟩
        rw [Spare, h.card_passed]
        exact (logWrite_ok hl).2.1
    · simp at he
  | leave k =>
    rcases hk : s.ops[k]? with _ | blocks <;> simp only [act, hk] at he
    · simp at he
    rcases hl : endOp s.log with p | ⟨commit, l⟩ <;> simp only [hl] at he
    · -- an operation is in, so there is no commit beside it
      rw [endOp] at hl
      split at hl
      · next hc => simp [h.committing hc] at hk
      · split at hl <;> simp at hl
    · obtain rfl := Option.some.inj he
      exact ⟨h.leave hk hl, iff_of_true hp trivial⟩
  | commit =>
    rw [act] at he
    split at he <;> cases he
    rename_i hc
    exact ⟨⟨h.size, h.outstanding, by simp, rfl, List.nodup_nil, Nat.zero_le _⟩, iff_of_true hp trivial⟩

/-! ### Whole runs -/

/-- **When `log_write` panics.** In every run of operations of at most `MAXOPBLOCKS` different blocks each, on a log made by `mkfs`, the
log never holds more blocks than there are slots behind its header; and `log_write` does not panic exactly if it is never called when as
many different blocks have been passed to it since the last commit. -/
theorem log_write_panic_iff {es : List Event} (hrun : run step boot es = some s) :
    (s.panicked = false ↔ Along step Spare boot es) ∧ s.log.lh.length ≤ s.log.size - 1 := by
  suffices h : Books s ∧ (s.panicked = false ↔ Along step Spare boot es) from ⟨h.2, h.1.room⟩
  refine run_induction (J := fun es s => Books s ∧ (s.panicked = false ↔ Along step Spare boot es)) ⟨books_boot, iff_of_true rfl trivial⟩ ?_ hrun
  intro es e t u ht ⟨hb, hiff⟩ he
  obtain ⟨hb', hiff'⟩ := hb.step he
  refine ⟨hb', hiff'.trans ?_⟩
  rw [along_snoc ht, ← hiff, and_iff_right (step_some he).1]

/-- Two operations that write to the same block find room. -/
theorem log_write_two_ops : ∃ s, run step boot [.begin, .begin, .write 0 33, .write 1 33] = some s ∧
      Along step Spare boot [.begin, .begin, .write 0 33, .write 1 33] := by
  have hr : run step boot [.begin, .begin, .write 0 33, .write 1 33] =
      some ((run step boot [.begin, .begin, .write 0 33, .write 1 33]).get (by decide)) :=
    (Option.some_get _).symm
  exact ⟨_, hr, (log_write_panic_iff hr).1.mp (by decide)⟩

/-- **Three operations of ten blocks each.** All three are let in, each keeps to its
limit, and the thirtieth block makes `log_write` panic. -/
theorem log_write_panics : ((run step boot (List.replicate 3 .begin ++
      (List.range 30).map fun b => .write (b / MAXOPBLOCKS) (100 + b))).map Sys.panicked) = some true := by
  decide +kernel

end Xv6.Logging.Reserve
