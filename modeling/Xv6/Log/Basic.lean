import Xv6.Param
import Mathlib.Data.List.Basic

/-!
# The in-memory log, and who may write to it

The part of `log.c` that works under `log.lock`: a system call announces itself
with `begin_op`, passes the blocks it has changed to `log_write`, and takes its
leave with `end_op`; the last one to leave commits. `log.lh.n` and the numbers in
`log.lh.block` are one list here. The pinning of buffers and the commit itself are
in `Xv6.Log.System`.
-/

namespace Xv6.Logging

structure Log where
  start : ℕ
  size : ℕ
  outstanding : ℕ
  committing : Bool
  /-- `lh`: the numbers of the logged blocks. -/
  lh : List ℕ
  deriving DecidableEq, Repr

inductive Panic
  /-- `too big a transaction`. -/
  | tooBig
  /-- `log_write outside of trans`. -/
  | outside
  /-- `log.committing`. -/
  | committing
  deriving DecidableEq, Repr

/-- `begin_op`; `none` means that the caller goes to sleep and tries again. -/
def beginOp (l : Log) : Option Log :=
  if l.committing then none
  else if l.lh.length + (l.outstanding + 1) * MAXOPBLOCKS > LOGSIZE then none
  else some { l with outstanding := l.outstanding + 1 }

/-- The loop of `log_write` over `log.lh.block`, and the assignment that follows it:
whether the block is a new one, and the list with it. -/
def absorb (b : ℕ) : List ℕ → Bool × List ℕ
  | [] => (true, [b])
  | c :: cs => if c = b then (false, b :: cs) else ((absorb b cs).1, c :: (absorb b cs).2)

/-- `log_write` of block `b`: whether the buffer has to be pinned, and the log. The
room is tested before the block is looked for. -/
def logWrite (l : Log) (b : ℕ) : Except Panic (Bool × Log) :=
  if l.lh.length ≥ LOGSIZE ∨ l.lh.length ≥ l.size - 1 then .error .tooBig
  else if l.outstanding < 1 then .error .outside
  else .ok ((absorb b l.lh).1, { l with lh := (absorb b l.lh).2 })

/-- `end_op` up to the commit: whether the caller has to commit, and the log. -/
def endOp (l : Log) : Except Panic (Bool × Log) :=
  if l.committing then .error .committing
  else if l.outstanding - 1 = 0 then
    .ok (true, { l with outstanding := l.outstanding - 1, committing := true })
  else .ok (false, { l with outstanding := l.outstanding - 1 })

theorem absorb_eq (b : ℕ) (lh : List ℕ) : absorb b lh = if b ∈ lh then (false, lh) else (true, lh ++ [b]) := by
  induction lh with
  | nil => rfl
  | cons c cs ih =>
    by_cases hc : c = b
    · simp [absorb, hc]
    · have hb : b ∈ c :: cs ↔ b ∈ cs := by simp [Ne.symm hc]
      simp only [absorb, if_neg hc, ih, hb]
      split <;> rfl

section Inversion

variable {l l' : Log} {b : ℕ} {new commit : Bool}

theorem beginOp_some (h : beginOp l = some l') : l.committing = false ∧ l.lh.length + (l.outstanding + 1) * MAXOPBLOCKS ≤ LOGSIZE ∧
      l' = { l with outstanding := l.outstanding + 1 } := by
  rw [beginOp] at h
  split at h
  · simp at h
  · next hc =>
    split at h
    · simp at h
    · next hn => exact ⟨by simpa using hc, Nat.le_of_not_lt hn, (Option.some.inj h).symm⟩

theorem logWrite_ok (h : logWrite l b = .ok (new, l')) : l.lh.length < LOGSIZE ∧ l.lh.length < l.size - 1 ∧ 1 ≤ l.outstanding ∧
      (new, l'.lh) = (if b ∈ l.lh then (false, l.lh) else (true, l.lh ++ [b])) ∧ l' = { l with lh := l'.lh } := by
  rw [logWrite] at h
  split at h
  · simp at h
  rename_i hroom
  split at h
  · simp at h
  · next hout =>
    obtain ⟨rfl, rfl⟩ : (absorb b l.lh).1 = new ∧ { l with lh := (absorb b l.lh).2 } = l' := by
      simpa using h
    exact ⟨by omega, by omega, by omega, by rw [← absorb_eq], rfl⟩

theorem endOp_ok (h : endOp l = .ok (commit, l')) : l.committing = false ∧ ((commit = true ∧ l.outstanding - 1 = 0 ∧
          l' = { l with outstanding := l.outstanding - 1, committing := true }) ∨ (commit = false ∧ l.outstanding - 1 ≠ 0 ∧
          l' = { l with outstanding := l.outstanding - 1 })) := by
  rw [endOp] at h
  split at h
  · simp at h
  rename_i hc
  refine ⟨by simpa using hc, ?_⟩
  split at h
  · next hz =>
    obtain ⟨rfl, rfl⟩ : true = commit ∧ _ = l' := by simpa using h
    exact Or.inl ⟨rfl, hz, rfl⟩
  · next hz =>
    obtain ⟨rfl, rfl⟩ : false = commit ∧ _ = l' := by simpa using h
    exact Or.inr ⟨rfl, hz, rfl⟩

end Inversion

end Xv6.Logging
