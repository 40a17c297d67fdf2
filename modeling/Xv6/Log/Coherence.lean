import Xv6.Log.Stages

/-!
# Coherence of the buffer cache

When no operation is going on and the log is empty, a valid buffer shows the block as it is on the disk; unless a copy from
user memory has failed in `writei`. `copyin` moves the data page by page into the buffer itself, and when it comes to a page
that is not mapped, `writei` releases the buffer without passing it to `log_write`. Nothing pins the buffer, so the change
is visible until the buffer is recycled, and lost then.
-/

namespace Xv6.Logging

open Lib Function

variable {base : ℕ → Block} {s : Sys}

/-! ### Coherence -/

/-- **The cache is coherent** in every run in which a copy from user memory that fails
has changed nothing, or only a block that is logged already: when no operation is going
on and the log is empty, a valid buffer shows its block as it is on the disk. -/
theorem cache_coherent {a n : ℕ} {disk : ℕ → Block} {es : List Event} {s : Sys} (hn : 0 < n)
    (hempty : header (disk a) = []) (hal : Along step Harmless (start a n disk) es)
    (hrun : run step (start a n disk) es = some s) (hout : s.log.outstanding = 0) (hlh : s.log.lh = []) (i : BufId) (hv : (s.buf i).valid = true) :
    (s.buf i).dev = ROOTDEV ∧ (s.buf i).data = s.disk (s.buf i).blockno := by
  have h : Inv disk s := hal.invariant Inv.of_step (inv_start hn hempty) hrun
  have hops : s.ops = [] := List.eq_nil_of_length_eq_zero (h.outstanding.symm.trans hout)
  have hpins : s.pins = [] := by
    rw [Sys.pins]
    split
    · rfl
    · rfl
    · rw [hlh, List.drop_nil]
    all_goals exact hlh
  have hi := h.core.bufs i
  have hdirty : s.dirty i = false := by
    by_contra hd
    exact h.core.not_dirty hops ⟨i, by simpa using hd, rfl⟩
  exact ⟨hi.rooted (Or.inl hv), hi.clean hv (hpins ▸ List.not_mem_nil) hdirty⟩

def onePage : ℕ → Option Page := fun page => if page = 0 then some fun _ => 9 else none

/-- A process writes the last six bytes of its memory to block 45. -/
def wholeWrite : List Event :=
  [.log, .log, .begin 1, .bget 1 45, .lock 1 1, .copyin 1 1 0 onePage 4090 6,
    .logWrite 1 1, .brelse 1 1, .leave 1, .log, .log, .log, .log, .log]

theorem cache_coherent_wholeWrite : ∃ s, run step (start 2 30 fun _ _ => 0) wholeWrite = some s ∧
    (s.buf 1).valid = true ∧ (s.buf 1).blockno = 45 ∧ (s.buf 1).data = s.disk 45 := by
  have hs : (run step (start 2 30 fun _ _ => 0) wholeWrite).map (fun s =>
      (s.log.outstanding, s.log.lh, (s.buf 1).valid, (s.buf 1).blockno)) = some (0, [], true, 45) := by
    decide +kernel
  obtain ⟨s, hs, heq⟩ := Option.map_eq_some_iff.mp hs
  simp only [Prod.mk.injEq] at heq
  obtain ⟨hout, hlh, hv, hb⟩ := heq
  have hal : Along step Harmless (start 2 30 fun _ _ => 0) wholeWrite := by
    refine Along.of_forall fun e he t _ => ?_
    have hcopy : (copyin onePage 4090 6).2 = true := by decide
    simp only [wholeWrite, List.mem_cons, List.not_mem_nil, or_false] at he
    rcases he with rfl | rfl | rfl | rfl | rfl | rfl | rfl | rfl | rfl | rfl | rfl | rfl | rfl | rfl
    all_goals simp [Harmless, hcopy]
  exact ⟨s, hs, hv, hb, hb ▸ (cache_coherent (by decide) (by decide +kernel) hal hs hout hlh 1 hv).2⟩

/-- A process writes 20 bytes to block 45, of which only the first six are mapped. Block
32 has its inode, which `writei` writes back in any case. -/
def tornWrite : List Event :=
  [.log, .log, .begin 1, .bget 1 45, .lock 1 1, .copyin 1 1 0 onePage 4090 20,
    .bget 1 32, .lock 1 2, .modify 1 2 id, .logWrite 1 2, .brelse 1 2, .leave 1,
    .log, .log, .log, .log, .log]

theorem cache_incoherent : ∃ s, run step (start 2 30 fun _ _ => 0) tornWrite = some s ∧
    s.log.outstanding = 0 ∧ s.log.lh = [] ∧ s.log.committing = false ∧
    (s.buf 1).valid = true ∧ (s.buf 1).blockno = 45 ∧ (s.buf 1).data ≠ s.disk 45 := by
  have hs : (run step (start 2 30 fun _ _ => 0) tornWrite).map (fun s =>
      (s.log, (s.buf 1).valid, (s.buf 1).blockno, (byteAt (s.buf 1).data 0).toNat, (byteAt (s.disk 45) 0).toNat)) =
          some (⟨2, 30, 0, false, []⟩, true, 45, 9, 0) := by
    decide +kernel
  obtain ⟨s, hs, heq⟩ := Option.map_eq_some_iff.mp hs
  simp only [Prod.mk.injEq] at heq
  obtain ⟨hlog, hv, hb, hbuf, hdisk⟩ := heq
  refine ⟨s, hs, by rw [hlog], by rw [hlog], by rw [hlog], hv, hb, fun hdata => ?_⟩
  rw [hdata, hdisk] at hbuf
  exact absurd hbuf (by decide)

end Xv6.Logging
