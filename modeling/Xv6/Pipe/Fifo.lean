import Xv6.Pipe.Basic

/-!
# A pipe is a queue

The pipe's counters wrap at `2 ^ 32`, a multiple of the size of its buffer, so that the
buffer is a `Xv6.Lib.Circular` of the bytes put, of which the bytes got are the first ones.
-/

namespace Xv6.Pipes

open Lib

variable {ι : Type*} {s t : Sys ι} {e : Event ι}

theorem pipesize_dvd : PIPESIZE ∣ UINT := by decide

theorem pipesize_lt : PIPESIZE < UINT := by decide

/-- The bytes taken are the first of the bytes stored, and the buffer holds the others. -/
structure Queue (s : Sys ι) : Prop where
  holds : Circular PIPESIZE UINT s.pipe.data s.pipe.nread s.pipe.nwrite s.put s.got.length
  first : s.got <+: s.put

namespace Queue

theorem start (page : Fin PIPESIZE → UInt8) : Queue (start ι page) :=
  ⟨Circular.nil, List.prefix_rfl⟩

variable (h : Queue s)

include h

theorem congr (hdata : t.pipe.data = s.pipe.data) (hread : t.pipe.nread = s.pipe.nread)
    (hwrite : t.pipe.nwrite = s.pipe.nwrite) (hput : t.put = s.put) (hgot : t.got = s.got) : Queue t :=
  ⟨by rw [hdata, hread, hwrite, hput, hgot]; exact h.holds, by rw [hput, hgot]; exact h.first⟩

theorem store (hfull : ¬s.pipe.Full) {ch : UInt8} (hpipe : t.pipe = s.pipe.store ch)
    (hput : t.put = s.put ++ [ch]) (hgot : t.got = s.got) : Queue t := by
  have hroom : s.put.length ≠ s.got.length + PIPESIZE :=
    fun hlen => hfull ((h.holds.full_iff pipesize_lt).mpr hlen)
  constructor
  · rw [hpipe, hput, hgot]
    exact h.holds.put pipesize_dvd hroom ch
  · rw [hput, hgot]
    exact h.first.trans (List.prefix_append _ _)

theorem take (hempty : ¬s.pipe.Empty) (hpipe : t.pipe = s.pipe.take) (hput : t.put = s.put) (hgot : t.got = s.got ++ [s.pipe.next]) : Queue t := by
  have hsome : s.got.length ≠ s.put.length :=
    fun hlen => hempty ((h.holds.empty_iff pipesize_lt).mpr hlen)
  obtain ⟨hlt, hbyte, hholds⟩ := h.holds.take pipesize_dvd hsome
  constructor
  · rw [hpipe, hput, hgot, List.length_append]
    exact hholds
  · -- the byte taken is the one right behind the bytes taken before
    have hnext : s.pipe.next = s.put[s.got.length] := hbyte
    rw [hput, hgot, hnext, List.prefix_iff_eq_take, List.length_append, List.length_singleton,
      List.take_succ_eq_append_getElem hlt, ← List.prefix_iff_eq_take.mp h.first]

variable [DecidableEq ι]

theorem of_step (hstep : step s e = some t) : Queue t := by
  cases move_of_step hstep with
  | store _ hfull => exact h.store hfull rfl rfl rfl
  | take _ hempty _ => exact h.take hempty rfl rfl rfl
  | @close writable _ => cases writable <;> exact h.congr rfl rfl rfl rfl rfl
  | _ => exact h.congr rfl rfl rfl rfl rfl

end Queue

variable [DecidableEq ι]

theorem Queue.of_reach {page : Fin PIPESIZE → UInt8} (h : Reach step (Pipes.start ι page) s) : Queue s :=
  h.invariant (fun hs => hs.of_step) (Queue.start page)

/-- **A pipe is a queue.** However many processes write to it and read from it, and however
often its counters have wrapped, there are never more bytes in it than it has room for, and
the `k`-th byte taken is the `k`-th byte stored. -/
theorem pipe_fifo (ι : Type*) [DecidableEq ι] (page : Fin PIPESIZE → UInt8) (s : Sys ι) (h : Reach step (start ι page) s) :
    (s.pipe.nwrite + UINT - s.pipe.nread) % UINT ≤ PIPESIZE ∧ s.pipe.nread = s.got.length % UINT ∧ s.pipe.nwrite = s.put.length % UINT ∧
      (∀ k (hk : k < s.got.length), s.put[k]? = some s.got[k]) ∧ (∀ k (hk : k < s.put.length), s.got.length ≤ k →
        s.pipe.data (Fin.ofNat PIPESIZE k) = s.put[k]) := by
  have hq := Queue.of_reach h
  refine ⟨?_, hq.holds.read, hq.holds.write, fun k hk => ?_, hq.holds.cell⟩
  · rw [hq.holds.count pipesize_lt]
    have := hq.holds.fits
    omega
  · obtain ⟨rest, hrest⟩ := hq.first
    rw [← hrest, List.getElem?_append_left hk, List.getElem?_eq_getElem hk]

/-- One process writes two bytes and reads one. -/
theorem pipe_fifo_twoBytes : ∃ s : Sys Unit, Reach step (start Unit fun _ => 0) s ∧ s.put = [7, 8] ∧ s.got = [7] ∧
      (s.pipe.nwrite + UINT - s.pipe.nread) % UINT ≤ PIPESIZE ∧ s.pipe.nread = s.got.length % UINT ∧ s.pipe.nwrite = s.put.length % UINT ∧
      (∀ k (hk : k < s.got.length), s.put[k]? = some s.got[k]) ∧ (∀ k (hk : k < s.put.length), s.got.length ≤ k →
        s.pipe.data (Fin.ofNat PIPESIZE k) = s.put[k]) := by
  let es : List (Event Unit) :=
    [.write () (fun k => some (7 + k.toUInt8)) 2] ++ List.replicate 5 (.turn ()) ++ [.read () (fun _ => true) 1] ++ List.replicate 5 (.turn ())
  let s := (run step (start Unit fun _ => 0) es).get (by decide)
  have hs : Reach step (start Unit fun _ => 0) s := ⟨es, (Option.some_get _).symm⟩
  exact ⟨s, hs, by decide, by decide, pipe_fifo Unit _ s hs⟩

end Xv6.Pipes
