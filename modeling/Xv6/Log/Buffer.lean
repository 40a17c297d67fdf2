import Xv6.Param
import Xv6.Lib.Bytes
import Mathlib.Data.List.FinRange

/-!
# The buffer cache

`bio.c`: `NBUF` buffers, each with the number of the block it caches, a reference count and a sleep lock, on a list in
the order of their last use. `bget` finds the buffer that caches the block or takes the least recently used one nobody
refers to, `brelse` gives it back. The list of the source is doubly linked; here it is a list of indices, from
`head.next` on. The sleep locks and the disk are part of `Xv6.Log.System`.
-/

namespace Xv6.Logging

open Lib Function

abbrev Block : Type := Bytes BSIZE

abbrev Pid : Type := ℕ

/-- An index into `bcache.buf`; it stands for a `struct buf *`. -/
abbrev BufId : Type := Fin NBUF

instance : NeZero NBUF := ⟨by decide⟩

/-! ### Buffers -/

structure Buf where
  valid : Bool
  dev : ℕ
  blockno : ℕ
  refcnt : ℕ
  holder : Option Pid
  data : Block

def Buf.Caches (q : Buf) (dev b : ℕ) : Prop := q.dev = dev ∧ q.blockno = b

instance (q : Buf) (dev b : ℕ) : Decidable (q.Caches dev b) := by
  unfold Buf.Caches
  infer_instance

structure Cache where
  buf : BufId → Buf
  /-- The list through `next`, from `head.next` on. -/
  lru : List BufId

def binit : Cache where
  buf := fun _ =>
    { valid := false, dev := 0, blockno := 0, refcnt := 0, holder := none, data := fun _ => 0 }
  lru := (List.finRange NBUF).reverse

namespace Cache

def set (c : Cache) (i : BufId) (q : Buf) : Cache := { c with buf := update c.buf i q }

variable {c c' : Cache} {i j : BufId} {q : Buf} {dev b : ℕ}

/-- `bget` up to the lock of the buffer; `none` is the panic `bget: no buffers`. -/
def bget (c : Cache) (dev b : ℕ) : Option (BufId × Cache) :=
  match c.lru.find? fun i => (c.buf i).Caches dev b with
  | some i => some (i, c.set i { c.buf i with refcnt := (c.buf i).refcnt + 1 })
  | none =>
    match c.lru.reverse.find? fun i => (c.buf i).refcnt = 0 with
    | some i => some (i, c.set i { c.buf i with
        dev := dev, blockno := b, valid := false, refcnt := 1 })
    | none => none

/-- `brelse` after the test of the lock: a buffer nobody refers to any more goes to the
front of the list. -/
def brelse (c : Cache) (i : BufId) : Cache :=
  let c' := c.set i { c.buf i with holder := none, refcnt := (c.buf i).refcnt - 1 }
  if (c.buf i).refcnt - 1 = 0 then { c' with lru := i :: c.lru.erase i } else c'

def bpin (c : Cache) (i : BufId) : Cache :=
  c.set i { c.buf i with refcnt := (c.buf i).refcnt + 1 }

def bunpin (c : Cache) (i : BufId) : Cache :=
  c.set i { c.buf i with refcnt := (c.buf i).refcnt - 1 }

/-- **What `bget` finds**: the buffer of the block, or, if no buffer of the list has it,
one nobody refers to. -/
theorem bget_cases (h : c.bget dev b = some (i, c')) : ((c.buf i).Caches dev b ∧ c' = c.set i { c.buf i with refcnt := (c.buf i).refcnt + 1 }) ∨
      ((∀ j ∈ c.lru, ¬(c.buf j).Caches dev b) ∧ (c.buf i).refcnt = 0 ∧
        c' = c.set i { c.buf i with dev := dev, blockno := b, valid := false, refcnt := 1 }) := by
  rw [bget] at h
  split at h
  · next k hk =>
    obtain ⟨rfl, rfl⟩ : k = i ∧ _ = c' := by simpa using h
    exact Or.inl ⟨by simpa using List.find?_some hk, rfl⟩
  rename_i hno
  split at h
  · next k hk =>
    obtain ⟨rfl, rfl⟩ : k = i ∧ _ = c' := by simpa using h
    exact Or.inr ⟨by simpa using hno, by simpa using List.find?_some hk, rfl⟩
  · simp at h

theorem bget_isSome (hi : i ∈ c.lru) (h : (c.buf i).refcnt = 0) : (c.bget dev b).isSome := by
  rw [bget]
  split
  · rfl
  · split
    · rfl
    · next hno =>
      have := List.find?_eq_none.mp hno i (List.mem_reverse.mpr hi)
      simp [h] at this

theorem brelse_buf : (c.brelse i).buf = (c.set i { c.buf i with holder := none, refcnt := (c.buf i).refcnt - 1 }).buf := by
  simp only [brelse]
  split <;> rfl

theorem bpin_blockno (j : BufId) : ((c.bpin i).buf j).blockno = (c.buf j).blockno := by
  by_cases hji : j = i
  all_goals simp [bpin, set, hji]

theorem mem_lru_brelse (h : j ∈ c.lru) : j ∈ (c.brelse i).lru := by
  simp only [brelse]
  split
  · by_cases hji : j = i
    · exact hji ▸ List.mem_cons_self
    · exact List.mem_cons_of_mem _ ((List.mem_erase_of_ne hji).mpr h)
  · exact h

end Cache

theorem mem_lru_binit (i : BufId) : i ∈ binit.lru := List.mem_reverse.mpr (List.mem_finRange i)

end Xv6.Logging
