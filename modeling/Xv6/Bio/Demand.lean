import Xv6.Bio.Machine

/-!
# When the buffer cache runs dry

`bget` panics when the block is not cached and every buffer is referred to. As the reference
counts are exact, this is a matter of how many buffers are awaited, held or pinned at that
moment. There are `NBUF` of them for `NPROC` processes, each of which holds a buffer while it
waits for the disk, so readers alone can take them all.
-/

namespace Xv6.Bio

open Lib Function

open Logging (Buf BufId Pid Block)

def Sys.referred (s : Sys) : Finset BufId := Finset.univ.filter fun i => 0 < s.refs i

/-- **The condition**: the block is cached, or not all buffers are referred to. -/
def Roomy (s : Sys) (dev b : ℕ) : Prop :=
  (∃ i, (s.buf i).Caches dev b) ∨ s.referred.card < NBUF

variable {s : Sys} {order : List BufId} {dev b : ℕ}

theorem card_referred_lt : s.referred.card < NBUF ↔ ∃ i, s.refs i = 0 := by
  have hcard : Fintype.card BufId = NBUF := Fintype.card_fin NBUF
  rw [← hcard, Finset.card_lt_iff_ne_univ, Ne, Finset.eq_univ_iff_forall, not_forall]
  simp [Sys.referred]

theorem bget_ne_none (hord : s.cache.Order order) : s.cache.bget dev b ≠ none ↔ (∃ i, (s.buf i).Caches dev b) ∨ ∃ i, (s.buf i).refcnt = 0 := by
  rw [hord.bget]
  cases hfind : order.find? fun i => (s.cache.buf i).Caches dev b with
  | some i =>
    have hi : (s.buf i).Caches dev b := by simpa [Sys.buf] using List.find?_some hfind
    exact iff_of_true (by simp) (Or.inl ⟨i, hi⟩)
  | none =>
    have hno : ¬∃ i, (s.buf i).Caches dev b := by
      rintro ⟨i, hi⟩
      have := List.find?_eq_none.mp hfind i (hord.all i)
      exact this (by simpa [Sys.buf] using hi)
    simp only [hno, false_or, ne_eq, Option.map_eq_none_iff, List.find?_eq_none, not_forall]
    constructor
    · rintro ⟨i, -, hi⟩
      exact ⟨i, by simpa [Sys.buf] using hi⟩
    · rintro ⟨i, hi⟩
      exact ⟨i, List.mem_reverse.mpr (hord.all i), by simpa [Sys.buf] using hi⟩

/-- **`bget` finds a buffer** in every state that processes can bring about, if the block is
cached or fewer than `NBUF` buffers are awaited, held or pinned; and if no reference count
has wrapped, it panics otherwise. -/
theorem bget_finds_buffer (disk : ℕ → Block) (s : Sys) (h : Reach step (start disk) s) (dev b : ℕ) : (Roomy s dev b → s.cache.bget dev b ≠ none) ∧
      ((∀ i, s.refs i < UINT) → s.cache.bget dev b ≠ none → Roomy s dev b) := by
  have hinv := Inv.of_reach h
  obtain ⟨order, hord⟩ := hinv.order
  rw [bget_ne_none hord, Roomy, card_referred_lt]
  refine ⟨Or.imp_right ?_, fun hwrap => Or.imp_right ?_⟩
  · rintro ⟨i, hi⟩
    exact ⟨i, by rw [hinv.refcnt, hi]; rfl⟩
  · rintro ⟨i, hi⟩
    rw [hinv.refcnt, Nat.mod_eq_of_lt (hwrap i)] at hi
    exact ⟨i, hi⟩

/-- A process holds a buffer that is pinned, and another one waits for it. -/
def held : List Event := [.bget 0 ROOTDEV 5, .acquire 0 0, .bpin 0, .bget 1 ROOTDEV 5]

theorem bget_finds_buffer_held : ∃ s, run step (start fun _ _ => 0) held = some s ∧ s.refs 0 = 3 ∧ Roomy s ROOTDEV 7 ∧ s.cache.bget ROOTDEV 7 ≠ none := by
  let s := (run step (start fun _ _ => 0) held).get (by decide +kernel)
  have hs : run step (start fun _ _ => 0) held = some s := (Option.some_get _).symm
  have hroom : Roomy s ROOTDEV 7 := Or.inr (by decide +kernel)
  exact ⟨s, hs, by decide +kernel, hroom, (bget_finds_buffer (fun _ _ => 0) s ⟨_, hs⟩ ROOTDEV 7).1 hroom⟩

/-- Each of the first `n` processes reads a block of its own, as `readi` does, and holds it. -/
def readers (n : ℕ) : List Event :=
  (List.range n).flatMap fun p => [.bget p ROOTDEV (100 + p), .acquire p (Fin.ofNat NBUF p)]

/-- **Readers take all buffers.** `NBUF` processes hold one buffer each, nothing is pinned,
and the next `bread` panics. -/
theorem bget_no_buffers : ∃ s, run step (start fun _ _ => 0) (readers NBUF) = some s ∧ NBUF < NPROC ∧
      (∀ i : BufId, (s.buf i).holder = some i.val ∧ s.waiting i = [] ∧ s.pins i = 0) ∧ step s (.bget NBUF ROOTDEV (100 + NBUF)) = none := by
  let s := (run step (start fun _ _ => 0) (readers NBUF)).get (by decide +kernel)
  refine ⟨s, (Option.some_get _).symm, by decide, ?_, ?_⟩
  · decide +kernel
  · exact Option.isNone_iff_eq_none.mp (by decide +kernel)

end Xv6.Bio
