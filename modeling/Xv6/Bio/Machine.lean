import Xv6.Bio.Cache
import Xv6.Lib.Run

/-!
# Processes at the buffer cache

Any number of processes that read, write, release, pin and unpin buffers. What is done under `bcache.lock` is one step. A
process gets a buffer in three: `bget` up to `acquiresleep`, the sleep lock, and the read of the disk if the buffer is not
valid; it gives one back in two, `releasesleep` and the rest of `brelse`.

The reference count of a buffer is the number of processes that wait for its lock, hold it or have not yet taken their
reference back, plus the pins, as a `uint`.
-/

namespace Xv6.Bio

open Lib Function

open Logging (Buf BufId Pid Block)

/-! ### The machine -/

structure Sys where
  disk : ℕ → Block
  cache : Cache
  waiting : BufId → List Pid
  /-- The processes in `brelse` that have released the lock of a buffer. -/
  leaving : BufId → List Pid
  /-- How often a buffer was pinned and not unpinned. -/
  pins : BufId → ℕ

def start (disk : ℕ → Block) : Sys where
  disk := disk
  cache := binit
  waiting _ := []
  leaving _ := []
  pins _ := 0

def Sys.buf (s : Sys) (i : BufId) : Buf := s.cache.buf i

inductive Event
  | bget (p : Pid) (dev b : ℕ)
  /-- `p` gets the lock it waits for. -/
  | acquire (p : Pid) (i : BufId)
  | fill (p : Pid) (i : BufId)
  /-- The holder of a buffer changes its contents and calls `bwrite`. -/
  | bwrite (p : Pid) (i : BufId) (v : Block)
  /-- `brelse`, up to the end of `releasesleep`. -/
  | release (p : Pid) (i : BufId)
  | drop (p : Pid) (i : BufId)
  | bpin (i : BufId)
  | bunpin (i : BufId)

/-- **One step.** A `brelse` of a buffer that its caller does not hold, which panics, and a
`bunpin` of one that is not pinned are not among the steps. -/
def step (s : Sys) : Event → Option Sys
  | .bget p dev b =>
    (s.cache.bget dev b).map fun r =>
      { s with cache := r.2, waiting := update s.waiting r.1 (s.waiting r.1 ++ [p]) }
  | .acquire p i =>
    if p ∈ s.waiting i ∧ (s.buf i).holder = none then
      some { s with
        cache := s.cache.set i { s.buf i with holder := some p }
        waiting := update s.waiting i ((s.waiting i).erase p) }
    else none
  | .fill p i =>
    if (s.buf i).holder = some p ∧ (s.buf i).valid = false then
      some { s with
        cache := s.cache.set i { s.buf i with valid := true, data := s.disk (s.buf i).blockno } }
    else none
  | .bwrite p i v =>
    if (s.buf i).holder = some p then
      some { s with
        cache := s.cache.set i { s.buf i with data := v }
        disk := update s.disk (s.buf i).blockno v }
    else none
  | .release p i =>
    if (s.buf i).holder = some p then
      some { s with
        cache := s.cache.set i { s.buf i with holder := none }
        leaving := update s.leaving i (s.leaving i ++ [p]) }
    else none
  | .drop p i =>
    if p ∈ s.leaving i then
      some { s with
        cache := s.cache.drop i
        leaving := update s.leaving i ((s.leaving i).erase p) }
    else none
  | .bpin i => some { s with cache := s.cache.bpin i, pins := update s.pins i (s.pins i + 1) }
  | .bunpin i =>
    if 0 < s.pins i then
      some { s with cache := s.cache.bunpin i, pins := update s.pins i (s.pins i - 1) }
    else none

/-! ### What a step does to a buffer -/

namespace Sys

def holders (s : Sys) (i : BufId) : ℕ :=
  (s.buf i).holder.toList.length + (s.leaving i).length

def refs (s : Sys) (i : BufId) : ℕ := s.holders i + (s.waiting i).length + s.pins i

end Sys

variable {s t : Sys} {e : Event} {i j : BufId} {p : Pid} {order : List BufId}

inductive Change (s : Sys) (q q' : Buf) (n n' : ℕ) : Prop
  | ref : q'.Caches q.dev q.blockno → q'.refcnt = (q.refcnt + 1) % UINT → n' = n + 1 →
      Change s q q' n n'
  | unref : q'.Caches q.dev q.blockno → q'.refcnt = (q.refcnt + (UINT - 1)) % UINT →
      n = n' + 1 → Change s q q' n n'
  /-- Nobody referred to the buffer, and it was taken for a block that no buffer cached. -/
  | recycle : q.refcnt = 0 → (∀ j, ¬(s.buf j).Caches q'.dev q'.blockno) → q'.refcnt = 1 →
      n' = n + 1 → Change s q q' n n'
  | same : q'.Caches q.dev q.blockno → q'.refcnt = q.refcnt → n' = n → Change s q q' n n'

/-- **What a step does**: all buffers but one are left alone, and the ring remains one. -/
structure Moved (s : Sys) (i : BufId) (t : Sys) : Prop where
  change : Change s (s.buf i) (t.buf i) (s.refs i) (t.refs i)
  buf : ∀ j, j ≠ i → t.buf j = s.buf j
  refs : ∀ j, j ≠ i → t.refs j = s.refs j
  order : ∃ order, t.cache.Order order

def count (q : Buf) (waiting leaving : List Pid) (pins : ℕ) : ℕ :=
  q.holder.toList.length + leaving.length + waiting.length + pins

theorem moved_of {q : Buf} (hord : ∃ order, t.cache.Order order) (hbuf : t.cache.buf = update s.cache.buf i q)
    (hwaiting : ∀ j, j ≠ i → t.waiting j = s.waiting j) (hleaving : ∀ j, j ≠ i → t.leaving j = s.leaving j) (hpins : ∀ j, j ≠ i → t.pins j = s.pins j)
    (hchange : Change s (s.buf i) q (s.refs i) (count q (t.waiting i) (t.leaving i) (t.pins i))) : Moved s i t := by
  have hself : t.buf i = q := by rw [Sys.buf, hbuf, update_self]
  have hother : ∀ j, j ≠ i → t.buf j = s.buf j := fun j hj => by
    rw [Sys.buf, hbuf, update_of_ne hj]
    rfl
  refine ⟨?_, hother, fun j hj => ?_, hord⟩
  · have hrefs : t.refs i = count q (t.waiting i) (t.leaving i) (t.pins i) := by
      rw [Sys.refs, Sys.holders, hself, count]
    rw [hself, hrefs]
    exact hchange
  · simp only [Sys.refs, Sys.holders, hother j hj, hwaiting j hj, hleaving j hj, hpins j hj]

theorem moved_bget {dev b : ℕ} (hord : s.cache.Order order) (h : step s (.bget p dev b) = some t) : ∃ i, Moved s i t := by
  obtain ⟨⟨i, c⟩, hget, rfl⟩ := Option.map_eq_some_iff.mp h
  refine ⟨i, ?_⟩
  have hlen : (s.waiting i ++ [p]).length = (s.waiting i).length + 1 := by simp
  rw [hord.bget] at hget
  split at hget
  · obtain ⟨rfl, rfl⟩ := Prod.mk.inj (Option.some.inj hget)
    refine moved_of ⟨order, hord.set⟩ rfl (fun j hj => update_of_ne hj ..) (fun _ _ => rfl) (fun _ _ => rfl) (.ref ⟨rfl, rfl⟩ rfl ?_)
    simp only [count, Sys.refs, Sys.holders, Sys.buf, update_self, hlen]
    omega
  rename_i hnone
  obtain ⟨k, hk, heq⟩ := Option.map_eq_some_iff.mp hget
  obtain ⟨rfl, rfl⟩ := Prod.mk.inj heq
  refine moved_of ⟨order, hord.set⟩ rfl (fun j hj => update_of_ne hj ..) (fun _ _ => rfl)
    (fun _ _ => rfl) (.recycle (by simpa [Sys.buf] using List.find?_some hk) (fun j => ?_) rfl ?_)
  · simpa [Sys.buf] using List.find?_eq_none.mp hnone j (hord.all j)
  · simp only [count, Sys.refs, Sys.holders, Sys.buf, update_self, hlen]
    omega

theorem moved_of_step (hord : s.cache.Order order) (h : step s e = some t) : ∃ i, Moved s i t := by
  cases e with
  | bget p dev b => exact moved_bget hord h
  | acquire p i =>
    obtain ⟨hp, ⟨⟩⟩ := Option.ite_none_right_eq_some.mp h
    refine ⟨i, moved_of ⟨order, hord.set⟩ rfl (fun j hj => update_of_ne hj ..) (fun _ _ => rfl) (fun _ _ => rfl) (.same ⟨rfl, rfl⟩ rfl ?_)⟩
    -- one waits less and one holds more
    have hpos := List.length_pos_of_mem hp.1
    simp only [count, Sys.refs, Sys.holders, update_self, hp.2, List.length_erase_of_mem hp.1]
    simp
    omega
  | fill p i | bwrite p i v =>
    obtain ⟨hp, ⟨⟩⟩ := Option.ite_none_right_eq_some.mp h
    exact ⟨i, moved_of ⟨order, hord.set⟩ rfl (fun _ _ => rfl) (fun _ _ => rfl) (fun _ _ => rfl) (.same ⟨rfl, rfl⟩ rfl rfl)⟩
  | release p i =>
    obtain ⟨hp, ⟨⟩⟩ := Option.ite_none_right_eq_some.mp h
    refine ⟨i, moved_of ⟨order, hord.set⟩ rfl (fun _ _ => rfl) (fun j hj => update_of_ne hj ..) (fun _ _ => rfl) (.same ⟨rfl, rfl⟩ rfl ?_)⟩
    simp only [count, Sys.refs, Sys.holders, update_self, hp, List.length_append]
    simp
    omega
  | drop p i =>
    obtain ⟨hp, ⟨⟩⟩ := Option.ite_none_right_eq_some.mp h
    refine ⟨i, moved_of ⟨_, hord.drop⟩ Cache.drop_buf (fun _ _ => rfl) (fun j hj => update_of_ne hj ..) (fun _ _ => rfl) (.unref ⟨rfl, rfl⟩ rfl ?_)⟩
    have hpos := List.length_pos_of_mem hp
    simp only [count, Sys.refs, Sys.holders, Sys.buf, update_self, List.length_erase_of_mem hp]
    omega
  | bpin i =>
    obtain rfl := Option.some.inj h
    refine ⟨i, moved_of ⟨order, hord.set⟩ rfl (fun _ _ => rfl) (fun _ _ => rfl) (fun j hj => update_of_ne hj ..) (.ref ⟨rfl, rfl⟩ rfl ?_)⟩
    simp only [count, Sys.refs, Sys.holders, Sys.buf, update_self]
    omega
  | bunpin i =>
    obtain ⟨hpos, ⟨⟩⟩ := Option.ite_none_right_eq_some.mp h
    refine ⟨i, moved_of ⟨order, hord.set⟩ rfl (fun _ _ => rfl) (fun _ _ => rfl) (fun j hj => update_of_ne hj ..) (.unref ⟨rfl, rfl⟩ rfl ?_)⟩
    simp only [count, Sys.refs, Sys.holders, Sys.buf, update_self]
    omega

/-! ### The invariant -/

structure Inv (s : Sys) : Prop where
  order : ∃ order, s.cache.Order order
  /-- No two buffers cache the same block of a device. -/
  unique : ∀ i j, (s.buf i).dev ≠ 0 → (s.buf j).Caches (s.buf i).dev (s.buf i).blockno → i = j
  refcnt : ∀ i, (s.buf i).refcnt = s.refs i % UINT

theorem Inv.start (disk : ℕ → Block) : Inv (start disk) where
  order := ⟨_, Cache.order_binit⟩
  unique _ _ hi := absurd rfl hi
  refcnt _ := rfl

namespace Change

variable {q q' : Buf} {n n' : ℕ} (h : Change s q q' n n')

include h

theorem refcnt (hq : q.refcnt = n % UINT) : q'.refcnt = n' % UINT := by
  have hU : 0 < UINT := by decide
  cases h with
  | ref _ hcount hn => rw [hcount, hn, hq, Nat.mod_add_mod]
  | unref _ hcount hn =>
    rw [hcount, hq, Nat.mod_add_mod, hn, show n' + 1 + (UINT - 1) = n' + UINT by omega,
      Nat.add_mod_right]
  | recycle hzero _ hcount hn =>
    rw [hcount, hn, Nat.add_mod, ← hq, hzero]
    rfl
  | same _ hcount hn => rw [hcount, hn, hq]

theorem caches_of_pos (hpos : 0 < q.refcnt) : q'.Caches q.dev q.blockno := by
  cases h with
  | ref hq _ _ | unref hq _ _ | same hq _ _ => exact hq
  | recycle hzero _ _ _ => omega

theorem caches_or : q'.Caches q.dev q.blockno ∨ ∀ j, ¬(s.buf j).Caches q'.dev q'.blockno := by
  cases h with
  | ref hq _ _ | unref hq _ _ | same hq _ _ => exact Or.inl hq
  | recycle _ hnew _ _ => exact Or.inr hnew

end Change

theorem Inv.of_step (h : Inv s) (hstep : step s e = some t) : Inv t := by
  obtain ⟨order, hord⟩ := h.order
  obtain ⟨i, hmoved⟩ := moved_of_step hord hstep
  refine ⟨hmoved.order, ?_, fun j => ?_⟩
  · -- two buffers with one key were two before, or one of them is the one that changed
    have hkey : ∀ j, j ≠ i → (t.buf i).dev ≠ 0 → ¬(t.buf j).Caches (t.buf i).dev (t.buf i).blockno := by
      intro j hj hdev hboth
      rw [hmoved.buf j hj] at hboth
      rcases hmoved.change.caches_or with hold | hnew
      · rw [hold.1, hold.2] at hboth
        exact hj (h.unique i j (hold.1 ▸ hdev) hboth).symm
      · exact hnew j hboth
    intro j k hdev hboth
    by_cases hji : j = i
    · by_contra hne
      exact hkey k (fun hk => hne (hji.trans hk.symm)) (hji ▸ hdev) (hji ▸ hboth)
    by_cases hki : k = i
    · subst hki
      exact absurd ⟨hboth.1.symm, hboth.2.symm⟩ (hkey j hji (hboth.1 ▸ hdev))
    · rw [hmoved.buf j hji] at hdev hboth
      rw [hmoved.buf k hki] at hboth
      exact h.unique j k hdev hboth
  · by_cases hji : j = i
    · subst hji
      exact hmoved.change.refcnt (h.refcnt j)
    · rw [hmoved.buf j hji, hmoved.refs j hji]
      exact h.refcnt j

theorem Inv.of_reach {disk : ℕ → Block} (h : Reach step (Bio.start disk) s) : Inv s :=
  h.invariant (fun hs => hs.of_step) (Inv.start disk)

/-! ### The representation -/

/-- **The representation of the buffer cache**, in every state that processes can bring about: no two buffers cache one block, the
pointers form a ring that visits every buffer once, and the reference counts are exact; a buffer that is referred to is not given to
another block, and a block that is not cached gets the last buffer of the ring that nobody refers to. -/
theorem bcache_representation (disk : ℕ → Block) (s : Sys) (h : Reach step (start disk) s) :
    (∀ i j, (s.buf i).dev ≠ 0 → (s.buf j).dev = (s.buf i).dev → (s.buf j).blockno = (s.buf i).blockno → i = j) ∧
    (∃ order : List BufId, order.Nodup ∧ (∀ i, i ∈ order) ∧ (∀ k (hk : k < order.length), s.cache.links.next^[k + 1] none = some order[k]) ∧
      s.cache.links.next^[NBUF + 1] none = none ∧ (∀ n, s.cache.links.prev (s.cache.links.next n) = n) ∧
      (∀ n, s.cache.links.next (s.cache.links.prev n) = n) ∧ ∀ dev b, (∀ j, ¬(s.buf j).Caches dev b) → s.cache.bget dev b =
          (order.reverse.find? fun i => (s.buf i).refcnt = 0).map fun i => (i, s.cache.recycle i dev b)) ∧
    (∀ i, (s.buf i).refcnt = (s.holders i + (s.waiting i).length + s.pins i) % UINT) ∧ (∀ e t, step s e = some t → ∀ i, 0 < (s.buf i).refcnt →
      (t.buf i).dev = (s.buf i).dev ∧ (t.buf i).blockno = (s.buf i).blockno) := by
  have hinv := Inv.of_reach h
  obtain ⟨order, hord⟩ := hinv.order
  have hmem : ∀ (n : Option BufId) x, n = some x → x ∈ order := fun _ x _ => hord.all x
  refine ⟨fun i j hdev h₁ h₂ => hinv.unique i j hdev ⟨h₁, h₂⟩, ⟨order, hord.ring.nodup, hord.all, fun k hk => hord.ring.next.iterate hk, ?_,
      fun n => hord.ring.prev_next (hmem n), fun n => hord.ring.next_prev (hmem n),
      fun dev b hno => ?_⟩, hinv.refcnt, fun e t hstep i hpos => ?_⟩
  · have := hord.ring.next.iterate_length
    rwa [hord.length] at this
  · have hnone : (order.find? fun i => (s.cache.buf i).Caches dev b) = none :=
      List.find?_eq_none.mpr fun j _ => by simpa [Sys.buf] using hno j
    rw [hord.bget, hnone]
    rfl
  · obtain ⟨k, hmoved⟩ := moved_of_step hord hstep
    by_cases hik : i = k
    · subst hik
      exact hmoved.change.caches_of_pos hpos
    · rw [hmoved.buf i hik]
      exact ⟨rfl, rfl⟩

def readAndPin : List Event :=
  [.bget 1 ROOTDEV 7, .acquire 1 0, .fill 1 0, .bpin 0, .release 1 0, .drop 1 0]

theorem bcache_representation_pinned : ∃ s, Reach step (start fun _ _ => 0) s ∧ (s.buf 0).Caches ROOTDEV 7 ∧ s.refs 0 = 1 ∧
      (s.buf 0).refcnt = (s.holders 0 + (s.waiting 0).length + s.pins 0) % UINT := by
  let s := (run step (start fun _ _ => 0) readAndPin).get (by decide +kernel)
  have hs : Reach step (start fun _ _ => 0) s := ⟨readAndPin, (Option.some_get _).symm⟩
  refine ⟨s, hs, by decide +kernel, by decide +kernel, ?_⟩
  exact (bcache_representation _ s hs).2.2.1 0

end Xv6.Bio
