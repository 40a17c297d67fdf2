import Xv6.Log.System

/-!
# What the cache knows

The invariant of the buffer cache, as far as it does not depend on what a commit is doing. It is stated for a list
`pins` of the blocks that are pinned, which are the logged blocks but for those that a commit has installed, and for a
function `c` that gives the present contents of the blocks, as the operations have left them.

A buffer whose block is not pinned, and which is not being changed, agrees with the disk. A buffer whose block is pinned
holds its present contents, wherever the disk is (`Xv6.Logging.BufOk`).
-/

namespace Xv6.Logging

open Lib Function

/-! ### The invariant -/

structure BufOk (pins : List ℕ) (c disk : ℕ → Block) (ops : List Pid) (q : Buf) (waiting : List Pid) (dirty : Bool) : Prop where
  /-- The reference count: the holder, the processes that wait, the pin. -/
  refs : q.refcnt = (if q.holder = none then 0 else 1) + waiting.length +
    (if q.dev = ROOTDEV ∧ q.blockno ∈ pins then 1 else 0)
  held : q.holder ≠ none → q.valid = true
  rooted : q.valid = true ∨ waiting ≠ [] → q.dev = ROOTDEV
  clean : q.valid = true → q.blockno ∉ pins → dirty = false → q.data = disk q.blockno
  hot : q.valid = true → q.blockno ∈ pins → q.data = c q.blockno
  dirty : dirty = true → q.valid = true ∧ q.data = c q.blockno ∧ ∃ p ∈ ops, q.holder = some p

/-- **The cache is in order.** -/
structure Core (pins : List ℕ) (c : ℕ → Block) (s : Sys) : Prop where
  lru : ∀ i, i ∈ s.cache.lru
  uniq : ∀ i j b, (s.buf i).Caches ROOTDEV b → (s.buf j).Caches ROOTDEV b → i = j
  bufs : ∀ i, BufOk pins c s.disk s.ops (s.buf i) (s.queue i) (s.dirty i)
  pinned : ∀ b ∈ pins, ∃ i, (s.buf i).Caches ROOTDEV b ∧ (s.buf i).valid = true

variable {pins : List ℕ} {c disk : ℕ → Block} {ops : List Pid} {s s' : Sys} {p : Pid}
  {i j : BufId} {b : ℕ} {q q' : Buf} {w : List Pid} {δ : Bool} {v : Block} {f : Block → Block}

def Sys.put (s : Sys) (i : BufId) (q : Buf) (w : List Pid) : Sys :=
  { s with cache := s.cache.set i q, queue := update s.queue i w }

theorem Sys.put_buf : (s.put i q w).buf j = if j = i then q else s.buf j := update_apply ..

theorem Sys.put_queue : (s.put i q w).queue j = if j = i then w else s.queue j := update_apply ..

theorem core_start {a n : ℕ} : Core [] c (start a n disk) where
  lru := mem_lru_binit
  uniq i j b hi := by
    have : (0 : ℕ) = ROOTDEV := hi.1
    simp [ROOTDEV] at this
  bufs i :=
    { refs := by simp [start, Sys.buf, binit]
      held := fun h => absurd rfl h
      rooted := fun h => by simp [start, Sys.buf, binit] at h
      clean := fun h => by simp [start, Sys.buf, binit] at h
      hot := fun h => by simp [start, Sys.buf, binit] at h
      dirty := fun h => by simp [start] at h }
  pinned b hb := by simp at hb

theorem BufOk.of_refcnt (h : BufOk pins c disk ops q w δ) (h0 : q.refcnt = 0) :
    q.holder = none ∧ w = [] ∧ ¬(q.dev = ROOTDEV ∧ q.blockno ∈ pins) ∧ δ = false := by
  have hr := h.refs
  rw [h0] at hr
  have hholder : q.holder = none := by
    by_contra hne
    rw [if_neg hne] at hr
    omega
  refine ⟨hholder, List.eq_nil_of_length_eq_zero (by omega), fun hp => ?_, ?_⟩
  · rw [if_pos hp] at hr
    omega
  · by_contra hd
    obtain ⟨-, -, p, -, hp⟩ := h.dirty (by simpa using hd)
    simp [hholder] at hp

theorem BufOk.clean_of_holder (h : BufOk pins c disk ops q w δ) (hq : q.holder = none) : δ = false := by
  by_contra hd
  obtain ⟨-, -, p, -, hp⟩ := h.dirty (by simpa using hd)
  simp [hq] at hp

theorem Core.of_same {pins' : List ℕ} {c' : ℕ → Block} (h : Core pins c s) (hlru : ∀ i, i ∈ s'.cache.lru)
    (hsame : ∀ j, (s'.buf j).dev = (s.buf j).dev ∧ (s'.buf j).blockno = (s.buf j).blockno ∧ ((s.buf j).valid = true → (s'.buf j).valid = true))
    (hbufs : ∀ j, BufOk pins' c' s'.disk s'.ops (s'.buf j) (s'.queue j) (s'.dirty j)) (hpins : ∀ b ∈ pins', b ∈ pins) : Core pins' c' s' where
  lru := hlru
  uniq j k b hj hk := h.uniq j k b ⟨(hsame j).1.symm.trans hj.1, (hsame j).2.1.symm.trans hj.2⟩
    ⟨(hsame k).1.symm.trans hk.1, (hsame k).2.1.symm.trans hk.2⟩
  bufs := hbufs
  pinned b hb := by
    obtain ⟨j, hj, hv⟩ := h.pinned b (hpins b hb)
    exact ⟨j, ⟨(hsame j).1.trans hj.1, (hsame j).2.1.trans hj.2⟩, (hsame j).2.2 hv⟩

theorem Core.congr (h : Core pins c s) (hdisk : s'.disk = s.disk) (hcache : s'.cache = s.cache)
    (hqueue : s'.queue = s.queue) (hops : s'.ops = s.ops) (hdirty : s'.dirty = s.dirty) : Core pins c s' := by
  have hbuf : ∀ j, s'.buf j = s.buf j := fun j => by rw [Sys.buf, Sys.buf, hcache]
  refine h.of_same (fun j => hcache ▸ h.lru j) (fun j => hbuf j ▸ ⟨rfl, rfl, id⟩) (fun j => ?_) fun _ => id
  rw [hdisk, hops, hbuf, hqueue, hdirty]
  exact h.bufs j

theorem Core.setLh (h : Core pins c s) (lh : List ℕ) : Core pins c (s.setLh lh) :=
  h.congr rfl rfl rfl rfl rfl

theorem Sys.setLh_buf (lh : List ℕ) : (s.setLh lh).buf i = s.buf i := rfl

theorem Core.put (h : Core pins c s) (hdev : q.dev = (s.buf i).dev)
    (hno : q.blockno = (s.buf i).blockno) (hv : (s.buf i).valid = true → q.valid = true)
    (hok : BufOk pins c s.disk s.ops q w (s.dirty i)) : Core pins c (s.put i q w) := by
  refine h.of_same h.lru (fun j => ?_) (fun j => ?_) fun _ => id
  · rw [Sys.put_buf]
    split
    · next hji => exact hji ▸ ⟨hdev, hno, hv⟩
    · exact ⟨rfl, rfl, id⟩
  · rw [Sys.put_buf, Sys.put_queue]
    split
    · next hji => exact hji ▸ hok
    · exact h.bufs j

/-! ### Taking a buffer -/

/-- What `bget` and `lock` leave as it is. -/
structure Frame (s s' : Sys) : Prop where
  log : s'.log = s.log
  stage : s'.stage = s.stage
  worker : s'.worker = s.worker
  ops : s'.ops = s.ops
  dirty : s'.dirty = s.dirty
  cur : s'.cur = s.cur
  txns : s'.txns = s.txns
  durable : s'.durable = s.durable

theorem Frame.trans {s s' s'' : Sys} (h : Frame s s') (h' : Frame s' s'') : Frame s s'' :=
  ⟨h'.log.trans h.log, h'.stage.trans h.stage, h'.worker.trans h.worker, h'.ops.trans h.ops,
    h'.dirty.trans h.dirty, h'.cur.trans h.cur, h'.txns.trans h.txns, h'.durable.trans h.durable⟩

theorem Frame.setLh {s s' : Sys} (h : Frame s s') (lh : List ℕ) : Frame (s.setLh lh) (s'.setLh lh) :=
  { h with log := by rw [Sys.setLh, Sys.setLh, h.log] }

theorem bget_some (h : bget s p b = some (i, s')) : ∃ q, s' = s.put i q (s.queue i ++ [p]) ∧ q.holder = (s.buf i).holder ∧
      (((s.buf i).Caches ROOTDEV b ∧ q = { s.buf i with refcnt := (s.buf i).refcnt + 1 }) ∨
        ((∀ j ∈ s.cache.lru, ¬(s.buf j).Caches ROOTDEV b) ∧ (s.buf i).refcnt = 0 ∧
          q = { s.buf i with dev := ROOTDEV, blockno := b, valid := false, refcnt := 1 })) := by
  obtain ⟨⟨k, c'⟩, hget, heq⟩ := Option.map_eq_some_iff.mp h
  obtain ⟨rfl, rfl⟩ := Prod.mk.inj heq
  rcases Cache.bget_cases hget with ⟨hc, rfl⟩ | ⟨hno, h0, rfl⟩
  · exact ⟨_, rfl, rfl, Or.inl ⟨hc, rfl⟩⟩
  · exact ⟨_, rfl, rfl, Or.inr ⟨hno, h0, rfl⟩⟩

theorem Core.bget (h : Core pins c s) (hget : bget s p b = some (i, s')) :
    Core pins c s' ∧ Frame s s' ∧ s'.disk = s.disk ∧ (s'.buf i).Caches ROOTDEV b := by
  obtain ⟨q, rfl, -, ⟨hc, rfl⟩ | ⟨hno, h0, rfl⟩⟩ := bget_some hget
  · have hi := h.bufs i
    refine ⟨h.put rfl rfl id ⟨?_, hi.held, fun _ => hc.1, hi.clean, hi.hot, hi.dirty⟩, ⟨rfl, rfl, rfl, rfl, rfl, rfl, rfl, rfl⟩, rfl, ?_⟩
    · simp only [hi.refs, List.length_append, List.length_singleton]
      omega
    · rw [Sys.put_buf, if_pos rfl]
      exact hc
  -- the buffer is recycled: nobody refers to it, and no buffer has the block
  have hi := h.bufs i
  obtain ⟨hholder, hw, hpin, hd⟩ := hi.of_refcnt h0
  have hb : b ∉ pins := fun hb => by
    obtain ⟨j, hj, -⟩ := h.pinned b hb
    exact hno j (h.lru j) hj
  refine ⟨⟨h.lru, fun j k b' hj hk => ?_, fun j => ?_, fun b' hb' => ?_⟩, ⟨rfl, rfl, rfl, rfl, rfl, rfl, rfl, rfl⟩, rfl, ?_⟩
  · rw [Sys.put_buf] at hj hk
    split at hj <;> split at hk
    · next hji hki => rw [hji, hki]
    · next hji hki =>
      obtain rfl : b = b' := hj.2
      exact absurd hk (hno k (h.lru k))
    · next hji hki =>
      obtain rfl : b = b' := hk.2
      exact absurd hj (hno j (h.lru j))
    · exact h.uniq j k b' hj hk
  · rw [Sys.put_buf, Sys.put_queue]
    split
    · next hji =>
      subst hji
      refine ⟨?_, fun hne => absurd hholder hne, fun _ => rfl, fun hv => ?_, fun hv => ?_, fun hd' => ?_⟩
      · simp [hholder, hw, hb]
      · simp at hv
      · simp at hv
      · exact absurd (hd.symm.trans hd') (by simp)
    · exact h.bufs j
  · obtain ⟨j, hj, hvj⟩ := h.pinned b' hb'
    have hji : j ≠ i := by
      rintro rfl
      exact hpin ⟨hj.1, hj.2 ▸ hb'⟩
    refine ⟨j, ?_⟩
    rw [Sys.put_buf, if_neg hji]
    exact ⟨hj, hvj⟩
  · rw [Sys.put_buf, if_pos rfl]
    exact ⟨rfl, rfl⟩

theorem lock_some (h : lock s p i = some s') : p ∈ s.queue i ∧ (s.buf i).holder = none ∧ s' = s.put i { s.buf i with
        holder := some p
        valid := true
        data := if (s.buf i).valid then (s.buf i).data else s.disk (s.buf i).blockno } ((s.queue i).erase p) := by
  rw [lock] at h
  split at h
  · next hc => exact ⟨hc.1, hc.2, (Option.some.inj h).symm⟩
  · simp at h

theorem Core.lock (h : Core pins c s) (hl : lock s p i = some s') : Core pins c s' ∧ Frame s s' ∧ s'.disk = s.disk := by
  obtain ⟨hp, hholder, rfl⟩ := lock_some hl
  have hi := h.bufs i
  have hroot : (s.buf i).dev = ROOTDEV := hi.rooted (Or.inr (List.ne_nil_of_mem hp))
  have hlen := List.length_erase_of_mem hp
  have hpos := List.length_pos_of_mem hp
  refine ⟨h.put rfl rfl (fun _ => rfl) ⟨?_, fun _ => rfl, fun _ => hroot, fun _ hb hd => ?_,
    fun _ hb => ?_, fun hd => ?_⟩, ⟨rfl, rfl, rfl, rfl, rfl, rfl, rfl, rfl⟩, rfl⟩
  · simp only [hi.refs, hholder, hlen]
    simp only [if_true, reduceCtorEq, if_false]
    omega
  · dsimp only
    split
    · next hv => exact hi.clean hv hb hd
    · rfl
  · -- a pinned block is not read again
    obtain ⟨j, hj, hvj⟩ := h.pinned _ hb
    obtain rfl : j = i := h.uniq j i _ hj ⟨hroot, rfl⟩
    rw [if_pos hvj]
    exact hi.hot hvj hb
  · exact absurd (hi.clean_of_holder hholder ▸ hd) (by simp)

theorem bread_some (h : bread s p b = some (i, s')) : ∃ s₁, Logging.bget s p b = some (i, s₁) ∧ Logging.lock s₁ p i = some s' := by
  obtain ⟨⟨k, s₁⟩, hget, hlock⟩ := Option.bind_eq_some_iff.mp h
  obtain ⟨s₂, hs₂, heq⟩ := Option.map_eq_some_iff.mp hlock
  obtain ⟨rfl, rfl⟩ := Prod.mk.inj heq
  exact ⟨s₁, hget, hs₂⟩

theorem bread_buf (h : bread s p b = some (i, s')) : (s.buf i).holder = none ∧ (∀ j, j ≠ i → s'.buf j = s.buf j) ∧ (s'.buf i).holder = some p ∧
      (s'.buf i).valid = true := by
  obtain ⟨s₁, hget, hlock⟩ := bread_some h
  obtain ⟨q, rfl, hq, -⟩ := bget_some hget
  obtain ⟨-, hholder, rfl⟩ := lock_some hlock
  rw [Sys.put_buf, if_pos rfl, hq] at hholder
  refine ⟨hholder, fun j hj => ?_, ?_, ?_⟩
  · rw [Sys.put_buf, if_neg hj, Sys.put_buf, if_neg hj]
  all_goals rw [Sys.put_buf, if_pos rfl]

theorem Core.bread (h : Core pins c s) (hr : bread s p b = some (i, s')) :
    Core pins c s' ∧ Frame s s' ∧ s'.disk = s.disk ∧ (s'.buf i).Caches ROOTDEV b ∧ s'.dirty i = false := by
  obtain ⟨s₁, hget, hlock⟩ := bread_some hr
  obtain ⟨h₁, hf₁, hd₁, hc₁⟩ := h.bget hget
  obtain ⟨h₂, hf₂, hd₂⟩ := h₁.lock hlock
  obtain ⟨-, hholder, rfl⟩ := lock_some hlock
  refine ⟨h₂, hf₁.trans hf₂, hd₂.trans hd₁, ?_, (h₁.bufs i).clean_of_holder hholder⟩
  rw [Sys.put_buf, if_pos rfl]
  exact hc₁

/-! ### Writing and releasing -/

theorem brelse_buf : (brelse s i).buf j = if j = i then { s.buf i with holder := none, refcnt := (s.buf i).refcnt - 1 } else s.buf j := by
  rw [Sys.buf, brelse, Cache.brelse_buf]
  exact update_apply ..

theorem Core.brelse (h : Core pins c s) (hh : (s.buf i).holder ≠ none) (hd : s.dirty i = false) :
    Core pins c (brelse s i) ∧ Frame s (brelse s i) := by
  have hi := h.bufs i
  have key : BufOk pins c s.disk s.ops { s.buf i with holder := none, refcnt := (s.buf i).refcnt - 1 } (s.queue i) (s.dirty i) := by
    refine ⟨?_, fun hne => absurd rfl hne, hi.rooted, hi.clean, hi.hot, fun hd' => ?_⟩
    · simp only [hi.refs, if_neg hh]
      simp only [if_true]
      omega
    · exact absurd (hd.symm.trans hd') (by simp)
  refine ⟨h.of_same (fun j => Cache.mem_lru_brelse (h.lru j)) (fun j => ?_) (fun j => ?_) fun _ => id, ⟨rfl, rfl, rfl, rfl, rfl, rfl, rfl, rfl⟩⟩
  · rw [brelse_buf]
    split
    · next hji => exact hji ▸ ⟨rfl, rfl, id⟩
    · exact ⟨rfl, rfl, id⟩
  · rw [brelse_buf]
    split
    · next hji => exact hji ▸ key
    · exact h.bufs j

theorem bwrite_buf : (bwrite s i v).buf j = if j = i then { s.buf i with data := v } else s.buf j := update_apply ..

theorem bwrite_disk : (bwrite s i v).disk = update s.disk (s.buf i).blockno v := rfl

theorem Core.bwrite (h : Core pins c s) (hh : (s.buf i).holder ≠ none)
    (hd : s.dirty i = false) (hv : (s.buf i).blockno ∈ pins → v = c (s.buf i).blockno) : Core pins c (bwrite s i v) ∧ Frame s (bwrite s i v) := by
  have hi := h.bufs i
  have hvalid := hi.held hh
  have hcaches : (s.buf i).Caches ROOTDEV (s.buf i).blockno := ⟨hi.rooted (Or.inl hvalid), rfl⟩
  refine ⟨h.of_same h.lru (fun j => ?_) (fun j => ?_) fun _ => id, ⟨rfl, rfl, rfl, rfl, rfl, rfl, rfl, rfl⟩⟩
  · rw [bwrite_buf]
    split
    · next hji => exact hji ▸ ⟨rfl, rfl, id⟩
    · exact ⟨rfl, rfl, id⟩
  rw [bwrite_buf]
  split
  · next hji =>
    subst hji
    refine ⟨hi.refs, hi.held, hi.rooted, fun _ _ _ => ?_, fun _ hb => hv hb, fun hd' => ?_⟩
    · rw [bwrite_disk, update_self]
    · exact absurd (hd.symm.trans hd') (by simp)
  · next hji =>
    -- another buffer has another block
    have hj := h.bufs j
    refine { hj with clean := fun hvj hb hdj => ?_ }
    have hne : (s.buf j).blockno ≠ (s.buf i).blockno := fun heq =>
      hji (h.uniq j i _ ⟨hj.rooted (Or.inl hvj), heq⟩ hcaches)
    rw [bwrite_disk, update_of_ne hne]
    exact hj.clean hvj hb hdj

theorem bunpin_buf : (bunpin s i).buf j = if j = i then { s.buf i with refcnt := (s.buf i).refcnt - 1 } else s.buf j := update_apply ..

theorem Core.bunpin (h : Core (b :: pins) c s) (hb : b ∉ pins) (hi : (s.buf i).Caches ROOTDEV b) (hdata : (s.buf i).data = s.disk b) :
    Core pins c (bunpin s i) ∧ Frame s (bunpin s i) := by
  refine ⟨h.of_same h.lru (fun j => ?_) (fun j => ?_) fun _ => List.mem_cons_of_mem _, ⟨rfl, rfl, rfl, rfl, rfl, rfl, rfl, rfl⟩⟩
  · rw [bunpin_buf]
    split
    · next hji => exact hji ▸ ⟨rfl, rfl, id⟩
    · exact ⟨rfl, rfl, id⟩
  have hj := h.bufs j
  rw [bunpin_buf]
  split
  · next hji =>
    subst hji
    refine ⟨?_, hj.held, hj.rooted, fun _ _ _ => hi.2 ▸ hdata, fun _ hb' => ?_, hj.dirty⟩
    · have hpin : (s.buf j).dev = ROOTDEV ∧ (s.buf j).blockno ∈ b :: pins :=
        ⟨hi.1, hi.2 ▸ List.mem_cons_self⟩
      have hunpin : ¬((s.buf j).dev = ROOTDEV ∧ (s.buf j).blockno ∈ pins) :=
        fun hp => hb (hi.2 ▸ hp.2)
      have hr := hj.refs
      rw [if_pos hpin] at hr
      simp only [if_neg hunpin]
      rw [hr]
      exact Nat.add_sub_cancel _ 1
    · exact absurd (hi.2 ▸ hb') hb
  · next hji =>
    have hne : (s.buf j).dev = ROOTDEV → (s.buf j).blockno ≠ b := fun hdev heq =>
      hji (h.uniq j i b ⟨hdev, heq⟩ hi)
    refine ⟨?_, hj.held, hj.rooted, fun hvj hbj => hj.clean hvj ?_, fun hvj hbj => hj.hot hvj ?_, hj.dirty⟩
    · rw [hj.refs]
      congr 1
      refine if_congr (and_congr_right fun hdev => ?_) rfl rfl
      simp [hne hdev]
    · simp [hne (hj.rooted (Or.inl hvj)), hbj]
    · exact List.mem_cons_of_mem _ hbj

/-! ### Inside an operation -/

theorem modify_buf : (modify s i f δ).buf j =
    if j = i then { s.buf i with data := f (s.buf i).data } else s.buf j := update_apply ..

section

variable (h : Core pins c s)

include h

/-- **A change of a buffer that shows its present contents** is a change of these. The
buffer has to be marked, unless its block is pinned. -/
theorem Core.modify (hp : (s.buf i).holder = some p)
    (hops : p ∈ s.ops) (hdata : (s.buf i).data = c (s.buf i).blockno) (hmark : δ = true ∨ (s.buf i).blockno ∈ pins) :
    Core pins (update c (s.buf i).blockno (f (c (s.buf i).blockno))) (modify s i f δ) := by
  have hi := h.bufs i
  have hvalid : (s.buf i).valid = true := hi.held (by simp [hp])
  have hcaches : (s.buf i).Caches ROOTDEV (s.buf i).blockno := ⟨hi.rooted (Or.inl hvalid), rfl⟩
  refine h.of_same h.lru (fun j => ?_) (fun j => ?_) fun _ => id
  · rw [modify_buf]
    split
    · next hji => exact hji ▸ ⟨rfl, rfl, id⟩
    · exact ⟨rfl, rfl, id⟩
  rw [modify_buf]
  split
  · next hji =>
    subst hji
    refine ⟨hi.refs, hi.held, hi.rooted, fun _ hb hd => ?_, fun _ _ => ?_, fun _ => ⟨hvalid, ?_, p, hops, hp⟩⟩
    · rcases hmark with rfl | hpin
      · simp [Logging.modify] at hd
      · exact absurd hpin hb
    all_goals rw [update_self, hdata]
  · next hji =>
    have hj := h.bufs j
    have hne : (s.buf j).valid = true → (s.buf j).blockno ≠ (s.buf i).blockno := fun hvj heq =>
      hji (h.uniq j i _ ⟨hj.rooted (Or.inl hvj), heq⟩ hcaches)
    have hδ : (Logging.modify s i f δ).dirty j = s.dirty j := update_of_ne hji ..
    rw [hδ]
    refine { hj with hot := fun hvj hb => ?_, dirty := fun hd => ?_ }
    · rw [update_of_ne (hne hvj)]
      exact hj.hot hvj hb
    · obtain ⟨hvj, hdj, hops⟩ := hj.dirty hd
      rw [update_of_ne (hne hvj)]
      exact ⟨hvj, hdj, hops⟩

theorem Core.absorb (hb : (s.buf i).blockno ∈ pins) : Core pins c { s with dirty := update s.dirty i false } := by
  refine ⟨h.lru, h.uniq, fun j => ?_, h.pinned⟩
  have hj := h.bufs j
  by_cases hji : j = i
  · subst hji
    simp only [update_self]
    exact ⟨hj.refs, hj.held, hj.rooted, fun _ hb' => absurd hb hb', hj.hot, fun hd => by simp at hd⟩
  · have hδ : update s.dirty i false j = s.dirty j := update_of_ne hji ..
    simp only [hδ]
    exact hj

theorem Core.bpin (hh : (s.buf i).holder ≠ none) (hb : (s.buf i).blockno ∉ pins) (hdata : (s.buf i).data = c (s.buf i).blockno) :
    Core (pins ++ [(s.buf i).blockno]) c { s with cache := s.cache.bpin i, dirty := update s.dirty i false } := by
  have hi := h.bufs i
  have hvalid := hi.held hh
  have hcaches : (s.buf i).Caches ROOTDEV (s.buf i).blockno := ⟨hi.rooted (Or.inl hvalid), rfl⟩
  have hbuf : ∀ j, Sys.buf { s with cache := s.cache.bpin i, dirty := update s.dirty i false } j =
      if j = i then { s.buf i with refcnt := (s.buf i).refcnt + 1 } else s.buf j :=
    fun j => update_apply ..
  refine ⟨h.lru, fun j k b hj hk => ?_, fun j => ?_, fun b hb' => ?_⟩
  · have same : ∀ j, (Sys.buf { s with
        cache := s.cache.bpin i, dirty := update s.dirty i false } j).Caches ROOTDEV b → (s.buf j).Caches ROOTDEV b := by
      intro j hj
      rw [hbuf] at hj
      split at hj
      · next hji => exact hji ▸ hj
      · exact hj
    exact h.uniq j k b (same j hj) (same k hk)
  · rw [hbuf]
    split
    · next hji =>
      subst hji
      have hpin : (s.buf j).blockno ∈ pins ++ [(s.buf j).blockno] := by simp
      refine ⟨?_, hi.held, hi.rooted, fun _ hb' => absurd hpin hb', fun _ _ => hdata, fun hd => by simp at hd⟩
      simp only [hi.refs, if_neg (fun hp : _ ∧ (s.buf j).blockno ∈ pins => hb hp.2), if_pos (And.intro hcaches.1 hpin)]
    rename_i hji
    have hj := h.bufs j
    have hne : (s.buf j).dev = ROOTDEV → (s.buf j).blockno ≠ (s.buf i).blockno :=
      fun hdev heq => hji (h.uniq j i _ ⟨hdev, heq⟩ hcaches)
    have hmem : (s.buf j).dev = ROOTDEV → ((s.buf j).blockno ∈ pins ++ [(s.buf i).blockno] ↔ (s.buf j).blockno ∈ pins) :=
      fun hdev => by simp [hne hdev]
    have hδ : update s.dirty i false j = s.dirty j := update_of_ne hji ..
    simp only [hδ]
    refine ⟨?_, hj.held, hj.rooted, fun hvj hb' => ?_, fun hvj hb' => ?_, hj.dirty⟩
    · rw [hj.refs]
      congr 1
      exact if_congr (and_congr_right fun hdev => (hmem hdev).symm) rfl rfl
    · exact hj.clean hvj (mt (hmem (hj.rooted (Or.inl hvj))).mpr hb')
    · exact hj.hot hvj ((hmem (hj.rooted (Or.inl hvj))).mp hb')
  · rcases List.mem_append.mp hb' with hb' | hb'
    · obtain ⟨j, hj, hvj⟩ := h.pinned b hb'
      refine ⟨j, ?_⟩
      rw [hbuf]
      split
      · next hji => exact hji ▸ ⟨hj, hvj⟩
      · exact ⟨hj, hvj⟩
    · obtain rfl := List.mem_singleton.mp hb'
      refine ⟨i, ?_⟩
      rw [hbuf, if_pos rfl]
      exact ⟨hcaches, hvalid⟩

theorem Core.setOps (hops : ∀ i p, s.dirty i = true → (s.buf i).holder = some p →
    p ∈ s.ops → p ∈ ops) : Core pins c { s with ops := ops } := by
  refine ⟨h.lru, h.uniq, fun i => ?_, h.pinned⟩
  have hi := h.bufs i
  refine { hi with dirty := fun hd => ?_ }
  obtain ⟨hv, hdata, p, hp, hholder⟩ := hi.dirty hd
  exact ⟨hv, hdata, p, hops i p hd hholder hp, hholder⟩

end

end Xv6.Logging
