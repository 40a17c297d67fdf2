import Xv6.Fs.Blocks
import Xv6.Fs.Bytes

/-!
# Reading what was written

`writei` and `readi` of a file without holes, on a disk on which other files may have some: what is read is what was
written, and what was there before elsewhere. `writei` looks at no inode but its own, so that the others may be taken to
be empty, and the results of `Xv6.Fs.Bytes` apply.

A block that is needed is there if there are as many free blocks as the file has holes in the range that is written, and
one for the indirect block.
-/

namespace Xv6.FileSys

open Lib Function

open Logging (Block getWord setWord)

variable {hi lo : ℕ} {r : Option ℕ}

variable {d d' : Disk} {ino f : ℕ → Dinode} {i j b bn x off n tot fuel : ℕ} {e e' : Dinode}
  {src : ℕ → ℕ → List UInt8 × Bool} {bs : List UInt8}

/-! ### The other inodes -/

def Disk.inodes (d : Disk) (f : ℕ → Dinode) : Disk := { d with dinode := f }

theorem balloc_inodes : balloc (d.inodes f) = (balloc d).map fun q => (q.1, q.2.inodes f) := by
  rw [balloc, balloc]
  dsimp only [Disk.inodes]
  cases (List.range d.sb.size).find? fun b => !d.bitmap b <;> rfl

theorem bmapIndirect_inodes : bmapIndirect (d.inodes f) e = (bmapIndirect d e).map fun q => (q.1.inodes f, q.2) := by
  rw [bmapIndirect, bmapIndirect]
  split
  · rw [balloc_inodes]
    cases balloc d <;> rfl
  · rfl

theorem bmap_inodes : bmap (d.inodes f) e bn = (bmap d e bn).map fun q => (q.1, q.2.1.inodes f, q.2.2) := by
  rw [bmap, bmap]
  split
  · split
    · rw [balloc_inodes]
      cases balloc d <;> rfl
    · rfl
  split
  · rw [bmapIndirect_inodes]
    rcases bmapIndirect d e with _ | ⟨d₁, e₁⟩
    · rfl
    · dsimp only [Except.map, ok_bind, Disk.inodes]
      split
      · rw [← Disk.inodes, balloc_inodes]
        cases balloc d₁ <;> rfl
      · rfl
  · rfl

theorem writeiLoop_succ (hn : n ≠ 0) : writeiLoop src (fuel + 1) d e off tot n = bmap d e (off / BSIZE) >>= fun q =>
      if (src tot (min n (BSIZE - off % BSIZE))).2 = true then
        writeiLoop src fuel { q.2.1 with block := update q.2.1.block q.1 (store (q.2.1.block q.1) (off % BSIZE)
          (src tot (min n (BSIZE - off % BSIZE))).1) } q.2.2 (off + min n (BSIZE - off % BSIZE))
          (tot + min n (BSIZE - off % BSIZE)) (n - min n (BSIZE - off % BSIZE))
      else .ok (tot, { q.2.1 with block := update q.2.1.block q.1 (store (q.2.1.block q.1) (off % BSIZE)
          (src tot (min n (BSIZE - off % BSIZE))).1) }, q.2.2) := by
  rw [writeiLoop, if_neg hn]

theorem writeiLoop_inodes : writeiLoop src fuel (d.inodes f) e off tot n =
    (writeiLoop src fuel d e off tot n).map fun q => (q.1, q.2.1.inodes f, q.2.2) := by
  induction fuel generalizing d e off tot n with
  | zero => rfl
  | succ fuel ih =>
    by_cases hn : n = 0
    · rw [writeiLoop, writeiLoop, if_pos hn, if_pos hn]
      rfl
    rw [writeiLoop_succ hn, writeiLoop_succ hn, bmap_inodes]
    rcases bmap d e (off / BSIZE) with _ | ⟨b, d₁, e₁⟩
    · rfl
    · change (if (src tot _).2 = true then _ else _) = Except.map _ (if (src tot _).2 = true then _ else _)
      split
      · exact ih (d := { d₁ with block := update d₁.block b _ })
      · rfl

theorem writei_inodes (hf : f i = d.dinode i) (h : writei d i e src off n = .ok (r, d', e')) :
    writei (d.inodes f) i e src off n = .ok (r, d'.inodes (update f i (d'.dinode i)), e') := by
  have hsame : d.inodes (update f i (d.dinode i)) = d.inodes f := by rw [← hf, update_eq_self]
  rw [writei] at h ⊢
  split_ifs at h ⊢ with hoff hend
  · cases h
    rw [hsame]
  · cases h
    rw [hsame]
  · obtain ⟨⟨r₁, d₁, e₁⟩, h₁, h⟩ := of_bind_eq_ok h
    rw [writeiLoop_inodes, h₁]
    cases h
    rw [iupdate_dinode_self]
    rfl

theorem writei_dinode (h : writei d i e src off n = .ok (r, d', e')) (hj : j ≠ i) : d'.dinode j = d.dinode j := by
  have hsame : d' = d'.inodes (update d.dinode i (d'.dinode i)) := by
    have := (writei_inodes rfl h).symm.trans h
    rw [Except.ok.injEq, Prod.mk.injEq, Prod.mk.injEq] at this
    exact this.2.1.symm
  rw [hsame, Disk.inodes]
  exact update_of_ne hj ..

theorem writei_none_iff (d : Disk) (i : ℕ) (src : ℕ → ℕ → List UInt8 × Bool) (hoff : off < 2 ^ 32) (hn : n < 2 ^ 32) : writei d i e src off n = .ok (none, d', e') ↔
    (d' = d ∧ e' = e) ∧ (off > e.size ∨ 2 ^ 32 ≤ off + n ∨ MAXFILE * BSIZE < off + n) := by
  have hmax : MAXFILE * BSIZE < 2 ^ 32 := by decide
  have hstop : (Except.ok (none, d, e) : Except Panic (Option ℕ × Disk × Dinode)) = .ok (none, d', e') ↔ d' = d ∧ e' = e := by
    rw [Except.ok.injEq, Prod.mk.injEq, Prod.mk.injEq, eq_comm (a := d), eq_comm (a := e)]
    simp
  rw [writei]
  by_cases h1 : off > e.size ∨ (off + n) % 2 ^ 32 < off
  · rw [if_pos h1, hstop]
    exact ⟨fun h => ⟨h, by omega⟩, And.left⟩
  rw [if_neg h1]
  by_cases h2 : (off + n) % 2 ^ 32 > MAXFILE * BSIZE
  · rw [if_pos h2, hstop]
    exact ⟨fun h => ⟨h, by omega⟩, And.left⟩
  rw [if_neg h2]
  constructor
  · intro h
    obtain ⟨q, -, hq⟩ := of_bind_eq_ok h
    cases hq
  · rintro ⟨-, hcase⟩
    omega

/-! ### Blocks of others -/

theorem balloc_frame (hb : d.Used b) (h : balloc d = .ok (x, d')) : d'.block b = d.block b ∧ d'.Used b ∧ x ≠ b := by
  obtain ⟨hx, -, rfl⟩ := (balloc_spec (E := fun _ => True) trivial).of_ok h
  have hne : b ≠ x := fun heq => hx (heq ▸ hb)
  exact ⟨update_of_ne hne .., ⟨hb.1, (update_of_ne hne ..).trans hb.2⟩, hne.symm⟩

theorem bmap_frame (hb : d.Used b) (hne : e.addrs NDIRECT ≠ b) (h : bmap d e bn = .ok (x, d', e')) : d'.block b = d.block b := by
  rw [bmap] at h
  by_cases hdir : bn < NDIRECT
  · rw [if_pos hdir] at h
    by_cases h0 : e.addrs bn = 0
    · rw [if_pos h0] at h
      obtain ⟨⟨y, d₁⟩, h₁, h⟩ := of_bind_eq_ok h
      cases h
      exact (balloc_frame hb h₁).1
    · rw [if_neg h0] at h
      cases h
      rfl
  rw [if_neg hdir] at h
  by_cases hind : bn - NDIRECT < NINDIRECT
  · rw [if_pos hind] at h
    obtain ⟨⟨d₁, e₁⟩, h₁, h⟩ := of_bind_eq_ok h
    have hfirst : d₁.block b = d.block b ∧ d₁.Used b ∧ e₁.addrs NDIRECT ≠ b := by
      rw [bmapIndirect] at h₁
      by_cases h0 : e.addrs NDIRECT = 0
      · rw [if_pos h0] at h₁
        obtain ⟨⟨y, d₂⟩, h₂, h₁⟩ := of_bind_eq_ok h₁
        cases h₁
        obtain ⟨hblock, hused, hy⟩ := balloc_frame hb h₂
        exact ⟨hblock, hused, (update_self NDIRECT y e.addrs).trans_ne hy⟩
      · rw [if_neg h0] at h₁
        cases h₁
        exact ⟨rfl, hb, hne⟩
    obtain ⟨hblock, hused, hne'⟩ := hfirst
    dsimp only at h
    by_cases h0 : getWord (d₁.block (e₁.addrs NDIRECT)) (bn - NDIRECT) = 0
    · rw [if_pos h0] at h
      obtain ⟨⟨y, d₂⟩, h₂, h⟩ := of_bind_eq_ok h
      cases h
      exact (update_of_ne hne'.symm ..).trans ((balloc_frame hused h₂).1.trans hblock)
    · rw [if_neg h0] at h
      cases h
      exact hblock
  · rw [if_neg hind] at h
    cases h

theorem writeiLoop_frame (hgood : Good d (update d.dinode i e)) (ht : e.type ≠ .free) (hn : off + n ≤ MAXFILE * BSIZE)
    (hj : j ≠ i) (htj : (d.dinode j).type ≠ .free) (h0 : (d.dinode j).addrs NDIRECT ≠ 0) {r : ℕ}
    (h : writeiLoop src fuel d e off tot n = .ok (r, d', e')) : d'.block ((d.dinode j).addrs NDIRECT) = d.block ((d.dinode j).addrs NDIRECT) := by
  induction fuel generalizing d e off tot n with
  | zero =>
    cases h
    rfl
  | succ fuel ih =>
    by_cases hn0 : n = 0
    · rw [writeiLoop, if_pos hn0] at h
      cases h
      rfl
    rw [writeiLoop_succ hn0] at h
    obtain ⟨⟨b, d₁, e₁⟩, h₁, h⟩ := of_bind_eq_ok h
    have hbn := div_lt_maxfile hn0 hn
    obtain ⟨hg, -, rfl, hb0⟩ := (bmap_spec (E := (· = .outOfBlocks)) hgood ht hbn rfl).of_ok h₁
    obtain ⟨⟨hg₂, -⟩, -⟩ := (bmap_store_spec (v := fun d' addr => store (d'.block addr) (off % BSIZE)
      (src tot (min n (BSIZE - off % BSIZE))).1) hgood ht hbn).of_ok h₁
    -- the indirect block has its owner, before and after
    have hown : owner d.sb d.block (update d.dinode i e) (.of j .indirect) = some ((d.dinode j).addrs NDIRECT) := by
      have := @owner_of (update d.dinode i e) j .indirect d.sb d.block (by rwa [update_of_ne hj]) (by rw [update_of_ne hj]; exact h0)
      rwa [update_of_ne hj] at this
    have hused := hgood.excl.used_of hown
    have hne : e.addrs NDIRECT ≠ (d.dinode j).addrs NDIRECT := by
      intro heq
      have hmine := @owner_of (update d.dinode i e) i .indirect d.sb d.block (by rwa [update_self]) (by rw [update_self]; exact heq.trans_ne h0)
      rw [update_self] at hmine
      have := hgood.excl.inj hown (hmine.trans (congrArg some heq))
      injection this with hji
      exact hj hji
    have hblock := bmap_frame hused hne h₁
    have hti : (update d.dinode i e₁ i).type ≠ .free := by
      rw [update_self, hg.info]
      exact ht
    have hdata := hg.good.blockOf_ne_indirect hti (j := j) (by rwa [update_of_ne hj])
      (show blockOf d₁.block (update d.dinode i e₁ i) (off / BSIZE) ≠ 0 by rwa [update_self])
    rw [update_self, update_of_ne hj] at hdata
    have hstore : ∀ v, update d₁.block (blockOf d₁.block e₁ (off / BSIZE)) v ((d.dinode j).addrs NDIRECT) =
        d.block ((d.dinode j).addrs NDIRECT) := fun v => (update_of_ne hdata.symm ..).trans hblock
    dsimp only at h
    by_cases hok : (src tot (min n (BSIZE - off % BSIZE))).2 = true
    · rw [if_pos hok] at h
      obtain ⟨hgood₂, ht₂⟩ := hg₂.next ht
      have hsame : d₁.dinode = d.dinode := hg₂.dinode
      have := ih hgood₂ ht₂ (by omega) (by rwa [hsame]) (by rwa [hsame]) h
      rw [hsame] at this
      exact this.trans (hstore _)
    · rw [if_neg hok] at h
      cases h
      exact hstore _

theorem writei_frame (hgood : Good d d.dinode) (ht : (d.dinode i).type ≠ .free) (hn : n < 2 ^ 32)
    (hj : j ≠ i) (htj : (d.dinode j).type ≠ .free) (h0 : (d.dinode j).addrs NDIRECT ≠ 0)
    (h : writei d i (d.dinode i) src off n = .ok (r, d', e')) : d'.block ((d.dinode j).addrs NDIRECT) = d.block ((d.dinode j).addrs NDIRECT) := by
  have hsize := (hgood.dense i ht).size
  have hmax : MAXFILE * BSIZE < 2 ^ 32 := by decide
  rw [writei] at h
  by_cases hoff : off > (d.dinode i).size ∨ (off + n) % 2 ^ 32 < off
  · rw [if_pos hoff] at h
    cases h
    rfl
  rw [if_neg hoff] at h
  by_cases hend : (off + n) % 2 ^ 32 > MAXFILE * BSIZE
  · rw [if_pos hend] at h
    cases h
    rfl
  · rw [if_neg hend] at h
    obtain ⟨⟨r₁, d₁, e₁⟩, h₁, h⟩ := of_bind_eq_ok h
    cases h
    have := writeiLoop_frame (by rwa [update_eq_self]) ht (show off + n ≤ MAXFILE * BSIZE by omega) hj htj h0 h₁
    exact this

/-! ### Enough blocks -/

def Disk.free (d : Disk) : ℕ := (List.range d.sb.size).countP fun b => !d.bitmap b

def holes (block : ℕ → Block) (e : Dinode) (lo hi : ℕ) : ℕ :=
  (List.range hi).countP fun bn => lo ≤ bn ∧ blockOf block e bn = 0

/-- Whether an inode has no indirect block and needs one for the blocks below `hi`, as a number. -/
def Dinode.lacks (e : Dinode) (hi : ℕ) : ℕ := if NDIRECT < hi ∧ e.addrs NDIRECT = 0 then 1 else 0

/-- **There are enough free blocks** for the holes of a file from block `lo` on and below `hi`, and for the indirect block. -/
def Enough (d : Disk) (e : Dinode) (lo hi : ℕ) : Prop := holes d.block e lo hi + e.lacks hi ≤ d.free

instance (d : Disk) (e : Dinode) (lo hi : ℕ) : Decidable (Enough d e lo hi) := Nat.decLe ..

theorem countP_update {p : ℕ → Bool} {l : List ℕ} (hl : l.Nodup) (hb : b ∈ l) (hp : p b = true) : l.countP (update p b false) + 1 = l.countP p := by
  induction l with
  | nil => cases hb
  | cons a l ih =>
    rw [List.nodup_cons] at hl
    rw [List.countP_cons, List.countP_cons]
    by_cases hab : a = b
    · subst hab
      have hrest : l.countP (update p a false) = l.countP p := by
        refine List.countP_congr fun c hc => ?_
        have hca : c ≠ a := fun heq => hl.1 (heq ▸ hc)
        rw [update_of_ne hca]
      rw [hrest, update_self, hp]
      rfl
    · rw [update_of_ne hab, ← ih hl.2 ((List.mem_cons.mp hb).resolve_left (Ne.symm hab))]
      omega

theorem balloc_free (h : 0 < d.free) : ∃ b d', balloc d = .ok (b, d') ∧ d'.free + 1 = d.free := by
  obtain ⟨b, hb, hbit⟩ := List.countP_pos_iff.mp h
  cases hfind : (List.range d.sb.size).find? fun b => !d.bitmap b with
  | none => exact absurd hbit (by simpa using List.find?_eq_none.mp hfind b hb)
  | some x =>
    refine ⟨x, { d with bitmap := update d.bitmap x true, block := update d.block x fun _ => 0 }, by rw [balloc, hfind], ?_⟩
    have hx := List.find?_some hfind
    have := countP_update (p := fun b => !d.bitmap b) List.nodup_range (List.mem_of_find?_eq_some hfind) hx
    rw [Disk.free, Disk.free, ← this]
    congr 1
    refine List.countP_congr fun c _ => ?_
    by_cases hc : c = x
    · subst hc
      simp
    · simp [hc]

theorem bmap_free (hgood : Good d (update d.dinode i e)) (ht : e.type ≠ .free) (hbn : bn < MAXFILE) (hhi : bn < hi) (h : 1 + e.lacks hi ≤ d.free) :
    ∃ b d' e', bmap d e bn = .ok (b, d', e') ∧ d.free + e'.lacks hi ≤ d'.free + 1 + e.lacks hi := by
  rw [bmap]
  by_cases hdir : bn < NDIRECT
  · rw [if_pos hdir]
    by_cases h0 : e.addrs bn = 0
    · rw [if_pos h0]
      obtain ⟨b, d₁, hb, hfree⟩ := balloc_free (d := d) (by omega)
      rw [hb]
      refine ⟨_, _, _, rfl, ?_⟩
      have hsame : Dinode.lacks { e with addrs := update e.addrs bn b } hi = e.lacks hi := by
        change (if NDIRECT < hi ∧ update e.addrs bn b NDIRECT = 0 then 1 else 0) = _
        rw [update_of_ne hdir.ne']
        rfl
      omega
    · rw [if_neg h0]
      exact ⟨_, _, _, rfl, by omega⟩
  rw [if_neg hdir]
  have hind : bn - NDIRECT < NINDIRECT := by
    rw [MAXFILE] at hbn
    omega
  rw [if_pos hind]
  -- first the indirect block
  have hfirst : ∃ d₁ e₁, bmapIndirect d e = .ok (d₁, e₁) ∧ d.free + e₁.lacks hi = d₁.free + e.lacks hi := by
    rw [bmapIndirect]
    by_cases h0 : e.addrs NDIRECT = 0
    · have hlacks : e.lacks hi = 1 := if_pos ⟨by omega, h0⟩
      obtain ⟨b, d₁, hb, hfree⟩ := balloc_free (d := d) (by omega)
      rw [if_pos h0, hb]
      refine ⟨_, _, rfl, ?_⟩
      have hb0 : b ≠ 0 := hgood.ne_zero ((balloc_spec (E := fun _ => True) trivial).of_ok hb).1
      have hnew : Dinode.lacks { e with addrs := update e.addrs NDIRECT b } hi = 0 := by
        change (if NDIRECT < hi ∧ update e.addrs NDIRECT b NDIRECT = 0 then 1 else 0) = 0
        rw [update_self, if_neg fun h => hb0 h.2]
      omega
    · rw [if_neg h0]
      exact ⟨_, _, rfl, rfl⟩
  obtain ⟨d₁, e₁, h₁, hfree₁⟩ := hfirst
  have hhas : e₁.lacks hi = 0 := by
    obtain ⟨-, -, hne⟩ := (bmapIndirect_spec (E := fun _ => True) hgood ht trivial).of_ok h₁
    exact if_neg fun h => hne h.2
  rw [h₁, ok_bind]
  dsimp only
  by_cases h0 : getWord (d₁.block (e₁.addrs NDIRECT)) (bn - NDIRECT) = 0
  · rw [if_pos h0]
    obtain ⟨b, d₂, hb, hfree₂⟩ := balloc_free (d := d₁) (by omega)
    rw [hb]
    refine ⟨_, _, _, rfl, ?_⟩
    change d.free + e₁.lacks hi ≤ d₂.free + 1 + e.lacks hi
    omega
  · rw [if_neg h0]
    exact ⟨_, _, _, rfl, by omega⟩

theorem Enough.congr (h : Enough d e lo hi) (hblock : ∀ bn, blockOf d'.block e' bn = blockOf d.block e bn)
    (haddr : e'.addrs NDIRECT = e.addrs NDIRECT) (hfree : d'.free = d.free) : Enough d' e' lo hi := by
  rw [Enough, Dinode.lacks, haddr, hfree, holes]
  simp only [hblock]
  exact h

theorem bmap_enough (hgood : Good d (update d.dinode i e)) (ht : e.type ≠ .free) (hbn : bn < MAXFILE)
    (hlo : lo ≤ bn) (hhi : bn < hi) (h : Enough d e lo hi) : ∃ b d' e', bmap d e bn = .ok (b, d', e') ∧ Enough d' e' lo hi := by
  by_cases h0 : blockOf d.block e bn = 0
  · -- a hole is filled
    have hmem : bn ∈ List.range hi := List.mem_range.mpr hhi
    have hcount := countP_update (p := fun bn => decide (lo ≤ bn ∧ blockOf d.block e bn = 0)) List.nodup_range hmem (decide_eq_true ⟨hlo, h0⟩)
    have hdef : (List.range hi).countP (fun bn => decide (lo ≤ bn ∧ blockOf d.block e bn = 0)) + e.lacks hi ≤ d.free := h
    obtain ⟨b, d', e', hb, hfree⟩ := bmap_free hgood ht hbn hhi (by omega)
    obtain ⟨-, hk, rfl, hb0⟩ := (bmap_spec (E := fun _ => True) hgood ht hbn trivial).of_ok hb
    refine ⟨_, d', e', hb, ?_⟩
    have hmono : holes d'.block e' lo hi ≤ (List.range hi).countP (update (fun bn => decide (lo ≤ bn ∧ blockOf d.block e bn = 0)) bn false) := by
      refine List.countP_mono_left fun c _ hc => ?_
      obtain ⟨hloc, hc0⟩ := of_decide_eq_true hc
      have hne : c ≠ bn := by
        rintro rfl
        exact hb0 hc0
      rw [update_of_ne hne]
      refine decide_eq_true ⟨hloc, ?_⟩
      by_contra hcm
      exact hcm ((hk c hcm).1 ▸ hc0)
    change holes d'.block e' lo hi + e'.lacks hi ≤ d'.free
    omega
  · exact ⟨_, d, e, bmap_of_ne h0, h⟩

theorem writeiLoop_enough (src : ℕ → ℕ → List UInt8 × Bool) (fuel tot : ℕ) (hgood : Good d (update d.dinode i e)) (ht : e.type ≠ .free)
    (hn : off + n ≤ MAXFILE * BSIZE) (hlo : lo ≤ off / BSIZE) (hhi : off + n ≤ hi * BSIZE) (h : Enough d e lo hi) :
    ∃ r d' e', writeiLoop src fuel d e off tot n = .ok (r, d', e') ∧ Enough d' e' lo hi := by
  induction fuel generalizing d e off tot n with
  | zero => exact ⟨_, _, _, rfl, h⟩
  | succ fuel ih =>
    by_cases hn0 : n = 0
    · rw [writeiLoop, if_pos hn0]
      exact ⟨_, _, _, rfl, h⟩
    rw [writeiLoop_succ hn0]
    have hbn := div_lt_maxfile hn0 hn
    obtain ⟨b, d₁, e₁, hb, h₁⟩ := bmap_enough hgood ht hbn hlo ((Nat.div_lt_iff_lt_mul (by decide)).mpr (by omega)) h
    obtain ⟨hg, -, rfl, hb0⟩ := (bmap_spec (E := (· = .outOfBlocks)) hgood ht hbn rfl).of_ok hb
    obtain ⟨⟨hg₂, -⟩, -⟩ := (bmap_store_spec (v := fun d' addr => store (d'.block addr) (off % BSIZE)
      (src tot (min n (BSIZE - off % BSIZE))).1) hgood ht hbn).of_ok hb
    rw [hb, ok_bind]
    dsimp only
    obtain ⟨-, ht₁⟩ := hg.next ht
    -- the data are not in the indirect block
    have hstore : ∀ v, Enough { d₁ with block := update d₁.block (blockOf d₁.block e₁ (off / BSIZE)) v } e₁ lo hi := by
      intro v
      refine h₁.congr (fun bm => blockOf_congr fun _ => update_of_ne ?_ ..) rfl rfl
      have := hg.good.blockOf_ne_indirect (i := i) (j := i) (by rwa [update_self]) (by rwa [update_self])
        (show blockOf d₁.block (update d.dinode i e₁ i) (off / BSIZE) ≠ 0 by rwa [update_self])
      rw [update_self] at this
      exact this.symm
    by_cases hok : (src tot (min n (BSIZE - off % BSIZE))).2 = true
    · rw [if_pos hok]
      refine ih _ (hg₂.next ht).1 ht₁ (by omega) (hlo.trans (Nat.div_le_div_right (Nat.le_add_right ..))) (by omega) (hstore _)
    · rw [if_neg hok]
      exact ⟨_, _, _, rfl, hstore _⟩

/-! ### Read after write -/

structure Owned (d : Disk) : Prop where
  layout : d.sb.Layout
  excl : Exclusive (owner d.sb d.block d.dinode) d.Used
  range : ∀ i, (d.dinode i).type ≠ .free → 1 ≤ i ∧ i < d.sb.ninodes

def Disk.emptied (d : Disk) (i j : ℕ) : Dinode := { d.dinode j with size := if j = i then (d.dinode i).size else 0 }

theorem emptied_self : d.emptied i i = d.dinode i := by simp [Disk.emptied]

theorem Owned.good (h : Owned d) (hd : Dense d.block (d.dinode i)) : Good (d.inodes (d.emptied i)) (d.emptied i) := by
  refine ⟨h.layout, h.excl.congr (fun r => ?_) fun _ => Iff.rfl, h.range, fun j _ => ?_⟩
  · cases r with
    | system b => rfl
    | of j p =>
      refine owner_congr rfl fun _ => ?_
      cases p <;> rfl
  · by_cases hji : j = i
    · rw [hji, emptied_self]
      exact hd
    · have h0 : (d.emptied i j).size = 0 := if_neg hji
      exact ⟨h0 ▸ Nat.zero_le _, fun bn hbn => absurd (h0 ▸ hbn) (Nat.not_lt_zero _)⟩

/-- An inode has its size, its blocks and its holes as before. -/
structure Unchanged (d d' : Disk) (j : ℕ) : Prop where
  dinode : d'.dinode j = d.dinode j
  map : ∀ bn, blockOf d'.block (d.dinode j) bn = blockOf d.block (d.dinode j) bn
  block : ∀ bn, blockOf d.block (d.dinode j) bn ≠ 0 →
    d'.block (blockOf d.block (d.dinode j) bn) = d.block (blockOf d.block (d.dinode j) bn)

/-- Between `d` and `d'` the bytes `bs` were written to inode `i`. -/
structure Wrote (i off : ℕ) (bs : List UInt8) (d d' : Disk) (e : Dinode) : Prop where
  owned : Owned d'
  dinode : d'.dinode i = e
  info : e = { d.dinode i with addrs := e.addrs, size := e.size }
  dense : Dense d'.block e
  bytes : bytesOf d'.block e = overwrite (d.bytes i) off bs
  others : ∀ j, j ≠ i → (d.dinode j).type ≠ .free → Unchanged d d' j

section

variable (hown : Owned d) (ht : (d.dinode i).type ≠ .free) (hd : Dense d.block (d.dinode i)) (hsrc : Source src bs)

include hown ht hd hsrc

theorem writei_wrote {r : ℕ} (hoff : off < 2 ^ 32) (hlen : bs.length < 2 ^ 32)
    (h : writei d i (d.dinode i) src off bs.length = .ok (some r, d', e)) : r = bs.length ∧ off ≤ (d.dinode i).size ∧ Wrote i off bs d d' e := by
  have hgood := hown.good hd
  have hself : (d.inodes (d.emptied i)).dinode i = d.dinode i := emptied_self
  have hti : ((d.inodes (d.emptied i)).dinode i).type ≠ .free := by rwa [hself]
  have hw := writei_inodes (f := d.emptied i) emptied_self h
  have hfits : ¬(off > (d.dinode i).size ∨ 2 ^ 32 ≤ off + bs.length ∨ MAXFILE * BSIZE < off + bs.length) := by
    intro hbad
    have := (writei_none_iff d i src hoff hlen).mpr ⟨⟨rfl, rfl⟩, hbad⟩
    rw [this] at h
    cases h
  rw [← hself] at hw
  obtain ⟨hr, hbytes⟩ := writei_bytes hsrc hgood hti (by rw [hself]; omega) (by omega) hw
  have hre : Rewritten i (d.inodes (d.emptied i)) (d'.inodes (update (d.emptied i) i (d'.dinode i))) e :=
    (writei_spec hgood hti hlen).of_ok hw
  have hi : d'.dinode i = e := by
    have := congrFun hre.dinode i
    rw [update_self] at this
    change update (d.emptied i) i (d'.dinode i) i = e at this
    rwa [update_self] at this
  have hother : ∀ j, j ≠ i → d'.dinode j = d.dinode j := fun j hj => writei_dinode h hj
  have htype : ∀ j, (d'.dinode j).type = (update (d.emptied i) i (d'.dinode i) j).type := by
    intro j
    by_cases hj : j = i
    · rw [hj, update_self]
    · rw [update_of_ne hj, hother j hj]
      rfl
  refine ⟨Option.some.inj hr, by omega, ⟨hre.good.layout, ?_, ?_⟩, hi, ?_, ?_, ?_, fun j hj htj => ?_⟩
  · refine hre.good.excl.congr (fun q => ?_) fun _ => Iff.rfl
    cases q with
    | system b => rfl
    | of j p =>
      refine owner_congr (htype j) fun _ => ?_
      by_cases hj : j = i
      · rw [hj]
        change p.ref d'.block (d'.dinode i) = p.ref d'.block (update (d.emptied i) i (d'.dinode i) i)
        rw [update_self]
      · change p.ref d'.block (d'.dinode j) = p.ref d'.block (update (d.emptied i) i (d'.dinode i) j)
        rw [hother j hj, update_of_ne hj]
        cases p <;> rfl
  · exact fun j hj => hre.good.range j ((htype j).symm.trans_ne hj)
  · have hinfo := hre.info
    rwa [hself] at hinfo
  · have hdense := hre.good.dense i
    rw [hre.dinode, update_self] at hdense
    refine hdense ?_
    rw [hre.info]
    exact hti
  · rw [show (d.inodes (d.emptied i)).bytes i = d.bytes i by rw [Disk.bytes, hself]; rfl] at hbytes
    exact hbytes
  · have hblock : ∀ block bn, blockOf block (d.emptied i j) bn = blockOf block (d.dinode j) bn := fun _ _ => rfl
    refine ⟨hother j hj, fun bn => blockOf_congr fun h0 => ?_, fun bn hbn => ?_⟩
    · have := writei_frame (d := d.inodes (d.emptied i)) hgood hti hlen hj htj h0 hw
      exact this
    · exact (hre.others j hj htj bn hbn).2

theorem writei_enough (hoff : off ≤ (d.dinode i).size) (hn : off + bs.length ≤ MAXFILE * BSIZE)
    (hlo : lo ≤ off / BSIZE) (hhi : off + bs.length ≤ hi * BSIZE) (h : Enough d (d.dinode i) lo hi) :
    ∃ d' e, writei d i (d.dinode i) src off bs.length = .ok (some bs.length, d', e) ∧ Enough d' e lo hi := by
  have hmax : MAXFILE * BSIZE < 2 ^ 32 := by decide
  have hwrap : (off + bs.length) % 2 ^ 32 = off + bs.length := Nat.mod_eq_of_lt (by omega)
  have hself : (d.inodes (d.emptied i)).dinode i = d.dinode i := emptied_self
  have hgood : Good (d.inodes (d.emptied i)) (update (d.inodes (d.emptied i)).dinode i (d.dinode i)) := by
    rw [← hself, update_eq_self]
    exact hown.good hd
  obtain ⟨r, d₁, e₁, hloop, h₁⟩ := writeiLoop_enough src bs.length 0 hgood ht hn hlo hhi (h.congr (fun _ => rfl) rfl rfl)
  have hback : writeiLoop src bs.length d (d.dinode i) off 0 bs.length = .ok (r, d₁.inodes d.dinode, e₁) := by
    have := @writeiLoop_inodes (d.inodes (d.emptied i)) d.dinode
    exact this.trans (congrArg _ hloop)
  have hw : ∃ d' e, writei d i (d.dinode i) src off bs.length = .ok (some r, d', e) ∧ Enough d' e lo hi := by
    rw [writei, if_neg (by omega), if_neg (by omega), hback, ok_bind]
    refine ⟨_, _, rfl, h₁.congr (fun bn => ?_) ?_ rfl⟩
    · split <;> rfl
    · split <;> rfl
  obtain ⟨d', e, hw, h'⟩ := hw
  obtain ⟨rfl, -⟩ := writei_wrote hown ht hd hsrc (by omega) (by omega) hw
  exact ⟨d', e, hw, h'⟩

end

/-- **Read after write.** `writei` either refuses, if the range begins behind the end of the file or is too long, or, if it gets all the
blocks it needs, writes its bytes over the file; `readi` then returns them, and the old ones elsewhere. -/
theorem writei_readi (hown : Owned d) (ht : (d.dinode i).type ≠ .free) (hd : Dense d.block (d.dinode i))
    (hsrc : Source src bs) (hoff : off < 2 ^ 32) (hlen : bs.length < 2 ^ 32) :
    (∀ d' e, writei d i (d.dinode i) src off bs.length = .ok (some bs.length, d', e) →
      e.size = max (d.dinode i).size (off + bs.length) ∧ d'.dinode i = e ∧ (∀ o m, o + m < 2 ^ 32 →
          readi d' e toKernel o m = .ok (some (((overwrite (d.bytes i) off bs).drop o).take m), d', e)) ∧
        (∀ j, j ≠ i → d'.dinode j = d.dinode j ∧ ((d.dinode j).type ≠ .free → Unchanged d d' j)) ∧ Dense d'.block e) ∧
      (∀ d' e, writei d i (d.dinode i) src off bs.length = .ok (none, d', e) ↔ (d' = d ∧ e = d.dinode i) ∧
        (off > (d.dinode i).size ∨ 2 ^ 32 ≤ off + bs.length ∨ MAXFILE * BSIZE < off + bs.length)) ∧
      (Enough d (d.dinode i) (off / BSIZE) ((off + bs.length + BSIZE - 1) / BSIZE) → off ≤ (d.dinode i).size →
        off + bs.length ≤ MAXFILE * BSIZE → ∃ d' e, writei d i (d.dinode i) src off bs.length = .ok (some bs.length, d', e)) := by
  refine ⟨fun d' e h => ?_, fun d' e => writei_none_iff d i src hoff hlen, fun henough hle hfits => ?_⟩
  swap
  · have hB : 0 < BSIZE := by decide
    have hdiv := Nat.div_add_mod (off + bs.length + BSIZE - 1) BSIZE
    have hmod := Nat.mod_lt (off + bs.length + BSIZE - 1) hB
    rw [Nat.mul_comm] at hdiv
    obtain ⟨d', e, hw, -⟩ := writei_enough hown ht hd hsrc hle hfits le_rfl
      (show off + bs.length ≤ (off + bs.length + BSIZE - 1) / BSIZE * BSIZE by omega) henough
    exact ⟨d', e, hw⟩
  obtain ⟨-, hle, hw⟩ := writei_wrote hown ht hd hsrc hoff hlen h
  refine ⟨?_, hw.dinode, fun o m hom => ?_, fun j hj => ⟨writei_dinode h hj, hw.others j hj⟩, hw.dense⟩
  · have hsize := congrArg List.length hw.bytes
    rwa [length_bytesOf, length_overwrite (by rw [Disk.bytes, length_bytesOf]; exact hle), Disk.bytes, length_bytesOf] at hsize
  · rw [readi_bytes hw.dense fun _ => hom, hw.bytes]

theorem Good.owned (h : Good d d.dinode) : Owned d := { h with }

/-- A byte is written behind the entries of the root directory, and read again. -/
theorem writei_readi_emptyImage : ∃ d' e,
    writei emptyImage ROOTINO (emptyImage.dinode ROOTINO) (fromKernel [9]) 32 1 = .ok (some 1, d', e) ∧ e.size = 33 ∧
      readi d' e toKernel 32 5 = .ok (some [9], d', e) := by
  have hrun : ∃ d' e, writei emptyImage ROOTINO (emptyImage.dinode ROOTINO) (fromKernel [9]) 32 1 = .ok (some 1, d', e) := ⟨_, _, rfl⟩
  obtain ⟨d', e, hrun⟩ := hrun
  have hroot : (emptyImage.dinode ROOTINO).type ≠ .free := by decide
  obtain ⟨hyes, -⟩ := writei_readi good_emptyImage.owned hroot (good_emptyImage.dense ROOTINO hroot)
    (show Source (fromKernel [9]) [9] from source_fromKernel) (show 32 < 2 ^ 32 by decide) (by decide)
  obtain ⟨hsize, -, hread, -⟩ := hyes d' e hrun
  refine ⟨d', e, hrun, hsize, (hread 32 5 (by decide)).trans ?_⟩
  have hlen : (emptyImage.bytes ROOTINO).length = 32 := length_bytesOf
  have hover : overwrite (emptyImage.bytes ROOTINO) 32 [9] = emptyImage.bytes ROOTINO ++ [9] := by
    have hrest : (emptyImage.bytes ROOTINO).drop (32 + 1) = [] := List.drop_eq_nil_of_le (by rw [hlen]; decide)
    rw [overwrite, List.take_of_length_le hlen.le, List.length_singleton, hrest, List.append_nil]
  rw [hover, List.drop_left' hlen]
  rfl

end Xv6.FileSys
