import Xv6.Fs.Own

/-!
# Reading, writing and truncating

What `itrunc`, `readi` and `writei` do to a disk that is in order. `itrunc` gives every block
of the inode back to the bitmap, and finds each of them marked as in use. `writei` gives the
inode blocks, as `bmap` does, and never leaves a hole below its new size, however it ends.
`readi` changes nothing, for there are no holes.
-/

namespace Xv6.FileSys

open Lib Function

open Logging (Block getWord setWord)

open List (mem_cons_of_mem mem_cons_self mem_range)

variable {d d' d₁ : Disk} {ino : ℕ → Dinode} {i j b bn : ℕ} {p : Place} {e : Dinode}
  {S T : Place → Prop} {src : ℕ → ℕ → List UInt8 × Bool} {fuel off tot n : ℕ} {block : ℕ → Block}

/-! ### Truncation -/

/-- Between `d` and `d'` the blocks of an inode at the places in `S` have been given back. -/
structure Cleared (S : Place → Prop) (e : Dinode) (d d' : Disk) : Prop where
  rest : d' = { d with bitmap := d'.bitmap }
  bitmap : ∀ b, d'.bitmap b = true ↔
    d.bitmap b = true ∧ ∀ p, S p → p.ref d.block e ≠ 0 → p.ref d.block e ≠ b

theorem Cleared.refl (hS : ∀ p, ¬S p) : Cleared S e d d :=
  ⟨rfl, fun _ => ⟨fun h => ⟨h, fun p hp => absurd hp (hS p)⟩, fun h => h.1⟩⟩

theorem Cleared.congr (h : Cleared S e d d') (hST : ∀ p, p.ref d.block e ≠ 0 → (T p ↔ S p)) : Cleared T e d d' := by
  refine ⟨h.rest, fun b => (h.bitmap b).trans (and_congr_right fun _ => ?_)⟩
  exact ⟨fun hS p hp h0 => hS p ((hST p h0).mp hp) h0, fun hT p hp h0 => hT p ((hST p h0).mpr hp) h0⟩

theorem Cleared.bfree (h : Cleared S e d d₁) (hgood : Good d (update d.dinode i e)) (ht : e.type ≠ .free) (hp : ¬S p) (h0 : p.ref d.block e ≠ 0)
    (hT : ∀ q, T q ↔ S q ∨ q = p) : Post (fun _ => False) (FileSys.bfree d₁ (p.ref d.block e)) (Cleared T e d) := by
  have hti : (update d.dinode i e i).type ≠ .free := by rwa [update_self]
  have hown : ∀ q : Place, q.ref d.block e ≠ 0 → owner d.sb d.block (update d.dinode i e) (.of i q) = some (q.ref d.block e) := by
    intro q hq
    rw [owner_of hti (by rwa [update_self]), update_self]
  have hset : d₁.bitmap (p.ref d.block e) = true := by
    refine (h.bitmap _).mpr ⟨(hgood.excl.used_of (hown p h0)).2, fun q hq hq0 heq => hp ?_⟩
    have := hgood.excl.inj (heq ▸ hown q hq0) (hown p h0)
    injection this with _ hqp
    exact hqp ▸ hq
  rw [FileSys.bfree, if_pos hset]
  refine ⟨?_, fun b => ?_⟩
  · conv_lhs => rw [h.rest]
  dsimp only
  by_cases hb : b = p.ref d.block e
  · rw [hb, update_self]
    refine ⟨fun hf => (by cases hf), fun hall => ?_⟩
    exact absurd rfl (hall.2 p ((hT p).mpr (.inr rfl)) h0)
  · rw [update_of_ne hb, h.bitmap]
    refine and_congr_right fun _ => ⟨fun hS q hq hq0 => ?_, fun hall q hq => hall q ((hT q).mpr (.inl hq))⟩
    rcases (hT q).mp hq with hq | rfl
    · exact hS q hq hq0
    · exact Ne.symm hb

/-- The inode after the loop over the direct blocks, of which those in `l` are left. -/
def dropDirect (e : Dinode) (l : List ℕ) : Dinode :=
  { e with addrs := fun m => if m < NDIRECT ∧ m ∉ l then 0 else e.addrs m }

theorem dropDirect_addrs (l : List ℕ) (m : ℕ) : (dropDirect e l).addrs m = if m < NDIRECT ∧ m ∉ l then 0 else e.addrs m := rfl

theorem freeDirect_spec (hgood : Good d (update d.dinode i e)) (ht : e.type ≠ .free) : Post (fun _ => False) (freeDirect d e) fun (d', e') =>
      e' = dropDirect e [] ∧ Cleared (fun p => ∃ m, p = .direct m) e d d' := by
  refine Post.mono (P := fun r : Disk × Dinode => _) (Post.foldlM (I := fun l r =>
    l.Nodup ∧ (∀ m ∈ l, m < NDIRECT) ∧ r.2 = dropDirect e l ∧ Cleared (fun p => ∃ m : Fin NDIRECT, p = .direct m ∧ (m : ℕ) ∉ l) e d r.1) ?_
    ⟨List.nodup_range, fun m hm => List.mem_range.mp hm, ?_, ?_⟩) ?_
  · rintro c l ⟨d₁, e₁⟩ ⟨hnd, hlt, he, hc⟩
    obtain ⟨hcl, hnd⟩ := List.nodup_cons.mp hnd
    have hc12 : c < NDIRECT := hlt c mem_cons_self
    dsimp only at he hc ⊢
    have haddr : e₁.addrs c = e.addrs c := by
      rw [he]
      exact if_neg fun h => h.2 mem_cons_self
    have hstep : { e₁ with addrs := update e₁.addrs c 0 } = dropDirect e l := by
      rw [he, dropDirect, dropDirect]
      congr 1
      funext m
      by_cases hmc : m = c
      · rw [hmc, update_self, if_pos ⟨hc12, hcl⟩]
      · rw [update_of_ne hmc]
        simp [hmc]
    have hT : ∀ q : Place, (∃ m : Fin NDIRECT, q = .direct m ∧ (m : ℕ) ∉ l) ↔
        (∃ m : Fin NDIRECT, q = .direct m ∧ (m : ℕ) ∉ c :: l) ∨ q = .direct ⟨c, hc12⟩ := by
      intro q
      constructor
      · rintro ⟨m, rfl, hm⟩
        by_cases hmc : (m : ℕ) = c
        · exact .inr (congrArg Place.direct (Fin.ext hmc))
        · exact .inl ⟨m, rfl, by simp [hmc, hm]⟩
      · rintro (⟨m, rfl, hm⟩ | rfl)
        · exact ⟨m, rfl, fun h => hm (mem_cons_of_mem _ h)⟩
        · exact ⟨_, rfl, hcl⟩
    split
    · next h0 =>
      rw [haddr] at h0 ⊢
      refine (hc.bfree (p := .direct ⟨c, hc12⟩) hgood ht ?_ h0 hT).bind fun d₂ hc₂ => ?_
      · rintro ⟨m, hm, hmem⟩
        injection hm with hm
        exact hmem (hm ▸ mem_cons_self)
      · exact ⟨hnd, fun m hm => hlt m (mem_cons_of_mem _ hm), hstep, hc₂⟩
    · next h0 =>
      rw [not_not] at h0
      refine ⟨hnd, fun m hm => hlt m (mem_cons_of_mem _ hm), ?_, hc.congr fun q hq => ?_⟩
      · rw [← hstep, ← h0, update_eq_self]
      · refine (hT q).trans (or_iff_left ?_)
        rintro rfl
        exact hq (haddr.symm.trans h0)
  · rw [dropDirect]
    have : (fun m => if m < NDIRECT ∧ m ∉ List.range NDIRECT then 0 else e.addrs m) = e.addrs := by
      funext m
      exact if_neg fun h => h.2 (List.mem_range.mpr h.1)
    rw [this]
  · refine Cleared.refl ?_
    rintro p ⟨m, -, hm⟩
    exact hm (List.mem_range.mpr m.isLt)
  · rintro ⟨d₁, e₁⟩ ⟨-, -, he, hc⟩
    exact ⟨he, hc.congr fun q _ => by simp⟩

theorem freeEntries_spec (hgood : Good d (update d.dinode i e)) (ht : e.type ≠ .free)
    (hind : e.addrs NDIRECT ≠ 0) (hS : ∀ k, ¬S (.entry k)) (hc : Cleared S e d d₁) :
    Post (fun _ => False) (freeEntries d₁ (d.block (e.addrs NDIRECT))) (Cleared (fun p => S p ∨ ∃ k, p = .entry k) e d) := by
  refine Post.mono (P := fun r : Disk => _) (Post.foldlM (I := fun l r =>
    l.Nodup ∧ (∀ m ∈ l, m < NINDIRECT) ∧ Cleared (fun p => S p ∨ ∃ k : Fin NINDIRECT, p = .entry k ∧ (k : ℕ) ∉ l) e d r) ?_
    ⟨List.nodup_range, fun m hm => List.mem_range.mp hm, ?_⟩) ?_
  · rintro c l d₂ ⟨hnd, hlt, hc₂⟩
    obtain ⟨hcl, hnd⟩ := List.nodup_cons.mp hnd
    have hcn : c < NINDIRECT := hlt c mem_cons_self
    have href : (Place.entry ⟨c, hcn⟩).ref d.block e = getWord (d.block (e.addrs NDIRECT)) c :=
      if_neg hind
    have hT : ∀ q : Place, (S q ∨ ∃ k : Fin NINDIRECT, q = .entry k ∧ (k : ℕ) ∉ l) ↔
        (S q ∨ ∃ k : Fin NINDIRECT, q = .entry k ∧ (k : ℕ) ∉ c :: l) ∨ q = .entry ⟨c, hcn⟩ := by
      intro q
      constructor
      · rintro (hq | ⟨k, rfl, hk⟩)
        · exact .inl (.inl hq)
        · by_cases hkc : (k : ℕ) = c
          · exact .inr (congrArg Place.entry (Fin.ext hkc))
          · exact .inl (.inr ⟨k, rfl, by simp [hkc, hk]⟩)
      · rintro ((hq | ⟨k, rfl, hk⟩) | rfl)
        · exact .inl hq
        · exact .inr ⟨k, rfl, fun h => hk (mem_cons_of_mem _ h)⟩
        · exact .inr ⟨_, rfl, hcl⟩
    split
    · next h0 =>
      rw [← href] at h0 ⊢
      refine (hc₂.bfree hgood ht ?_ h0 hT).mono fun d₃ hc₃ =>
        ⟨hnd, fun m hm => hlt m (mem_cons_of_mem _ hm), hc₃⟩
      rintro (hq | ⟨k, hk, hmem⟩)
      · exact hS _ hq
      · injection hk with hk
        exact hmem (hk ▸ mem_cons_self)
    · next h0 =>
      rw [not_not] at h0
      refine ⟨hnd, fun m hm => hlt m (mem_cons_of_mem _ hm), hc₂.congr fun q hq => ?_⟩
      refine (hT q).trans (or_iff_left ?_)
      rintro rfl
      exact hq (href.trans h0)
  · refine hc.congr fun q _ => or_iff_left ?_
    rintro ⟨k, -, hk⟩
    exact hk (List.mem_range.mpr k.isLt)
  · rintro d₂ ⟨-, -, hc₂⟩
    exact hc₂.congr fun q _ => by simp

def Dinode.truncated (e : Dinode) : Dinode :=
  { e with addrs := fun m => if m ≤ NDIRECT then 0 else e.addrs m, size := 0 }

theorem Place.ref_eq_zero (h : ∀ m ≤ NDIRECT, e.addrs m = 0) : p.ref block e = 0 := by
  cases p with
  | direct m => exact h m (Nat.le_of_lt m.isLt)
  | indirect => exact h _ le_rfl
  | entry k => rw [Place.ref, if_pos (h _ le_rfl)]

theorem truncated_addrs {m : ℕ} (hm : m ≤ NDIRECT) : e.truncated.addrs m = 0 := if_pos hm

theorem Place.ref_truncated : p.ref block e.truncated = 0 :=
  Place.ref_eq_zero fun _ => truncated_addrs

theorem itrunc_spec (hgood : Good d (update d.dinode i e)) (ht : e.type ≠ .free) : Post (fun _ => False) (itrunc d i e) fun (d', e') =>
      e' = e.truncated ∧ ∃ d₁, Cleared (fun _ => True) e d d₁ ∧ d' = iupdate d₁ i e' := by
  refine (freeDirect_spec hgood ht).bind ?_
  rintro ⟨d₁, e₁⟩ ⟨rfl, hc⟩
  have hdrop : ∀ m, (dropDirect e []).addrs m = if m < NDIRECT then 0 else e.addrs m := by
    intro m
    simp [dropDirect_addrs]
  have hind : (dropDirect e []).addrs NDIRECT = e.addrs NDIRECT := by
    rw [hdrop, if_neg (lt_irrefl _)]
  have hend : ∀ addrs : ℕ → ℕ, (∀ m, addrs m = if m ≤ NDIRECT then 0 else e.addrs m) →
      { dropDirect e [] with addrs := addrs, size := 0 } = e.truncated := by
    intro addrs h
    rw [dropDirect, Dinode.truncated, funext h]
  refine Post.bind (P := fun r : Disk × Dinode => { r.2 with size := 0 } = e.truncated ∧ Cleared (fun _ => True) e d r.1) ?_ ?_
  · unfold freeIndirect
    split
    · next h0 =>
      rw [hind] at h0 ⊢
      rw [show d₁.block = d.block by rw [hc.rest]]
      refine (freeEntries_spec hgood ht h0 (S := fun p => ∃ m, p = .direct m) (by simp) hc).bind ?_
      intro d₂ hc₂
      refine (hc₂.bfree (p := .indirect) (T := fun _ => True) hgood ht (by simp) h0 ?_).bind ?_
      · intro q
        cases q <;> simp
      intro d₃ hc₃
      refine ⟨hend (update (dropDirect e []).addrs NDIRECT 0) fun m => ?_, hc₃⟩
      by_cases hm : m = NDIRECT
      · rw [hm, update_self, if_pos le_rfl]
      · rw [update_of_ne hm, hdrop]
        exact if_congr ⟨fun h => Nat.le_of_lt h, fun h => Nat.lt_of_le_of_ne h hm⟩ rfl rfl
    · next h0 =>
      rw [hind, not_not] at h0
      refine ⟨hend _ fun m => ?_, hc.congr fun q hq => ?_⟩
      · rw [hdrop]
        by_cases hm : m = NDIRECT
        · rw [hm, if_neg (lt_irrefl _), if_pos le_rfl, h0]
        · exact if_congr ⟨fun h => Nat.le_of_lt h, fun h => Nat.lt_of_le_of_ne h hm⟩ rfl rfl
      · -- without an indirect block, only direct blocks are left
        cases q with
        | direct m => simp
        | indirect => exact absurd h0 hq
        | entry k => exact absurd (if_pos h0) hq
  · rintro ⟨d₂, e₂⟩ ⟨he, hc₂⟩
    exact ⟨he, d₂, hc₂, rfl⟩

theorem Good.cleared (hgood : Good d (update d.dinode i e)) (ht : e.type ≠ .free) (hc : Cleared (fun _ => True) e d d₁) :
    Good d₁ (update d.dinode i e.truncated) := by
  have hsb : d₁.sb = d.sb := by rw [hc.rest]
  have hblock : d₁.block = d.block := by rw [hc.rest]
  refine ⟨hsb ▸ hgood.layout, ?_, fun j hj => ?_, fun j hj => ?_⟩
  · classical
    refine (hgood.excl.release fun r => ∃ p, r = Role.of i p).congr (fun r => ?_) fun b => ?_
    · rw [hsb, hblock]
      cases r with
      | system b => exact (if_neg (by simp)).symm
      | of j p =>
        by_cases hji : j = i
        · rw [hji, if_pos ⟨p, rfl⟩]
          exact owner_of_zero (by rw [update_self, Place.ref_truncated])
        · rw [if_neg (by simp [hji])]
          exact owner_congr (by rw [update_of_ne hji, update_of_ne hji]) fun _ => by
            rw [update_of_ne hji, update_of_ne hji]
    · rw [Disk.Used, Disk.Used, hsb, hc.bitmap, and_assoc]
      refine and_congr_right fun _ => and_congr_right fun _ => ⟨?_, ?_⟩
      · rintro hall _ ⟨p, rfl⟩ ho
        obtain ⟨-, hp, h0⟩ := owner_of_eq ho
        rw [update_self] at hp
        exact hall p trivial (hp ▸ h0) hp
      · intro hall p _ h0 hp
        refine hall _ ⟨p, rfl⟩ ?_
        rw [owner_of (by rwa [update_self]) (by rwa [update_self]), update_self, hp]
  · rw [hsb]
    refine hgood.range j ?_
    by_cases hji : j = i
    · rw [hji, update_self] at hj ⊢
      exact hj
    · rwa [update_of_ne hji] at hj ⊢
  · by_cases hji : j = i
    · rw [hji, update_self]
      exact ⟨Nat.zero_le _, fun bn hbn => absurd hbn (Nat.not_lt_zero _)⟩
    · rw [update_of_ne hji] at hj ⊢
      have := hgood.dense j (by rwa [update_of_ne hji])
      rwa [update_of_ne hji, ← hblock] at this

/-! ### Writing -/

section

variable (hgood : Good d ino) (hi : (ino i).type ≠ .free) (hb : blockOf d.block (ino i) bn ≠ 0)

include hgood hi hb

theorem Good.store {v : Block} :
    Good { d with block := update d.block (blockOf d.block (ino i) bn) v } ino := by
  have hind : ∀ j, (ino j).type ≠ .free → (ino j).addrs NDIRECT ≠ blockOf d.block (ino i) bn :=
    fun j hj => (hgood.blockOf_ne_indirect hi hj hb).symm
  refine ⟨hgood.layout, ?_, hgood.range, fun j hj => ?_⟩
  · refine hgood.excl.congr (fun r => ?_) fun _ => Iff.rfl
    cases r with
    | system b => rfl
    | of j p => exact owner_congr rfl fun hj => Place.ref_update (hind j hj)
  · refine (hgood.dense j hj).mono rfl fun bm hbm => ?_
    rwa [blockOf_congr fun _ => update_of_ne (hind j hj) ..]

theorem Good.keeps_store {v : Block} (hj : (ino j).type ≠ .free) (hji : j ≠ i) :
    Keeps d.block (ino j) (update d.block (blockOf d.block (ino i) bn) v) (ino j) := by
  intro bm hbm
  refine ⟨blockOf_congr fun _ => update_of_ne (hgood.blockOf_ne_indirect hi hj hb).symm .., ?_⟩
  refine update_of_ne (fun heq => hji ?_) ..
  exact (hgood.blockOf_inj hj hi hbm heq).1

end

/-- The inode has got blocks, and every block it had it has still. -/
def Extended (i : ℕ) (d : Disk) (e : Dinode) (d' : Disk) (e' : Dinode) : Prop :=
  Grown i d e d' e' ∧ ∀ bn, blockOf d.block e bn ≠ 0 → blockOf d'.block e' bn ≠ 0

theorem Extended.trans {d'' : Disk} {e' e'' : Dinode} (h : Extended i d e d' e') (h' : Extended i d' e' d'' e'') : Extended i d e d'' e'' :=
  ⟨h.1.trans h'.1, fun bn hbn => h'.2 bn (h.2 bn hbn)⟩

theorem Grown.next (h : Grown i d e d' e') (ht : e.type ≠ .free) : Good d' (update d'.dinode i e') ∧ e'.type ≠ .free := by
  rw [h.dinode, h.info]
  exact ⟨h.info ▸ h.good, ht⟩

theorem div_lt_maxfile {off n : ℕ} (hn0 : n ≠ 0) (hn : off + n ≤ MAXFILE * BSIZE) : off / BSIZE < MAXFILE :=
  (Nat.div_lt_iff_lt_mul (by decide)).mpr (by omega)

theorem bmap_store_spec {v : Disk → ℕ → Block} (hgood : Good d (update d.dinode i e)) (ht : e.type ≠ .free) (hbn : bn < MAXFILE) :
    Post (· = .outOfBlocks) (bmap d e bn) fun (addr, d', e') => Extended i d e { d' with block := update d'.block addr (v d' addr) } e' ∧
        blockOf (update d'.block addr (v d' addr)) e' bn ≠ 0 := by
  refine (bmap_spec (E := (· = .outOfBlocks)) hgood ht hbn rfl).mono ?_
  rintro ⟨addr, d', e'⟩ ⟨hg, hk, rfl, h0⟩
  have hg' := hg.good
  have hti : (update d.dinode i e' i).type ≠ .free := by
    rw [update_self, hg.info]
    exact ht
  have hb : blockOf d'.block (update d.dinode i e' i) bn ≠ 0 := by rwa [update_self]
  -- the map of the inode does not depend on the block that is written
  have hmap : ∀ bm, blockOf (update d'.block (blockOf d'.block e' bn) (v d' (blockOf d'.block e' bn))) e' bm = blockOf d'.block e' bm := by
    intro bm
    have := (hg'.blockOf_ne_indirect hti hti hb).symm
    rw [update_self] at this
    exact blockOf_congr fun _ => update_of_ne this ..
  refine ⟨⟨⟨?_, hg.sb, hg.dinode, hg.info, fun j hji hj => ?_⟩, fun bm hbm => ?_⟩, ?_⟩
  · have := hg'.store (v := v d' (blockOf d'.block e' bn)) hti hb
    rwa [update_self] at this
  · refine (hg.others j hji hj).trans ?_
    have := hg'.keeps_store (v := v d' (blockOf d'.block e' bn)) hti hb (j := j) (by rwa [update_of_ne hji]) hji
    rwa [update_self, update_of_ne hji] at this
  · rw [hmap, (hk bm hbm).1]
    exact hbm
  · rwa [hmap]

theorem writeiLoop_spec (hgood : Good d (update d.dinode i e)) (ht : e.type ≠ .free)
    (hmap : ∀ bn, bn * BSIZE < off → blockOf d.block e bn ≠ 0) (hn : off + n ≤ MAXFILE * BSIZE) :
    Post (· = .outOfBlocks) (writeiLoop src fuel d e off tot n) fun (tot', d', e') => tot ≤ tot' ∧ tot' ≤ tot + n ∧ Extended i d e d' e' ∧
        ∀ bn, bn * BSIZE < off + (tot' - tot) → blockOf d'.block e' bn ≠ 0 := by
  induction fuel generalizing d e off tot n with
  | zero => exact ⟨le_rfl, Nat.le_add_right .., ⟨.refl hgood, fun _ h => h⟩, by simpa using hmap⟩
  | succ fuel ih =>
    unfold writeiLoop
    split
    · exact ⟨le_rfl, Nat.le_add_right .., ⟨.refl hgood, fun _ h => h⟩, by simpa using hmap⟩
    rename_i hn0
    have hB : 0 < BSIZE := by decide
    refine (bmap_store_spec (v := fun d' addr => store (d'.block addr) (off % BSIZE)
      (src tot (min n (BSIZE - off % BSIZE))).1) hgood ht (div_lt_maxfile hn0 hn)).bind ?_
    rintro ⟨addr, d', e'⟩ ⟨hext, hnew⟩
    have hmod := Nat.mod_lt off hB
    have hdiv := Nat.div_add_mod off BSIZE
    -- the blocks below the new offset: those below the old one, and the new one
    have hmap' : ∀ bn, bn * BSIZE < off + min n (BSIZE - off % BSIZE) → blockOf (update d'.block addr (store (d'.block addr) (off % BSIZE)
          (src tot (min n (BSIZE - off % BSIZE))).1)) e' bn ≠ 0 := by
      intro bn hlt
      by_cases hbnlt : bn < off / BSIZE
      · refine hext.2 bn (hmap bn ?_)
        have := Nat.mul_lt_mul_of_pos_right hbnlt hB
        rw [Nat.mul_comm (off / BSIZE)] at this
        omega
      · have : bn = off / BSIZE := by
          refine Nat.le_antisymm (Nat.lt_succ_iff.mp ?_) (Nat.le_of_not_lt hbnlt)
          refine Nat.lt_of_mul_lt_mul_right (a := BSIZE) ?_
          rw [Nat.succ_mul, Nat.mul_comm (off / BSIZE)]
          omega
        rwa [this]
    dsimp only
    split
    · obtain ⟨hgood', ht'⟩ := hext.1.next ht
      refine (ih hgood' ht' hmap' (by omega)).mono ?_
      rintro ⟨tot', d'', e''⟩ ⟨hle, hle', hext', hmap''⟩
      refine ⟨by omega, by omega, hext.trans hext', fun bn hbn => hmap'' bn ?_⟩
      omega
    · refine ⟨le_rfl, Nat.le_add_right .., hext, fun bn hbn => hmap' bn ?_⟩
      omega

theorem Good.resize {n : ℕ} (hgood : Good d (update ino i e))
    (hdense : Dense d.block { e with size := n }) : Good d (update ino i { e with size := n }) := by
  have htype : ∀ j, (update ino i { e with size := n } j).type = (update ino i e j).type :=
    forall_update₂ (P := fun _ a b => Dinode.type a = Dinode.type b) (by rfl) fun _ _ => rfl
  refine ⟨hgood.layout, hgood.excl.congr (fun r => ?_) fun _ => Iff.rfl, fun j hj => hgood.range j (htype j ▸ hj), fun j hj => ?_⟩
  · cases r with
    | system b => rfl
    | of j p =>
      exact owner_congr (htype j) fun _ => forall_update₂ (P := fun _ a b => p.ref d.block a = p.ref d.block b)
        (by cases p <;> rfl) (fun _ _ => rfl) j
  · by_cases hji : j = i
    · rwa [hji, update_self]
    · rw [htype] at hj
      have := hgood.dense j hj
      rwa [update_of_ne hji] at this ⊢

theorem iupdate_dinode_self : (iupdate d i e).dinode i = e := update_self ..

theorem iupdate_dinode_of_ne (h : j ≠ i) : (iupdate d i e).dinode j = d.dinode j :=
  update_of_ne h ..

theorem Good.iupdate (hgood : Good d ino) : Good (FileSys.iupdate d i e) ino :=
  { hgood with }

/-- Between `d` and `d'` inode `i` has been written, and become `e`. -/
structure Rewritten (i : ℕ) (d d' : Disk) (e : Dinode) : Prop where
  good : Good d' d'.dinode
  sb : d'.sb = d.sb
  dinode : d'.dinode = update d.dinode i e
  info : e = { d.dinode i with addrs := e.addrs, size := e.size }
  others : ∀ j, j ≠ i → (d.dinode j).type ≠ .free →
    Keeps d.block (d.dinode j) d'.block (d.dinode j)

theorem Rewritten.refl (hgood : Good d d.dinode) : Rewritten i d d (d.dinode i) :=
  ⟨hgood, rfl, (update_eq_self ..).symm, rfl, fun _ _ _ => Keeps.refl⟩

/-- **`writei` keeps the disk in order**, also if it fails on the way. -/
theorem writei_spec {off n : ℕ} (hgood : Good d d.dinode) (ht : (d.dinode i).type ≠ .free) (hn : n < 2 ^ 32) :
    Post (· = .outOfBlocks) (writei d i (d.dinode i) src off n) fun (_, d', e') => Rewritten i d d' e' := by
  unfold writei
  split
  · exact .refl hgood
  next hoff =>
  split
  · exact .refl hgood
  next hend =>
  have hdense := hgood.dense i ht
  have hmax : MAXFILE * BSIZE < 2 ^ 32 := by decide
  have hsize := hdense.size
  have hle : off + n ≤ MAXFILE * BSIZE := by omega
  have hgood' : Good d (update d.dinode i (d.dinode i)) := by rwa [update_eq_self]
  refine (writeiLoop_spec hgood' ht (fun bn hbn => hdense.mapped bn (by omega)) hle).bind ?_
  rintro ⟨tot, d', e'⟩ ⟨-, hn', hext, hmap⟩
  have hg := hext.1.good
  -- the size goes no further than what has been written
  have hfinal : ∀ e'', e'' = { e' with size := e''.size } →
      (e''.size = e'.size ∨ e''.size = off + tot) → Rewritten i d (FileSys.iupdate d' i e'') e'' := by
    intro e'' heq hcase
    have hdense' : Dense d'.block e'' := by
      have hti : (update d.dinode i e' i).type ≠ .free := by
        rw [update_self, hext.1.info]
        exact ht
      have hd' := hg.dense i hti
      rw [update_self] at hd'
      have hblock : ∀ bn, blockOf d'.block e'' bn = blockOf d'.block e' bn := by
        intro bn
        rw [heq]
        rfl
      rcases hcase with hs | hs
      · exact hd'.mono hs fun bn hbn => hblock bn ▸ hbn
      · refine ⟨by omega, fun bn hbn => ?_⟩
        rw [hblock]
        exact hmap bn (by omega)
    have hdin : (FileSys.iupdate d' i e'').dinode = update d.dinode i e'' := by
      rw [FileSys.iupdate, hext.1.dinode]
    refine ⟨?_, hext.1.sb, hdin, ?_, hext.1.others⟩
    · have := hg.resize (n := e''.size) (heq ▸ hdense')
      rw [← heq] at this
      rw [hdin]
      exact this.iupdate
    · rw [heq, hext.1.info]
  dsimp only
  split
  · exact hfinal _ rfl (.inr rfl)
  · exact hfinal _ rfl (.inl rfl)

/-! ### Reading -/

theorem readiLoop_spec {dst : ℕ → ℕ → Bool} (hmap : ∀ bn, bn * BSIZE < off + n → blockOf d.block e bn ≠ 0) :
    ∃ r, readiLoop dst fuel d e off tot n = .ok (r, d, e) := by
  induction fuel generalizing off tot n with
  | zero => exact ⟨_, rfl⟩
  | succ fuel ih =>
    unfold readiLoop
    split
    · exact ⟨_, rfl⟩
    rename_i hn
    have hB : 0 < BSIZE := by decide
    have hdiv := Nat.div_add_mod off BSIZE
    have h0 : blockOf d.block e (off / BSIZE) ≠ 0 := by
      refine hmap _ ?_
      rw [Nat.mul_comm]
      omega
    rw [bmap_of_ne h0]
    change ∃ r, (if dst tot _ = true then _ else _) = _
    split
    · obtain ⟨r, hr⟩ := @ih (off + min n (BSIZE - off % BSIZE)) (tot + min n (BSIZE - off % BSIZE)) (n - min n (BSIZE - off % BSIZE))
        fun bn hbn => hmap bn (by omega)
      rw [hr]
      exact ⟨_, rfl⟩
    · exact ⟨_, rfl⟩

/-- **`readi` of a file without holes changes nothing**, and does not panic. -/
theorem readi_spec {n : ℕ} (dst : ℕ → ℕ → Bool) (off : ℕ) (hdense : Dense d.block e) (hn : n < 2 ^ 32) :
    ∃ r, readi d e dst off n = .ok (r, d, e) := by
  unfold readi
  split
  · exact ⟨_, rfl⟩
  · next hoff =>
    have hmax : MAXFILE * BSIZE < 2 ^ 32 := by decide
    have hsize := hdense.size
    refine readiLoop_spec fun bn hbn => hdense.mapped bn ?_
    split at hbn <;> omega

/-! ### Other changes of inodes -/

theorem Good.congr {ino' : ℕ → Dinode} (hgood : Good d ino) (htype : ∀ j, (ino' j).type = (ino j).type) (hsize : ∀ j, (ino' j).size = (ino j).size)
    (haddrs : ∀ j, (ino' j).addrs = (ino j).addrs) : Good d ino' := by
  have href : ∀ (p : Place) j, p.ref d.block (ino' j) = p.ref d.block (ino j) := by
    intro p j
    cases p <;> simp only [Place.ref, haddrs]
  refine ⟨hgood.layout, hgood.excl.congr (fun r => ?_) fun _ => Iff.rfl, fun j hj => hgood.range j (htype j ▸ hj), fun j hj => ?_⟩
  · cases r with
    | system b => rfl
    | of j p => exact owner_congr (htype j) fun _ => href p j
  · refine (hgood.dense j (htype j ▸ hj)).mono (hsize j) fun bn hbn => ?_
    rw [blockOf] at hbn ⊢
    split at hbn
    · next h => rwa [dif_pos h, href]
    · exact absurd rfl hbn

theorem Good.setType (hgood : Good d ino) (hold : (ino i).type = .free ∨ ∀ p : Place, p.ref d.block (ino i) = 0)
    (hnew : e.type = .free ∨ (∀ p : Place, p.ref d.block e = 0) ∧ e.size = 0 ∧ 1 ≤ i ∧ i < d.sb.ninodes) : Good d (update ino i e) := by
  have hnone : ∀ {ino' : ℕ → Dinode} (p : Place), (ino' i).type = .free ∨ p.ref d.block (ino' i) = 0 →
        owner d.sb d.block ino' (.of i p) = none := fun p h => if_pos h
  refine ⟨hgood.layout, hgood.excl.congr (fun r => ?_) fun _ => Iff.rfl, fun j hj => ?_, fun j hj => ?_⟩
  · cases r with
    | system b => rfl
    | of j p =>
      by_cases hji : j = i
      · rw [hji, hnone p (hold.imp id fun h => h p), hnone p]
        rw [update_self]
        exact hnew.imp id fun h => h.1 p
      · exact owner_congr (by rw [update_of_ne hji]) fun _ => by rw [update_of_ne hji]
  · by_cases hji : j = i
    · rw [hji, update_self] at hj
      rw [hji]
      exact (hnew.resolve_left hj).2.2
    · rw [update_of_ne hji] at hj
      exact hgood.range j hj
  · by_cases hji : j = i
    · rw [hji, update_self] at hj ⊢
      have := (hnew.resolve_left hj).2.1
      exact ⟨by omega, fun bn hbn => by omega⟩
    · rw [update_of_ne hji] at hj ⊢
      exact hgood.dense j hj

end Xv6.FileSys
