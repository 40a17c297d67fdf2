import Xv6.Fs.Rewrite
import Xv6.Fs.Format
import Mathlib.Data.Finset.Card
import Mathlib.Data.Finset.Dedup

/-!
# The blocks of a transaction

A transaction may pass `MAXOPBLOCKS` different blocks to `log_write`, and `filewrite` chooses the length of its chunks
accordingly. Here `writei` and what it calls are once more, with the numbers of the blocks that they log: the data, a block
of the bitmap for every block that is allocated, the indirect block and that of the inode. A chunk that does not begin
with a block has one more block of data, but the first one is no hole.
-/

namespace Xv6.FileSys

open Lib Function

open Logging (Block getWord setWord)

open List (length_append mem_append mem_cons mem_cons_self mem_singleton)

/-! ### What is logged -/

def bblock (sb : Superblock) (b : ℕ) : ℕ := b / (BSIZE * 8) + sb.bmapstart

/-- `balloc`, with the blocks that it logs: a block of the bitmap, and the block itself, which `bzero` clears. -/
def ballocLogged (d : Disk) : Except Panic (List ℕ × ℕ × Disk) := do
  let (b, d) ← balloc d
  .ok ([bblock d.sb b, b], b, d)

/-- The part of `bmap` that looks for the indirect block, with the blocks that it logs. -/
def bmapIndirectLogged (d : Disk) (ip : Dinode) : Except Panic (List ℕ × Disk × Dinode) :=
  if ip.addrs NDIRECT = 0 then do
    let (l, addr, d) ← ballocLogged d
    .ok (l, d, { ip with addrs := update ip.addrs NDIRECT addr })
  else .ok ([], d, ip)

def bmapLogged (d : Disk) (ip : Dinode) (bn : ℕ) : Except Panic (List ℕ × ℕ × Disk × Dinode) :=
  if bn < NDIRECT then
    if ip.addrs bn = 0 then do
      let (l, addr, d) ← ballocLogged d
      .ok (l, addr, d, { ip with addrs := update ip.addrs bn addr })
    else .ok ([], ip.addrs bn, d, ip)
  else if bn - NDIRECT < NINDIRECT then do
    let (l, d, ip) ← bmapIndirectLogged d ip
    let ind := ip.addrs NDIRECT
    if getWord (d.block ind) (bn - NDIRECT) = 0 then do
      let (l', addr, d) ← ballocLogged d
      let a := setWord (d.block ind) (bn - NDIRECT) addr
      .ok (l ++ l' ++ [ind], addr, { d with block := update d.block ind a }, ip)
    else .ok (l, getWord (d.block ind) (bn - NDIRECT), d, ip)
  else .error .bmap

def writeiLoopLogged (src : ℕ → ℕ → List UInt8 × Bool) : ℕ → Disk → Dinode → ℕ → ℕ → ℕ →
    Except Panic (List ℕ × ℕ × Disk × Dinode)
  | 0, d, ip, _, tot, _ => .ok ([], tot, d, ip)
  | fuel + 1, d, ip, off, tot, n =>
    if n = 0 then .ok ([], tot, d, ip)
    else do
      let (l, addr, d, ip) ← bmapLogged d ip (off / BSIZE)
      let m := min n (BSIZE - off % BSIZE)
      let (bs, ok) := src tot m
      let d := { d with block := update d.block addr (store (d.block addr) (off % BSIZE) bs) }
      if ok then do
        let (l', r) ← writeiLoopLogged src fuel d ip (off + m) (tot + m) (n - m)
        .ok (l ++ addr :: l', r)
      else .ok (l, tot, d, ip)

/-- `writei`, with the blocks that it logs. The inodes begin with block `inodestart`. -/
def writeiLogged (inodestart : ℕ) (d : Disk) (inum : ℕ) (ip : Dinode) (src : ℕ → ℕ → List UInt8 × Bool) (off n : ℕ) :
    Except Panic (List ℕ × Option ℕ × Disk × Dinode) :=
  if off > ip.size ∨ (off + n) % 2 ^ 32 < off then .ok ([], none, d, ip)
  else if (off + n) % 2 ^ 32 > MAXFILE * BSIZE then .ok ([], none, d, ip)
  else do
    let (l, tot, d, ip) ← writeiLoopLogged src n d ip off 0 n
    let ip := if off + tot > ip.size then { ip with size := off + tot } else ip
    .ok (l ++ [iblock inodestart inum], some tot, iupdate d inum ip, ip)

variable {d d' : Disk} {i b bn off n tot fuel : ℕ} {e e' : Dinode} {src : ℕ → ℕ → List UInt8 × Bool} {l : List ℕ}

/-! ### They are the same functions -/

theorem ballocLogged_erase (d : Disk) : (ballocLogged d).map Prod.snd = balloc d := by
  rw [ballocLogged]
  cases balloc d <;> rfl

theorem bmapIndirectLogged_erase (d : Disk) (e : Dinode) : (bmapIndirectLogged d e).map Prod.snd = bmapIndirect d e := by
  rw [bmapIndirectLogged, bmapIndirect, ballocLogged]
  split
  · cases balloc d <;> rfl
  · rfl

theorem bmapLogged_erase (d : Disk) (e : Dinode) (bn : ℕ) : (bmapLogged d e bn).map Prod.snd = bmap d e bn := by
  rw [bmapLogged, bmap, ballocLogged]
  split
  · split
    · cases balloc d <;> rfl
    · rfl
  split
  · rw [← bmapIndirectLogged_erase]
    cases bmapIndirectLogged d e with
    | error err => rfl
    | ok q =>
      obtain ⟨l, d₁, e₁⟩ := q
      rw [show Except.map Prod.snd (.ok (l, d₁, e₁) : Except Panic _) = .ok (d₁, e₁) from rfl, ok_bind, ok_bind]
      dsimp only
      by_cases h0 : getWord (d₁.block (e₁.addrs NDIRECT)) (bn - NDIRECT) = 0
      · rw [if_pos h0, if_pos h0, ballocLogged]
        cases balloc d₁ <;> rfl
      · rw [if_neg h0, if_neg h0]
        rfl
  · rfl

theorem writeiLoopLogged_erase (src : ℕ → ℕ → List UInt8 × Bool) (fuel : ℕ) (d : Disk) (e : Dinode) (off tot n : ℕ) :
    (writeiLoopLogged src fuel d e off tot n).map Prod.snd = writeiLoop src fuel d e off tot n := by
  induction fuel generalizing d e off tot n with
  | zero => rfl
  | succ fuel ih =>
    rw [writeiLoopLogged, writeiLoop]
    split
    · rfl
    rw [← bmapLogged_erase]
    cases bmapLogged d e (off / BSIZE) with
    | error err => rfl
    | ok q =>
      obtain ⟨l, addr, d₁, e₁⟩ := q
      rw [show Except.map Prod.snd (.ok (l, addr, d₁, e₁) : Except Panic _) = .ok (addr, d₁, e₁) from rfl, ok_bind, ok_bind]
      dsimp only
      by_cases hok : (src tot (min n (BSIZE - off % BSIZE))).2 = true
      · rw [if_pos hok, if_pos hok, ← ih]
        cases writeiLoopLogged src fuel _ _ _ _ _ <;> rfl
      · rw [if_neg hok, if_neg hok]
        rfl

theorem writeiLogged_erase (inodestart : ℕ) (d : Disk) (i : ℕ) (e : Dinode) (src : ℕ → ℕ → List UInt8 × Bool) (off n : ℕ) :
    (writeiLogged inodestart d i e src off n).map Prod.snd = writei d i e src off n := by
  rw [writeiLogged, writei]
  split
  · rfl
  · split
    · rfl
    · rw [← writeiLoopLogged_erase]
      cases writeiLoopLogged src n d e off 0 n <;> rfl

/-! ### How many they are -/

theorem of_ballocLogged (h : ballocLogged d = .ok (l, b, d')) : balloc d = .ok (b, d') ∧ l = [bblock d.sb b, b] := by
  obtain ⟨⟨x, d₁⟩, hb, h⟩ := of_bind_eq_ok h
  cases h
  obtain ⟨-, -, rfl⟩ := (balloc_spec (E := fun _ => True) trivial).of_ok hb
  exact ⟨hb, rfl⟩

theorem bmapIndirectLogged_spec (hgood : Good d (update d.dinode i e)) (h : bmapIndirectLogged d e = .ok (l, d', e')) :
    ∃ bm : List ℕ, (∀ v ∈ l, v ∈ bm ∨ v ≠ 0 ∧ v = e'.addrs NDIRECT) ∧ bm.length + e'.lacks MAXFILE ≤ e.lacks MAXFILE ∧
      e'.addrs NDIRECT ≠ 0 ∧ (e.addrs NDIRECT ≠ 0 → e' = e ∧ d' = d) := by
  rw [bmapIndirectLogged] at h
  by_cases h0 : e.addrs NDIRECT = 0
  · rw [if_pos h0] at h
    obtain ⟨⟨l₁, b₁, d₁⟩, hb, h⟩ := of_bind_eq_ok h
    cases h
    obtain ⟨hfree, rfl⟩ := of_ballocLogged hb
    have hb0 : b₁ ≠ 0 := hgood.ne_zero ((balloc_spec (E := fun _ => True) trivial).of_ok hfree).1
    have hnew : update e.addrs NDIRECT b₁ NDIRECT = b₁ := update_self ..
    have hhas : Dinode.lacks { e with addrs := update e.addrs NDIRECT b₁ } MAXFILE = 0 := by
      change (if NDIRECT < MAXFILE ∧ update e.addrs NDIRECT b₁ NDIRECT = 0 then 1 else 0) = 0
      rw [hnew, if_neg fun h => hb0 h.2]
    have hlacks : e.lacks MAXFILE = 1 := if_pos ⟨by decide, h0⟩
    refine ⟨[bblock d.sb b₁], ?_, by rw [hhas, hlacks]; exact le_rfl, hnew.trans_ne hb0, fun hne => absurd h0 hne⟩
    intro v hv
    rcases List.mem_cons.mp hv with rfl | hv
    · exact .inl mem_cons_self
    · obtain rfl := List.mem_singleton.mp hv
      exact .inr ⟨hb0, hnew.symm⟩
  · rw [if_neg h0] at h
    cases h
    exact ⟨[], by simp, by simp, h0, fun _ => ⟨rfl, rfl⟩⟩

theorem bmapLogged_spec (hgood : Good d (update d.dinode i e)) (h : bmapLogged d e bn = .ok (l, b, d', e')) :
    ∃ bm : List ℕ, (∀ v ∈ l, v = b ∨ v ∈ bm ∨ v ≠ 0 ∧ v = e'.addrs NDIRECT) ∧
      bm.length + e'.lacks MAXFILE ≤ (if blockOf d.block e bn = 0 then 1 else 0) + e.lacks MAXFILE ∧
      (e.addrs NDIRECT ≠ 0 → e'.addrs NDIRECT = e.addrs NDIRECT) := by
  rw [bmapLogged] at h
  by_cases hdir : bn < NDIRECT
  · rw [if_pos hdir] at h
    rw [blockOf_of_lt hdir]
    by_cases h0 : e.addrs bn = 0
    · rw [if_pos h0] at h
      obtain ⟨⟨l₁, b₁, d₁⟩, hb, h⟩ := of_bind_eq_ok h
      cases h
      obtain ⟨-, rfl⟩ := of_ballocLogged hb
      refine ⟨[bblock d.sb b], by simp, ?_, fun _ => update_of_ne hdir.ne' ..⟩
      have hsame : Dinode.lacks { e with addrs := update e.addrs bn b } MAXFILE = e.lacks MAXFILE := by
        change (if NDIRECT < MAXFILE ∧ update e.addrs bn b NDIRECT = 0 then 1 else 0) = _
        rw [update_of_ne hdir.ne']
        rfl
      rw [if_pos h0, hsame]
      exact le_rfl
    · rw [if_neg h0] at h
      cases h
      exact ⟨[], by simp, by simp, fun _ => rfl⟩
  rw [if_neg hdir] at h
  by_cases hind : bn - NDIRECT < NINDIRECT
  · rw [if_pos hind] at h
    obtain ⟨⟨l₁, d₁, e₁⟩, h₁, h⟩ := of_bind_eq_ok h
    obtain ⟨bm, hl₁, hcount, hne, hsame⟩ := bmapIndirectLogged_spec hgood h₁
    have hkeep : e.addrs NDIRECT ≠ 0 → e₁.addrs NDIRECT = e.addrs NDIRECT := fun h => by rw [(hsame h).1]
    dsimp only at h
    by_cases h0 : getWord (d₁.block (e₁.addrs NDIRECT)) (bn - NDIRECT) = 0
    · rw [if_pos h0] at h
      obtain ⟨⟨l₂, b₂, d₂⟩, hb, h⟩ := of_bind_eq_ok h
      cases h
      obtain ⟨-, rfl⟩ := of_ballocLogged hb
      have hhole : blockOf d.block e bn = 0 := by
        by_cases hz : e.addrs NDIRECT = 0
        · exact blockOf_of_lacks (Nat.le_of_not_lt hdir) hz
        · obtain ⟨rfl, rfl⟩ := hsame hz
          rw [blockOf_of_ge (by omega) hind hz]
          exact h0
      refine ⟨bm ++ [bblock d₁.sb b₂], ?_, ?_, hkeep⟩
      · intro v hv
        rw [mem_append, mem_append] at hv
        rcases hv with (hv | hv) | hv
        · rcases hl₁ v hv with hv | hv
          · exact .inr (.inl (List.mem_append_left _ hv))
          · exact .inr (.inr hv)
        · rcases List.mem_cons.mp hv with rfl | hv
          · exact .inr (.inl (List.mem_append_right _ mem_cons_self))
          · exact .inl (List.mem_singleton.mp hv)
        · obtain rfl := List.mem_singleton.mp hv
          exact .inr (.inr ⟨hne, rfl⟩)
      · rw [if_pos hhole, length_append, List.length_singleton]
        omega
    · rw [if_neg h0] at h
      cases h
      refine ⟨bm, fun v hv => .inr (hl₁ v hv), by omega, hkeep⟩
  · rw [if_neg hind] at h
    cases h

def spanned (off n : ℕ) : ℕ := if n = 0 then 0 else (off % BSIZE + n + BSIZE - 1) / BSIZE

theorem spanned_round (off : ℕ) (hn : n ≠ 0) : spanned (off + min n (BSIZE - off % BSIZE)) (n - min n (BSIZE - off % BSIZE)) + 1 ≤ spanned off n := by
  have hB : BSIZE = 1024 := rfl
  rw [spanned, spanned, if_neg hn]
  split
  · rw [hB]
    omega
  · rw [hB] at *
    omega

/-- What the loop of `writei` logs: a block for every round, perhaps the indirect block, and a block of the bitmap for every block that is
new. -/
theorem writeiLoopLogged_spec {r : ℕ} (hgood : Good d (update d.dinode i e)) (ht : e.type ≠ .free) (hn : off + n ≤ MAXFILE * BSIZE)
    (h : writeiLoopLogged src fuel d e off tot n = .ok (l, r, d', e')) :
    ∃ data bm : List ℕ, (∀ v ∈ l, v ∈ data ∨ v ∈ bm ∨ v ≠ 0 ∧ v = e'.addrs NDIRECT) ∧ data.length ≤ spanned off n ∧
      bm.length + e'.lacks MAXFILE ≤ spanned off n + e.lacks MAXFILE ∧
      (blockOf d.block e (off / BSIZE) ≠ 0 → n ≠ 0 → bm.length + e'.lacks MAXFILE + 1 ≤ spanned off n + e.lacks MAXFILE) ∧
      (e.addrs NDIRECT ≠ 0 → e'.addrs NDIRECT = e.addrs NDIRECT) := by
  induction fuel generalizing d e off tot n l with
  | zero =>
    cases h
    refine ⟨[], [], by simp, by simp, by simp, fun _ hn0 => ?_, fun _ => rfl⟩
    have := spanned_round off hn0
    rw [List.length_nil]
    omega
  | succ fuel ih =>
    rw [writeiLoopLogged] at h
    by_cases hn0 : n = 0
    · rw [if_pos hn0] at h
      cases h
      exact ⟨[], [], by simp, by simp, by simp, fun _ hne => absurd hn0 hne, fun _ => rfl⟩
    rw [if_neg hn0] at h
    obtain ⟨⟨l₁, b, d₁, e₁⟩, h₁, h⟩ := of_bind_eq_ok h
    have hspan := spanned_round off hn0
    obtain ⟨bm₁, hl₁, hcount₁, hkeep₁⟩ := bmapLogged_spec hgood h₁
    have hbmap : bmap d e (off / BSIZE) = .ok (b, d₁, e₁) := by
      rw [← bmapLogged_erase, h₁]
      rfl
    obtain ⟨⟨hg₂, -⟩, -⟩ := (bmap_store_spec (v := fun d' addr => store (d'.block addr) (off % BSIZE)
      (src tot (min n (BSIZE - off % BSIZE))).1) hgood ht (div_lt_maxfile hn0 hn)).of_ok hbmap
    have hhole : (if blockOf d.block e (off / BSIZE) = 0 then 1 else 0) ≤ 1 := by split <;> decide
    dsimp only at h
    by_cases hok : (src tot (min n (BSIZE - off % BSIZE))).2 = true
    · rw [if_pos hok] at h
      obtain ⟨⟨l₂, q⟩, h₂, h⟩ := of_bind_eq_ok h
      cases h
      obtain ⟨hgood₂, ht₂⟩ := hg₂.next ht
      obtain ⟨data, bm, hl, hdata, hcount, -, hkeep⟩ := ih hgood₂ ht₂ (by omega) h₂
      refine ⟨b :: data, bm₁ ++ bm, fun v hv => ?_, by rw [List.length_cons]; omega, ?_, fun hmapped _ => ?_, fun hne => ?_⟩
      · rcases List.mem_append.mp hv with hv | hv
        · rcases hl₁ v hv with rfl | hv | ⟨hv0, hv⟩
          · exact .inl mem_cons_self
          · exact .inr (.inl (List.mem_append_left _ hv))
          · exact .inr (.inr ⟨hv0, hv.trans (hkeep (hv ▸ hv0)).symm⟩)
        · rcases List.mem_cons.mp hv with rfl | hv
          · exact .inl mem_cons_self
          · rcases hl v hv with hv | hv | hv
            · exact .inl (List.mem_cons_of_mem _ hv)
            · exact .inr (.inl (List.mem_append_right _ hv))
            · exact .inr (.inr hv)
      · rw [length_append]
        omega
      · rw [if_neg hmapped] at hcount₁
        rw [length_append]
        omega
      · rw [hkeep (by rwa [hkeep₁ hne]), hkeep₁ hne]
    · rw [if_neg hok] at h
      cases h
      refine ⟨[b], bm₁, fun v hv => ?_, by rw [List.length_singleton]; omega, by omega, fun hmapped _ => ?_, hkeep₁⟩
      · exact (hl₁ v hv).imp_left fun hv => List.mem_singleton.mpr hv
      · rw [if_neg hmapped] at hcount₁
        omega

/-- **A chunk of `filewrite` logs at most `MAXOPBLOCKS` blocks**, wherever it begins and however much of it can be copied. -/
theorem writeiLogged_card {inodestart : ℕ} {r : Option ℕ} (hgood : Good d (update d.dinode i e)) (ht : e.type ≠ .free)
    (hn : n ≤ Prog.maxChunk) (h : writeiLogged inodestart d i e src off n = .ok (l, r, d', e')) : l.toFinset.card ≤ MAXOPBLOCKS := by
  have hB : BSIZE = 1024 := rfl
  have hM : MAXOPBLOCKS = 10 := rfl
  have hC : Prog.maxChunk = 3 * 1024 := rfl
  have hmax : MAXFILE * BSIZE < 2 ^ 31 := by decide
  have hdense : Dense d.block e := by
    have := hgood.dense i (by rwa [update_self])
    rwa [update_self] at this
  have hsize := hdense.size
  rw [writeiLogged] at h
  by_cases hoff : off > e.size ∨ (off + n) % 2 ^ 32 < off
  · rw [if_pos hoff] at h
    cases h
    exact Nat.zero_le _
  rw [if_neg hoff] at h
  by_cases hend : (off + n) % 2 ^ 32 > MAXFILE * BSIZE
  · rw [if_pos hend] at h
    cases h
    exact Nat.zero_le _
  rw [if_neg hend] at h
  obtain ⟨⟨l₁, tot, d₁, e₁⟩, hloop, h⟩ := of_bind_eq_ok h
  cases h
  obtain ⟨data, bm, hl, hdata, hcount, hmapped, -⟩ := writeiLoopLogged_spec hgood ht (show off + n ≤ MAXFILE * BSIZE by omega) hloop
  have hlacks : e.lacks MAXFILE ≤ 1 := by
    rw [Dinode.lacks]
    split <;> decide
  -- everything that is logged
  have hsub : (l₁ ++ [iblock inodestart i]).toFinset ⊆ (data ++ (bm ++ [e₁.addrs NDIRECT, iblock inodestart i])).toFinset := by
    intro v hv
    rw [List.mem_toFinset] at hv ⊢
    simp only [mem_append, mem_cons, List.not_mem_nil, or_false] at hv ⊢
    rcases hv with hv | hv
    · rcases hl v hv with hv | hv | ⟨-, hv⟩
      · exact .inl hv
      · exact .inr (.inl hv)
      · exact .inr (.inr (.inl hv))
    · exact .inr (.inr (.inr hv))
  refine (Finset.card_le_card hsub).trans ((List.toFinset_card_le _).trans ?_)
  rw [length_append, length_append, List.length_cons, List.length_singleton]
  by_cases hn0 : n = 0
  · have h0 : spanned off n = 0 := if_pos hn0
    omega
  have hspan : spanned off n = (off % 1024 + n + 1024 - 1) / 1024 := if_neg hn0
  by_cases haligned : off % 1024 = 0
  · omega
  -- the first block is there, because the file reaches into it
  have hfirst : blockOf d.block e (off / BSIZE) ≠ 0 := by
    refine hdense.mapped _ ?_
    rw [hB]
    omega
  have := hmapped hfirst hn0
  omega

/-! ### The transactions of a write -/

/-- Whatever inode of whatever disk without holes is written, at most `MAXOPBLOCKS` blocks are logged. -/
def Fits (src : ℕ → ℕ → List UInt8 × Bool) (off n : ℕ) : Prop :=
  ∀ inodestart d i e l r d' e', Good d (update d.dinode i e) → e.type ≠ .free →
    writeiLogged inodestart d i e src off n = .ok (l, r, d', e') → l.toFinset.card ≤ MAXOPBLOCKS

inductive Stretch
  | outside
  /-- In a transaction, and nothing was logged. -/
  | fresh
  /-- In a transaction, after the one `writei`. -/
  | written

namespace Stretch

/-- What an action asks for: in a transaction there is one `writei`, which fits, and no other action that logs anything. -/
def Pre : {β : Type} → Act β → Stretch → Prop
  | _, .beginOp, .outside => True
  | _, .endOp, .fresh => True
  | _, .endOp, .written => True
  | _, .writei _ src off n, .fresh => Fits src off n
  | _, .ilock _, _ => True
  | _, .offset _, _ => True
  | _, .advance _ _, _ => True
  | _, .iunlock _, _ => True
  | _, _, _ => False

def Post : {β : Type} → Act β → Stretch → β → Stretch → Prop
  | _, .beginOp, _, _, w => w = .fresh
  | _, .endOp, _, _, w => w = .outside
  | _, .writei _ _ _ _, _, _, w => w = .written
  | _, _, v, _, w => w = v

end Stretch

def txns : Discipline Act Panic Stretch where
  pre := Stretch.Pre
  post := Stretch.Post
  stop e _ := e = .filewrite

theorem writeChunk_fits {f : FileId} {ip : Slot} (hn : n ≤ Prog.maxChunk) :
    (Prog.writeChunk f ip src n).Ok txns .outside fun _ w => w = .outside := by
  refine .act trivial ?_
  rintro _ w rfl
  refine .act trivial ?_
  rintro _ w rfl
  refine .act trivial ?_
  rintro off w rfl
  refine .act (fun _ _ _ _ _ _ _ _ hgood ht h => writeiLogged_card hgood ht hn h) ?_
  rintro r w rfl
  have hrest : (do Prog.iunlock ip; Prog.endOp; pure r : Prog (Option ℕ)).Ok txns .written fun _ w => w = .outside := by
    refine .act trivial ?_
    rintro _ w rfl
    refine .act trivial ?_
    rintro _ w rfl
    exact .ret rfl
  cases r with
  | none => exact hrest
  | some m =>
    refine .act trivial ?_
    rintro _ w rfl
    exact hrest

/-- **Every transaction of `filewrite` fits**, whatever is written to whatever file. -/
theorem filewrite_fits (f : FileId) (file : File) (user : ℕ → Option Logging.Page) (addr n : ℕ) :
    (Prog.filewrite f file user addr n).Ok txns .outside fun _ w => w = .outside := by
  have hloop : ∀ fuel i m, (Prog.filewriteLoop f file.ip user addr fuel i m).Ok txns .outside fun _ w => w = .outside := by
    intro fuel
    induction fuel with
    | zero => exact fun _ _ => .ret rfl
    | succ fuel ih =>
      intro i m
      rw [Prog.filewriteLoop]
      split
      · exact .ret rfl
      · refine (writeChunk_fits (Nat.min_le_right ..)).bind ?_
        rintro r w rfl
        split
        · exact ih ..
        · exact .ret rfl
  rw [Prog.filewrite]
  split
  · exact .ret rfl
  · split
    · exact .ret rfl
    · exact hloop ..
    · exact rfl

end Xv6.FileSys
