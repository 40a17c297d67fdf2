import Xv6.Log.Buffer
import Xv6.Lib.Redo
import Xv6.Lib.Word

/-!
# The log on disk

The first block of the log is its header, a count and that many block numbers, and the blocks after it are the contents
that belong there. A disk with a log stands for another disk, that `recover_from_log` is to make of it
(`Xv6.Logging.replay`).
-/

namespace Xv6.Logging

open Lib Function

/-! ### The header block -/

def getWord (hb : Block) (k : ℕ) : ℕ := getLE hb (4 * k) 4

def setWord (hb : Block) (k x : ℕ) : Block := setLE hb (4 * k) 4 x

/-- The block numbers in a header: `read_head`. The count is a signed `int`. -/
def header (hb : Block) : List ℕ :=
  (List.range (wrapInt 32 (getWord hb 0)).toNat).map fun i => getWord hb (i + 1)

def setBlocks : List ℕ → ℕ → Block → Block
  | [], _, hb => hb
  | b :: bs, k, hb => setBlocks bs (k + 1) (setWord hb k b)

/-- What `write_head` makes of the header block. The numbers past the count are left as
they are. -/
def setHeader (lh : List ℕ) (hb : Block) : Block := setBlocks lh 1 (setWord hb 0 lh.length)

section Words

variable {hb : Block} {k j x : ℕ} {bs : List ℕ}

theorem getWord_setWord (hk : k < 256) (hx : x < 2 ^ 32) : getWord (setWord hb k x) k = x :=
  getLE_setLE_of_lt hb (by simp only [BSIZE]; omega) (by omega)

theorem getWord_setWord_of_ne (h : j ≠ k) : getWord (setWord hb k x) j = getWord hb j :=
  getLE_setLE_of_disjoint hb x (by omega)

theorem getWord_setBlocks_of_lt (h : j < k) : getWord (setBlocks bs k hb) j = getWord hb j := by
  induction bs generalizing k hb with
  | nil => rfl
  | cons b bs ih =>
    rw [setBlocks, ih (by omega), getWord_setWord_of_ne (by omega)]

theorem getWord_setBlocks (hk : k + bs.length ≤ 256) (hbs : ∀ b ∈ bs, b < 2 ^ 32)
    {i : ℕ} (hi : i < bs.length) : getWord (setBlocks bs k hb) (k + i) = bs[i] := by
  induction bs generalizing k hb i with
  | nil => simp at hi
  | cons b bs ih =>
    rw [List.length_cons] at hk
    rw [setBlocks]
    cases i with
    | zero =>
      refine (getWord_setBlocks_of_lt (Nat.lt_succ_self k)).trans ?_
      exact getWord_setWord (by omega) (hbs b List.mem_cons_self)
    | succ i =>
      rw [← Nat.add_assoc, Nat.add_right_comm]
      exact ih (by omega) (fun b hb => hbs b (List.mem_cons_of_mem _ hb)) (by simpa using hi)

theorem header_setHeader {lh : List ℕ} (hn : lh.length ≤ LOGSIZE) (hlh : ∀ b ∈ lh, b < 2 ^ 32) : header (setHeader lh hb) = lh := by
  simp only [LOGSIZE, MAXOPBLOCKS] at hn
  have hcount : (wrapInt 32 (getWord (setHeader lh hb) 0)).toNat = lh.length := by
    rw [setHeader, getWord_setBlocks_of_lt Nat.one_pos, getWord_setWord (by omega) (by omega), wrapInt_eq (by omega) (by omega) (by omega)]
    exact Int.toNat_natCast _
  rw [header, hcount]
  refine List.ext_getElem (by simp) fun i hi hi' => ?_
  rw [List.getElem_map, List.getElem_range, Nat.add_comm i 1]
  exact getWord_setBlocks (by omega) hlh hi'

end Words

-- from here on a header is only what `header_setHeader` says of it
attribute [irreducible] header

/-! ### The disk a log stands for -/

def entries (start : ℕ) (d : ℕ → Block) : List (ℕ × Block) :=
  (header (d start)).mapIdx fun i b => (b, d (start + i + 1))

def replay (start : ℕ) (d : ℕ → Block) : ℕ → Block := install (entries start d) d

section Replay

variable {start : ℕ} {d c : ℕ → Block} {a b : ℕ}

theorem map_fst_entries : (entries start d).map Prod.fst = header (d start) := by
  refine List.ext_getElem (by simp [entries]) fun i hi hi' => ?_
  simp [entries]

theorem mem_entries {e : ℕ × Block} : e ∈ entries start d ↔
    ∃ i, ∃ h : i < (header (d start)).length, ((header (d start))[i], d (start + i + 1)) = e := by
  rw [entries, List.mem_mapIdx]

theorem replay_of_header_nil (h : header (d start) = []) : replay start d = d := by
  rw [replay, entries, h]
  rfl

/-- **The commit point.** Once the header is written, the disk stands for the one in
which every logged block has the contents in the log. -/
theorem replay_update_header {hb : Block} (hslot : ∀ i, ∀ h : i < (header hb).length, d (start + i + 1) = c (header hb)[i])
    (hb' : b ≠ start) (hd : b ∉ header hb → d b = c b) : replay start (update d start hb) b = c b := by
  refine install_apply_eq (fun e he => ?_) fun hb'' => ?_
  · obtain ⟨i, hi, rfl⟩ := mem_entries.mp he
    simp only [update_self] at hi ⊢
    rw [update_of_ne (by omega)]
    exact hslot i hi
  · rw [map_fst_entries, update_self] at hb''
    rw [update_of_ne hb', hd hb'']

/-- **Installing a block changes nothing**, nor does any other write to a block the log
has an entry for. -/
theorem replay_update_of_mem {v : Block} (ha : a ∈ header (d start)) (hstart : a ≠ start)
    (hslot : ∀ i < (header (d start)).length, a ≠ start + i + 1) : replay start (update d a v) = replay start d := by
  have hentries : entries start (update d a v) = entries start d := by
    rw [entries, entries, update_of_ne hstart.symm]
    refine List.mapIdx_eq_mapIdx_iff.mpr fun i hi => ?_
    rw [update_of_ne (hslot i hi).symm]
  rw [replay, hentries, install_update (by rwa [map_fst_entries]), replay]

theorem replay_of_installed (h : ∀ i, ∀ hi : i < (header (d start)).length, d (header (d start))[i] = d (start + i + 1)) : replay start d = d := by
  funext b
  refine install_apply_eq (fun e he => ?_) fun _ => rfl
  obtain ⟨i, hi, rfl⟩ := mem_entries.mp he
  exact (h i hi).symm

end Replay

end Xv6.Logging
