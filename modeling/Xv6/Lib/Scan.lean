import Mathlib.Data.Fintype.Card
import Mathlib.Data.Fin.Basic

/-!
# Counting a table that changes

A scan looks at the slots of a table one after the other and counts those in use. Slots are given out and given back
meanwhile, so the sum may be one that the table never had: a slot that was counted is given back, and another is given out
where the scan has yet to come. This is the only way to go wrong. Let `V` be the slots counted so far and the slots in use
that are still to come. If the scan was not overtaken from both sides (`Xv6.Lib.Scan.Allows`), then `V` is between the
number `N` of all slots in use and that at the beginning, and as `N` moves by one at a time, the sum is a number that the
table has had (`Xv6.Lib.Scan.Sound.mem_moments`).
-/

namespace Xv6.Lib

open Function

variable {n : ℕ} {u : Fin n → Bool} {i : Fin n} {k : ℕ}

/-! ### The slots from some place on -/

/-- The number of slots in use from `k` on. -/
def ahead (u : Fin n → Bool) (k : ℕ) : ℕ := (Finset.univ.filter fun i => k ≤ i.val ∧ u i = true).card

def inUse (u : Fin n → Bool) : ℕ := ahead u 0

theorem ahead_end : ahead u n = 0 := by
  rw [ahead, Finset.card_eq_zero, Finset.filter_eq_empty_iff]
  rintro i - ⟨hi, -⟩
  exact absurd i.isLt (by omega)

theorem ahead_eq_succ (h : k < n) : ahead u k = (if u ⟨k, h⟩ then 1 else 0) + ahead u (k + 1) := by
  split
  · rename_i hu
    have hins : Finset.univ.filter (fun i => k ≤ i.val ∧ u i = true) = insert ⟨k, h⟩ (Finset.univ.filter fun i => k + 1 ≤ i.val ∧ u i = true) := by
      ext i
      simp only [Finset.mem_filter, Finset.mem_univ, true_and, Finset.mem_insert]
      constructor
      · rintro ⟨hk, hi⟩
        by_cases hki : i = ⟨k, h⟩
        · exact .inl hki
        · have hne : i.val ≠ k := fun he => hki (Fin.ext he)
          exact .inr ⟨by omega, hi⟩
      · rintro (rfl | ⟨hk, hi⟩)
        · exact ⟨le_rfl, hu⟩
        · exact ⟨by omega, hi⟩
    rw [ahead, hins, Finset.card_insert_of_notMem, ahead, Nat.add_comm]
    simp
  · rename_i hu
    rw [Nat.zero_add]
    refine congrArg Finset.card (Finset.filter_congr fun i _ => ?_)
    refine and_congr_left fun hi => ⟨fun hk => ?_, fun hk => by omega⟩
    have hne : i.val ≠ k := by
      rintro rfl
      exact hu hi
    omega

theorem ahead_born (h : u i = false) : ahead (update u i true) k = ahead u k + if k ≤ i.val then 1 else 0 := by
  split
  · rename_i hk
    have hins : Finset.univ.filter (fun j => k ≤ j.val ∧ update u i true j = true) =
        insert i (Finset.univ.filter fun j => k ≤ j.val ∧ u j = true) := by
      ext j
      by_cases hj : j = i
      · subst hj
        simp [hk]
      · simp [hj]
    rw [ahead, hins, Finset.card_insert_of_notMem, ahead]
    simp [h]
  · rename_i hk
    refine congrArg Finset.card (Finset.filter_congr fun j _ => and_congr_right fun hj => ?_)
    have hne : j ≠ i := by
      rintro rfl
      exact hk hj
    rw [update_of_ne hne]

theorem ahead_freed (h : u i = true) : ahead (update u i false) k + (if k ≤ i.val then 1 else 0) = ahead u k := by
  have hborn := ahead_born (u := update u i false) (k := k) (update_self i false u)
  rw [update_idem, ← h, update_eq_self] at hborn
  exact hborn.symm

/-! ### Scans -/

/-- A scan of a table. From `first` on, the fields record what happens meanwhile. -/
structure Scan where
  /-- The slot that is looked at next. -/
  next : ℕ
  /-- The slots in use that were seen. -/
  count : ℕ
  first : ℕ
  /-- The slots in use at the moments since then, latest first. -/
  moments : List ℕ
  /-- A slot was given out that the scan had passed. -/
  bornBehind : Bool
  bornAhead : Bool
  /-- A slot was given back that the scan had passed. -/
  freedBehind : Bool
  /-- A slot was given back that the scan had not passed. -/
  freedAhead : Bool
  deriving DecidableEq, Repr

namespace Scan

variable {sc : Scan}

def start (u : Fin n → Bool) : Scan where
  next := 0
  count := 0
  first := inUse u
  moments := [inUse u]
  bornBehind := false
  bornAhead := false
  freedBehind := false
  freedAhead := false

def look (sc : Scan) (used : Bool) : Scan :=
  { sc with next := sc.next + 1, count := if used then sc.count + 1 else sc.count }

/-- A slot is given out, and `now` are in use. -/
def born (sc : Scan) (i now : ℕ) : Scan :=
  { sc with
    moments := now :: sc.moments
    bornBehind := sc.bornBehind || decide (i < sc.next)
    bornAhead := sc.bornAhead || decide (sc.next ≤ i) }

/-- A slot is given back, and `now` are in use. -/
def freed (sc : Scan) (i now : ℕ) : Scan :=
  { sc with
    moments := now :: sc.moments
    freedBehind := sc.freedBehind || decide (i < sc.next)
    freedAhead := sc.freedAhead || decide (sc.next ≤ i) }

/-- A slot that is given out on one side of the scan does not meet one that was given back on
the other. -/
def AllowsBirth (sc : Scan) (i : ℕ) : Prop :=
  if i < sc.next then sc.freedAhead = false else sc.freedBehind = false

/-- A slot that is given back on one side of the scan does not meet one that was given out on
the other. -/
def AllowsFree (sc : Scan) (i : ℕ) : Prop :=
  if i < sc.next then sc.bornAhead = false else sc.bornBehind = false

instance : Decidable (sc.AllowsBirth k) := by
  unfold AllowsBirth
  infer_instance

instance : Decidable (sc.AllowsFree k) := by
  unfold AllowsFree
  infer_instance

/-- **The invariant of a scan that is not overtaken from both sides.** -/
structure Sound (u : Fin n → Bool) (sc : Scan) : Prop where
  next_le : sc.next ≤ n
  /-- Numbers between the first and the present one were passed. -/
  between : ∀ x, min sc.first (inUse u) ≤ x → x ≤ max sc.first (inUse u) → x ∈ sc.moments
  first_le : sc.freedAhead = false → sc.first ≤ sc.count + ahead u sc.next
  le_first : sc.bornAhead = false → sc.count + ahead u sc.next ≤ sc.first
  le_now : sc.freedBehind = false → sc.count + ahead u sc.next ≤ inUse u
  now_le : sc.bornBehind = false → inUse u ≤ sc.count + ahead u sc.next
  born : sc.bornBehind = true → sc.freedAhead = false
  freed : sc.freedBehind = true → sc.bornAhead = false

theorem sound_start : Sound u (start u) where
  next_le := Nat.zero_le n
  between x hlo hhi := by
    simp only [start, min_self, max_self] at hlo hhi
    simp [start, Nat.le_antisymm hhi hlo]
  first_le _ := (Nat.zero_add _).ge
  le_first _ := (Nat.zero_add _).le
  le_now _ := (Nat.zero_add _).le
  now_le _ := (Nat.zero_add _).ge
  born h := nomatch h
  freed h := nomatch h

theorem Sound.look (h : Sound u sc) (hk : sc.next < n) : Sound u (sc.look (u ⟨sc.next, hk⟩)) := by
  -- the slot moves from those that are still to come to those counted
  have hV : (sc.look (u ⟨sc.next, hk⟩)).count + ahead u (sc.next + 1) = sc.count + ahead u sc.next := by
    rw [ahead_eq_succ hk]
    simp only [Scan.look]
    split <;> omega
  refine ⟨hk, h.between, fun hf => ?_, fun hf => ?_, fun hf => ?_, fun hf => ?_, h.born, h.freed⟩
  · exact (h.first_le hf).trans hV.ge
  · exact hV.le.trans (h.le_first hf)
  · exact hV.le.trans (h.le_now hf)
  · exact (h.now_le hf).trans hV.ge

theorem Sound.birth (h : Sound u sc) (hi : u i = false) (ha : sc.AllowsBirth i) : Sound (update u i true) (sc.born i (inUse (update u i true))) := by
  have hN : inUse (update u i true) = inUse u + 1 := by
    rw [inUse, ahead_born hi, if_pos (Nat.zero_le _), inUse]
  have hV := ahead_born (k := sc.next) hi
  rw [AllowsBirth] at ha
  rw [hN]
  refine ⟨h.next_le, fun x hlo hhi => ?_, fun hf => ?_, fun hf => ?_, fun hf => ?_, fun hf => ?_, fun hf => ?_, fun hf => ?_⟩
  · rw [hN] at hlo hhi
    by_cases hx : x = inUse u + 1
    · exact hx ▸ List.mem_cons_self
    · exact List.mem_cons_of_mem _ (h.between x (by simp only [Scan.born] at hlo; omega) (by simp only [Scan.born] at hhi; omega))
  · have := h.first_le hf
    simp only [Scan.born]
    omega
  · simp only [Scan.born, Bool.or_eq_false_iff, decide_eq_false_iff_not] at hf ⊢
    have := h.le_first hf.1
    rw [if_neg hf.2] at hV
    omega
  · have := h.le_now hf
    simp only [Scan.born]
    split at hV <;> omega
  · simp only [Scan.born, Bool.or_eq_false_iff, decide_eq_false_iff_not] at hf ⊢
    have := h.now_le hf.1
    rw [if_pos (by omega)] at hV
    omega
  · simp only [Scan.born, Bool.or_eq_true, decide_eq_true_eq] at hf ⊢
    rcases hf with hf | hf
    · exact h.born hf
    · rwa [if_pos hf] at ha
  · simp only [Scan.born, Bool.or_eq_false_iff, decide_eq_false_iff_not] at hf ⊢
    refine ⟨h.freed hf, fun hle => ?_⟩
    rw [if_neg (by omega), hf] at ha
    cases ha

theorem Sound.free (h : Sound u sc) (hi : u i = true) (ha : sc.AllowsFree i) : Sound (update u i false) (sc.freed i (inUse (update u i false))) := by
  have hN : inUse (update u i false) + 1 = inUse u := by
    rw [inUse, inUse, ← ahead_freed hi, if_pos (Nat.zero_le _)]
  have hV := ahead_freed (k := sc.next) hi
  rw [AllowsFree] at ha
  refine ⟨h.next_le, fun x hlo hhi => ?_, fun hf => ?_, fun hf => ?_, fun hf => ?_, fun hf => ?_, fun hf => ?_, fun hf => ?_⟩
  · simp only [Scan.freed] at hlo hhi
    by_cases hx : x = inUse (update u i false)
    · exact hx ▸ List.mem_cons_self
    · exact List.mem_cons_of_mem _ (h.between x (by omega) (by omega))
  · simp only [Scan.freed, Bool.or_eq_false_iff, decide_eq_false_iff_not] at hf ⊢
    have := h.first_le hf.1
    rw [if_neg hf.2] at hV
    omega
  · have := h.le_first hf
    simp only [Scan.freed]
    omega
  · simp only [Scan.freed, Bool.or_eq_false_iff, decide_eq_false_iff_not] at hf ⊢
    have := h.le_now hf.1
    rw [if_pos (by omega)] at hV
    omega
  · have := h.now_le hf
    simp only [Scan.freed]
    split at hV <;> omega
  · simp only [Scan.freed, Bool.or_eq_false_iff, decide_eq_false_iff_not] at hf ⊢
    refine ⟨h.born hf, fun hle => ?_⟩
    rw [if_neg (by omega), hf] at ha
    cases ha
  · simp only [Scan.freed, Bool.or_eq_true, decide_eq_true_eq] at hf ⊢
    rcases hf with hf | hf
    · exact h.freed hf
    · rwa [if_pos hf] at ha

/-- **The sum of such a scan is a number that the table has had.** -/
theorem Sound.mem_moments (h : Sound u sc) (hend : sc.next = n) : sc.count ∈ sc.moments := by
  have hV : sc.count + ahead u sc.next = sc.count := by rw [hend, ahead_end, Nat.add_zero]
  have hfirst := h.first_le
  have hfirst' := h.le_first
  have hnow := h.le_now
  have hnow' := h.now_le
  rw [hV] at hfirst hfirst' hnow hnow'
  refine h.between _ ?_ ?_
  · rcases hb : sc.bornBehind with _ | _
    · exact (min_le_right _ _).trans (hnow' hb)
    · exact (min_le_left _ _).trans (hfirst (h.born hb))
  · rcases hb : sc.freedBehind with _ | _
    · exact (hnow hb).trans (le_max_right _ _)
    · exact (hfirst' (h.freed hb)).trans (le_max_left _ _)

end Scan

end Xv6.Lib
