import Mathlib.Logic.Function.Basic

/-!
# Overwriting one entry of a table

What holds of every entry of a table after one of them has been overwritten: it holds of the new
entry, and of the others it held before.
-/

namespace Xv6.Lib

open Function

variable {ι : Type*} [DecidableEq ι] {α β γ : Type*} {w : ι → α} {x : ι → β} {p : ι} {a : α} {b : β}

theorem forall_update₂ {P : ι → α → β → Prop} (hself : P p a b) (hother : ∀ q, q ≠ p → P q (w q) (x q)) (q : ι) :
    P q (update w p a q) (update x p b q) := by
  rcases eq_or_ne q p with rfl | hq
  · rwa [update_self, update_self]
  · rw [update_of_ne hq, update_of_ne hq]
    exact hother q hq

theorem forall_update {P : ι → α → Prop} (hself : P p a) (hother : ∀ q, q ≠ p → P q (w q)) (q : ι) : P q (update w p a q) :=
  forall_update₂ (P := fun q a _ => P q a) (x := w) (b := a) hself hother q

/-- An entry that looks the same changes nothing in what the table looks like. -/
theorem apply_update_of_eq (g : α → γ) (h : g a = g (w p)) : ∀ q, g (update w p a q) = g (w q) :=
  forall_update (P := fun q a => g a = g (w q)) h fun _ _ => rfl

/-- What an entry is known to be, if the new one is nothing or no different, it was before. -/
theorem eq_some_of_update {g : α → Option γ} {y : γ} {q : ι} (h : g (update w p a q) = some y) (ha : g a = none ∨ g a = g (w p)) :
    g (w q) = some y := by
  revert h
  refine forall_update (P := fun q a => g a = some y → g (w q) = some y) (fun h => ?_) (fun _ _ => id) q
  rcases ha with ha | ha
  · cases ha.symm.trans h
  · exact ha.symm.trans h

/-- Two tables that refer to each other, after one entry of each has been overwritten. -/
theorem iff_update {κ : Type*} [DecidableEq κ] {f : κ → α} {c : κ} {R : α → ι → Prop} {S : β → κ → Prop}
    (h : ∀ d q, R (f d) q ↔ S (x q) d) (hself : R a p ↔ S b c) (hf : ∀ q, q ≠ p → (R a q ↔ R (f c) q))
    (hx : ∀ d, d ≠ c → (S b d ↔ S (x p) d)) (d : κ) (q : ι) : R (update f c a d) q ↔ S (update x p b q) d := by
  rcases eq_or_ne d c with rfl | hd <;> rcases eq_or_ne q p with rfl | hq
  · rwa [update_self, update_self]
  · rw [update_self, update_of_ne hq, hf q hq, h]
  · rw [update_of_ne hd, update_self, hx d hd, h]
  · rw [update_of_ne hd, update_of_ne hq, h]

end Xv6.Lib
