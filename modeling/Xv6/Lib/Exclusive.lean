import Mathlib.Logic.Equiv.Basic
import Mathlib.Logic.Function.Basic
import Mathlib.Tactic.Push

/-!
# Things that have one owner

Disk blocks, and pages of memory, are handed out and taken back. What the allocator believes to be in use should be what
really serves in some role, no less, for then a thing would be handed out twice, and no more, for then it would be lost.

This is stated for a function `own` from roles to things, and a predicate `used`, the allocator's view. An allocation gives
a thing to a role that had none (`Exclusive.claim`), a release takes the things of some roles away (`Exclusive.release`).
-/

namespace Xv6.Lib

open Function

variable {ρ β : Type*} {own own' : ρ → Option β} {used used' : β → Prop} {r r' : ρ} {b : β}

/-- **The things in use are those that have an owner, and none has two.** -/
structure Exclusive (own : ρ → Option β) (used : β → Prop) : Prop where
  used_iff : ∀ b, used b ↔ ∃ r, own r = some b
  inj : ∀ {r r' b}, own r = some b → own r' = some b → r = r'

namespace Exclusive

section

variable (h : Exclusive own used)

include h

theorem used_of (hr : own r = some b) : used b :=
  (h.used_iff b).mpr ⟨r, hr⟩

theorem congr (hown : ∀ r, own' r = own r) (hused : ∀ b, used' b ↔ used b) : Exclusive own' used' := by
  obtain rfl : own' = own := funext hown
  exact ⟨fun b => (hused b).trans (h.used_iff b), h.inj⟩

/-- **An allocation**: a role that had nothing gets a thing nobody had. -/
theorem claim [DecidableEq ρ] (hr : own r = none) (hb : ¬used b) :
    Exclusive (update own r (some b)) fun x => x = b ∨ used x := by
  have hfree : ∀ q, own q ≠ some b := fun q hq => hb (h.used_of hq)
  refine ⟨fun x => ⟨?_, ?_⟩, fun {q q' x} hq hq' => ?_⟩
  · rintro (rfl | hx)
    · exact ⟨r, update_self ..⟩
    · obtain ⟨q, hq⟩ := (h.used_iff x).mp hx
      have hqr : q ≠ r := by
        rintro rfl
        simp [hr] at hq
      exact ⟨q, by rw [update_of_ne hqr, hq]⟩
  · rintro ⟨q, hq⟩
    by_cases hqr : q = r
    · rw [hqr, update_self] at hq
      exact Or.inl (Option.some.inj hq).symm
    · rw [update_of_ne hqr] at hq
      exact Or.inr (h.used_of hq)
  · by_cases hqr : q = r <;> by_cases hqr' : q' = r
    · rw [hqr, hqr']
    · rw [hqr, update_self] at hq
      rw [update_of_ne hqr', ← Option.some.inj hq] at hq'
      exact absurd hq' (hfree q')
    · rw [hqr', update_self] at hq'
      rw [update_of_ne hqr, ← Option.some.inj hq'] at hq
      exact absurd hq (hfree q)
    · rw [update_of_ne hqr] at hq
      rw [update_of_ne hqr'] at hq'
      exact h.inj hq hq'

/-- Several allocations at once: the roles in `S`, which had nothing, get different things
nobody had. -/
theorem claims (S : ρ → Prop) [DecidablePred S] {g : ρ → β} (hS : ∀ r, S r → own r = none) (hg : ∀ r, S r → ¬used (g r))
    (hinj : ∀ r r', S r → S r' → g r = g r' → r = r') :
    Exclusive (fun r => if S r then some (g r) else own r) fun b => (∃ r, S r ∧ g r = b) ∨ used b := by
  refine ⟨fun x => ⟨?_, ?_⟩, fun {q q' x} hq hq' => ?_⟩
  · rintro (⟨q, hSq, rfl⟩ | hx)
    · exact ⟨q, if_pos hSq⟩
    · obtain ⟨q, hq⟩ := (h.used_iff x).mp hx
      have hSq : ¬S q := fun hSq => by
        rw [hS q hSq] at hq
        cases hq
      exact ⟨q, by rw [if_neg hSq, hq]⟩
  · rintro ⟨q, hq⟩
    split at hq
    · next hSq => exact .inl ⟨q, hSq, Option.some.inj hq⟩
    · exact .inr (h.used_of hq)
  · split at hq <;> split at hq'
    · next hSq hSq' => exact hinj q q' hSq hSq' (Option.some.inj (hq.trans hq'.symm))
    · next hSq _ => exact absurd (Option.some.inj hq ▸ h.used_of hq') (hg q hSq)
    · next hSq' => exact absurd (Option.some.inj hq' ▸ h.used_of hq) (hg q' hSq')
    · exact h.inj hq hq'

theorem comp {ρ' : Type*} (e : ρ' ≃ ρ) : Exclusive (own ∘ e) used := by
  refine ⟨fun x => ?_, fun hq hq' => e.injective (h.inj hq hq')⟩
  rw [h.used_iff, e.surjective.exists]
  rfl

/-- **A thing is handed over**: what one role had, another has that had nothing. -/
theorem handover [DecidableEq ρ] (r r' : ρ) (hr' : own r' = none) :
    Exclusive (update (update own r none) r' (own r)) used := by
  refine (h.comp (Equiv.swap r r')).congr (fun q => ?_) fun _ => Iff.rfl
  rw [comp_apply]
  by_cases hq : q = r'
  · rw [hq, update_self, Equiv.swap_apply_right]
  · rw [update_of_ne hq]
    by_cases hqr : q = r
    · rw [hqr, update_self, Equiv.swap_apply_left, hr']
    · rw [update_of_ne hqr, Equiv.swap_apply_of_ne_of_ne hqr hq]

/-- **A release**: the roles in `S` give their things back. -/
theorem release (S : ρ → Prop) [DecidablePred S] : Exclusive (fun r => if S r then none else own r)
      fun b => used b ∧ ∀ r, S r → own r ≠ some b := by
  refine ⟨fun x => ⟨?_, ?_⟩, fun {q q' x} hq hq' => ?_⟩
  · rintro ⟨hx, hS⟩
    obtain ⟨q, hq⟩ := (h.used_iff x).mp hx
    exact ⟨q, by rw [if_neg fun hSq => hS q hSq hq, hq]⟩
  · rintro ⟨q, hq⟩
    split at hq
    · simp at hq
    · next hSq =>
      refine ⟨h.used_of hq, fun q' hSq' hq' => hSq ?_⟩
      rwa [h.inj hq hq']
  · split at hq
    · simp at hq
    · split at hq'
      · simp at hq'
      · exact h.inj hq hq'

end

end Exclusive

end Xv6.Lib
