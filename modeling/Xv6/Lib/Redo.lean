import Mathlib.Logic.Function.Basic
import Mathlib.Data.List.Basic

/-!
# Installing the entries of a redo log

A redo log is a list of entries, each an address and the value that belongs there;
installing it means writing the entries one after another. What makes such a log
safe against a crash in the middle is that installing can be started again from
any point: `Xv6.Lib.install_update` says that a log overwrites whatever an earlier
attempt has left at its addresses.

The store is a function on any type of addresses, the values are arbitrary.
-/

namespace Xv6.Lib

open Function

universe u v

variable {α : Type u} {β : Type v} [DecidableEq α]

/-- Write the entries of a log, one after another. -/
def install : List (α × β) → (α → β) → α → β
  | [], d => d
  | e :: l, d => install l (update d e.1 e.2)

variable {l : List (α × β)} {d d' c : α → β} {a : α}

/-- What a log leaves depends on the store only at the addresses it does not
mention. -/
theorem install_congr (h : ∀ a, a ∉ l.map Prod.fst → d a = d' a) : install l d = install l d' := by
  induction l generalizing d d' with
  | nil => exact funext fun a => h a (by simp)
  | cons e l ih =>
    refine ih fun a ha => ?_
    by_cases hae : a = e.1
    · rw [hae, update_self, update_self]
    · rw [update_of_ne hae, update_of_ne hae]
      exact h a (by simpa [hae] using ha)

/-- **A log overwrites what was at its addresses**, such as the value an unfinished
attempt to install it has left there. -/
theorem install_update {v : β} (h : a ∈ l.map Prod.fst) : install l (update d a v) = install l d := by
  refine install_congr fun a' ha' => update_of_ne ?_ v d
  rintro rfl
  exact ha' h

/-- A log whose entries all come from `c` leaves `c`, if the store agrees with `c`
wherever the log is silent. -/
theorem install_apply_eq (hl : ∀ e ∈ l, e.2 = c e.1) (hd : a ∉ l.map Prod.fst → d a = c a) : install l d a = c a := by
  induction l generalizing d with
  | nil => exact hd (by simp)
  | cons e l ih =>
    refine ih (fun e' he' => hl e' (List.mem_cons_of_mem _ he')) fun ha => ?_
    by_cases hae : a = e.1
    · rw [hae, update_self]
      exact hl e List.mem_cons_self
    · rw [update_of_ne hae]
      exact hd (by simpa [hae] using ha)

end Xv6.Lib
