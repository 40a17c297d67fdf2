import Mathlib.Data.List.Induction

/-!
# What a computation may answer

Kernel code either returns or panics: a model of it is a function into `Except ε α`. `Xv6.Lib.Post E x Q` says that every
answer of `x` satisfies `Q` and every panic of it satisfies `E`, so that both are proved in one pass over the code, by
`Post.bind` for a sequence and `Post.foldlM` for a loop over a list with an invariant.
-/

namespace Xv6.Lib

universe u v w

variable {ε : Type u} {α β : Type v} {E F : ε → Prop} {x : Except ε α} {P Q : α → Prop}
  {R : β → Prop} {a : α} {e : ε}

/-- Every answer of `x` satisfies `Q`, and every panic `E`. -/
def Post (E : ε → Prop) (x : Except ε α) (Q : α → Prop) : Prop :=
  match x with
  | .ok a => Q a
  | .error e => E e

@[simp] theorem ok_bind (a : α) (f : α → Except ε β) : (Except.ok a >>= f) = f a := rfl

theorem Post.error (h : E e) : Post E (.error e : Except ε α) Q := h

theorem Post.of_ok (h : Post E x Q) (hx : x = .ok a) : Q a := by
  subst hx
  exact h

theorem Post.of_error (h : Post E x Q) (hx : x = .error e) : E e := by
  subst hx
  exact h

theorem Post.mono (h : Post E x P) (hPQ : ∀ a, P a → Q a) : Post E x Q := by
  cases x with
  | ok a => exact hPQ a h
  | error e => exact h

variable {f : α → Except ε β} {γ : Type w}

theorem Post.bind (hx : Post E x P) (hf : ∀ a, P a → Post E (f a) R) : Post E (x >>= f) R := by
  cases x with
  | ok a => exact hf a hx
  | error e => exact hx

theorem of_bind_eq_ok {b : β} (h : x >>= f = .ok b) : ∃ a, x = .ok a ∧ f a = .ok b := by
  cases x with
  | ok a => exact ⟨a, rfl, h⟩
  | error e => cases h

theorem of_map_eq_ok {f : α → γ} {b : γ} (h : x.map f = .ok b) : ∃ a, x = .ok a ∧ f a = b := by
  cases x with
  | ok a => exact ⟨a, rfl, Except.ok.inj h⟩
  | error e => cases h

theorem ok_of_map_some (h : x.map some = .ok (some a)) : x = .ok a := by
  obtain ⟨b, rfl, hb⟩ := of_map_eq_ok h
  rw [Option.some.inj hb]

theorem ok_of_map_unit {u : Unit} (h : (x.map fun a => some ((), a)) = .ok (some (u, a))) : x = .ok a := by
  obtain ⟨b, rfl, hb⟩ := of_map_eq_ok h
  cases hb
  rfl

theorem ok_of_map_map {x : Except ε (Option α)} {u : Unit}
    (h : (x.map fun o => o.map fun a => ((), a)) = .ok (some (u, a))) : x = .ok (some a) := by
  obtain ⟨o, rfl, ho⟩ := of_map_eq_ok h
  obtain ⟨b, rfl, hb⟩ := Option.map_eq_some_iff.mp ho
  cases hb
  rfl

theorem of_map_eq_error {f : α → γ} (h : x.map f = .error e) : x = .error e := by
  cases x with
  | ok a => cases h
  | error e' => exact congrArg Except.error (Except.error.inj h)

/-- **The rule for loops over a list**: an invariant that speaks of what is left of it. -/
theorem Post.foldlM {f : α → γ → Except ε α} {I : List γ → α → Prop}
    (hstep : ∀ c l a, I (c :: l) a → Post E (f a c) (I l)) {l : List γ} (ha : I l a) : Post E (l.foldlM f a) (I []) := by
  induction l generalizing a with
  | nil => exact ha
  | cons c l ih => exact (hstep c l a ha).bind fun b hb => ih hb

end Xv6.Lib
