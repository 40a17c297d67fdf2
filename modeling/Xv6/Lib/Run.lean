import Mathlib.Data.List.Induction

/-!
# Runs of a machine with guarded steps

A machine is a function `step : σ → ε → Option σ`: the event `ε` names what happens next and resolves every choice, and the
answer `none` says that it cannot happen in that state. A run is a list of events.

Two rules carry all later safety proofs: `Xv6.Lib.run_invariant`, for properties every step preserves, and
`Xv6.Lib.Along.invariant`, for properties that are preserved by the steps taken under a condition `P` – the shape of a
statement that holds of the runs that keep away from a defect.
-/

namespace Xv6.Lib

universe u v w

variable {σ : Type u} {ε : Type v} (step : σ → ε → Option σ)

/-! ### Runs -/

/-- The state a list of events leads to, or `none` as soon as one of them is
not enabled. -/
def run : σ → List ε → Option σ
  | s, [] => some s
  | s, e :: es => (step s e).bind fun t => run t es

/-- `t` is reached from `s` by some run. -/
def Reach (s t : σ) : Prop := ∃ es, run step s es = some t

variable {step} {s t u : σ} {e : ε} {es fs : List ε}

@[simp] theorem run_nil : run step s [] = some s := rfl

theorem run_cons : run step s (e :: es) = (step s e).bind fun t => run step t es := rfl

theorem run_cons_eq_some : run step s (e :: es) = some u ↔ ∃ t, step s e = some t ∧ run step t es = some u := by
  rw [run_cons, Option.bind_eq_some_iff]

theorem run_append : run step s (es ++ fs) = (run step s es).bind fun t => run step t fs := by
  induction es generalizing s with
  | nil => rfl
  | cons e es ih =>
    rw [List.cons_append, run_cons, run_cons, Option.bind_assoc]
    exact congrArg _ (funext fun t => ih)

theorem run_append_eq_some : run step s (es ++ fs) = some u ↔ ∃ t, run step s es = some t ∧ run step t fs = some u := by
  rw [run_append, Option.bind_eq_some_iff]

theorem run_snoc_eq_some : run step s (es ++ [e]) = some u ↔ ∃ t, run step s es = some t ∧ step t e = some u := by
  rw [run_append_eq_some]
  refine exists_congr fun t => and_congr_right fun _ => ?_
  rw [run_cons_eq_some]
  simp

theorem Reach.refl : Reach step s s := ⟨[], rfl⟩

theorem Reach.trans (h : Reach step s t) (h' : Reach step t u) : Reach step s u := by
  obtain ⟨es, hes⟩ := h
  obtain ⟨fs, hfs⟩ := h'
  exact ⟨es ++ fs, run_append_eq_some.mpr ⟨t, hes, hfs⟩⟩

theorem Reach.tail (h : Reach step s t) (he : step t e = some u) : Reach step s u := by
  obtain ⟨es, hes⟩ := h
  exact ⟨es ++ [e], run_snoc_eq_some.mpr ⟨t, hes, he⟩⟩

variable {I : σ → Prop} {J : List ε → σ → Prop}

/-- **The invariant rule**: what every step preserves, every run preserves. -/
theorem run_invariant (hstep : ∀ {s e t}, I s → step s e = some t → I t) (hs : I s) (hrun : run step s es = some t) : I t := by
  induction es generalizing s with
  | nil => exact Option.some.inj hrun ▸ hs
  | cons e es ih =>
    obtain ⟨v, hv, hrest⟩ := run_cons_eq_some.mp hrun
    exact ih (hstep hs hv) hrest

theorem Reach.invariant (hstep : ∀ {s e t}, I s → step s e = some t → I t) (hs : I s) (h : Reach step s t) : I t := by
  obtain ⟨es, hes⟩ := h
  exact run_invariant hstep hs hes

/-- The rule for a property of the run and the state it leads to, such as one that
says what in the run a state is due to. -/
theorem run_induction (hs : J [] s)
    (hstep : ∀ {es e t u}, run step s es = some t → J es t → step t e = some u → J (es ++ [e]) u) (hrun : run step s es = some t) : J es t := by
  induction es using List.reverseRecOn generalizing t with
  | nil => exact Option.some.inj hrun ▸ hs
  | append_singleton es e ih =>
    obtain ⟨v, hv, he⟩ := run_snoc_eq_some.mp hrun
    exact hstep hv (ih hv) he

/-! ### Runs whose steps meet a condition -/

variable (step) in
/-- Every step of the run `es` from `s` is taken in a state where `P` allows it. -/
def Along (P : σ → ε → Prop) : σ → List ε → Prop
  | _, [] => True
  | s, e :: es => P s e ∧ ∀ t, step s e = some t → Along P t es

variable {P : σ → ε → Prop}

theorem Along.nil : Along step P s [] := trivial

/-- Whether a given run meets a condition can be found out by taking its steps. -/
instance Along.decidable [∀ s e, Decidable (P s e)] : ∀ s es, Decidable (Along step P s es)
  | _, [] => .isTrue trivial
  | s, e :: es =>
    match h : step s e with
    | none => decidable_of_iff (P s e) ⟨fun hp => ⟨hp, fun t ht => by rw [h] at ht; cases ht⟩, And.left⟩
    | some t =>
      have := Along.decidable t es
      decidable_of_iff (P s e ∧ Along step P t es)
        ⟨fun hp => ⟨hp.1, fun u hu => Option.some.inj (h.symm.trans hu) ▸ hp.2⟩,
          fun hp => ⟨hp.1, hp.2 t h⟩⟩

theorem along_append (hrun : run step s es = some t) : Along step P s (es ++ fs) ↔ Along step P s es ∧ Along step P t fs := by
  induction es generalizing s with
  | nil =>
    obtain rfl : s = t := Option.some.inj hrun
    exact ⟨fun h => ⟨trivial, h⟩, fun h => h.2⟩
  | cons e es ih =>
    obtain ⟨v, hv, hrest⟩ := run_cons_eq_some.mp hrun
    constructor
    · rintro ⟨hp, htail⟩
      refine ⟨⟨hp, fun w hw => ?_⟩, ((ih hrest).mp (htail v hv)).2⟩
      obtain rfl : v = w := Option.some.inj (hv.symm.trans hw)
      exact ((ih hrest).mp (htail v hv)).1
    · rintro ⟨⟨hp, htail⟩, hfs⟩
      refine ⟨hp, fun w hw => ?_⟩
      obtain rfl : v = w := Option.some.inj (hv.symm.trans hw)
      exact (ih hrest).mpr ⟨htail v hv, hfs⟩

/-- **The guarded invariant rule**: what every step taken under `P` preserves,
every run along which `P` holds preserves. -/
theorem Along.invariant (hstep : ∀ {s e t}, I s → P s e → step s e = some t → I t)
    (hs : I s) (hal : Along step P s es) (hrun : run step s es = some t) : I t := by
  induction es generalizing s with
  | nil => exact Option.some.inj hrun ▸ hs
  | cons e es ih =>
    obtain ⟨v, hv, hrest⟩ := run_cons_eq_some.mp hrun
    exact ih (hstep hs hal.1 hv) (hal.2 v hv) hrest

theorem along_snoc (hrun : run step s es = some t) : Along step P s (es ++ [e]) ↔ Along step P s es ∧ P t e :=
  (along_append hrun).trans (and_congr_right fun _ => ⟨fun h => h.1, fun h => ⟨h, fun _ _ => trivial⟩⟩)

theorem Along.run_induction (hs : J [] s) (hstep : ∀ {es e t u}, run step s es = some t → J es t → P t e → step t e = some u →
      J (es ++ [e]) u) (hal : Along step P s es) (hrun : run step s es = some t) : J es t := by
  refine Lib.run_induction (J := fun es t => Along step P s es → J es t) (fun _ => hs) ?_ hrun hal
  intro es e t u hrun ih he hal
  obtain ⟨hes, hpe⟩ := (along_snoc hrun).mp hal
  exact hstep hrun (ih hes) hpe he

theorem Along.of_forall (h : ∀ e ∈ es, ∀ t, Reach step s t → P t e) : Along step P s es := by
  induction es generalizing s with
  | nil => exact Along.nil
  | cons e es ih =>
    refine ⟨h e List.mem_cons_self s Reach.refl, fun t ht => ih fun e' he' u hu => ?_⟩
    exact h e' (List.mem_cons_of_mem _ he') u ((Reach.refl.tail ht).trans hu)

/-- **The rule for two machines** that take the same events: related states stay related, and the one goes on just if the other does. -/
theorem Along.rel {τ : Type w} {step' : τ → ε → Option τ} {R : τ → σ → Prop} {a : τ}
    (hstep : ∀ {a s e}, R a s → P s e → Option.Rel R (step' a e) (step s e)) (hs : R a s) (hal : Along step P s es) :
    Option.Rel R (run step' a es) (run step s es) := by
  induction es generalizing a s with
  | nil => exact .some hs
  | cons e es ih =>
    have hrel := hstep hs hal.1
    rw [run_cons, run_cons]
    generalize step' a e = x at hrel ⊢
    generalize he : step s e = y at hrel ⊢
    cases hrel with
    | none => exact .none
    | some hab => exact ih hab (hal.2 _ he)

/-! ### What a run puts out -/

variable (step) in
/-- What the steps of a run put out, in order; `g` says it for one step. -/
def collect {α : Type w} (g : σ → ε → List α) : σ → List ε → List α
  | _, [] => []
  | s, e :: es => g s e ++ ((step s e).map fun t => collect g t es).getD []

theorem collect_snoc {α : Type w} {g : σ → ε → List α} (hrun : run step s es = some t) :
    collect step g s (es ++ [e]) = collect step g s es ++ g t e := by
  induction es generalizing s with
  | nil =>
    obtain rfl : s = t := Option.some.inj hrun
    change g s e ++ ((step s e).map fun _ => []).getD [] = [] ++ g s e
    cases step s e with
    | none | some u => exact List.append_nil _
  | cons e' es ih =>
    obtain ⟨v, hv, hrest⟩ := run_cons_eq_some.mp hrun
    change g s e' ++ ((step s e').map _).getD [] = g s e' ++ ((step s e').map _).getD [] ++ g t e
    rw [hv, List.append_assoc]
    exact congrArg _ (ih hrest)

end Xv6.Lib
