import Xv6.Lib.Update

/-!
# Programs of threads

What a thread of the kernel has still to do is a tree. It may be done, it may panic, or it asks for an atomic action on the
state it shares with the others, and goes on as the answer says. The actions are a family `ρ : Type → Type`, indexed by the
type of their answers.

To prove something about all interleavings, each thread is given a *view*: what it has a right to, such as the locks it
holds. A `Xv6.Lib.Discipline` says which views an action may be asked for with, and what the view can be after it; a
program that keeps to it, whatever the answers, is `Xv6.Lib.Program.Ok`. If every action takes an invariant of the state
and of all the views along, then so does every step of every thread (`Xv6.Lib.Discipline.Sound.step`).
-/

namespace Xv6.Lib

open Function

/-! ### Programs -/

/-- What a thread has still to do. -/
inductive Program (ρ : Type → Type) (ε : Type) (α : Type) : Type 1
  | ret (a : α)
  | panic (e : ε)
  | act {β : Type} (r : ρ β) (k : β → Program ρ ε α)

namespace Program

variable {ρ : Type → Type} {ε α β γ : Type}

def bind : Program ρ ε α → (α → Program ρ ε β) → Program ρ ε β
  | .ret a, f => f a
  | .panic e, _ => .panic e
  | .act r k, f => .act r fun b => (k b).bind f

instance : Monad (Program ρ ε) where
  pure := .ret
  bind := bind

def perform (r : ρ β) : Program ρ ε β := .act r .ret

theorem bind_assoc (p : Program ρ ε α) (f : α → Program ρ ε β) (g : β → Program ρ ε γ) :
    p >>= f >>= g = p >>= fun a => f a >>= g := by
  induction p with
  | ret | panic => rfl
  | act r k ih => exact congrArg (act r) (funext ih)

end Program

/-! ### Disciplines -/

/-- What may be done with a view, and what it is afterwards. -/
structure Discipline (ρ : Type → Type) (ε : Type) (ν : Type) where
  pre : {β : Type} → ρ β → ν → Prop
  post : {β : Type} → ρ β → ν → β → ν → Prop
  /-- The panics a program may come to. -/
  stop : ε → ν → Prop

variable {ρ : Type → Type} {ε ν α β : Type} {D : Discipline ρ ε ν} {v : ν}

/-- **The program keeps to the discipline**, and leaves an answer and a view in `Q`. -/
def Program.Ok (D : Discipline ρ ε ν) : Program ρ ε α → ν → (α → ν → Prop) → Prop
  | .ret a, v, Q => Q a v
  | .panic e, v, _ => D.stop e v
  | .act r k, v, Q => D.pre r v ∧ ∀ b w, D.post r v b w → (k b).Ok D w Q

namespace Program

variable {p : Program ρ ε α} {f : α → Program ρ ε β} {Q R : α → ν → Prop} {S : β → ν → Prop}

theorem Ok.ret {a : α} (h : Q a v) : (pure a : Program ρ ε α).Ok D v Q := h

theorem Ok.mono (h : p.Ok D v Q) (hQR : ∀ a w, Q a w → R a w) : p.Ok D v R := by
  induction p generalizing v with
  | ret a => exact hQR a v h
  | panic e => exact h
  | act r k ih => exact ⟨h.1, fun b w hw => ih b (h.2 b w hw)⟩

/-- **The rule for sequences.** -/
theorem Ok.bind (h : p.Ok D v Q) (hf : ∀ a w, Q a w → (f a).Ok D w S) : (p >>= f).Ok D v S := by
  induction p generalizing v with
  | ret a => exact hf a v h
  | panic e => exact h
  | act r k ih => exact ⟨h.1, fun b w hw => ih b (h.2 b w hw)⟩

theorem Ok.into (h : p.Ok D v fun a w => (f a).Ok D w S) : (p >>= f).Ok D v S := h.bind fun _ _ hw => hw

theorem Ok.seq {w : ν} (h : p.Ok D v fun _ u => u = w) (hf : ∀ a, (f a).Ok D w S) : (p >>= f).Ok D v S :=
  h.bind fun a _ hu => hu ▸ hf a

theorem Ok.perform {r : ρ β} (hpre : D.pre r v) (hpost : ∀ b w, D.post r v b w → S b w) : (Program.perform r : Program ρ ε β).Ok D v S :=
  ⟨hpre, hpost⟩

theorem Ok.act {r : ρ β} {f : β → Program ρ ε α} (hpre : D.pre r v)
    (hpost : ∀ b w, D.post r v b w → (f b).Ok D w Q) : (Program.perform r >>= f).Ok D v Q :=
  ⟨hpre, hpost⟩

/-- **The rule for loops** over a list, with an invariant that speaks of what is left. -/
theorem Ok.forM {γ : Type} {f : γ → Program ρ ε PUnit} {I : List γ → ν → Prop}
    (hstep : ∀ c l w, I (c :: l) w → (f c).Ok D w fun _ => I l) {l : List γ} (hv : I l v) : (l.forM f).Ok D v fun _ => I [] := by
  induction l generalizing v with
  | nil => exact hv
  | cons c l ih => exact (hstep c l v hv).bind fun _ w hw => ih hw

end Program

/-! ### Threads -/

section Threads

variable {ι σ : Type} [DecidableEq ι]

/-- What an action does to the shared state for a thread: it panics, it has to wait, or it
gives an answer. -/
abbrev Exec (ρ : Type → Type) (ε ι σ : Type) : Type 1 :=
  {β : Type} → ρ β → ι → σ → Except ε (Option (β × σ))

/-- The next step of a thread, if it has one and need not wait. -/
def Program.next (exec : Exec ρ ε ι σ) (t : ι) (s : σ) :
    Program ρ ε α → Except ε (Option (σ × Program ρ ε α))
  | .ret _ => .ok none
  | .panic e => .error e
  | .act r k => (exec r t s).map fun o => o.map fun q => (q.2, k q.1)

/-- The actions keep an invariant of the shared state and the views of the threads. -/
def Discipline.Sound (D : Discipline ρ ε ν) (exec : Exec ρ ε ι σ) (I : σ → (ι → ν) → Prop) : Prop :=
  ∀ {β : Type} (r : ρ β) t s w b s', I s w → D.pre r (w t) → exec r t s = .ok (some (b, s')) →
    ∃ v, D.post r (w t) b v ∧ I s' (update w t v)

/-- All threads keep to the discipline, under some views that go with the state. -/
def Discipline.Kept (D : Discipline ρ ε ν) (I : σ → (ι → ν) → Prop) (Q : ι → ν → Prop) (s : σ) (thr : ι → Program ρ ε Unit) : Prop :=
  ∃ w, I s w ∧ ∀ t, (thr t).Ok D (w t) fun _ => Q t

variable {exec : Exec ρ ε ι σ} {I : σ → (ι → ν) → Prop} {Q : ι → ν → Prop} {s s' : σ}
  {thr : ι → Program ρ ε Unit} {t : ι} {p : Program ρ ε Unit}

omit [DecidableEq ι] in
/-- A step of a thread is an action it has asked for. -/
theorem Program.of_next {q : Program ρ ε α} {p : Program ρ ε α} (h : q.next exec t s = .ok (some (s', p))) :
    ∃ (β : Type) (r : ρ β) (k : β → Program ρ ε α) (b : β), q = .act r k ∧ exec r t s = .ok (some (b, s')) ∧ p = k b := by
  cases q with
  | ret a | panic e => cases h
  | act r k =>
    cases hexec : exec r t s with
    | error e => simp [Program.next, hexec, Except.map] at h
    | ok o =>
      cases o with
      | none => simp [Program.next, hexec, Except.map] at h
      | some x =>
        obtain ⟨b, s₁⟩ := x
        obtain ⟨rfl, rfl⟩ : s₁ = s' ∧ k b = p := by simpa [Program.next, hexec, Except.map] using h
        exact ⟨_, r, k, b, rfl, hexec, rfl⟩

theorem Program.Ok.update {w : ι → ν} {v : ν} {r : ρ β} {k : β → Program ρ ε Unit} {b : β}
    (hok : ∀ t, (thr t).Ok D (w t) fun _ => Q t) (hthr : thr t = .act r k) (hv : D.post r (w t) b v) :
    ∀ u, (update thr t (k b) u).Ok D (update w t v u) fun _ => Q u := by
  have ht := hok t
  rw [hthr] at ht
  exact forall_update₂ (P := fun u p v => Program.Ok D p v fun _ => Q u) (ht.2 b v hv) fun u _ => hok u

/-- A step of a thread is an action that its view allows, and leaves it another view. -/
theorem Discipline.Sound.stepView {w : ι → ν} (hD : D.Sound exec I) (hI : I s w)
    (hok : ∀ t, (thr t).Ok D (w t) fun _ => Q t) (hnext : (thr t).next exec t s = .ok (some (s', p))) :
    ∃ (β : Type) (r : ρ β) (k : β → Program ρ ε Unit) (b : β) (v : ν), thr t = .act r k ∧
      exec r t s = .ok (some (b, s')) ∧ D.post r (w t) b v ∧ I s' (update w t v) ∧
      ∀ u, (update thr t p u).Ok D (update w t v u) fun _ => Q u := by
  obtain ⟨β, r, k, b, hthr, hexec, rfl⟩ := Program.of_next hnext
  have hpre : D.pre r (w t) := by
    have := hok t
    rw [hthr] at this
    exact this.1
  obtain ⟨v, hv, hI'⟩ := hD r t s w b s' hI hpre hexec
  exact ⟨β, r, k, b, v, hthr, hexec, hv, hI', Program.Ok.update hok hthr hv⟩

/-- **Every step of every thread** keeps the invariant and the discipline. -/
theorem Discipline.Sound.step (hD : D.Sound exec I) (h : D.Kept I Q s thr)
    (hnext : (thr t).next exec t s = .ok (some (s', p))) : D.Kept I Q s' (update thr t p) := by
  obtain ⟨w, hI, hok⟩ := h
  obtain ⟨β, r, k, b, v, -, -, -, hI', hok'⟩ := hD.stepView hI hok hnext
  exact ⟨update w t v, hI', hok'⟩

/-- The actions keep an invariant of the views of a second discipline, for threads that keep to
a first one. -/
def Discipline.SoundUnder {ν' : Type} (D' : Discipline ρ ε ν') (J : σ → (ι → ν') → Prop)
    (D : Discipline ρ ε ν) (I : σ → (ι → ν) → Prop) (exec : Exec ρ ε ι σ) : Prop :=
  ∀ {β : Type} (r : ρ β) t s w w' b s', I s w → D.pre r (w t) → J s w' → D'.pre r (w' t) →
    exec r t s = .ok (some (b, s')) → ∃ v, D'.post r (w' t) b v ∧ J s' (update w' t v)

theorem Discipline.SoundUnder.step {ν' : Type} {D' : Discipline ρ ε ν'} {J : σ → (ι → ν') → Prop}
    {Q' : ι → ν' → Prop} (hD : D'.SoundUnder J D I exec) (h : D.Kept I Q s thr)
    (h' : D'.Kept J Q' s thr) (hnext : (thr t).next exec t s = .ok (some (s', p))) : D'.Kept J Q' s' (update thr t p) := by
  obtain ⟨w, hI, hok⟩ := h
  obtain ⟨w', hJ, hok'⟩ := h'
  obtain ⟨β, r, k, b, hthr, hexec, rfl⟩ := Program.of_next hnext
  have ht := hok t
  have ht' := hok' t
  rw [hthr] at ht ht'
  obtain ⟨v, hv, hJ'⟩ := hD r t s w w' b s' hI ht.1 hJ ht'.1 hexec
  exact ⟨update w' t v, hJ', Program.Ok.update hok' hthr hv⟩

end Threads

end Xv6.Lib
