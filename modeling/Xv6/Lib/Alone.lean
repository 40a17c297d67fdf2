import Xv6.Lib.Outcome
import Xv6.Lib.Program

/-!
# Threads that run alone

What a program does when no other thread takes a step meanwhile: it goes from action to action, to its end or to a panic,
unless it has to wait. Its meaning is then a function of the state it starts in, with `Xv6.Lib.Program.Alone` for what
holds in the end. The rules follow the program: `Alone.bind` for a sequence, `Alone.act` for an action.
-/

namespace Xv6.Lib.Program

variable {ρ : Type → Type} {ε α β ι σ : Type} {exec : Exec ρ ε ι σ} {t : ι} {s s' : σ} {E : ε → Prop}
  {r : ρ β}

def alone (exec : Exec ρ ε ι σ) (t : ι) : Program ρ ε α → σ → Except ε (Option (α × σ))
  | .ret a, s => .ok (some (a, s))
  | .panic e, _ => .error e
  | .act r k, s =>
    match exec r t s with
    | .error e => .error e
    | .ok none => .ok none
    | .ok (some (b, s')) => (k b).alone exec t s'

/-- **The program comes to its end if it runs alone**, or to a panic in `E`, and leaves an answer and a state in `Q`. -/
def Alone (exec : Exec ρ ε ι σ) (t : ι) (E : ε → Prop) (p : Program ρ ε α) (s : σ) (Q : α → σ → Prop) : Prop :=
  Post E (p.alone exec t s) fun o => ∃ a s', o = some (a, s') ∧ Q a s'

variable {p : Program ρ ε α} {f : α → Program ρ ε β} {Q R : α → σ → Prop} {S : β → σ → Prop}

theorem alone_act_ok {k : β → Program ρ ε α} {b : β} (h : exec r t s = .ok (some (b, s'))) :
    alone exec t (.act r k) s = (k b).alone exec t s' := by
  rw [alone, h]

theorem alone_bind (p : Program ρ ε α) (f : α → Program ρ ε β) (s : σ) :
    (p >>= f).alone exec t s = p.alone exec t s >>= fun o => o.elim (.ok none) fun q => (f q.1).alone exec t q.2 := by
  induction p generalizing s with
  | ret a | panic e => rfl
  | act r k ih =>
    change alone exec t (.act r fun b => (k b).bind f) s = _
    rw [alone, alone]
    cases exec r t s with
    | error e => rfl
    | ok o =>
      cases o with
      | none => rfl
      | some q => exact ih q.1 q.2

namespace Alone

theorem ret {a : α} (h : Q a s) : Alone exec t E (pure a : Program ρ ε α) s Q := ⟨a, s, rfl, h⟩

theorem mono (h : Alone exec t E p s Q) (hQR : ∀ a s', Q a s' → R a s') : Alone exec t E p s R := by
  refine Post.mono h fun o ho => ?_
  obtain ⟨a, s', rfl, ha⟩ := ho
  exact ⟨a, s', rfl, hQR a s' ha⟩

/-- **The rule for sequences.** -/
theorem bind (h : Alone exec t E p s Q) (hf : ∀ a s', Q a s' → Alone exec t E (f a) s' S) : Alone exec t E (p >>= f) s S := by
  rw [Alone, alone_bind]
  refine Post.bind h fun o ho => ?_
  obtain ⟨a, s', rfl, ha⟩ := ho
  exact hf a s' ha

/-- **The rule for actions**, of which the answer is known. -/
theorem act {f : β → Program ρ ε α} {b : β} (h : exec r t s = .ok (some (b, s')))
    (hf : Alone exec t E (f b) s' Q) : Alone exec t E (perform r >>= f) s Q := by
  rw [Alone, show perform r >>= f = Program.act r f from rfl, alone_act_ok h]
  exact hf

theorem exists_of_false (h : Alone exec t (fun _ => False) p s Q) : ∃ a s', p.alone exec t s = .ok (some (a, s')) ∧ Q a s' := by
  cases hp : p.alone exec t s with
  | error e => exact absurd (Post.of_error h hp) id
  | ok o =>
    obtain ⟨a, s', rfl, ha⟩ := Post.of_ok h hp
    exact ⟨a, s', rfl, ha⟩

end Alone

end Xv6.Lib.Program
