import Mathlib.Tactic.Push
import Xv6.Lib.Update
import Xv6.Lib.Run

/-!
# Spin locks

`acquire`, `release` and `holding` of `kernel/spinlock.c`, for one lock and any number of CPUs. Every access to the lock is a step of its own;
the fences keep them in order. `holding` loads `lk->locked` and then `lk->cpu`, while other CPUs take the lock and give it up. Its answer is
right all the same, because no other CPU ever stores the number of this one: so `acquire` and `release` panic when they are called wrongly, and
only then.
-/

namespace Xv6.Spinlock

open Lib Function

inductive Fn
  | acquire
  | release
  deriving DecidableEq, Repr

/-- Where in the code a CPU is. The flag says whether it has returned from `acquire` last. -/
inductive Pc
  | outside (mine : Bool)
  /-- In `holding`, called by `f`: before the load of `lk->locked`. -/
  | loadLocked (f : Fn) (mine : Bool)
  /-- In `holding`: `lk->locked` was not zero, and `lk->cpu` is to be compared. -/
  | loadCpu (f : Fn) (mine : Bool)
  /-- Before `__sync_lock_test_and_set`. -/
  | swap
  /-- Before `lk->cpu = mycpu()`. -/
  | setCpu
  /-- Before `lk->cpu = 0`. -/
  | clearCpu
  /-- Before `__sync_lock_release`. -/
  | unlock
  deriving DecidableEq, Repr

structure Sys (κ : Type) where
  locked : Bool
  cpu : Option κ
  pc : κ → Pc
  /-- The CPU that has panicked, and where. -/
  panicked : Option (κ × Fn)

variable {κ : Type}

/-- After `initlock`. -/
def boot : Sys κ := ⟨false, none, fun _ => .outside false, none⟩

/-- What the caller of `holding` does with the answer. -/
def Sys.answer [DecidableEq κ] (s : Sys κ) (c : κ) (f : Fn) (r : Bool) : Sys κ :=
  match f, r with
  | .acquire, false => { s with pc := update s.pc c .swap }
  | .release, true => { s with pc := update s.pc c .clearCpu }
  | f, _ => { s with panicked := some (c, f) }

/-- **One step** of a CPU: a call, if there is one to make, or the next access to the lock. -/
def step [DecidableEq κ] (s : Sys κ) (e : κ × Option Fn) : Option (Sys κ) :=
  if s.panicked.isSome then none
  else match s.pc e.1, e.2 with
    | .outside mine, some f => some { s with pc := update s.pc e.1 (.loadLocked f mine) }
    | .loadLocked f mine, none =>
      some (if s.locked then { s with pc := update s.pc e.1 (.loadCpu f mine) } else s.answer e.1 f false)
    | .loadCpu f _, none => some (s.answer e.1 f (s.cpu = some e.1))
    | .swap, none => some (if s.locked then s else { s with locked := true, pc := update s.pc e.1 .setCpu })
    | .setCpu, none => some { s with cpu := some e.1, pc := update s.pc e.1 (.outside true) }
    | .clearCpu, none => some { s with cpu := none, pc := update s.pc e.1 .unlock }
    | .unlock, none => some { s with locked := false, pc := update s.pc e.1 (.outside false) }
    | _, _ => none

/-- The CPU has the lock. -/
def Pc.has : Pc → Bool
  | .outside mine | .loadLocked _ mine | .loadCpu _ mine => mine
  | .swap => false
  | .setCpu | .clearCpu | .unlock => true

/-- The lock says that it is this CPU that has it. -/
def Pc.recorded : Pc → Bool
  | .setCpu | .unlock => false
  | a => a.has

theorem Pc.has_of_recorded {a : Pc} (h : a.recorded = true) : a.has = true := by
  cases a <;> first | exact h | cases h

/-- **The lock and the CPUs agree**, if `o` is the CPU that has the lock. -/
structure Inv (s : Sys κ) (o : Option κ) : Prop where
  has : ∀ c, (s.pc c).has = true ↔ o = some c
  locked : s.locked = o.isSome
  cpu : ∀ c, s.cpu = some c ↔ (s.pc c).recorded = true

theorem inv_boot : Inv (boot : Sys κ) none := by
  refine ⟨fun c => ?_, rfl, fun c => ?_⟩ <;> simp [boot, Pc.has, Pc.recorded]

variable {s t : Sys κ} {o o' : Option κ} {c : κ} {a : Pc} {f : Fn} {mine : Bool}

namespace Inv

/-- Nobody but the one that has the lock is recorded. -/
theorem cpu_ne (h : Inv s o) (hc : (s.pc c).has = true) {d : κ} (hd : d ≠ c) : s.cpu ≠ some d := by
  intro hcpu
  have hd' := (h.has d).mp (Pc.has_of_recorded ((h.cpu d).mp hcpu))
  rw [(h.has c).mp hc, Option.some_inj] at hd'
  exact hd hd'.symm

theorem not_mine (h : Inv s o) (hc : s.pc c = .loadLocked f mine) (hl : s.locked = false) : mine = false := by
  rw [h.locked, Option.isSome_eq_false_iff, Option.isNone_iff_eq_none] at hl
  have := h.has c
  rw [hc, hl] at this
  exact Bool.eq_false_iff.mpr fun hm => by simpa using this.mp hm

variable [DecidableEq κ]

/-- One CPU takes a step. -/
theorem set {l : Bool} {u : Option κ} (h : Inv s o) (hother : ∀ d, d ≠ c → (o = some d ↔ o' = some d) ∧ (s.cpu = some d ↔ u = some d))
    (hhas : a.has = true ↔ o' = some c) (hl : l = o'.isSome) (hu : u = some c ↔ a.recorded = true) :
    Inv { s with locked := l, cpu := u, pc := update s.pc c a } o' :=
  ⟨forall_update (P := fun d a => Pc.has a = true ↔ o' = some d) hhas fun d hd => (h.has d).trans (hother d hd).1, hl,
    forall_update (P := fun d a => u = some d ↔ Pc.recorded a = true) hu fun d hd => (hother d hd).2.symm.trans (h.cpu d)⟩

/-- It goes on, and has the lock if it had it before. -/
theorem move (h : Inv s o) (hhas : a.has = (s.pc c).has) (hrec : a.recorded = (s.pc c).recorded) : Inv { s with pc := update s.pc c a } o :=
  h.set (fun _ _ => ⟨Iff.rfl, Iff.rfl⟩) (hhas ▸ h.has c) h.locked (hrec ▸ h.cpu c)

/-- **`holding` is right**: when `lk->cpu` is compared, it is the number of this CPU just if this CPU has the lock. -/
theorem cpu_iff (h : Inv s o) (hc : s.pc c = .loadCpu f mine) : decide (s.cpu = some c) = mine := by
  have := h.cpu c
  rw [hc] at this
  exact Bool.eq_iff_iff.mpr (decide_eq_true_iff.trans this)

theorem answer (h : Inv s o) (hhas : (s.pc c).has = mine) (hrec : (s.pc c).recorded = mine) : Inv (s.answer c f mine) o := by
  subst hhas
  unfold Sys.answer
  split
  · next hr => exact h.move (by rw [hr]; rfl) (by rw [hrec, hr]; rfl)
  · next hr => exact h.move (by rw [hr]; rfl) (by rw [hrec, hr]; rfl)
  · exact ⟨h.has, h.locked, h.cpu⟩

/-- **Every step keeps the agreement.** -/
theorem of_step {e : κ × Option Fn} (h : Inv s o) (he : step s e = some t) : ∃ o', Inv t o' := by
  obtain ⟨c, call⟩ := e
  unfold step at he
  split at he
  · cases he
  have howns : (s.pc c).has = true → o = some c := (h.has c).mp
  rcases hc : s.pc c with mine | ⟨f, mine⟩ | ⟨f, mine⟩ | _ | _ | _ | _ <;> rcases call with _ | g <;> simp only [hc, reduceCtorEq] at he <;>
    obtain rfl := Option.some.inj he <;> rw [hc] at howns
  · exact ⟨o, h.move (by rw [hc]; rfl) (by rw [hc]; rfl)⟩
  · split
    · exact ⟨o, h.move (by rw [hc]; rfl) (by rw [hc]; rfl)⟩
    · next hl =>
      have hm := h.not_mine hc (by simpa using hl)
      exact ⟨o, h.answer (by rw [hc, hm]; rfl) (by rw [hc, hm]; rfl)⟩
  · rw [h.cpu_iff hc]
    exact ⟨o, h.answer (by rw [hc]; rfl) (by rw [hc]; rfl)⟩
  · split
    · exact ⟨o, h⟩
    rename_i hl
    -- nobody had the lock
    rw [h.locked, Bool.not_eq_true, Option.isSome_eq_false_iff, Option.isNone_iff_eq_none] at hl
    have hcpu := h.cpu c
    rw [hc] at hcpu
    exact ⟨some c, h.set (fun d hd => ⟨by simp [hl, hd.symm], Iff.rfl⟩) (by simp [Pc.has]) rfl hcpu⟩
  · obtain rfl := howns rfl
    have hother : ∀ d, d ≠ c → s.cpu ≠ some d := fun d => h.cpu_ne (by rw [hc]; rfl)
    exact ⟨some c, h.set (fun d hd => ⟨Iff.rfl, by simp [hother d hd, hd.symm]⟩) (by simp [Pc.has]) h.locked (by simp [Pc.recorded, Pc.has])⟩
  · obtain rfl := howns rfl
    have hother : ∀ d, d ≠ c → s.cpu ≠ some d := fun d => h.cpu_ne (by rw [hc]; rfl)
    exact ⟨some c, h.set (fun d hd => ⟨Iff.rfl, by simp [hother d hd]⟩) (by simp [Pc.has]) h.locked (by simp [Pc.recorded])⟩
  · obtain rfl := howns rfl
    have hcpu := h.cpu c
    rw [hc] at hcpu
    exact ⟨none, h.set (fun d hd => ⟨by simp [hd.symm], Iff.rfl⟩) (by simp [Pc.has]) rfl hcpu⟩

end Inv

variable [DecidableEq κ]

/-- What a right answer of `holding` leads to. -/
theorem answer_cases (mine : Bool) (hp : s.panicked = none) (hc : s.pc c ≠ .swap ∧ s.pc c ≠ .clearCpu) :
    ((s.answer c f mine).panicked.isSome = true → mine = decide (f = .acquire)) ∧
      ((s.answer c f mine).pc c = .swap ∨ (s.answer c f mine).pc c = .clearCpu → mine = decide (f = .release)) := by
  cases f <;> cases mine <;> simp [Sys.answer, hp, hc.1, hc.2]

/-- **Spin locks exclude, and notice misuse.** Over any number of CPUs and in every interleaving of their accesses, at most one CPU has the lock;
`acquire` panics only for a CPU that has it, and `release` for one that does not; and no such call gets past the test. -/
theorem spinlock_exact (h : Reach step (boot : Sys κ) s) : (∀ c d, (s.pc c).has = true → (s.pc d).has = true → c = d) ∧
    ∀ c t f mine, s.pc c = .loadLocked f mine ∨ s.pc c = .loadCpu f mine → step s (c, none) = some t →
      (t.panicked.isSome = true → mine = decide (f = .acquire)) ∧
        (t.pc c = .swap ∨ t.pc c = .clearCpu → mine = decide (f = .release)) := by
  obtain ⟨o, hi⟩ : ∃ o, Inv s o := by
    refine h.invariant (I := fun s => ∃ o, Inv s o) (fun hs he => ?_) ⟨none, inv_boot⟩
    obtain ⟨o, hs⟩ := hs
    exact hs.of_step he
  refine ⟨fun c d hc hd => ?_, fun c t f mine hpc he => ?_⟩
  · rw [hi.has] at hc hd
    exact Option.some.inj (hc.symm.trans hd)
  unfold step at he
  split at he
  · cases he
  next hp =>
  have hp : s.panicked = none := by simpa using hp
  have hne : s.pc c ≠ .swap ∧ s.pc c ≠ .clearCpu := by
    rcases hpc with hc | hc <;> simp [hc]
  rcases hpc with hc | hc <;> simp only [hc] at he <;> obtain rfl := Option.some.inj he
  · split
    · simp [hp]
    · next hl =>
      obtain rfl := hi.not_mine hc (by simpa using hl)
      exact answer_cases false hp hne
  · rw [hi.cpu_iff hc]
    exact answer_cases mine hp hne

/-- One CPU has the lock, and the other is about to compare `lk->cpu`. -/
theorem spinlock_exact_two : ∃ s, run step (boot : Sys (Fin 2)) [(0, some .acquire), (0, none), (0, none), (1, some .acquire), (0, none), (1, none)] =
    some s ∧ s.pc 1 = .loadCpu .acquire false ∧ ∀ d, (s.pc d).has = true → d = 0 := by
  have h : ∃ s, run step (boot : Sys (Fin 2)) [(0, some .acquire), (0, none), (0, none), (1, some .acquire), (0, none), (1, none)] = some s ∧
      s.pc 0 = .outside true ∧ s.pc 1 = .loadCpu .acquire false := ⟨_, rfl, rfl, rfl⟩
  obtain ⟨s, hrun, h0, h1⟩ := h
  exact ⟨s, hrun, h1, fun d hd => (spinlock_exact ⟨_, hrun⟩).1 d 0 hd (by rw [h0]; rfl)⟩

end Xv6.Spinlock
