import Mathlib.Data.Fintype.Basic
import Xv6.Lib.Update
import Xv6.Lib.Run

/-!
# Interrupts follow the thread

`push_off` and `pop_off` keep their account in the CPU: how deep the nest is, and whether interrupts were enabled when it
began. A thread that is switched out takes only the second with it, in a local variable of `sched`, and may go on on
another CPU. That works because both `sched` and the scheduler that goes on are in a nest of depth one.

What threads do on their CPU is `Xv6.Interrupts.act`. An interrupt may come between the two halves of `push_off`, and its
handler may be switched out. The depth is far from the limits of an `int`.
-/

namespace Xv6.Interrupts

open Lib Function

/-- The part of `struct cpu` that is of interest, and the bit `SIE` of the CPU. -/
structure Cpu where
  noff : ℕ
  intena : Bool
  ie : Bool
  deriving DecidableEq, Repr

structure Local where
  /-- In `push_off`, past `intr_get`: the value of `old`. -/
  pushing : Option Bool
  /-- The handlers of interrupts that the thread is in, latest first, with the value of
  `pushing` that each interrupted. -/
  frames : List (Option Bool)
  /-- How often the thread has called `push_off` without `pop_off`. Not in the source. -/
  depth : ℕ
  /-- Whether interrupts were enabled when the thread began the nest it is in, if it was the
  thread that began it. Not in the source. -/
  began : Option Bool
  deriving DecidableEq, Repr

inductive Action
  /-- The first half of `push_off`, which reads the bit. -/
  | read
  /-- The second half, which clears it. Interrupts are off from there on, and the rest
  is one step. -/
  | push
  | pop
  | trap
  | sret
  /-- `intr_on` and `intr_off`, or the way into the kernel or out of it: outside nests and
  handlers. -/
  | setIe (b : Bool)
  deriving DecidableEq, Repr

/-- `push_off` from where it has read the bit. -/
def pushOff (k : Cpu) (old : Bool) : Cpu where
  noff := k.noff + 1
  intena := if k.noff = 0 then old else k.intena
  ie := false

def popOff (k : Cpu) : Option Cpu :=
  if k.ie then none
  else if k.noff < 1 then none
  else some { k with noff := k.noff - 1, ie := decide (k.noff - 1 = 0) && k.intena }

def act (k : Cpu) (l : Local) : Action → Option (Cpu × Local)
  | .read => if l.pushing = none then some (k, { l with pushing := some k.ie }) else none
  | .push =>
    match l.pushing with
    | some old =>
      some (pushOff k old,
        { l with
          pushing := none
          depth := l.depth + 1
          began := if l.depth = 0 then some k.ie else l.began })
    | none => none
  | .pop =>
    if l.pushing = none ∧ 0 < l.depth then
      (popOff k).map fun k => (k, { l with depth := l.depth - 1 })
    else none
  | .trap =>
    if k.ie = true then
      some ({ k with ie := false }, { l with pushing := none, frames := l.pushing :: l.frames })
    else none
  | .sret =>
    match l.frames with
    | f :: fs =>
      if l.pushing = none ∧ l.depth = 0 then
        some ({ k with ie := true }, { l with pushing := f, frames := fs })
      else none
    | [] => none
  | .setIe b =>
    if l.pushing = none ∧ l.depth = 0 ∧ l.frames = [] then some ({ k with ie := b }, l) else none

/-! ### The machine -/

/-- Where the thread of a process is. -/
inductive Place (C : Type)
  | fresh
  | on (c : C)
  /-- In `sched`, which has saved `intena`. -/
  | out (intena : Bool)
  deriving DecidableEq, Repr

/-- The CPUs, and the threads of processes and of schedulers. There is an element of `T` for
every process there ever is. -/
structure Sys (C T : Type) where
  cpu : C → Cpu
  /-- The process whose thread runs, if it is not the scheduler. -/
  cur : C → Option T
  loc : C ⊕ T → Local
  place : T → Place C

variable {C T : Type}

def Local.idle : Local := ⟨none, [], 0, none⟩

def boot : Sys C T where
  cpu _ := ⟨0, false, false⟩
  cur _ := none
  loc _ := Local.idle
  place _ := .fresh

inductive Event (C T : Type)
  | act (c : C) (a : Action)
  | sched (c : C)
  /-- The scheduler of the CPU switches to a process. -/
  | resume (c : C) (p : T)
  deriving DecidableEq

def Sys.thread (s : Sys C T) (c : C) : C ⊕ T :=
  match s.cur c with
  | some p => .inr p
  | none => .inl c

/-- **One step of the machine.** A scheduler goes on in a nest of which `intena` says nothing about the scheduler. A thread that runs for
the first time begins in `forkret`, in the nest of the scheduler. -/
def step [DecidableEq C] [DecidableEq T] (s : Sys C T) : Event C T → Option (Sys C T)
  | .act c a =>
    (act (s.cpu c) (s.loc (s.thread c)) a).map fun (k, l) =>
      { s with cpu := update s.cpu c k, loc := update s.loc (s.thread c) l }
  | .sched c =>
    match s.cur c with
    | some p =>
      if (s.loc (.inr p)).pushing = none ∧ (s.cpu c).noff = 1 ∧ (s.cpu c).ie = false then
        some { s with
          cur := update s.cur c none
          loc := update s.loc (.inl c) { s.loc (.inl c) with began := none }
          place := update s.place p (.out (s.cpu c).intena) }
      else none
    | none => none
  | .resume c p =>
    if s.cur c = none ∧ (s.loc (.inl c)).pushing = none ∧ (s.cpu c).noff = 1 then
      match s.place p with
      | .out intena =>
        some { s with
          cpu := update s.cpu c { s.cpu c with intena := intena }
          cur := update s.cur c (some p)
          place := update s.place p (.on c) }
      | .fresh =>
        some { s with
          cur := update s.cur c (some p)
          loc := update s.loc (.inr p) { Local.idle with depth := 1 }
          place := update s.place p (.on c) }
      | .on _ => none
    else none

variable {s t : Sys C T} {c c' : C} {p : T} {k k' : Cpu} {l l' : Local} {a : Action}

/-! ### A thread and its CPU -/

/-- What a thread knows about the handlers it is in: interrupts were enabled. -/
def Local.Sane (l : Local) : Prop := ∀ f ∈ l.frames, f ≠ some false

structure Fits (k : Cpu) (l : Local) : Prop where
  depth : k.noff = l.depth
  off : 0 < k.noff → k.ie = false
  began : 0 < l.depth → ∀ b, l.began = some b → k.intena = b
  pushing : ∀ old, l.pushing = some old → old = k.ie
  sane : l.Sane

structure Parked (l : Local) : Prop where
  depth : l.depth = 1
  pushing : l.pushing = none
  sane : l.Sane

theorem Fits.pushOff (h : Fits k l) {old : Bool} (hl : l.pushing = some old) : Fits (pushOff k old)
      { l with pushing := none, depth := l.depth + 1, began := if l.depth = 0 then some k.ie else l.began } where
  depth := congrArg (· + 1) h.depth
  off _ := rfl
  began _ b hb := by
    dsimp only [Interrupts.pushOff] at hb ⊢
    rw [h.depth]
    split at hb
    · rename_i hd
      rw [if_pos hd, h.pushing old hl]
      exact Option.some.inj hb
    · rename_i hd
      rw [if_neg hd]
      exact h.began (by omega) b hb
  pushing _ hold := nomatch hold
  sane := h.sane

theorem Fits.popOff (h : Fits k l) (hd : 0 < l.depth) : ∃ k', popOff k = some k' ∧ k'.noff = l.depth - 1 ∧ k'.intena = k.intena ∧
      k'.ie = (decide (l.depth = 1) && k.intena) := by
  have hn : 0 < k.noff := h.depth ▸ hd
  refine ⟨{ k with noff := k.noff - 1, ie := decide (k.noff - 1 = 0) && k.intena }, ?_, congrArg (· - 1) h.depth, rfl, ?_⟩
  · rw [Interrupts.popOff, h.off hn, if_neg Bool.false_ne_true, if_neg (by omega)]
  · have hiff : k.noff - 1 = 0 ↔ l.depth = 1 := by
      rw [h.depth]
      omega
    simp only [hiff]

theorem Fits.act (h : Fits k l) (ha : act k l a = some (k', l')) : Fits k' l' := by
  cases a with
  | read =>
    obtain ⟨-, rfl, rfl⟩ : l.pushing = none ∧ k = k' ∧ _ = l' := by simpa [Interrupts.act] using ha
    exact { h with pushing := fun old hold => (Option.some.inj hold).symm }
  | push =>
    simp only [Interrupts.act] at ha
    split at ha <;> cases ha
    rename_i old hold
    exact h.pushOff hold
  | pop =>
    simp only [Interrupts.act] at ha
    split at ha
    · rename_i hl
      obtain ⟨k₁, hk₁, hnoff, hintena, hie⟩ := h.popOff hl.2
      rw [hk₁] at ha
      cases ha
      refine ⟨hnoff, fun hn => ?_, fun hd b hb => ?_, fun old hold => ?_, h.sane⟩
      · have hd : l.depth ≠ 1 := by omega
        rw [hie, decide_eq_false hd, Bool.false_and]
      · rw [hintena]
        exact h.began hl.2 b hb
      · rw [hl.1] at hold
        cases hold
    · cases ha
  | trap =>
    obtain ⟨hie, rfl, rfl⟩ : k.ie = true ∧ _ = k' ∧ _ = l' := by simpa [Interrupts.act] using ha
    refine ⟨h.depth, fun _ => rfl, h.began, fun old hold => (nomatch hold), ?_⟩
    -- what was read before the interrupt is that interrupts are enabled
    intro f hf
    rcases List.mem_cons.mp hf with rfl | hf
    · intro hfalse
      exact absurd (h.pushing false hfalse) (by simp [hie])
    · exact h.sane f hf
  | sret =>
    simp only [Interrupts.act] at ha
    split at ha
    · rename_i f fs hfs
      obtain ⟨⟨-, hd⟩, rfl, rfl⟩ : (l.pushing = none ∧ l.depth = 0) ∧ _ = k' ∧ _ = l' := by
        simpa using ha
      have hsane := h.sane
      rw [Local.Sane, hfs] at hsane
      refine ⟨h.depth, fun hn => ?_, h.began, fun old hold => ?_, fun g hg => hsane g (List.mem_cons_of_mem _ hg)⟩
      · exact absurd (h.depth.trans hd) (by dsimp only at hn; omega)
      · cases old with
        | true => rfl
        | false => exact absurd hold (hsane f List.mem_cons_self)
    · cases ha
  | setIe b =>
    obtain ⟨⟨hl, hd, -⟩, rfl, rfl⟩ : (l.pushing = none ∧ l.depth = 0 ∧ l.frames = []) ∧ _ = k' ∧ l = l' := by
      simpa [Interrupts.act] using ha
    refine ⟨h.depth, fun hn => ?_, h.began, fun old hold => ?_, h.sane⟩
    · exact absurd (h.depth.trans hd) (by dsimp only at hn; omega)
    · rw [hl] at hold
      cases hold

/-! ### All threads -/

structure Inv (s : Sys C T) : Prop where
  fits : ∀ c, Fits (s.cpu c) (s.loc (s.thread c))
  /-- A process is on one CPU at most. -/
  place : ∀ c p, s.cur c = some p ↔ s.place p = .on c
  /-- The scheduler of a CPU that runs a process waits in a nest of depth one. -/
  sched : ∀ c p, s.cur c = some p → Parked (s.loc (.inl c))
  /-- So does a process that is switched out, and `sched` has saved what it needs. -/
  out : ∀ p i, s.place p = .out i → Parked (s.loc (.inr p)) ∧
    ∀ b, (s.loc (.inr p)).began = some b → i = b

theorem inv_boot : Inv (boot : Sys C T) where
  fits _ := ⟨rfl, fun _ => rfl, fun _ _ h => (nomatch h), fun _ h => (nomatch h), fun _ h => (nomatch h)⟩
  place _ _ := iff_of_false nofun nofun
  sched _ _ h := nomatch h
  out _ _ h := nomatch h

theorem thread_of_cur (h : s.cur c = some p) : s.thread c = .inr p := by
  rw [Sys.thread, h]

theorem thread_of_none (h : s.cur c = none) : s.thread c = .inl c := by
  rw [Sys.thread, h]

theorem Inv.thread_ne (h : Inv s) (hne : c' ≠ c) : s.thread c' ≠ s.thread c := by
  rcases hc : s.cur c with _ | p <;> rcases hc' : s.cur c' with _ | p'
  · rw [thread_of_none hc, thread_of_none hc']
    exact fun heq => hne (Sum.inl.inj heq)
  · rw [thread_of_none hc, thread_of_cur hc']
    exact nofun
  · rw [thread_of_cur hc, thread_of_none hc']
    exact nofun
  · rw [thread_of_cur hc, thread_of_cur hc']
    intro heq
    obtain rfl := Sum.inr.inj heq
    have hon := (h.place c p').mp hc
    rw [(h.place c' p').mp hc'] at hon
    cases hon
    exact hne rfl

section Steps

variable [DecidableEq C] [DecidableEq T]

theorem Inv.act (h : Inv s) (hfits : Fits k l) : Inv { s with cpu := update s.cpu c k, loc := update s.loc (s.thread c) l } := by
  refine ⟨fun c' => ?_, h.place, fun c' p hp => ?_, fun p i hp => ?_⟩
  · change Fits (update s.cpu c k c') (update s.loc (s.thread c) l (s.thread c'))
    by_cases hc : c' = c
    · subst hc
      rw [update_self, update_self]
      exact hfits
    · rw [update_of_ne hc, update_of_ne (h.thread_ne hc)]
      exact h.fits c'
  · have hne : Sum.inl c' ≠ s.thread c := by
      rcases hcur : s.cur c with _ | q
      · rw [thread_of_none hcur]
        rintro ⟨⟩
        cases hcur.symm.trans hp
      · rw [thread_of_cur hcur]
        exact nofun
    dsimp only
    rw [update_of_ne hne]
    exact h.sched c' p hp
  · have hne : Sum.inr p ≠ s.thread c := by
      rcases hcur : s.cur c with _ | q
      · rw [thread_of_none hcur]
        exact nofun
      · rw [thread_of_cur hcur]
        rintro ⟨⟩
        cases hp.symm.trans ((h.place c p).mp hcur)
    dsimp only
    rw [update_of_ne hne]
    exact h.out p i hp

theorem Inv.switchOut (h : Inv s) (hp : s.cur c = some p) (hpush : (s.loc (.inr p)).pushing = none) (hnoff : (s.cpu c).noff = 1) : Inv { s with
      cur := update s.cur c none
      loc := update s.loc (.inl c) { s.loc (.inl c) with began := none }
      place := update s.place p (.out (s.cpu c).intena) } := by
  have hfits := h.fits c
  rw [thread_of_cur hp] at hfits
  have hdepth : (s.loc (.inr p)).depth = 1 := hfits.depth.symm.trans hnoff
  have hpark := h.sched c p hp
  have hon := (h.place c p).mp hp
  refine ⟨fun c' => ?_, iff_update (R := fun o q => o = some q) (S := fun l c => l = Place.on c) h.place (by simp)
    (fun q hq => by simp [hp, Ne.symm hq]) (fun d hd => by simp [hon, Ne.symm hd]), fun c' q hq => ?_, fun q i hq => ?_⟩
  · by_cases hc : c' = c
    · subst hc
      rw [thread_of_none (update_self ..)]
      dsimp only
      rw [update_self]
      exact ⟨hnoff.trans hpark.depth.symm, hfits.off, fun _ _ hb => (nomatch hb),
        fun old hold => absurd (hpark.pushing.symm.trans hold) nofun, hpark.sane⟩
    have hthread : Sys.thread { s with
        cur := update s.cur c none
        loc := update s.loc (.inl c) { s.loc (.inl c) with began := none }
        place := update s.place p (.out (s.cpu c).intena) } c' = s.thread c' := by
      simp only [Sys.thread, update_of_ne hc]
    have hne : s.thread c' ≠ .inl c := by
      rcases hc' : s.cur c' with _ | q
      · rw [thread_of_none hc']
        exact fun heq => hc (Sum.inl.inj heq)
      · rw [thread_of_cur hc']
        exact nofun
    rw [hthread]
    dsimp only
    rw [update_of_ne hne]
    exact h.fits c'
  · dsimp only at hq ⊢
    by_cases hc : c' = c
    · rw [hc, update_self] at hq
      cases hq
    · rw [update_of_ne hc] at hq
      rw [update_of_ne fun heq => hc (Sum.inl.inj heq)]
      exact h.sched c' q hq
  · dsimp only at hq ⊢
    rw [update_of_ne (by exact nofun)]
    by_cases hqp : q = p
    · subst hqp
      rw [update_self] at hq
      cases hq
      exact ⟨⟨hdepth, hpush, hfits.sane⟩, fun b hb => hfits.began (by omega) b hb⟩
    · rw [update_of_ne hqp] at hq
      exact h.out q i hq

theorem Inv.switchIn (h : Inv s) (hc : s.cur c = none) (hp : ∀ c', s.place p ≠ .on c') (hpark : Parked (s.loc (.inl c))) (hfits : Fits k l) :
    Inv { s with
      cpu := update s.cpu c k
      cur := update s.cur c (some p)
      loc := update s.loc (.inr p) l
      place := update s.place p (.on c) } := by
  have hcur : ∀ c', s.cur c' ≠ some p := fun c' heq => hp c' ((h.place c' p).mp heq)
  refine ⟨fun c' => ?_, iff_update (R := fun o q => o = some q) (S := fun l c => l = Place.on c) h.place (by simp)
    (fun q hq => by simp [hc, Ne.symm hq]) (fun d hd => by simp [hp d, Ne.symm hd]), fun c' q hq => ?_, fun q i hq => ?_⟩
  · by_cases hc' : c' = c
    · subst hc'
      rw [thread_of_cur (update_self ..)]
      dsimp only
      rw [update_self, update_self]
      exact hfits
    have hthread : Sys.thread { s with
        cpu := update s.cpu c k
        cur := update s.cur c (some p)
        loc := update s.loc (.inr p) l
        place := update s.place p (.on c) } c' = s.thread c' := by
      simp only [Sys.thread, update_of_ne hc']
    have hne : s.thread c' ≠ .inr p := by
      rcases hcur' : s.cur c' with _ | q
      · rw [thread_of_none hcur']
        exact nofun
      · rw [thread_of_cur hcur']
        rintro ⟨⟩
        exact hcur c' hcur'
    rw [hthread]
    dsimp only
    rw [update_of_ne hne, update_of_ne hc']
    exact h.fits c'
  · dsimp only at hq ⊢
    rw [update_of_ne (by exact nofun)]
    by_cases hc' : c' = c
    · rw [hc']
      exact hpark
    · rw [update_of_ne hc'] at hq
      exact h.sched c' q hq
  · dsimp only at hq ⊢
    by_cases hqp : q = p
    · rw [hqp, update_self] at hq
      cases hq
    · rw [update_of_ne hqp] at hq
      rw [update_of_ne fun heq => hqp (Sum.inr.inj heq)]
      exact h.out q i hq

theorem inv_step {e : Event C T} (h : Inv s) (he : step s e = some t) : Inv t := by
  cases e with
  | act c a =>
    obtain ⟨⟨k, l⟩, ha, rfl⟩ := Option.map_eq_some_iff.mp he
    exact h.act ((h.fits c).act ha)
  | sched c =>
    simp only [step] at he
    split at he
    · rename_i p hp
      obtain ⟨⟨hpush, hnoff, -⟩, rfl⟩ : (_ ∧ _ ∧ _) ∧ _ := by simpa using he
      exact h.switchOut hp hpush hnoff
    · cases he
  | resume c p =>
    simp only [step] at he
    split at he
    · rename_i hguard
      obtain ⟨hc, hpush, hnoff⟩ := hguard
      have hfits := h.fits c
      rw [thread_of_none hc] at hfits
      have hpark : Parked (s.loc (.inl c)) := ⟨hfits.depth.symm.trans hnoff, hpush, hfits.sane⟩
      split at he
      · rename_i i hp
        cases he
        obtain ⟨hout, hbegan⟩ := h.out p i hp
        have hin := h.switchIn hc (fun c' hon => by rw [hp] at hon; cases hon) hpark (k := { s.cpu c with intena := i }) (l := s.loc (.inr p))
          ⟨hnoff.trans hout.depth.symm, hfits.off, fun _ b hb => hbegan b hb, fun old hold => absurd (hout.pushing.symm.trans hold) nofun, hout.sane⟩
        rwa [update_eq_self] at hin
      · rename_i hp
        cases he
        have hin := h.switchIn hc (fun c' hon => by rw [hp] at hon; cases hon) hpark (k := s.cpu c) (l := { Local.idle with depth := 1 })
          ⟨hnoff, hfits.off, fun _ _ hb => (nomatch hb), fun _ hold => (nomatch hold), fun _ hf => (nomatch hf)⟩
        rwa [update_eq_self] at hin
      · cases he
    · cases he

/-- **Interrupts follow the thread.** Interrupts are off on the CPUs that are in a nest. A process that leaves the nest it has begun does
not panic, and finds interrupts enabled iff they were when it began the nest, whatever CPU that was on. -/
theorem interrupts_follow_thread (h : Reach step boot s) : (∀ c, 0 < (s.cpu c).noff → (s.cpu c).ie = false) ∧
    ∀ c p b, s.cur c = some p → (s.loc (.inr p)).pushing = none → (s.loc (.inr p)).depth = 1 → (s.loc (.inr p)).began = some b →
      ∃ t, step s (.act c .pop) = some t ∧ (t.cpu c).noff = 0 ∧ (t.cpu c).ie = b := by
  have hinv : Inv s := h.invariant (fun hs he => inv_step hs he) inv_boot
  refine ⟨fun c => (hinv.fits c).off, fun c p b hp hpush hdepth hb => ?_⟩
  have hfits := hinv.fits c
  obtain ⟨k, hk, hnoff, -, hie⟩ := hfits.popOff (by rw [thread_of_cur hp]; omega)
  have hbegan := hfits.began (by rw [thread_of_cur hp]; omega) b (by rw [thread_of_cur hp]; exact hb)
  rw [thread_of_cur hp, hdepth] at hnoff hie
  refine ⟨{ s with
    cpu := update s.cpu c k
    loc := update s.loc (s.thread c) { s.loc (.inr p) with depth := 0 } }, ?_, ?_, ?_⟩
  · simp [step, act, thread_of_cur hp, hpush, hdepth, hk]
  · simpa using hnoff
  · simpa [hbegan] using hie

end Steps

/-- A process enters a nest on the first CPU, after an interrupt in the middle of `push_off`, is switched out, and goes on on the second. -/
def migrates : List (Event (Fin 2) (Fin 1)) :=
  [.act 0 .read, .act 0 .push, .resume 0 0, .act 0 .pop, .act 0 (.setIe true), .act 0 .read,
    .act 0 .trap, .act 0 .read, .act 0 .push, .act 0 .pop, .act 0 .sret, .act 0 .push, .sched 0,
    .act 1 .read, .act 1 .push, .resume 1 0]

theorem interrupts_follow_thread_migrates : ∃ s, run step boot migrates = some s ∧
      ∃ t, step s (.act 1 .pop) = some t ∧ (t.cpu 1).noff = 0 ∧ (t.cpu 1).ie = true := by
  have hr : run step boot migrates = some ((run step boot migrates).get (by decide)) :=
    (Option.some_get _).symm
  exact ⟨_, hr, (interrupts_follow_thread ⟨_, hr⟩).2 1 0 true (by decide) (by decide) (by decide) (by decide)⟩


end Xv6.Interrupts
