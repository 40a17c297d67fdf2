import Xv6.Proc.Wait

/-!
# Who sleeps on what

A process asleep in `wait` sleeps on its own address, and any other sleeper on an address
that is no process. So the only process a `wakeup` of `exit` can find asleep on the address
of `p` is `p`, and once the `wakeup` is past it, it is not: for the parent this is part of
`Xv6.Procs.Sleepers`, for the first process, which `reparent` wakes, it is shown here.
-/

namespace Xv6.Procs

open Lib Function

variable {s t : Sys} {hit : Slot → Prop} {p r : Slot}

def AsleepOn (s : Sys) (p : Slot) (chan : Chan) : Prop :=
  (s.proc p).state = .sleeping ∧ (s.proc p).chan = some chan

structure Rousing (s : Sys) : Prop where
  /-- A sleeper outside `wait` sleeps on an address. -/
  slept : ∀ p, s.pc p = .slept → ∃ addr, (s.proc p).chan = some (.other addr)
  /-- The first process is awake once `reparent` has looked at it. -/
  init : ∀ p st k j, s.pc p = .exitWakeInit st k j → s.initproc < j → ¬WaitsAsleep s s.initproc

theorem rousing_boot : Rousing boot where
  slept p h := by simp [boot] at h
  init p st k j h := by simp [boot] at h

section

variable (h : Rousing s) (ht : Threads s)

include h ht

theorem Rousing.waitsAsleep (hp : AsleepOn s p (.proc r)) : p = r ∧ WaitsAsleep s r := by
  have hst := ht.states p
  rw [hp.1] at hst
  have hchan := ht.chan p
  have hslept := h.slept p
  cases hc : s.pc p with
  | slept =>
    obtain ⟨addr, ha⟩ := hslept hc
    rw [hp.2] at ha
    simp at ha
  | waitSlept addr =>
    have hpr := hchan addr hc
    rw [hp.2] at hpr
    obtain rfl : r = p := by simpa using hpr
    exact ⟨rfl, hp.1, addr, hc⟩
  | _ =>
    rw [hc] at hst
    simp [Pc.Allows] at hst

theorem Rousing.slept_step (hm : Move hit s t) :
    ∀ p, t.pc p = .slept → ∃ addr, (t.proc p).chan = some (.other addr) := by
  intro r
  have hr' := h.slept r
  have hs := ht.states r
  cases hm with
  | touch i q hq _ =>
    have := hq.chan
    grind
  | goto p c hr hg =>
    intro hc
    by_cases hrp : r = p
    · subst hrp
      rw [Sys.setPc_pc, if_pos rfl] at hc
      subst hc
      generalize s.pc r = c₀ at hg
      cases hg
    · rw [Sys.setPc_pc, if_neg hrp] at hc
      exact hr' hc
  | schedule p hr =>
    have := resume_cases (s.proc p) (s.pc p)
    grind
  | exitWakeInit p j st i hr hc | exitWakeParent p j st hr hc =>
    generalize hu : wakeupAt s p _ j = u
    obtain ⟨q, hq, rfl⟩ := of_wakeupAt hu
    have := hq.chan
    grind
  | _ => grind [update_apply, Pc.Allows, allocproc, freeproc, InUser]

theorem Rousing.init_step (hm : Move hit s t) :
    ∀ p st k j, t.pc p = .exitWakeInit st k j → t.initproc < j → ¬WaitsAsleep t t.initproc := by
  intro q st k j
  have hw := h.init q st k j
  -- the thread that wakes holds the lock, so no other thread is inside
  have hin : ∀ p, (s.pc p).holds = true → s.pc q = .exitWakeInit st k j → p = q :=
    fun p hp hc => ht.holder hp (by rw [hc]; rfl)
  have hfree : s.waitLock = none → s.pc q ≠ .exitWakeInit st k j := fun hl hc => by
    have := ht.not_holds (p := q) hl
    simp [hc, Pc.holds] at this
  cases hm with
  | touch i q' hq _ =>
    have := fun hr => hq.not_waitsAsleep (r := s.initproc) hr
    grind
  | goto p c hr hg =>
    intro hc
    by_cases hqp : q = p
    · subst hqp
      rw [Sys.setPc_pc, if_pos rfl] at hc
      subst hc
      generalize s.pc q = c₀ at hg
      cases hg
    · rw [Sys.setPc_pc, if_neg hqp] at hc
      have := hw hc
      grind [WaitsAsleep]
  | schedule p hr =>
    have := resume_cases (s.proc p) (s.pc p)
    grind [WaitsAsleep]
  | exitReparent p i status hr hc hi =>
    have := hin p
    grind [WaitsAsleep, Pc.holds]
  | exitWakeInit p i status m hr hc =>
    have hawake : i = s.initproc → _ := fun hi => not_waitsAsleep_wakeupAt (j := i) ht hr
    obtain ⟨q', hq, he⟩ := wakeupAt_eq s p (some (.proc s.initproc)) i
    have hno := fun hr => hq.not_waitsAsleep (r := s.initproc) hr
    by_cases hqp : q = p
    · subst hqp
      intro hpc hlt
      obtain ⟨rfl, rfl, rfl⟩ : status = st ∧ m = k ∧ (i : ℕ) + 1 = j := by simpa using hpc
      have hlt' : (s.initproc : ℕ) < i + 1 := by
        rw [he] at hlt
        exact hlt
      rcases Nat.lt_succ_iff_lt_or_eq.mp hlt' with hlt | heq
      · have := h.init q status m i hc hlt
        rw [he]
        grind [WaitsAsleep]
      · -- the slot just looked at is that of the first process
        obtain rfl : s.initproc = i := Fin.ext heq
        have := hawake rfl
        rw [he] at this ⊢
        grind [WaitsAsleep]
    · rw [he]
      grind [WaitsAsleep]
  | exitWakeParent p i status hr hc =>
    obtain ⟨q', hq, he⟩ := wakeupAt_eq s p ((s.proc p).parent.map .proc) i
    have := fun hr => hq.not_waitsAsleep (r := s.initproc) hr
    rw [he]
    grind [WaitsAsleep]
  | _ => grind [WaitsAsleep, Pc.holds, freeproc, update_apply, allocproc, InUser]

theorem Rousing.step (hm : Move hit s t) : Rousing t where
  slept := h.slept_step ht hm
  init := h.init_step ht hm

end

end Xv6.Procs
