import Xv6.Proc.Move

/-!
# The discipline of the threads

What the places the threads have reached say about the table, and the lock. The
whole of it rests on two things the source is careful about: a thread that holds
`wait_lock` is running, because interrupts are off and it does not sleep; and a
slot that `fork` has taken is `USED` until the same `fork` makes it runnable,
so that no other thread touches it meanwhile.
-/

namespace Xv6.Procs

open Lib Function

variable {s t : Sys} {hit : Slot → Prop} {c : Pc} {p : Slot}

/-! ### Places and states -/

def Pc.Allows : Pc → ProcState → Prop
  | .user, x => x ≠ .zombie ∧ x ≠ .sleeping
  | .slept, x | .waitSlept _, x => x = .sleeping ∨ x = .runnable
  | .dead, x => x = .zombie ∨ x = .unused
  | .forkScan _, x | .forkLink _, x | .forkReady _, x | .exitAcquire _, x | .waitAcquire _, x =>
    x = .running ∨ x = .runnable
  | .exitReparent _ _, x | .exitWakeInit _ _ _, x | .exitWakeParent _ _, x | .exitDie _, x
  | .waitScan _ _ _, x | .waitIdle _, x => x = .running

theorem Pc.allows_used (h : c.Allows .used) : c = .user := by
  cases c <;> simp_all [Pc.Allows]

theorem Pc.allows_unused (h : c.Allows .unused) : c = .user ∨ c = .dead := by
  cases c <;> simp_all [Pc.Allows]

theorem Pc.allows_zombie (h : c.Allows .zombie) : c = .dead := by
  cases c <;> simp_all [Pc.Allows]

theorem Pc.allows_runnable (h : c.Allows .running) (hc : c.holds = false) : c.Allows .runnable := by
  cases c <;> simp_all [Pc.Allows, Pc.holds]

def Pc.builds : Pc → Option Slot
  | .forkLink np | .forkReady np => some np
  | _ => none

theorem Pc.Allows.touched {q q' : Proc} (h : c.Allows q.state) (ht : Touched q q') : c.Allows q'.state := by
  rcases ht.state with he | ⟨hs, hr⟩
  · rwa [he]
  · rw [hs] at h
    rw [hr]
    cases c <;> simp_all [Pc.Allows]

/-- Where a thread may go on its own account, its state remains allowed, and it
neither takes nor drops the lock. -/
theorem Goes.allows {c c' : Pc} (h : Goes s p c c') : c'.Allows .running ∧ c'.holds = c.holds := by
  cases h <;> simp [Pc.Allows, Pc.holds]

theorem Goes.ne {c c' : Pc} (h : Goes s p c c') : c'.builds = none ∧ (∀ addr, c' ≠ .waitSlept addr) ∧ c' ≠ .dead := by
  cases h <;> simp [Pc.builds]

theorem resume_cases (q : Proc) (c : Pc) :
    (resume q c = ({ q with state := .running }, c) ∧ c ≠ .slept ∧ ∀ addr, c ≠ .waitSlept addr) ∨
    (resume q c = ({ q with state := .running, chan := none }, .user) ∧ c = .slept) ∨
    ∃ addr, resume q c = ({ q with state := .running, chan := none }, .waitAcquire addr) ∧ c = .waitSlept addr := by
  cases c <;> simp [resume]

/-! ### The invariant -/

structure Threads (s : Sys) : Prop where
  /-- `wait_lock` is held by the thread that is inside. -/
  lock : ∀ p, (s.pc p).holds = true ↔ s.waitLock = some p
  /-- A process is in a state that fits the place its thread has reached. -/
  states : ∀ p, (s.pc p).Allows (s.proc p).state
  /-- A process asleep in `wait` sleeps on itself. -/
  chan : ∀ p addr, s.pc p = .waitSlept addr → (s.proc p).chan = some (.proc p)
  /-- A free slot has no parent. -/
  free : ∀ i, (s.proc i).state = .unused → (s.proc i).parent = none
  /-- A child is built by one thread only, and does not run meanwhile. -/
  builds : ∀ p np, (s.pc p).builds = some np →
    (s.proc np).state = .used ∧ ∀ q, (s.pc q).builds = some np → q = p
  link : ∀ p np, s.pc p = .forkLink np → (s.proc np).parent = none

theorem threads_boot : Threads boot where
  lock := by simp [boot, Pc.holds]
  states := by
    intro p
    simp only [boot, update_apply]
    split <;> simp [Pc.Allows, freeproc]
  chan := by simp [boot]
  free := by
    intro i
    simp only [boot, update_apply]
    split <;> simp [freeproc]
  builds := by simp [boot, Pc.builds]
  link := by simp [boot]

theorem wakeupAt_eq (s : Sys) (p : Slot) (c : Option Chan) (j : Slot) : ∃ q, Touched (s.proc j) q ∧ wakeupAt s p c j = s.setProc j q := by
  rcases c with _ | c
  · exact ⟨_, Touched.refl _, (s.setProc_self j).symm⟩
  · by_cases hj : j = p
    · exact ⟨_, Touched.refl _, by rw [wakeupAt, if_pos hj, s.setProc_self]⟩
    · exact ⟨_, touched_wakeup1 c _, by rw [wakeupAt, if_neg hj]⟩

theorem of_wakeupAt {c : Option Chan} {j : Slot} {u : Sys} (h : wakeupAt s p c j = u) : ∃ q, Touched (s.proc j) q ∧ u = s.setProc j q :=
  h ▸ wakeupAt_eq s p c j

theorem Threads.touch {i : Slot} {q : Proc} (h : Threads s) (ht : Touched (s.proc i) q) : Threads (s.setProc i q) where
  lock := h.lock
  states p := by
    rw [Sys.setProc_proc]
    split
    · next hp => exact hp ▸ (h.states i).touched ht
    · exact h.states p
  chan p addr hp := by
    have := h.chan p addr hp
    have := ht.chan
    grind
  free p := by
    have := h.free p
    have := ht.parent
    have := ht.state
    grind
  builds p np hp := by
    obtain ⟨hu, huniq⟩ := h.builds p np hp
    have := ht.state
    exact ⟨by grind, huniq⟩
  link p np hp := by
    have := h.link p np hp
    have := ht.parent
    grind

theorem Threads.goto (h : Threads s) (hr : (s.proc p).state = .running) (hg : Goes s p (s.pc p) c) : Threads (s.setPc p c) where
  lock q := by
    have := h.lock q
    have := hg.allows.2
    grind
  states q := by
    have := h.states q
    have := hg.allows.1
    grind
  chan q addr hq := by
    have := h.chan q addr
    have := hg.ne
    grind
  free := h.free
  builds q np hq := by
    have := h.builds q np
    have := hg.ne
    grind
  link q np hq := by
    have := h.link q np
    have := hg.ne
    grind [Pc.builds]

/-- Touching a slot on the way to the next place breaks nothing either, if the
new place is one of the same kind. -/
theorem Threads.wakeupAt {p j : Slot} {ch : Option Chan} (h : Threads s)
    (hr : (s.proc p).state = .running) (hc : (s.pc p).holds = true) (hc' : c.holds = true) : Threads ((wakeupAt s p ch j).setPc p c) := by
  obtain ⟨q, hq, he⟩ := wakeupAt_eq s p ch j
  have h' := h.touch hq
  have hst := hq.state
  rw [he]
  have hb : c.builds = none ∧ (∀ addr, c ≠ .waitSlept addr) ∧ c.Allows .running := by
    cases c <;> simp_all [Pc.holds, Pc.builds, Pc.Allows]
  refine ⟨fun r => ?_, fun r => ?_, fun r addr hr => ?_, h'.free, fun r np hr => ?_, fun r np hr => ?_⟩
  · have := h'.lock r
    grind
  · have := h'.states r
    grind
  · have := h'.chan r addr
    grind
  · have := h'.builds r np
    grind
  · have := h'.link r np
    grind [Pc.builds]

/-! ### Every move keeps the discipline -/

section

variable (h : Threads s) (hm : Move hit s t)

include h hm

theorem Threads.lock_step : ∀ p, (t.pc p).holds = true ↔ t.waitLock = some p := by
  have hl := h.lock
  intro r
  have hlr := hl r
  cases hm with
  | touch i q ht _ => exact (h.touch ht).lock r
  | goto p c hr hg => exact (h.goto hr hg).lock r
  | exitWakeInit p j st i hr hc | exitWakeParent p j st hr hc => exact (h.wakeupAt hr (by rw [hc]; rfl) rfl).lock r
  | schedule p hr =>
    have := h.states p
    have := resume_cases (s.proc p) (s.pc p)
    grind [Pc.holds]
  | forkAlloc p np i hr hc hnp =>
    -- the slot was free, so its thread was outside
    have := Pc.allows_unused (hnp ▸ h.states np)
    grind [update_apply, Pc.holds]
  | _ => grind [Pc.holds, InUser]

theorem Threads.states_step : ∀ p, (t.pc p).Allows (t.proc p).state := by
  have hl := h.states
  intro r
  have hlr := hl r
  cases hm with
  | touch i q ht _ => exact (h.touch ht).states r
  | goto p c hr hg => exact (h.goto hr hg).states r
  | exitWakeInit p j st i hr hc | exitWakeParent p j st hr hc => exact (h.wakeupAt hr (by rw [hc]; rfl) rfl).states r
  | schedule p hr =>
    by_cases hp : r = p
    · subst hp
      cases hc : s.pc r <;> simp_all [resume, Pc.Allows]
    · simpa [hp] using hlr
  | yield p hr hc =>
    have := Pc.allows_runnable (hr ▸ hl p) hc
    grind
  | forkReady p np hr hc =>
    -- the child is still being built, so its thread has not moved yet
    have := Pc.allows_used ((h.builds p np (by rw [hc]; rfl)).1 ▸ h.states np)
    grind [Pc.Allows]
  | waitReap p np addr hk hr hc hpar hz =>
    have := Pc.allows_zombie (hz ▸ h.states np)
    grind [Pc.Allows, freeproc]
  | _ => grind [update_apply, Pc.Allows, InUser, freeproc, allocproc]

theorem Threads.chan_step : ∀ p addr, t.pc p = .waitSlept addr → (t.proc p).chan = some (.proc p) := by
  intro r addr
  have hr' := h.chan r
  have hs := h.states r
  cases hm with
  | touch i q ht _ => exact (h.touch ht).chan r addr
  | goto p c hr hg => exact (h.goto hr hg).chan r addr
  | exitWakeInit p j st i hr hc | exitWakeParent p j st hr hc => exact (h.wakeupAt hr (by rw [hc]; rfl) rfl).chan r addr
  | schedule p hr =>
    have := resume_cases (s.proc p) (s.pc p)
    grind
  | _ => grind [update_apply, Pc.Allows, allocproc, freeproc, InUser]

theorem Threads.free_step : ∀ i, (t.proc i).state = .unused → (t.proc i).parent = none := by
  intro r
  have hr' := h.free r
  cases hm with
  | touch i q ht _ => exact (h.touch ht).free r
  | goto p c hr hg => exact (h.goto hr hg).free r
  | exitWakeInit p j st i hr hc | exitWakeParent p j st hr hc => exact (h.wakeupAt hr (by rw [hc]; rfl) rfl).free r
  | schedule p hr =>
    have := resume_cases (s.proc p) (s.pc p)
    grind
  | forkLink p np hr hc hl =>
    have := h.builds p np (by rw [hc]; rfl)
    grind
  | _ => grind [update_apply, allocproc, freeproc]

theorem Threads.builds_step : ∀ p np, (t.pc p).builds = some np →
      (t.proc np).state = .used ∧ ∀ q, (t.pc q).builds = some np → q = p := by
  have hb := h.builds
  intro r np
  have hr' := hb r np
  cases hm with
  | touch i q ht _ => exact (h.touch ht).builds r np
  | goto p c hr hg => exact (h.goto hr hg).builds r np
  | exitWakeInit p j st i hr hc | exitWakeParent p j st hr hc => exact (h.wakeupAt hr (by rw [hc]; rfl) rfl).builds r np
  | schedule p hr =>
    have := resume_cases (s.proc p) (s.pc p)
    grind [Pc.builds]
  | forkAlloc p np' i hr hc hnp =>
    -- the slot was free, so nobody was building it
    have : ∀ q, (s.pc q).builds ≠ some np' := fun q hq => by
      have := (hb q np' hq).1
      grind
    grind [update_apply, allocproc, Pc.builds]
  | _ => grind [update_apply, allocproc, freeproc, InUser, Pc.builds]

theorem Threads.link_step : ∀ p np, t.pc p = .forkLink np → (t.proc np).parent = none := by
  intro r np
  have hr' := h.link r np
  have hb := h.builds
  cases hm with
  | touch i q ht _ => exact (h.touch ht).link r np
  | goto p c hr hg => exact (h.goto hr hg).link r np
  | exitWakeInit p j st i hr hc | exitWakeParent p j st hr hc => exact (h.wakeupAt hr (by rw [hc]; rfl) rfl).link r np
  | schedule p hr =>
    have := resume_cases (s.proc p) (s.pc p)
    grind
  | forkAlloc p np' i hr hc hnp =>
    have := h.free np' hnp
    grind [update_apply, allocproc]
  | forkLink p np' hr hc hl =>
    -- another thread cannot be about to link the same child
    have := fun q (hq : s.pc q = .forkLink np') => (hb p np' (by rw [hc]; rfl)).2 q (by rw [hq]; rfl)
    grind
  | _ => grind [freeproc]

theorem Threads.step : Threads t where
  lock := h.lock_step hm
  states := h.states_step hm
  chan := h.chan_step hm
  free := h.free_step hm
  builds := h.builds_step hm
  link := h.link_step hm

end

end Xv6.Procs
