import Xv6.Proc.Threads

/-!
# The process tree

Every process but the first has a living parent. `exit` leaves a zombie behind, so no child may still point at it:
`reparent` has passed over every slot by then, and no child can be added to a process that is in `exit`, since `wait_lock`
is held throughout. And the slot that `wait` frees is a zombie's, so nothing points at it either.

The same lock makes the wake-ups reliable. `exit` wakes its parent first and becomes a zombie afterwards; a parent that
would fall asleep in between needs `wait_lock` for it. So a sleeping parent may have a zombie child only while that `exit`
is still on its way to it – and this happens only to the first process, which is handed zombies by `reparent`.
-/

namespace Xv6.Procs

open Lib Function

variable {s t : Sys} {hit : Slot → Prop} {p : Slot}

/-! ### How far an `exit` has come -/

/-- The slots below this one are no longer children of the thread. -/
def Pc.passed : Pc → ℕ
  | .exitReparent _ i => i
  | .exitWakeInit _ i _ => i + 1
  | .exitWakeParent _ _ | .exitDie _ => NPROC
  | _ => 0

/-- The slots below this one do not sleep in `wait` for the thread. -/
def Pc.woken : Pc → ℕ
  | .exitWakeParent _ j => j
  | .exitDie _ => NPROC
  | _ => 0

def Pc.exits : Pc → Bool
  | .exitAcquire _ | .exitReparent _ _ | .exitWakeInit _ _ _ | .exitWakeParent _ _ | .exitDie _
  | .dead => true
  | _ => false

theorem Pc.passed_of_not_exits {c : Pc} (h : c.exits = false) : c.passed = 0 := by
  cases c <;> simp_all [Pc.exits, Pc.passed]

theorem Pc.holds_of_woken {c : Pc} {i : ℕ} (h : i < c.woken) : c.holds = true := by
  cases c <;> simp_all [Pc.holds, Pc.woken]

theorem resume_exit (q : Proc) (c : Pc) : (resume q c).2.passed = c.passed ∧ (resume q c).2.woken = c.woken ∧
      (resume q c).2.exits = c.exits ∧ (resume q c).1.parent = q.parent ∧ (resume q c).1.state = .running := by
  cases c <;> simp [resume, Pc.passed, Pc.woken, Pc.exits]

theorem Goes.exits {c c' : Pc} (h : Goes s p c c') : c'.exits = c.exits := by
  cases h <;> rfl

theorem Goes.passed {c c' : Pc} (h : Goes s p c c') {j : Slot} (hj : j < c'.passed) : j < c.passed ∨ (s.proc j).parent ≠ some p := by
  cases h with
  | exitNext st i hi =>
    rcases Nat.lt_succ_iff_lt_or_eq.mp hj with h | h
    · exact Or.inl h
    · exact Or.inr (by simpa [← h] using hi (h ▸ j.isLt))
  | exitChildless st i hi => exact Or.inl (lt_of_lt_of_le j.isLt hi)
  | exitDue => exact Or.inl j.isLt
  | exitWoken st i j' hi => exact Or.inl hj
  | _ => exact absurd hj (by simp [Pc.passed])

/-! ### Every process has a living parent -/

def Alive (s : Sys) (i : Slot) : Prop := (s.proc i).state ≠ .unused ∧ (s.proc i).state ≠ .zombie

structure Family (s : Sys) : Prop where
  threads : Threads s
  /-- The first process lives and does not exit. -/
  init : Alive s s.initproc ∧ (s.pc s.initproc).exits = false
  tree : ∀ i q, (s.proc i).parent = some q → Alive s q
  /-- A process without a parent is the first one, or about to get one. -/
  orphan : ∀ i, (s.proc i).state ≠ .unused → i ≠ s.initproc → (s.proc i).parent = none →
    ∃ p, s.pc p = .forkLink i
  /-- What `reparent` has passed over is not a child any more. -/
  passed : ∀ q (j : Slot), j < (s.pc q).passed → (s.proc j).parent ≠ some q

theorem family_boot : Family boot where
  threads := threads_boot
  init := ⟨by simp [Alive, boot], rfl⟩
  tree := by
    intro i q
    simp only [boot, update_apply]
    split <;> simp [freeproc]
  orphan := by
    intro i hi hne
    simp only [boot, update_apply] at hi hne
    simp [hne, freeproc] at hi
  passed := by
    intro q j
    simp [boot, Pc.passed]

theorem Touched.alive {i j : Slot} {q : Proc} (h : Touched (s.proc i) q) (hj : Alive s j) : Alive (s.setProc i q) j := by
  have := h.state
  grind [Alive]

theorem Threads.holder {p q : Slot} (h : Threads s) (hp : (s.pc p).holds = true) (hq : (s.pc q).holds = true) : p = q :=
  Option.some.inj (((h.lock p).mp hp).symm.trans ((h.lock q).mp hq))

theorem Threads.not_holds (h : Threads s) (hl : s.waitLock = none) : (s.pc p).holds = false := by
  by_contra hc
  have := (h.lock p).mp (by simpa using hc)
  exact absurd (hl.symm.trans this) (by simp)

section

variable (h : Family s) (hm : Move hit s t)

include h hm

theorem Family.init_step : t.initproc = s.initproc ∧ Alive t t.initproc ∧ (t.pc t.initproc).exits = false := by
  obtain ⟨hi, he⟩ := h.init
  have hth := h.threads
  cases hm with
  | touch i q ht _ => exact ⟨rfl, ht.alive hi, he⟩
  | goto p c hr hg =>
    refine ⟨rfl, hi, ?_⟩
    have := hg.exits
    grind
  | schedule p hr =>
    have := resume_exit (s.proc p) (s.pc p)
    exact ⟨rfl, by grind [Alive], by grind⟩
  | exitWakeInit p j st i hr hc | exitWakeParent p j st hr hc =>
    generalize hu : wakeupAt s p _ j = u
    obtain ⟨q, hq, rfl⟩ := of_wakeupAt hu
    have := hq.alive hi
    exact ⟨rfl, this, by grind [Pc.exits]⟩
  | forkAlloc p np i hr hc hnp =>
    exact ⟨rfl, by grind [Alive, update_apply, allocproc], by grind [Pc.exits, update_apply]⟩
  | _ => exact ⟨rfl, by grind [Alive, Pc.exits, freeproc], by grind [Pc.exits, InUser]⟩

theorem Family.tree_step : ∀ i q, (t.proc i).parent = some q → Alive t q := by
  have hi := h.init.1
  intro i q
  have ht := h.tree i q
  cases hm with
  | touch j q' hq _ =>
    intro hp
    have := hq.parent
    exact hq.alive (ht (by grind))
  | goto p c hr hg => exact ht
  | schedule p hr =>
    have := resume_exit (s.proc p) (s.pc p)
    grind [Alive]
  | exitWakeInit p j st k hr hc | exitWakeParent p j st hr hc =>
    generalize hu : wakeupAt s p _ j = u
    obtain ⟨q', hq, rfl⟩ := of_wakeupAt hu
    have := hq.parent
    exact fun hp => hq.alive (ht (by grind))
  | exitDie p st hr hc =>
    -- `reparent` has gone through the whole table: nobody is a child of `p`
    have := h.passed p i (by rw [hc]; exact i.isLt)
    grind [Alive]
  | waitReap p np addr hk hr hc hpar hz =>
    -- a zombie is nobody's parent
    grind [Alive, freeproc]
  | forkAlloc p np k hr hc hnp =>
    have := h.threads.free np hnp
    grind [Alive, update_apply, allocproc]
  | _ => grind [Alive, freeproc, InUser]

theorem Family.orphan_step : ∀ i, (t.proc i).state ≠ .unused → i ≠ t.initproc → (t.proc i).parent = none →
      ∃ p, t.pc p = .forkLink i := by
  intro i
  have ho := h.orphan i
  -- a thread about to link a child stays there until it does
  have keep : ∀ {p : Slot} {c : Pc} {u : Sys}, (∀ np, s.pc p ≠ .forkLink np) → u.pc = s.pc →
      (∃ r, s.pc r = .forkLink i) → ∃ r, (u.setPc p c).pc r = .forkLink i := by
    rintro p c u hp hu ⟨r, hr⟩
    refine ⟨r, ?_⟩
    rw [Sys.setPc_pc, if_neg (by rintro rfl; exact hp i hr), hu, hr]
  cases hm with
  | touch j q hq _ =>
    have := hq.parent
    have := hq.state
    exact fun h1 h2 h3 => ho (by grind) h2 (by grind)
  | goto p c hr hg =>
    intro h1 h2 h3
    refine keep (u := s) (fun np hc => ?_) rfl (ho h1 h2 h3)
    rw [hc] at hg
    cases hg
  | schedule p hr =>
    have := resume_exit (s.proc p) (s.pc p)
    intro h1 h2 h3
    obtain ⟨r, hr'⟩ := ho (by grind) h2 (by grind)
    refine ⟨r, ?_⟩
    by_cases hrp : r = p
    · subst hrp
      simp [hr', resume]
    · simp [hrp, hr']
  | exitWakeInit p j st k hr hc | exitWakeParent p j st hr hc =>
    generalize hu : wakeupAt s p _ j = u
    obtain ⟨q', hq, rfl⟩ := of_wakeupAt hu
    have := hq.parent
    have := hq.state
    exact fun h1 h2 h3 => keep (by simp [hc]) rfl (ho (by grind) h2 (by grind))
  | yield p hr hc => exact fun h1 h2 h3 => ho (by grind) h2 (by grind)
  | sleep p addr hu =>
    exact fun h1 h2 h3 => keep (by simp [hu.2]) rfl (ho (by grind [InUser]) h2 (by grind))
  | forkFail p np k hr hc hnp | waitReap p np addr hk hr hc hpar hz =>
    exact fun h1 h2 h3 => keep (by simp [hc]) rfl (ho (by grind [freeproc]) h2 (by grind [freeproc]))
  | forkAlloc p np k hr hc hnp =>
    intro h1 h2 h3
    by_cases hi : i = np
    · exact ⟨p, by simp [hi]⟩
    · obtain ⟨r, hr'⟩ := ho (by grind [update_apply]) h2 (by grind [update_apply])
      have := Pc.allows_unused (hnp ▸ h.threads.states np)
      exact ⟨r, by grind [update_apply]⟩
  | forkLink p np hr hc hl =>
    intro h1 h2 h3
    obtain ⟨r, hr'⟩ := ho (by grind) h2 (by grind)
    exact ⟨r, by grind⟩
  | forkReady p np hr hc =>
    have := (h.threads.builds p np (by rw [hc]; rfl)).1
    exact fun h1 h2 h3 => keep (by simp [hc]) rfl (ho (by grind) h2 (by grind))
  | exitCall p st hu hp => exact fun h1 h2 h3 => keep (by simp [hu.2]) rfl (ho h1 h2 h3)
  | exitReparent p j st hr hc hj | exitDie p st hr hc | waitSleep p addr hr hc =>
    exact fun h1 h2 h3 => keep (by simp [hc]) rfl (ho (by grind) h2 (by grind))
  | exitAcquire p st hr hc hl | waitAcquire p addr hr hc hl | waitFail p addr k hk hr hc =>
    exact fun h1 h2 h3 => keep (by simp [hc]) rfl (ho h1 h2 h3)

theorem Family.passed_step : ∀ q (j : Slot), j < (t.pc q).passed → (t.proc j).parent ≠ some q := by
  have hinit := Pc.passed_of_not_exits h.init.2
  intro q j
  have hp := h.passed q j
  cases hm with
  | touch i q' hq _ =>
    have := hq.parent
    grind
  | goto p c hr hg =>
    have := fun hj => hg.passed (j := j) hj
    grind
  | schedule p hr =>
    have := resume_exit (s.proc p) (s.pc p)
    grind
  | exitWakeInit p i st k hr hc | exitWakeParent p i st hr hc =>
    generalize hu : wakeupAt s p _ i = u
    obtain ⟨q', hq, rfl⟩ := of_wakeupAt hu
    have := hq.parent
    grind [Pc.passed]
  | exitReparent p i st hr hc hi =>
    -- the new parent is the first process, which is not in `exit`
    have : p ≠ s.initproc := by
      rintro rfl
      have := h.init.2
      simp [hc, Pc.exits] at this
    grind [Pc.passed]
  | forkAlloc p np k hr hc hnp =>
    have := Pc.allows_unused (hnp ▸ h.threads.states np)
    grind [Pc.passed, update_apply, allocproc]
  | _ => grind [Pc.passed, freeproc]

theorem Family.step : Family t where
  threads := h.threads.step hm
  init := (h.init_step hm).2
  tree := h.tree_step hm
  orphan := h.orphan_step hm
  passed := h.passed_step hm

end

end Xv6.Procs
