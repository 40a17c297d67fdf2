import Xv6.Proc.Tree

/-!
# Waiting for a child

The second half of what `wait_lock` is for: no wake-up of a waiting parent is
lost, and every process that exits is handed to one `wait`, once, with the number
and the status it had.
-/

namespace Xv6.Procs

open Lib Function

variable {s t : Sys} {hit : Slot → Prop}

/-! ### No wake-up is lost -/

/-- The slots below this one were seen not to hold a zombie child of the thread. -/
def Pc.scanned : Pc → ℕ
  | .waitScan _ i _ => i
  | .waitIdle _ => NPROC
  | _ => 0

theorem Pc.holds_of_scanned {c : Pc} {i : ℕ} (h : i < c.scanned) : c.holds = true := by
  cases c <;> simp_all [Pc.holds, Pc.scanned]

def WaitsAsleep (s : Sys) (p : Slot) : Prop :=
  (s.proc p).state = .sleeping ∧ ∃ addr, s.pc p = .waitSlept addr

structure Sleepers (s : Sys) : Prop where
  family : Family s
  /-- A scan of `wait` has seen no zombie child yet. -/
  scan : ∀ p (j : Slot), j < (s.pc p).scanned → (s.proc j).parent = some p →
    (s.proc j).state ≠ .zombie
  /-- A parent `wakeup` has looked at is awake. -/
  woken : ∀ q (r : Slot), (s.proc q).parent = some r → r < (s.pc q).woken → ¬WaitsAsleep s r
  /-- A sleeping parent with a zombie child is the first process, and about to be
  woken up. -/
  zombie : ∀ p i, WaitsAsleep s p → (s.proc i).parent = some p → (s.proc i).state = .zombie →
    p = s.initproc ∧ ∃ q st k j, s.pc q = .exitWakeInit st k j ∧ j ≤ p

theorem sleepers_boot : Sleepers boot where
  family := family_boot
  scan := by simp [boot, Pc.scanned]
  woken := by
    intro q r _
    simp [boot, Pc.woken]
  zombie := by
    rintro p i ⟨-, addr, h⟩
    simp [boot] at h

theorem Touched.not_waitsAsleep {i r : Slot} {q : Proc} (h : Touched (s.proc i) q) (hr : WaitsAsleep (s.setProc i q) r) : WaitsAsleep s r := by
  have := h.state
  grind [WaitsAsleep]

theorem not_waitsAsleep_wakeupAt {p j : Slot} (h : Threads s) (hr : (s.proc p).state = .running) :
    ¬WaitsAsleep (wakeupAt s p (some (.proc j)) j) j := by
  by_cases hj : j = p
  · rw [wakeupAt, if_pos hj, hj]
    exact fun hc => absurd (hr.symm.trans hc.1) (by simp)
  · rw [wakeupAt, if_neg hj]
    rintro ⟨hs, addr, hpc⟩
    rw [Sys.setProc_proc, if_pos rfl] at hs
    exact wakeup1_not_sleeping (h.chan j addr hpc) hs

section

variable (h : Sleepers s) (hm : Move hit s t)

include h hm

theorem Sleepers.scan_step : ∀ p (j : Slot), j < (t.pc p).scanned → (t.proc j).parent = some p →
      (t.proc j).state ≠ .zombie := by
  intro p j
  have hs := h.scan p j
  have hth := h.family.threads
  -- a scan holds the lock, so no other thread is inside
  have hin : ∀ q, (s.pc q).holds = true → j < (s.pc p).scanned → q = p :=
    fun q hq hp => hth.holder hq (Pc.holds_of_scanned hp)
  have hfree : s.waitLock = none → ¬ j < (s.pc p).scanned := fun hl hp => by
    have := hth.not_holds (p := p) hl
    simp [Pc.holds_of_scanned hp] at this
  cases hm with
  | touch k q hq _ =>
    have := hq.parent
    have := hq.state
    grind
  | goto r c hr hg =>
    by_cases hpr : p = r
    · subst hpr
      generalize hc : s.pc p = c₀ at hg
      rw [Sys.setPc_pc, if_pos rfl]
      cases hg with
      | waitNext addr i hk hk' hi =>
        intro hj
        rcases Nat.lt_succ_iff_lt_or_eq.mp hj with hlt | rfl
        · exact hs (by rw [hc]; exact hlt)
        · exact hi j.isLt
      | waitIdle addr i hk hi => exact fun _ => hs (by rw [hc]; exact lt_of_lt_of_le j.isLt hi)
      | _ => simp [Pc.scanned]
    · grind
  | schedule r hr =>
    have := @resume_cases (s.proc r) (s.pc r)
    grind [Pc.scanned]
  | exitWakeInit r k st i' hr hc | exitWakeParent r k st hr hc =>
    generalize hu : wakeupAt s r _ k = u
    obtain ⟨q', hq, rfl⟩ := of_wakeupAt hu
    have := hq.parent
    have := hq.state
    grind [Pc.scanned]
  | exitReparent r k st hr hc hk | exitDie r st hr hc =>
    have := hin r
    grind [Pc.holds, Pc.scanned]
  | forkAlloc r np k hr hc hnp => grind [update_apply, allocproc, Pc.scanned]
  | _ => grind [freeproc, Pc.scanned]

theorem Sleepers.woken_step :
    ∀ q (r : Slot), (t.proc q).parent = some r → r < (t.pc q).woken → ¬WaitsAsleep t r := by
  intro q r
  have hw := h.woken q r
  have hth := h.family.threads
  -- the thread that wakes holds the lock, so no other thread is inside
  have hin : ∀ p, (s.pc p).holds = true → r < (s.pc q).woken → p = q :=
    fun p hp hr => hth.holder hp (Pc.holds_of_woken hr)
  have hfree : s.waitLock = none → ¬ r < (s.pc q).woken := fun hl hr => by
    have := hth.not_holds (p := q) hl
    simp [Pc.holds_of_woken hr] at this
  cases hm with
  | touch k q' hq _ =>
    have := hq.parent
    have := fun hr => hq.not_waitsAsleep (r := r) hr
    grind
  | goto p c hr hg =>
    by_cases hqp : q = p
    · subst hqp
      generalize hc : s.pc q = c₀ at hg
      cases hg with
      | exitDue st j hj =>
        intro hpar hlt
        have := hw hpar (by rw [hc]; exact lt_of_lt_of_le r.isLt hj)
        grind [WaitsAsleep]
      | _ => simp [Pc.woken]
    · grind [WaitsAsleep]
  | schedule p hr =>
    have := resume_exit (s.proc p) (s.pc p)
    grind [WaitsAsleep]
  | exitWakeInit p k st i hr hc =>
    obtain ⟨q', hq, he'⟩ := wakeupAt_eq s p (some (.proc s.initproc)) k
    have := hq.parent
    have := fun hr => hq.not_waitsAsleep (r := r) hr
    rw [he']
    grind [Pc.woken, WaitsAsleep]
  | exitWakeParent p k st hr hc =>
    have hawake := fun (hpar : (s.proc p).parent = some k) =>
      not_waitsAsleep_wakeupAt (j := k) hth hr
    obtain ⟨q', hq, he'⟩ := wakeupAt_eq s p ((s.proc p).parent.map .proc) k
    have := hq.parent
    have := fun hr => hq.not_waitsAsleep (r := r) hr
    by_cases hqp : q = p
    · subst hqp
      intro hpar hlt
      have hpar' : (s.proc q).parent = some r := by
        rw [he', Sys.setPc_proc, Sys.setProc_proc] at hpar
        split at hpar
        · next hk => rw [hk, ← hq.parent, hpar]
        · exact hpar
      rw [Sys.setPc_pc, if_pos rfl, Pc.woken] at hlt
      rcases Nat.lt_succ_iff_lt_or_eq.mp hlt with hlt | heq
      · have := hw hpar' (by rw [hc]; exact hlt)
        rw [he']
        grind [WaitsAsleep]
      · -- the slot just looked at is the parent's
        obtain rfl : r = k := Fin.ext heq
        have := hawake hpar'
        rw [hpar'] at he' ⊢
        grind [WaitsAsleep]
    · rw [he']
      grind [WaitsAsleep]
  | _ => grind [WaitsAsleep, Pc.holds, Pc.woken, freeproc, update_apply, allocproc, InUser]

theorem Sleepers.zombie_step : ∀ p i, WaitsAsleep t p → (t.proc i).parent = some p → (t.proc i).state = .zombie →
      p = t.initproc ∧ ∃ q st k j, t.pc q = .exitWakeInit st k j ∧ j ≤ p := by
  intro p i
  have hz := h.zombie p i
  have hth := h.family.threads
  -- an `exit` in the middle of `wakeup(initproc)` stays there unless it moves itself
  have keep : ∀ {r : Slot} {c : Pc} {u : Sys}, (∀ st k j, s.pc r ≠ .exitWakeInit st k j) →
      u.pc = s.pc → (∃ q st k j, s.pc q = .exitWakeInit st k j ∧ j ≤ p) →
      ∃ q st k j, (u.setPc r c).pc q = .exitWakeInit st k j ∧ j ≤ p := by
    rintro r c u hr hu ⟨q, st, k, j, hq, hj⟩
    refine ⟨q, st, k, j, ?_, hj⟩
    rw [Sys.setPc_pc, if_neg (by rintro rfl; exact hr _ _ _ hq), hu, hq]
  cases hm with
  | touch l q hq _ =>
    intro ha hp hs
    have := hq.parent
    have := hq.state
    exact hz (hq.not_waitsAsleep ha) (by grind) (by grind)
  | goto r c hr hg =>
    intro ha hp hs
    obtain ⟨rfl, q, st, k, j, hq, hj⟩ := hz (by grind [WaitsAsleep, hg.ne.2.1]) hp hs
    refine ⟨rfl, keep (u := s) (fun st' k' j' hc => ?_) rfl ⟨q, st, k, j, hq, hj⟩⟩
    -- the scan that is still on its way to the first process is not at its end
    obtain rfl : q = r := hth.holder (by rw [hq]; rfl) (by rw [hc]; rfl)
    rw [hq] at hg
    cases hg with
    | exitWoken st k j hN => exact absurd (lt_of_le_of_lt hj s.initproc.isLt) (Nat.not_lt.mpr hN)
  | schedule r hr =>
    have hres := resume_exit (s.proc r) (s.pc r)
    intro ha hp hs
    obtain ⟨rfl, q, st, k, j, hq, hj⟩ := hz (by grind [WaitsAsleep]) (by grind) (by grind)
    refine ⟨rfl, q, st, k, j, ?_, hj⟩
    by_cases hqr : q = r
    · subst hqr
      simp [hq, resume]
    · simpa [hqr] using hq
  | yield r hr hc =>
    exact fun ha hp hs => hz (by grind [WaitsAsleep]) (by grind) (by grind)
  | sleep r addr hu | exitCall r st hu _ =>
    intro ha hp hs
    obtain ⟨hi, hw⟩ := hz (by grind [WaitsAsleep]) (by grind) (by grind)
    exact ⟨hi, keep (by simp [hu.2]) rfl hw⟩
  | forkFail r np k hr hc hnp | waitReap r np addr hk hr hc hpar hnp =>
    intro ha hp hs
    obtain ⟨hi, hw⟩ := hz (by grind [WaitsAsleep, freeproc]) (by grind [freeproc]) (by grind [freeproc])
    exact ⟨hi, keep (by simp [hc]) rfl hw⟩
  | forkAlloc r np k hr hc hnp =>
    intro ha hp hs
    obtain ⟨hi, q, st, k, j, hq, hj⟩ :=
      hz (by grind [WaitsAsleep, update_apply]) (by grind [update_apply, allocproc]) (by grind [update_apply, allocproc])
    refine ⟨hi, q, st, k, j, ?_, hj⟩
    have := Pc.allows_unused (hnp ▸ hth.states np)
    grind [update_apply]
  | forkLink r np hr hc hl =>
    intro ha hp hs
    have := (hth.builds r np (by rw [hc]; rfl)).1
    obtain ⟨hi, hw⟩ := hz (by grind [WaitsAsleep]) (by grind) (by grind)
    exact ⟨hi, keep (by simp [hc]) rfl hw⟩
  | forkReady r np hr hc | exitAcquire r st hr hc hl | waitAcquire r addr hr hc hl | waitFail r addr k hk hr hc =>
    intro ha hp hs
    obtain ⟨hi, hw⟩ := hz (by grind [WaitsAsleep]) (by grind) (by grind)
    exact ⟨hi, keep (by simp [hc]) rfl hw⟩
  | exitReparent r l st hr hc hl =>
    -- whatever the first process is handed here, the scan for it starts now
    intro ha hp hs
    have hi : p = s.initproc := by
      by_cases hil : i = l
      · grind
      · exact (hz (by grind [WaitsAsleep]) (by grind) (by grind)).1
    exact ⟨hi, r, st, l, 0, by simp, Nat.zero_le _⟩
  | exitWakeInit r l st k hr hc =>
    have hawake := not_waitsAsleep_wakeupAt (j := l) hth hr
    obtain ⟨q', hq, he'⟩ := wakeupAt_eq s r (some (.proc s.initproc)) l
    have := hq.parent
    have := hq.state
    intro ha hp hs
    have ha' : WaitsAsleep (wakeupAt s r (some (.proc s.initproc)) l) p := by
      grind [WaitsAsleep]
    rw [he'] at hp hs ⊢
    obtain ⟨rfl, q, st', k', j, hq', hj⟩ :=
      hz (hq.not_waitsAsleep (he' ▸ ha')) (by grind) (by grind)
    -- it is this scan that was on its way, and slot `l` was not the first process
    obtain rfl : q = r := hth.holder (by rw [hq']; rfl) (by rw [hc]; rfl)
    obtain ⟨rfl, rfl, rfl⟩ : st = st' ∧ k = k' ∧ (l : ℕ) = j := by simpa [hc] using hq'
    have hne : (l : ℕ) ≠ s.initproc := by
      intro hl
      obtain rfl : l = s.initproc := Fin.ext hl
      exact hawake ha'
    exact ⟨rfl, q, st, k, l + 1, by simp, by omega⟩
  | exitWakeParent r l st hr hc =>
    obtain ⟨q', hq, he'⟩ := wakeupAt_eq s r ((s.proc r).parent.map .proc) l
    have := hq.parent
    have := hq.state
    rw [he']
    intro ha hp hs
    obtain ⟨hi, hw⟩ := hz (hq.not_waitsAsleep (by grind [WaitsAsleep])) (by grind) (by grind)
    exact ⟨hi, keep (by simp [hc]) rfl hw⟩
  | exitDie r st hr hc =>
    -- the parent of the new zombie has been woken up
    have := h.woken r p
    intro ha hp hs
    have ha' : WaitsAsleep s p := by grind [WaitsAsleep]
    by_cases hir : i = r
    · exact absurd ha' (h.woken r p (by grind) (by rw [hc]; exact p.isLt))
    · obtain ⟨hi, hw⟩ := hz ha' (by grind) (by grind)
      exact ⟨hi, keep (by simp [hc]) rfl hw⟩
  | waitSleep r addr hr hc =>
    intro ha hp hs
    by_cases hpr : p = r
    · -- the scan that sends it to sleep has seen every slot
      subst hpr
      have := h.scan p i (by rw [hc]; exact i.isLt)
      grind
    · obtain ⟨hi, hw⟩ := hz (by grind [WaitsAsleep]) (by grind) (by grind)
      exact ⟨hi, keep (by simp [hc]) rfl hw⟩

theorem Sleepers.step : Sleepers t where
  family := h.family.step hm
  scan := h.scan_step hm
  woken := h.woken_step hm
  zombie := h.zombie_step hm

end

end Xv6.Procs
