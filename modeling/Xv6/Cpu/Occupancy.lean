import Xv6.Cpu.Refine

/-!
# One CPU per process

What the seats say of the machine: two CPUs are never on the same process, a process whose
lock is free is `RUNNING` if and only if some CPU is on it, and a process is resumed or freed
only when no CPU is on its kernel stack.
-/

namespace Xv6.Cpus

open Lib Function

open Procs (Slot)

variable {κ : Type} [DecidableEq κ] {s t : Sys κ} {c d : κ} {p : Slot} {guard : ℕ → ℕ}

omit [DecidableEq κ] in
theorem At.proc_of_stack {a : At} (h : a.stack = some p) : a.proc = some p := by
  cases a <;> simp_all [At.proc, At.stack]

namespace Seated

omit [DecidableEq κ] in
theorem running_iff (h : Seated s) (hl : s.lock p = none) : (s.table.proc p).state = .running ↔ ∃! c, s.proc c = some p := by
  constructor
  · intro hr
    obtain ⟨c, hc⟩ := h.running p hr
    have hp := At.proc_of_runs hc
    refine ⟨c, (h.proc c).trans hp, fun d hd => ?_⟩
    exact h.uniq d c p ((h.proc d).symm.trans hd) hp
  · rintro ⟨c, hc, -⟩
    rcases At.runs_or_rests ((h.proc c).symm.trans hc) with hr | hr
    · exact h.runs c p hr
    · have := (h.lock c p).mp (At.locks_of_rests hr)
      simp [hl] at this

omit [DecidableEq κ] in
theorem proc_ne_of_free (h : Seated s) (hl : s.lock p = none) (hs : (s.table.proc p).state ≠ .running) : s.proc c ≠ some p := by
  intro hc
  rcases At.runs_or_rests ((h.proc c).symm.trans hc) with hr | hr
  · exact hs (h.runs c p hr)
  · have := (h.lock c p).mp (At.locks_of_rests hr)
    simp [hl] at this

end Seated

theorem lock_of_freed {e : κ × Act} (h : Inv s) (he : step guard s e = some t)
    (hz : (s.table.proc p).state = .zombie) (hu : (t.table.proc p).state = .unused) : s.lock p = none := by
  have same : (t.table.proc p).state = (s.table.proc p).state → s.lock p = none := fun heq => by
    rw [heq, hz] at hu
    cases hu
  have touched : ∀ {i x}, t.table = s.table.setProc i x → Procs.Touched (s.table.proc i) x → s.lock p = none := by
    intro i x ht hx
    rw [ht, Procs.Sys.setProc_proc] at hu
    split at hu
    · next hpi =>
      subst hpi
      rcases hx.state with hst | ⟨hsl, -⟩
      · exact absurd ((hst.symm.trans hu).symm.trans hz) (by simp)
      · exact absurd (hsl.symm.trans hz) (by simp)
    · exact absurd (hz.symm.trans hu) (by simp)
  obtain ⟨c, ac⟩ := e
  rcases tick_of_step he with ⟨-, ht⟩ | ⟨addr, j, -, ht⟩
  · dsimp only at ht
    cases ht with
    | dispatch q hn hr =>
      simp only [Sys.setNow, Sys.setProc, Sys.setTable] at hu
      rw [Procs.Sys.setProc_proc] at hu
      split at hu
      · cases hu
      · exact absurd (hz.symm.trans hu) (by simp)
    | settle q hn =>
      have hrun := h.seated.runs c q (by rw [hn]; rfl)
      refine same (congrArg _ (update_of_ne ?_ ..))
      rintro rfl
      exact absurd (hz.symm.trans hrun) (by simp)
    | partNow q why hn hw | part q why hn =>
      have hrun := h.seated.runs c q (by rw [hn]; rfl)
      have hpq : p ≠ q := by
        rintro rfl
        exact absurd (hz.symm.trans hrun) (by simp)
      refine same (congrArg _ ?_)
      cases why <;> exact update_of_ne hpq ..
    | killHit q i hn hp hl => exact touched rfl (Procs.touched_kill1 _)
    | call q k u hn hk => exact same ((Inv.call_cases hk).1 p)
    | advance q ok u hn hp hf hadv =>
      obtain ⟨-, hadv⟩ : (s.table.proc q).state = .running ∧ _ := by simpa [Procs.step] using hadv
      rcases advance_cases hp hadv with ⟨i, x, hx⟩ | ⟨i, y, hneed, hy, -⟩
      · refine same ?_
        simp only [Sys.setTable]
        rw [hx, Procs.Sys.setProc_proc]
        split
        · next hpi => rw [hpi]
        · rfl
      · rw [hneed] at hf
        by_cases hpi : p = i
        · exact hpi ▸ hf
        · refine same ?_
          simp only [Sys.setTable]
          rw [hy, Procs.Sys.setProc_proc, if_neg hpi]
    | _ => exact same rfl
  · cases ht with
    | self i hi hp | done hj => exact same rfl
    | slot i hi hl => exact touched rfl (Procs.touched_wakeup1 _ _)

/-- **One CPU per process.** Over any number of CPUs and in every interleaving, at most one CPU has `c->proc = p`; a process whose lock is
free is `RUNNING` if and only if exactly one CPU has it; and a process is resumed, or freed by `wait`, only when no CPU has it or is on
its stack. -/
theorem one_cpu_per_process (h : Reach (step guard) (boot κ) s) : (∀ c d p, s.proc c = some p → s.proc d = some p → c = d) ∧
    (∀ p, s.lock p = none → ((s.table.proc p).state = .running ↔ ∃! c, s.proc c = some p)) ∧
    (∀ e t p, step guard s e = some t → (s.table.proc p).state = .zombie →
      (t.table.proc p).state = .unused → ∀ d, s.proc d ≠ some p ∧ (s.now d).stack ≠ some p) ∧
    (∀ c t p, step guard s (c, .dispatch) = some t → t.now c = .resumed p → ∀ d, s.proc d ≠ some p ∧ (s.now d).stack ≠ some p) := by
  have hi := Inv.of_reach h
  have hs := hi.seated
  have stack : ∀ d p, s.proc d ≠ some p → (s.now d).stack ≠ some p := fun d p hd hc =>
    hd ((hs.proc d).trans (At.proc_of_stack hc))
  refine ⟨fun c d p hc hd => ?_, fun p hl => hs.running_iff hl, fun e t p he hz hu d => ?_, fun c t p he hn d => ?_⟩
  · exact hs.uniq c d p ((hs.proc c).symm.trans hc) ((hs.proc d).symm.trans hd)
  · have hl := lock_of_freed hi he hz hu
    have := hs.proc_ne_of_free (c := d) hl (by simp [hz])
    exact ⟨this, stack d p this⟩
  have hno : s.proc d ≠ some p := by
    simp only [step] at he
    split at he
    · simp at he
    simp only [act] at he
    split at he
    · next q hq =>
      split at he <;> cases he
      rename_i hr
      obtain rfl : q = p := by simpa [Sys.setNow] using hn
      rw [hs.proc]
      exact hi.not_proc_of_runnable hq hr
    · simp at he
  exact ⟨hno, stack d p hno⟩

attribute [local instance] two_cpus

def firstSwitch : List (Fin 2 × Act) := [(0, .pick 0), (0, .dispatch), (0, .settle), (1, .pick 0), (1, .skip)]

theorem one_cpu_firstSwitch : ∃ s, run (step id) (boot (Fin 2)) firstSwitch = some s ∧
    s.lock 0 = none ∧ s.proc 0 = some 0 ∧ (∀ d, s.proc d = some 0 → d = 0) ∧ ((s.table.proc 0).state = .running ↔ ∃! c, s.proc c = some 0) := by
  have h : ∃ s, run (step id) (boot (Fin 2)) firstSwitch = some s ∧ s.lock 0 = none ∧ s.proc 0 = some 0 :=
    ⟨_, rfl, rfl, rfl⟩
  obtain ⟨s, hrun, hl, hp⟩ := h
  obtain ⟨huniq, hrunning, -, -⟩ := one_cpu_per_process (s := s) ⟨firstSwitch, hrun⟩
  exact ⟨s, hrun, hl, hp, fun d hd => huniq d 0 0 hd hp, hrunning 0 hl⟩

end Xv6.Cpus
