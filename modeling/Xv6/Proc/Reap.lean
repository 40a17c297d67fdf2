import Xv6.Proc.Wait

/-!
# Every exit is reaped once

A process is born in a `fork`, it calls `exit` with a status, and some `wait` of its parent hands its number and its status
over and frees its slot. Slots are used again, so a process is named by its slot and by the generation of the slot.

`Xv6.Procs.Sys.life` forgets everything of a slot but the process in it: its generation, its number, and the status it has
called `exit` with. Seen so, a step does nothing, or it is a birth, an exit or a reaping (`Xv6.Procs.LifeStep`), and the
invariant of the history is read off these four cases.
-/

namespace Xv6.Procs

open Lib Function

variable {s t : Sys} {hit : Slot → Prop} {l : Life}

/-! ### The life of a process -/

/-- The process in a slot: which one of the slot it is, its number, and the
status it has called `exit` with. -/
structure Life where
  gen : ℕ
  pid : ℤ
  exit : Option ℤ
  deriving DecidableEq, Repr

/-- The status a process has called `exit` with, given its `xstate`. -/
def Pc.status (xstate : ℤ) : Pc → Option ℤ
  | .exitAcquire st | .exitReparent st _ | .exitWakeInit st _ _ | .exitWakeParent st _
  | .exitDie st => some st
  | .dead => some xstate
  | _ => none

def Sys.life (s : Sys) (i : Slot) : Option Life :=
  if (s.proc i).state = .unused then none
  else some ⟨s.gen i, (s.proc i).pid, (s.pc i).status (s.proc i).xstate⟩

variable {i p : Slot}

theorem Sys.life_of_unused (h : (s.proc i).state = .unused) : s.life i = none :=
  if_pos h

theorem Sys.life_of_used (h : (s.proc i).state ≠ .unused) :
    s.life i = some ⟨s.gen i, (s.proc i).pid, (s.pc i).status (s.proc i).xstate⟩ := if_neg h

theorem Sys.life_eq_none : s.life i = none ↔ (s.proc i).state = .unused := by
  simp [Sys.life]

theorem Sys.gen_of_life (h : s.life i = some l) : l.gen = s.gen i := by
  rw [Sys.life] at h
  split at h
  · simp at h
  · rw [← Option.some.inj h]

/-- **What a step can do to the life of processes.** -/
inductive LifeStep (s t : Sys) : Prop
  | quiet (hl : t.life = s.life) (hg : t.gen = s.gen) (hh : t.hist = s.hist)
  | born (np : Slot) (pid : ℤ) (hnp : s.life np = none)
      (hl : t.life = update s.life np (some ⟨s.gen np + 1, pid, none⟩))
      (hg : t.gen = update s.gen np (s.gen np + 1)) (hh : t.hist = s.hist)
  | exits (p : Slot) (l : Life) (st : ℤ) (hp : s.life p = some l) (he : l.exit = none)
      (hl : t.life = update s.life p (some { l with exit := some st })) (hg : t.gen = s.gen)
      (hh : t.hist = .exited p l.gen l.pid st :: s.hist)
  | reaps (p np : Slot) (l : Life) (st : ℤ) (addr : ℕ) (hk : Bool) (hp : s.life np = some l)
      (he : l.exit = some st) (hc : s.pc p = .waitScan addr np hk)
      (hpar : (s.proc np).parent = some p)
      (hl : t.life = update s.life np none) (hg : t.gen = s.gen)
      (hh : t.hist = .reaped p l.pid (if addr = 0 then none else some st) np l.gen :: s.hist)

theorem life_congr (hu : (t.proc i).state = .unused ↔ (s.proc i).state = .unused)
    (hg : t.gen i = s.gen i) (hp : (t.proc i).pid = (s.proc i).pid)
    (hst : (t.pc i).status (t.proc i).xstate = (s.pc i).status (s.proc i).xstate) : t.life i = s.life i := by
  simp only [Sys.life, hu, hg, hp, hst]

theorem Touched.life {q : Proc} (h : Touched (s.proc i) q) : (s.setProc i q).life = s.life := by
  funext j
  have hst := h.state
  have hx := h.xstate
  have hp := h.pid
  refine life_congr ?_ rfl ?_ ?_
  all_goals grind

theorem life_setPc {c : Pc} (h : c.status (s.proc p).xstate = (s.pc p).status (s.proc p).xstate) : (s.setPc p c).life = s.life := by
  funext j
  refine life_congr Iff.rfl rfl rfl ?_
  by_cases hj : j = p
  · subst hj
    simpa using h
  · simp [hj]

theorem Goes.status {c c' : Pc} (h : Goes s p c c') (x : ℤ) : c'.status x = c.status x := by
  cases h <;> rfl

theorem lifeStep_of_move (h : Threads s) (hm : Move hit s t) : LifeStep s t := by
  cases hm with
  | touch i q hq _ => exact .quiet hq.life rfl rfl
  | goto p c hr hg => exact .quiet (life_setPc (hg.status _)) rfl rfl
  | schedule p hr =>
    refine .quiet (funext fun j => life_congr ?_ rfl ?_ ?_) rfl rfl
    all_goals
      have := resume_cases (s.proc p) (s.pc p)
      grind [Pc.status]
  | yield p hr hc =>
    refine .quiet (funext fun j => life_congr ?_ rfl ?_ ?_) rfl rfl
    all_goals grind
  | sleep p addr hu =>
    refine .quiet (funext fun j => life_congr ?_ rfl ?_ ?_) rfl rfl
    all_goals grind [Pc.status, InUser]
  | forkFail p np i hr hc hnp =>
    refine .quiet (funext fun j => ?_) rfl rfl
    by_cases hj : j = np
    · subst hj
      rw [Sys.life_of_unused hnp, Sys.life_of_unused (by simp [freeproc])]
    · refine life_congr ?_ rfl ?_ ?_
      all_goals grind [Pc.status]
  | forkAlloc p np i hr hc hnp =>
    have hne : p ≠ np := by
      rintro rfl
      simp [hr] at hnp
    refine .born np s.nextpid (Sys.life_of_unused hnp) (funext fun j => ?_) rfl rfl
    by_cases hj : j = np
    · subst hj
      simp [Sys.life, allocproc, Pc.status, hne.symm]
    · rw [update_of_ne hj]
      refine life_congr ?_ ?_ ?_ ?_
      all_goals grind [Pc.status, update_apply]
  | forkLink p np hr hc hl =>
    refine .quiet (funext fun j => life_congr ?_ rfl ?_ ?_) rfl rfl
    all_goals
      have := Pc.allows_used ((h.builds p np (by rw [hc]; rfl)).1 ▸ h.states np)
      grind [Pc.status]
  | forkReady p np hr hc =>
    refine .quiet (funext fun j => life_congr ?_ rfl ?_ ?_) rfl rfl
    all_goals
      have hb := (h.builds p np (by rw [hc]; rfl)).1
      have := Pc.allows_used (hb ▸ h.states np)
      grind [Pc.status]
  | exitCall p st hu hp =>
    have hl : s.life p = some ⟨s.gen p, (s.proc p).pid, none⟩ := by
      simp [Sys.life, hu.1, hu.2, Pc.status]
    refine .exits p _ st hl rfl (funext fun j => ?_) rfl rfl
    by_cases hj : j = p
    · subst hj
      simp [Sys.life, hu.1, Pc.status]
    · rw [update_of_ne hj]
      refine life_congr ?_ rfl ?_ ?_
      all_goals grind
  | exitAcquire p st hr hc hl =>
    exact .quiet (life_setPc (s := s) (p := p) (c := .exitReparent st 0) (by simp [hc, Pc.status])) rfl rfl
  | exitReparent p i st hr hc hi | waitSleep p addr hr hc =>
    refine .quiet (funext fun j => life_congr ?_ rfl ?_ ?_) rfl rfl
    all_goals grind [Pc.status]
  | exitWakeInit p j st i hr hc =>
    obtain ⟨q, hq, he⟩ := wakeupAt_eq s p (some (.proc s.initproc)) j
    rw [he]
    refine .quiet ((life_setPc ?_).trans hq.life) rfl rfl
    rw [Sys.setProc_pc, hc]
    rfl
  | exitWakeParent p j st hr hc =>
    obtain ⟨q, hq, he⟩ := wakeupAt_eq s p ((s.proc p).parent.map .proc) j
    rw [he]
    refine .quiet ((life_setPc ?_).trans hq.life) rfl rfl
    rw [Sys.setProc_pc, hc]
    rfl
  | exitDie p st hr hc =>
    -- the status moves from the stack of the thread into its slot
    refine .quiet (funext fun j => life_congr ?_ rfl ?_ ?_) rfl rfl
    all_goals grind [Pc.status]
  | waitAcquire p addr hr hc hl =>
    exact .quiet (life_setPc (s := s) (p := p) (c := .waitScan addr 0 false) (by simp [hc, Pc.status])) rfl rfl
  | waitFail p addr i hk hr hc =>
    exact .quiet (life_setPc (s := s) (p := p) (c := .user) (by simp [hc, Pc.status])) rfl rfl
  | waitReap p np addr hk hr hc hpar hz =>
    have hd := Pc.allows_zombie (hz ▸ h.states np)
    have hl : s.life np = some ⟨s.gen np, (s.proc np).pid, some (s.proc np).xstate⟩ := by
      simp [Sys.life, hz, hd, Pc.status]
    refine .reaps p np _ _ addr hk hl rfl hc hpar (funext fun j => ?_) rfl rfl
    by_cases hj : j = np
    · subst hj
      simp [Sys.life, freeproc]
    · rw [update_of_ne hj]
      refine life_congr ?_ rfl ?_ ?_
      all_goals grind [Pc.status]

/-! ### The history -/

def Obs.reapedProcess : Obs → Option (Slot × ℕ)
  | .reaped _ _ _ i g => some (i, g)
  | .exited .. => none

def Obs.exitedProcess : Obs → Option (Slot × ℕ)
  | .exited i g _ _ => some (i, g)
  | .reaped .. => none

/-- **The history of exits and reapings**, against the processes that live. -/
structure History (s : Sys) : Prop where
  /-- A process in `exit`, or a zombie, is on record. -/
  called : ∀ i l st, s.life i = some l → l.exit = some st → .exited i l.gen l.pid st ∈ s.hist
  /-- What is on record is past, or is the process that the slot still holds. -/
  exited : ∀ i g pid st, .exited i g pid st ∈ s.hist →
    g ≤ s.gen i ∧ ∀ l, s.life i = some l → l.gen = g → l.pid = pid ∧ l.exit = some st
  reaped : ∀ p pid status i g, .reaped p pid status i g ∈ s.hist →
    g ≤ s.gen i ∧ ∀ l, s.life i = some l → l.gen ≠ g
  exitedOnce : (s.hist.filterMap Obs.exitedProcess).Nodup
  reapedOnce : (s.hist.filterMap Obs.reapedProcess).Nodup
  /-- A `wait` reports what was said in `exit`. -/
  report : ∀ pre post p pid status i g, s.hist = pre ++ .reaped p pid status i g :: post →
    ∃ st, .exited i g pid st ∈ post ∧ (status = none ∨ status = some st)

theorem history_boot : History boot where
  called i l st hl := by
    rw [Sys.life] at hl
    split at hl
    · simp at hl
    · simp [← Option.some.inj hl, boot, Pc.status]
  exited := by simp [boot]
  reaped := by simp [boot]
  exitedOnce := List.nodup_nil
  reapedOnce := List.nodup_nil
  report := by simp [boot]

theorem History.exitedOnce_mem (h : History s) (hl : s.life i = some l)
    (he : l.exit = none) : (i, l.gen) ∉ s.hist.filterMap Obs.exitedProcess := by
  intro hm
  obtain ⟨o, ho, hoi⟩ := List.mem_filterMap.mp hm
  cases o with
  | exited j g pid st =>
    obtain ⟨rfl, rfl⟩ : j = i ∧ g = l.gen := by simpa [Obs.exitedProcess] using hoi
    have := ((h.exited _ _ _ _ ho).2 l hl rfl).2
    simp [he] at this
  | reaped => simp [Obs.exitedProcess] at hoi

theorem History.reapedOnce_mem (h : History s) (hl : s.life i = some l) : (i, l.gen) ∉ s.hist.filterMap Obs.reapedProcess := by
  intro hm
  obtain ⟨o, ho, hoi⟩ := List.mem_filterMap.mp hm
  cases o with
  | exited => simp [Obs.reapedProcess] at hoi
  | reaped p pid status j g =>
    obtain ⟨rfl, rfl⟩ : j = i ∧ g = l.gen := by simpa [Obs.reapedProcess] using hoi
    exact (h.reaped _ _ _ _ _ ho).2 l hl rfl

theorem History.called_step (h : History s) (hs : LifeStep s t) :
    ∀ i l st, t.life i = some l → l.exit = some st → .exited i l.gen l.pid st ∈ t.hist := by
  intro i l st hi he
  cases hs with
  | quiet hl hg hh => exact hh ▸ h.called i l st (hl ▸ hi) he
  | born np pid hnp hl hg hh =>
    rw [hl, update_apply] at hi
    split at hi
    · simp [← Option.some.inj hi] at he
    · exact hh ▸ h.called i l st hi he
  | exits p l' st' hp he' hl hg hh =>
    rw [hl, update_apply] at hi
    rw [hh]
    split at hi
    · next hip =>
      obtain rfl := Option.some.inj hi
      obtain rfl : st' = st := by simpa using he
      exact hip ▸ List.mem_cons_self
    · exact List.mem_cons_of_mem _ (h.called i l st hi he)
  | reaps p np l' st' addr hk hp he' hc hpar hl hg hh =>
    rw [hl, update_apply] at hi
    split at hi
    · simp at hi
    · exact hh ▸ List.mem_cons_of_mem _ (h.called i l st hi he)

theorem known_step {g : ℕ} {Q : Life → Prop} (h : g ≤ s.gen i ∧ ∀ l, s.life i = some l → l.gen = g → Q l)
    (hQ : ∀ l, Q l → l.exit ≠ none) (hs : LifeStep s t) : g ≤ t.gen i ∧ ∀ l, t.life i = some l → l.gen = g → Q l := by
  obtain ⟨hle, hcur⟩ := h
  cases hs with
  | quiet hl hg hh => exact hl ▸ hg ▸ ⟨hle, hcur⟩
  | born np pid' hnp hl hg hh =>
    rw [hl, hg, update_apply, update_apply]
    split
    · next hi =>
      subst hi
      refine ⟨by omega, fun l hl hlg => ?_⟩
      have : s.gen i + 1 = g := by simpa [← Option.some.inj hl] using hlg
      omega
    · exact ⟨hle, hcur⟩
  | exits p l' st' hp he' hl hg hh =>
    rw [hl, hg]
    refine ⟨hle, fun l hli hlg => ?_⟩
    rw [update_apply] at hli
    split at hli
    · -- it had not called `exit` before
      next hi =>
      subst hi
      exact absurd he' (hQ l' (hcur l' hp (by simpa [← Option.some.inj hli] using hlg)))
    · exact hcur l hli hlg
  | reaps p np l' st' addr hk hp he' hc hpar hl hg hh =>
    rw [hl, hg]
    refine ⟨hle, fun l hli hlg => ?_⟩
    rw [update_apply] at hli
    split at hli
    · simp at hli
    · exact hcur l hli hlg

section

variable (h : History s) (hs : LifeStep s t)

include h hs

theorem History.exited_step : ∀ i g pid st, .exited i g pid st ∈ t.hist →
      g ≤ t.gen i ∧ ∀ l, t.life i = some l → l.gen = g → l.pid = pid ∧ l.exit = some st := by
  intro i g pid st hm
  have hold : .exited i g pid st ∈ s.hist → _ := fun hm => known_step (h.exited i g pid st hm) (fun l hQ => by simp [hQ.2]) hs
  cases hs with
  | quiet hl hg hh | born np pid' hnp hl hg hh => exact hold (hh ▸ hm)
  | exits p l' st' hp he' hl hg hh =>
    rcases List.mem_cons.mp (hh ▸ hm) with heq | hm
    · obtain ⟨rfl, rfl, rfl, rfl⟩ : i = p ∧ g = l'.gen ∧ pid = l'.pid ∧ st = st' := by
        simpa using heq
      rw [hl, hg]
      exact ⟨(Sys.gen_of_life hp).le, by simp⟩
    · exact hold hm
  | reaps p np l' st' addr hk hp he' hc hpar hl hg hh => exact hold ((List.mem_cons.mp (hh ▸ hm)).resolve_left (by simp))

theorem History.reaped_step : ∀ p pid status i g, .reaped p pid status i g ∈ t.hist →
      g ≤ t.gen i ∧ ∀ l, t.life i = some l → l.gen ≠ g := by
  intro r pid status i g hm
  have hold : .reaped r pid status i g ∈ s.hist → _ := fun hm => known_step (h.reaped r pid status i g hm) (fun _ => False.elim) hs
  cases hs with
  | quiet hl hg hh | born np pid' hnp hl hg hh => exact hold (hh ▸ hm)
  | exits p l' st' hp he' hl hg hh => exact hold ((List.mem_cons.mp (hh ▸ hm)).resolve_left (by simp))
  | reaps p np l' st' addr hk hp he' hc hpar hl hg hh =>
    rcases List.mem_cons.mp (hh ▸ hm) with heq | hm
    · obtain ⟨-, -, -, rfl, rfl⟩ : _ ∧ _ ∧ _ ∧ i = np ∧ g = l'.gen := by simpa using heq
      rw [hl, hg]
      exact ⟨(Sys.gen_of_life hp).le, by simp⟩
    · exact hold hm

theorem History.once_step :
    (t.hist.filterMap Obs.exitedProcess).Nodup ∧ (t.hist.filterMap Obs.reapedProcess).Nodup := by
  cases hs with
  | quiet hl hg hh | born np pid hnp hl hg hh => exact hh ▸ ⟨h.exitedOnce, h.reapedOnce⟩
  | exits p l st hp he hl hg hh =>
    rw [hh]
    exact ⟨List.nodup_cons.mpr ⟨h.exitedOnce_mem hp he, h.exitedOnce⟩, h.reapedOnce⟩
  | reaps p np l st addr hk hp he hc hpar hl hg hh =>
    rw [hh]
    exact ⟨h.exitedOnce, List.nodup_cons.mpr ⟨h.reapedOnce_mem hp, h.reapedOnce⟩⟩

theorem History.report_step : ∀ pre post p pid status i g, t.hist = pre ++ .reaped p pid status i g :: post →
      ∃ st, .exited i g pid st ∈ post ∧ (status = none ∨ status = some st) := by
  intro pre post p pid status i g hpre
  -- an entry other than the latest one was there before
  have old : ∀ o, t.hist = o :: s.hist → o ≠ .reaped p pid status i g → ∃ st, .exited i g pid st ∈ post ∧ (status = none ∨ status = some st) := by
    intro o ho hne
    rw [ho] at hpre
    cases pre with
    | nil => exact absurd (List.cons.inj hpre).1 hne
    | cons o' pre => exact h.report pre post p pid status i g (List.cons.inj hpre).2
  cases hs with
  | quiet hl hg hh => exact h.report pre post p pid status i g (hh ▸ hpre)
  | born np pid hnp hl hg hh => exact h.report pre post p _ status i g (hh ▸ hpre)
  | exits p l st hp he hl hg hh => exact old _ hh (by simp)
  | reaps p' np l st addr hk hp he hc hpar hl hg hh =>
    by_cases hne : Obs.reaped p' l.pid (if addr = 0 then none else some st) np l.gen = .reaped p pid status i g
    · cases pre with
      | nil =>
        rw [hh] at hpre
        obtain ⟨-, rfl, rfl, rfl, rfl⟩ : p' = p ∧ l.pid = pid ∧ (if addr = 0 then none else some st) = status ∧ np = i ∧
              l.gen = g := by simpa using hne
        refine ⟨st, (List.cons.inj hpre).2 ▸ h.called np l st hp he, ?_⟩
        split
        · exact Or.inl rfl
        · exact Or.inr rfl
      | cons o pre => exact h.report pre post p pid status i g (List.cons.inj (hh ▸ hpre)).2
    · exact old _ hh hne

theorem History.step : History t where
  called := h.called_step hs
  exited := h.exited_step hs
  reaped := h.reaped_step hs
  exitedOnce := (h.once_step hs).1
  reapedOnce := (h.once_step hs).2
  report := h.report_step hs

end

/-! ### The reachable states -/

/-- What holds in every state the machine can reach. -/
structure Orderly (s : Sys) : Prop where
  sleepers : Sleepers s
  history : History s

theorem Orderly.threads (h : Orderly s) : Threads s := h.sleepers.family.threads

theorem orderly_of_reach (h : Reach step boot s) : Orderly s := by
  refine h.invariant (I := Orderly) (fun {s e t} hs he => ?_) ⟨sleepers_boot, history_boot⟩
  have hm := move_of_step he
  exact ⟨hs.sleepers.step hm, hs.history.step (lifeStep_of_move hs.threads hm)⟩

theorem Orderly.reaped_of_unused (h : Orderly s) {e : Event} (he : step s e = some t)
    (hi : (s.proc i).state ≠ .unused) (hi' : (t.proc i).state = .unused) : ∃ p addr hk st, s.pc p = .waitScan addr i hk ∧ (s.proc i).parent = some p ∧
      .exited i (s.gen i) (s.proc i).pid st ∈ s.hist ∧ t.hist = .reaped p (s.proc i).pid (if addr = 0 then none else some st) i (s.gen i) ::
        s.hist := by
  have hlife := Sys.life_of_used hi
  have hnone : t.life i = none := Sys.life_of_unused hi'
  cases lifeStep_of_move h.threads (move_of_step he) with
  | quiet hl hg hh => simp [hl, hlife] at hnone
  | born np pid hnp hl hg hh | exits p l st hp hex hl hg hh =>
    rw [hl, update_apply, hlife] at hnone
    split at hnone <;> simp at hnone
  | reaps p np l st addr hk hp hex hc hpar hl hg hh =>
    rw [hl, update_apply, hlife] at hnone
    split at hnone
    · next hin =>
      subst hin
      obtain rfl := Option.some.inj (hlife.symm.trans hp)
      exact ⟨p, addr, hk, st, hc, hpar, h.history.called i _ st hp hex, hh⟩
    · simp at hnone

theorem Orderly.unused_of_reaped (h : Orderly s) {e : Event} {pid : ℤ} {status : Option ℤ} {g : ℕ} (he : step s e = some t)
    (hh : t.hist = .reaped p pid status i g :: s.hist) : (s.proc i).parent = some p ∧ (s.proc i).pid = pid ∧ s.gen i = g ∧
      (s.proc i).state ≠ .unused ∧ (t.proc i).state = .unused := by
  cases lifeStep_of_move h.threads (move_of_step he) with
  | quiet hl hg hh' | born np pid' hnp hl hg hh' | exits p' l st hp hex hl hg hh' => simp [hh'] at hh
  | reaps p' np l st addr hk hp hex hc hpar hl hg hh' =>
    obtain ⟨rfl, rfl, -, rfl, rfl⟩ : p' = p ∧ l.pid = pid ∧ _ ∧ np = i ∧ l.gen = g := by
      simpa [hh'] using hh
    have hu : (s.proc np).state ≠ .unused := fun hu => by simp [Sys.life_of_unused hu] at hp
    obtain rfl := Option.some.inj ((Sys.life_of_used hu).symm.trans hp)
    exact ⟨hpar, rfl, rfl, hu, Sys.life_eq_none.mp (by rw [hl, update_self])⟩

theorem waitScan_copyout_fails {addr i : ℕ} {hk : Bool} (hc : s.pc p = .waitScan addr i hk) (ha : addr ≠ 0)
    (he : step s (.advance p false) = some t) : t.proc = s.proc ∧ t.hist = s.hist := by
  obtain ⟨-, rfl⟩ : _ ∧ waitProbe s p addr i hk false = t := by simpa [step, advance, hc] using he
  simp only [waitProbe, ha, ne_eq, not_false_eq_true, and_self, if_true]
  split
  · split
    · split <;> exact ⟨rfl, rfl⟩
    · exact ⟨rfl, rfl⟩
  · split <;> exact ⟨rfl, rfl⟩

/-- **The process tree, and the reaping of processes.** In every reachable state:

* every process but the first, and a child that `fork` has not linked yet, has a parent that is neither free nor a zombie;
* no process exits or is reaped twice, and what `wait` returns is the number, and the status unless its argument was null, of a process
  that called `exit` before;
* a slot is given up only by a step of `wait` of the parent, which reports the process; whatever `wait` reports was given up so; and when
  `copyout` fails nothing is;
* while `wait_lock` is free, nobody who sleeps in `wait` has a zombie child. -/
theorem process_tree_and_reaping (h : Reach step boot s) : (∀ i, (s.proc i).state ≠ .unused → i ≠ s.initproc → (∀ p, s.pc p ≠ .forkLink i) →
      ∃ p, (s.proc i).parent = some p ∧ (s.proc p).state ≠ .unused ∧ (s.proc p).state ≠ .zombie) ∧
    ((s.hist.filterMap Obs.exitedProcess).Nodup ∧ (s.hist.filterMap Obs.reapedProcess).Nodup ∧
      ∀ pre post p pid status i g, s.hist = pre ++ .reaped p pid status i g :: post →
        ∃ st, .exited i g pid st ∈ post ∧ (status = none ∨ status = some st)) ∧
    ((∀ e t i, step s e = some t → (s.proc i).state ≠ .unused → (t.proc i).state = .unused →
        ∃ p addr hk st, s.pc p = .waitScan addr i hk ∧ (s.proc i).parent = some p ∧ .exited i (s.gen i) (s.proc i).pid st ∈ s.hist ∧
          t.hist = .reaped p (s.proc i).pid (if addr = 0 then none else some st) i (s.gen i) :: s.hist) ∧ (∀ e t p pid status i g, step s e = some t →
        t.hist = .reaped p pid status i g :: s.hist → (s.proc i).parent = some p ∧ (s.proc i).pid = pid ∧ s.gen i = g ∧
            (s.proc i).state ≠ .unused ∧ (t.proc i).state = .unused) ∧ (∀ p addr i hk t, s.pc p = .waitScan addr i hk → addr ≠ 0 →
        step s (.advance p false) = some t → t.proc = s.proc ∧ t.hist = s.hist)) ∧
    (s.waitLock = none → ∀ p i, WaitsAsleep s p → (s.proc i).parent = some p → (s.proc i).state ≠ .zombie) := by
  have ho := orderly_of_reach h
  have hf := ho.sleepers.family
  refine ⟨fun i hi hne hlink => ?_, ⟨ho.history.exitedOnce, ho.history.reapedOnce, ho.history.report⟩,
    ⟨fun e t i => ho.reaped_of_unused, fun e t p pid status i g => ho.unused_of_reaped,
      fun p addr i hk t => waitScan_copyout_fails⟩, fun hl p i hp hpar hz => ?_⟩
  · rcases hpar : (s.proc i).parent with _ | p
    · obtain ⟨p, hp⟩ := hf.orphan i hi hne hpar
      exact absurd hp (hlink p)
    · exact ⟨p, rfl, hf.tree i p hpar⟩
  · -- the scan that is still to wake the first process holds the lock
    obtain ⟨-, q, st, k, j, hq, -⟩ := ho.sleepers.zombie p i hp hpar hz
    have := ho.threads.not_holds (p := q) hl
    simp [hq, Pc.holds] at this

/-- The first process runs and forks: two probes, and the two sections that link the child and make it runnable. -/
def firstFork : List Event :=
  [.schedule 0, .fork 0, .advance 0 true, .advance 0 true, .advance 0 true, .advance 0 true]

/-- After the first `fork` the child has a living parent. -/
theorem process_tree_first_child : ∃ s, run step boot firstFork = some s ∧ ∃ p, (s.proc 1).parent = some p ∧
      (s.proc p).state ≠ .unused ∧ (s.proc p).state ≠ .zombie := by
  have hr : run step boot firstFork = some ((run step boot firstFork).get (by decide)) :=
    (Option.some_get _).symm
  exact ⟨_, hr, (process_tree_and_reaping ⟨_, hr⟩).1 1 (by decide) (by decide) (by decide)⟩

end Xv6.Procs
