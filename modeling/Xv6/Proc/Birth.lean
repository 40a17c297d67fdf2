import Xv6.Proc.Reap

/-!
# Births and reapings, by the event that makes them

A slot is given out by the section of `fork` that finds it free, and given back by the section of
`wait` that finds a zombie. Which slot it is can be told from the state and the event before the
step is taken (`Xv6.Procs.births`, `Xv6.Procs.frees`), and no other step changes which slots
are in use (`Xv6.Procs.used_cases`).
-/

namespace Xv6.Procs

open Lib Function

variable {i addr : ℕ} {havekids ok : Bool}

variable {b b' : Sys} {e : Event} {p np q : Slot}

def births (s : Sys) : Event → Option (Slot × Slot)
  | .advance p ok =>
    match s.pc p with
    | .forkScan i =>
      if h : i < NPROC then
        if (s.proc ⟨i, h⟩).state = .unused ∧ ok = true then some (⟨i, h⟩, p) else none
      else none
    | _ => none
  | _ => none

def frees (s : Sys) : Event → Option Slot
  | .advance p ok =>
    match s.pc p with
    | .waitScan addr i _ =>
      if h : i < NPROC then
        if (s.proc ⟨i, h⟩).parent = some p ∧ (s.proc ⟨i, h⟩).state = .zombie ∧
            ¬(addr ≠ 0 ∧ ok = false) then some ⟨i, h⟩ else none
      else none
    | _ => none
  | _ => none

def Sys.used (s : Sys) (i : Slot) : Bool := (s.proc i).state ≠ .unused

/-! ### Generations and the history -/

def Sys.logs (b : Sys) : (Slot → ℕ) × List Obs := (b.gen, b.hist)

theorem logs_wakeupAt {chan : Option Chan} {j : Slot} : (wakeupAt b p chan j).logs = b.logs := by
  unfold wakeupAt
  split
  · split <;> rfl
  · rfl

theorem logs_reparent1 {status : ℤ} : (reparent1 b p status i).logs = b.logs := by
  unfold reparent1
  split
  · dsimp only
    split <;> rfl
  · rfl

theorem logs_forkProbe (hc : b.pc p = .forkScan i) (hb : births b (.advance p ok) = none) : (forkProbe b p i ok).logs = b.logs := by
  simp only [births, hc] at hb
  unfold forkProbe
  split
  · rename_i hi
    rw [dif_pos hi] at hb
    dsimp only
    split
    · rename_i hu
      split
      · rename_i hok
        rw [if_pos ⟨hu, hok⟩] at hb
        cases hb
      · rfl
    · rfl
  · rfl

theorem logs_waitProbe (hc : b.pc p = .waitScan addr i havekids)
    (hf : frees b (.advance p ok) = none) : (waitProbe b p addr i havekids ok).logs = b.logs := by
  simp only [frees, hc] at hf
  unfold waitProbe
  split
  · rename_i hi
    rw [dif_pos hi] at hf
    dsimp only
    split
    · rename_i hpar
      split
      · rename_i hz
        split
        · rfl
        · rename_i hok
          rw [if_pos ⟨hpar, hz, hok⟩] at hf
          cases hf
      · rfl
    · rfl
  · split <;> rfl

section

variable (h : step b e = some b')

include h

theorem logs_of_step (hb : births b e = none) (hf : frees b e = none) (he : ∀ p st, e ≠ .exit p st) :
    b'.logs = b.logs := by
  cases e with
  | exit q status => exact absurd rfl (he q status)
  | wake i addr => exact Option.some.inj h ▸ rfl
  | advance p ok =>
    obtain ⟨-, h⟩ : (b.proc p).state = .running ∧ _ := by simpa [step] using h
    rcases hc : b.pc p with _ | _ | i | np | np | st | ⟨st, i⟩ | ⟨st, i, j⟩ | ⟨st, j⟩ | st | _ | addr |
      ⟨addr, i, hk⟩ | addr | addr <;> simp only [advance, hc] at h
    case forkScan => exact Option.some.inj h ▸ logs_forkProbe hc hb
    case exitReparent => exact Option.some.inj h ▸ logs_reparent1
    case waitScan => exact Option.some.inj h ▸ logs_waitProbe hc hf
    case exitWakeInit | exitWakeParent =>
      split at h
      · obtain rfl := Option.some.inj h
        exact logs_wakeupAt
      · obtain rfl := Option.some.inj h
        rfl
    case forkLink | exitAcquire | waitAcquire =>
      split at h <;> cases h
      rfl
    case forkReady | exitDie | waitIdle =>
      obtain rfl := Option.some.inj h
      rfl
    all_goals cases h
  | _ =>
    obtain ⟨-, rfl⟩ : _ ∧ _ := by simpa [step] using h
    rfl

theorem of_frees (hf : frees b e = some np) : ∃ p ok, e = .advance p ok ∧ births b e = none ∧ (b.proc np).state = .zombie ∧
      b'.proc = update b.proc np freeproc ∧ b'.gen = b.gen ∧ ∃ pid st g, b'.hist = .reaped p pid st np g :: b.hist := by
  rcases e with _ | _ | _ | _ | _ | _ | _ | _ | _ | ⟨p, ok⟩
  case advance =>
    obtain ⟨-, h⟩ : (b.proc p).state = .running ∧ advance b p ok = some b' := by
      simpa [step] using h
    simp only [frees] at hf
    split at hf
    · rename_i addr i hk hc
      split at hf
      · rename_i hi
        split at hf <;> cases hf
        rename_i hz
        simp only [advance, hc, waitProbe, dif_pos hi, if_pos hz.1, if_pos hz.2.1, if_neg hz.2.2] at h
        obtain rfl := Option.some.inj h
        refine ⟨p, ok, rfl, by simp only [births, hc], hz.2.1, rfl, rfl, _, _, _, rfl⟩
      · cases hf
    · cases hf
  all_goals cases hf

/-- A birth is the work of `allocproc`, in a slot that was free. -/
theorem of_births (hb : births b e = some (np, p)) :
    (b.proc p).state = .running ∧ (b.proc np).state = .unused ∧ b'.gen = update b.gen np (b.gen np + 1) ∧
      b'.proc = update b.proc np (allocproc (b.proc np) b.nextpid) ∧ b'.hist = b.hist := by
  cases e with
  | advance p' ok =>
    obtain ⟨hr, h⟩ : (b.proc p').state = .running ∧ _ := by simpa [step] using h
    simp only [births] at hb
    split at hb
    · rename_i i hc
      split at hb
      · rename_i hi
        split at hb
        · rename_i hu
          cases hb
          simp only [advance, hc, forkProbe, dif_pos hi, if_pos hu.1, hu.2, if_true] at h
          obtain rfl := Option.some.inj h
          exact ⟨hr, hu.1, rfl, rfl, rfl⟩
        · cases hb
      · cases hb
    · cases hb
  | _ => cases hb

theorem gen_of_step (hb : births b e = none) : b'.gen = b.gen := by
  rcases hf : frees b e with _ | np
  · by_cases he : ∃ p st, e = .exit p st
    · obtain ⟨p, st, rfl⟩ := he
      obtain ⟨-, rfl⟩ : (InUser b p ∧ _) ∧ _ := by simpa [step] using h
      rfl
    · exact congrArg Prod.fst (logs_of_step h hb hf fun p st heq => he ⟨p, st, heq⟩)
  · obtain ⟨-, -, -, -, -, -, hgen, -⟩ := of_frees h hf
    exact hgen

theorem hist_of_step (hf : frees b e = none) (he : ∀ p st, e ≠ .exit p st) : b'.hist = b.hist := by
  rcases hb : births b e with _ | ⟨np, p⟩
  · exact congrArg Prod.snd (logs_of_step h hb hf he)
  · exact (of_births h hb).2.2.2.2

end

theorem of_hist {o : Obs} (h : step b e = some b') (hh : b'.hist = o :: b.hist) : (∃ p g pid st, o = .exited p g pid st ∧ e = .exit p st) ∨
    ∃ p pid st np g, o = .reaped p pid st np g ∧ frees b e = some np := by
  rcases hf : frees b e with _ | np
  · by_cases he : ∃ p st, e = .exit p st
    · obtain ⟨p, st, rfl⟩ := he
      obtain ⟨-, rfl⟩ : (InUser b p ∧ _) ∧ _ := by simpa [step] using h
      cases hh
      exact .inl ⟨p, _, _, st, rfl, rfl⟩
    · have hsame := hist_of_step h hf fun p st heq => he ⟨p, st, heq⟩
      exact absurd (hh.symm.trans hsame) (List.cons_ne_self _ _)
  · obtain ⟨p, ok, -, -, -, -, -, pid, st, g, heq⟩ := of_frees h hf
    rw [hh] at heq
    cases heq
    exact .inr ⟨p, pid, st, np, g, rfl, rfl⟩

theorem life_of_step {e : Event} {l : Life} (hth : Threads b) (h : step b e = some b')
    (hl : b.life p = some l) (hexit : l.exit = none) (he : ∀ st, e ≠ .exit p st) : b'.life p = some l := by
  cases lifeStep_of_move hth (move_of_step h) with
  | quiet hl' => rw [hl', hl]
  | born np pid hnp hl' =>
    have hne : p ≠ np := by
      rintro rfl
      rw [hl] at hnp
      cases hnp
    rw [hl', update_of_ne hne, hl]
  | exits q l' st hq hq' hl' hg hh =>
    have hne : p ≠ q := by
      rintro rfl
      obtain ⟨_, _, _, _, hexit, rfl⟩ | ⟨_, _, _, _, _, hreap, -⟩ := of_hist h hh
      · cases hexit
        exact he st rfl
      · cases hreap
    rw [hl', update_of_ne hne, hl]
  | reaps r np l' st addr hk hnp hst hc hpar hl' =>
    have hne : p ≠ np := by
      rintro rfl
      rw [Option.some.inj (hl.symm.trans hnp), hst] at hexit
      cases hexit
    rw [hl', update_of_ne hne, hl]

/-! ### Slots in use -/

theorem pid_of_life {l : Life} (h : b.life p = some l) : (b.proc p).pid = l.pid := by
  rw [Sys.life] at h
  split at h
  · cases h
  · rw [← Option.some.inj h]

theorem life_of_inUser (h : InUser b p) : ∃ l, b.life p = some l ∧ l.exit = none := by
  refine ⟨_, Sys.life_of_used (by rw [h.1]; decide), ?_⟩
  simp only [h.2, Pc.status]

theorem used_eq_false : b.used q = false ↔ b.life q = none := by
  simp [Sys.used, Sys.life]

theorem used_congr (h : b'.life q = none ↔ b.life q = none) : b'.used q = b.used q := by
  rw [Bool.eq_iff_iff, ← not_iff_not, Bool.not_eq_true, Bool.not_eq_true, used_eq_false, used_eq_false, h]

theorem used_cases (hth : Threads b) (h : step b e = some b') : (births b e = none ∧ frees b e = none ∧ b'.used = b.used) ∨
    (∃ np p, births b e = some (np, p) ∧ frees b e = none ∧ b.used np = false ∧ b'.used = update b.used np true) ∨
    ∃ np, births b e = none ∧ frees b e = some np ∧ b.used np = true ∧ b'.used = update b.used np false := by
  rcases hf : frees b e with _ | np
  · rcases hb : births b e with _ | ⟨np, p⟩
    · refine .inl ⟨rfl, rfl, funext fun q => used_congr ?_⟩
      rcases lifeStep_of_move hth (move_of_step h) with ⟨hl, -, -⟩ | ⟨np, pid, -, -, hg, -⟩ |
        ⟨p, l, st, hp, -, hl, -, -⟩ | ⟨p, np, l, st, addr, hk, -, -, -, -, -, -, hh⟩
      · rw [hl]
      · have := congrFun (hg.symm.trans (gen_of_step h hb)) np
        rw [update_self] at this
        omega
      · rw [hl, update_apply]
        split
        · rename_i hq
          rw [hq, hp]
          exact iff_of_false (Option.some_ne_none _) (Option.some_ne_none _)
        · rfl
      · obtain ⟨_, _, _, _, hexit, -⟩ | ⟨_, _, _, _, _, -, hfree⟩ := of_hist h hh
        · cases hexit
        · rw [hf] at hfree
          cases hfree
    · obtain ⟨-, hu, -, hproc, -⟩ := of_births h hb
      refine .inr (.inl ⟨np, p, rfl, rfl, by simp [Sys.used, hu], funext fun q => ?_⟩)
      rw [update_apply, Sys.used, hproc, update_apply]
      split
      · simp [allocproc]
      · rfl
  · obtain ⟨p, ok, -, hb, hz, hproc, -⟩ := of_frees h hf
    refine .inr (.inr ⟨np, hb, rfl, by simp [Sys.used, hz], funext fun q => ?_⟩)
    rw [update_apply, Sys.used, hproc, update_apply]
    split
    · simp [freeproc]
    · rfl

theorem used_of_step (hth : Threads b) (h : step b e = some b') (hb : births b e = none)
    (hq : (b'.proc q).state ≠ .unused) : (b.proc q).state ≠ .unused := by
  have hq' : b'.used q = true := by simpa [Sys.used] using hq
  have hold : b.used q = true := by
    rcases used_cases hth h with ⟨-, -, hu⟩ | ⟨np, p, hb', -⟩ | ⟨np, -, -, -, hu⟩
    · rwa [← hu]
    · rw [hb] at hb'
      cases hb'
    · rw [hu, update_apply] at hq'
      split at hq'
      · cases hq'
      · exact hq'
  simpa [Sys.used] using hold

/-! ### Flags and numbers -/

section Flags

variable {s t : Sys} {hit : Slot → Prop} {i : Slot}

theorem wakeupAt_killed (s : Sys) (p : Slot) (c : Option Chan) (j i : Slot) :
    ((wakeupAt s p c j).proc i).killed = (s.proc i).killed := by
  rcases c with _ | c
  · rfl
  by_cases hj : j = p
  · rw [wakeupAt, if_pos hj]
  · rw [wakeupAt, if_neg hj, Sys.setProc_proc]
    split
    · next hij => rw [wakeup1_killed, hij]
    · rfl

/-- Only what a move hits becomes killed. -/
theorem Move.killed (hm : Move hit s t) (hi : (t.proc i).killed = true) : (s.proc i).killed = true ∨ hit i := by
  cases hm with
  | touch k q hq hk => grind
  | schedule p hr =>
    have := resume_cases (s.proc p) (s.pc p)
    grind
  | exitWakeInit p j st k hr hc | exitWakeParent p j st hr hc => exact Or.inl (wakeupAt_killed .. ▸ hi)
  | forkAlloc p np k hr hc hnp =>
    refine Or.inl ?_
    simp only [update_apply] at hi
    grind [allocproc]
  | _ => grind [freeproc]

/-- A slot that is free was free before, or `freeproc` has cleared it. -/
theorem Move.unused (hm : Move hit s t) (hi : (t.proc i).state = .unused) :
    ((s.proc i).state = .unused ∧ (t.proc i).pid = (s.proc i).pid) ∨ t.proc i = freeproc := by
  cases hm with
  | touch k q hq hk =>
    have := hq.state
    have := hq.pid
    grind
  | schedule p hr =>
    have := resume_cases (s.proc p) (s.pc p)
    grind
  | exitWakeInit p j st k hr hc =>
    obtain ⟨q, hq, he⟩ := wakeupAt_eq s p (some (.proc s.initproc)) j
    have := hq.state
    have := hq.pid
    grind
  | exitWakeParent p j st hr hc =>
    obtain ⟨q, hq, he⟩ := wakeupAt_eq s p ((s.proc p).parent.map .proc) j
    have := hq.state
    have := hq.pid
    grind
  | forkAlloc p np k hr hc hnp =>
    simp only [update_apply] at hi ⊢
    grind [allocproc]
  | _ => grind

theorem LifeStep.same (h : LifeStep s t) {l l' : Life} (hl : s.life i = some l)
    (hl' : t.life i = some l') : l'.gen = l.gen ∧ l'.pid = l.pid := by
  cases h with
  | quiet ht hg hh =>
    rw [ht, hl] at hl'
    exact Option.some.inj hl' ▸ ⟨rfl, rfl⟩
  | born np pid hnp ht hg hh =>
    have hne : i ≠ np := by
      rintro rfl
      simp [hnp] at hl
    rw [ht, update_of_ne hne, hl] at hl'
    exact Option.some.inj hl' ▸ ⟨rfl, rfl⟩
  | exits p l₀ st hp he ht hg hh =>
    rw [ht, update_apply] at hl'
    split at hl'
    · next hip =>
      subst hip
      obtain rfl := Option.some.inj (hl.symm.trans hp)
      exact Option.some.inj hl' ▸ ⟨rfl, rfl⟩
    · exact Option.some.inj (hl.symm.trans hl') ▸ ⟨rfl, rfl⟩
  | reaps p np l₀ st addr hk hp he hc hpar ht hg hh =>
    rw [ht, update_apply] at hl'
    split at hl'
    · simp at hl'
    · exact Option.some.inj (hl.symm.trans hl') ▸ ⟨rfl, rfl⟩

/-- A process keeps its number. -/
theorem Move.pid (hth : Threads s) (hm : Move hit s t) (hi : (s.proc i).state ≠ .unused)
    (hi' : (t.proc i).state ≠ .unused) : t.gen i = s.gen i ∧ (t.proc i).pid = (s.proc i).pid :=
  (lifeStep_of_move hth hm).same (Sys.life_of_used hi) (Sys.life_of_used hi')

end Flags

end Xv6.Procs
