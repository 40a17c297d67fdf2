import Xv6.Trace.Machine

/-!
# The mask of a process is its own or its parent's

A mask is written where a slot is given out and given back, in `fork` and in `trace`, and slots
are used again. What a mask should be is read off the history: the last call of `trace` by the
process, or what its parent's mask was when it was born (`Xv6.Tracing.inherited`).
-/

namespace Xv6.Tracing

open Lib Function Procs

variable {s t : Sys} {b b' : Procs.Sys} {e : Procs.Event} {p np q : Slot} {g : Frame → Frame}
  {value : BitVec 64} {name : List Char} {a0 : BitVec 64}

/-! ### Masks -/

/-- What the mask of a process should be: what it last called `trace` with, or else what the
mask of its parent was when it was born; the first process begins with 0. -/
def inherited : List Obs → Slot → ℕ → BitVec 32
  | [], _, _ => 0
  | .traced p gen mask :: hist, q, k => if p = q ∧ gen = k then mask else inherited hist q k
  | .forked p gen parent parentGen :: hist, q, k =>
    if p = q ∧ gen = k then inherited hist parent parentGen else inherited hist q k

theorem maskNext_eq (h : Procs.step s.sys e = some b') (hb : births s.sys e = none)
    (hq : (b'.proc q).state ≠ .unused) : maskNext s e q = s.mask q := by
  cases e with
  | advance p ok =>
    obtain ⟨-, h⟩ : (s.sys.proc p).state = .running ∧ _ := by simpa [Procs.step] using h
    cases hc : s.sys.pc p with
    | forkScan i =>
      simp only [births, hc] at hb
      simp only [advance, hc] at h
      simp only [maskNext, hc]
      split
      · rename_i hi
        rw [dif_pos hi] at hb
        split
        · rename_i hu
          split
          · rename_i hok
            rw [if_pos ⟨hu, hok⟩] at hb
            cases hb
          -- the slot was given back
          rename_i hok
          obtain rfl := Option.some.inj h
          have hne : q ≠ ⟨i, hi⟩ := by
            rintro rfl
            simp [forkProbe, dif_pos hi, hu, hok, freeproc] at hq
          rw [update_of_ne hne]
        · rfl
      · rfl
    | waitScan addr i hk =>
      simp only [advance, hc] at h
      simp only [maskNext, hc]
      split
      · rename_i hi
        split
        · rename_i hz
          obtain rfl := Option.some.inj h
          have hne : q ≠ ⟨i, hi⟩ := by
            rintro rfl
            simp [waitProbe, dif_pos hi, hz.1, hz.2.1, if_neg hz.2.2, freeproc] at hq
          rw [update_of_ne hne]
        · rfl
      · rfl
    | _ => simp only [maskNext, hc]
  | _ => rfl

theorem maskNext_born (hb : births s.sys e = some (np, p)) : maskNext s e = update s.mask np (s.mask p) := by
  cases e with
  | advance p' ok =>
    simp only [births] at hb
    split at hb
    · rename_i i hc
      split at hb
      · rename_i hi
        split at hb <;> cases hb
        rename_i hu
        simp only [maskNext, hc, dif_pos hi, if_pos hu.1, hu.2, if_true, update_idem]
      · cases hb
    · cases hb
  | _ => cases hb

/-! ### Numbers and bits -/

theorem traces_eq {mask : BitVec 32} {num : ℕ} (hnum : num < 32) : traces mask num = mask.getLsbD num := by
  rw [traces, ← BitVec.twoPow_eq, BitVec.and_twoPow]
  cases hbit : mask.getLsbD num with
  | false => simp
  | true =>
    have hone : (BitVec.twoPow 32 num).getLsbD num = true := by simp [hnum]
    have hne : BitVec.twoPow 32 num ≠ 0#32 := fun hzero => by simp [hzero] at hone
    simp [hne]

variable {a7 : BitVec 64} {f : Frame}

theorem callNumber_lt {num : ℕ} (h : callNumber a7 = some num) : num < 32 := by
  simp only [callNumber] at h
  split at h
  · rename_i hrange
    have hlen : syscallNames.length = 24 := rfl
    cases h
    omega
  · cases h

/-! ### Runs -/

/-- A call is traced if the mask says so; once `trace` has written the mask, this is its argument. -/
structure Frame.Ok (mask : BitVec 32) (f : Frame) : Prop where
  num : f.num < 32
  begun : f.begun = traces (if f.num = SYS_trace then argint f.arg else mask) f.num
  done : f.num = SYS_trace → f.done = true → mask = argint f.arg

/-- **The invariant**: masks are what they should be, and a call is traced from beginning to end
or not at all. -/
structure Inherits (s : Sys) : Prop where
  reach : Reach Procs.step Procs.boot s.sys
  mask : ∀ p, (s.sys.proc p).state ≠ .unused → s.mask p = inherited s.hist p (s.sys.gen p)
  calls : ∀ p f, s.call p = some f → (s.sys.proc p).state ≠ .unused → f.Ok (s.mask p)

theorem inherits_boot : Inherits boot where
  reach := .refl
  mask _ _ := rfl
  calls _ _ h := by cases h

/-- The same call, further on. -/
structure Frame.Goes (f g : Frame) : Prop where
  num : g.num = f.num
  arg : g.arg = f.arg
  begun : g.begun = f.begun

theorem Frame.Goes.refl (f : Frame) : f.Goes f := ⟨rfl, rfl, rfl⟩

theorem Frame.goes_after (f : Frame) (b : Procs.Sys) (e : Procs.Event) : f.Goes (f.after b e) := by
  cases e with
  | kill p pid i =>
    rw [Frame.after]
    split <;> exact ⟨rfl, rfl, rfl⟩
  | _ => exact ⟨rfl, rfl, rfl⟩

theorem setCall_eq_some (h : s.setCall p g q = some f) :
    ∃ f₀, s.call q = some f₀ ∧ (q = p ∧ f = g f₀ ∨ q ≠ p ∧ f = f₀) := by
  by_cases hqp : q = p
  · rw [hqp, Sys.setCall, update_self] at h
    obtain ⟨f₀, hf₀, rfl⟩ := Option.map_eq_some_iff.mp h
    exact ⟨f₀, hqp ▸ hf₀, .inl ⟨hqp, rfl⟩⟩
  · rw [Sys.setCall, update_of_ne hqp] at h
    exact ⟨f, h, .inr ⟨hqp, rfl⟩⟩

theorem call_born (hb : births s.sys e = some (np, p)) : (tableStep s e b').call np = none := by
  simp only [tableStep, hb, update_self]

theorem call_old (hnew : ∀ np p, births s.sys e = some (np, p) → q ≠ np) :
    (tableStep s e b').call q = (caller e).elim s.call (fun p => s.setCall p fun f => f.after s.sys e) q := by
  cases hb : births s.sys e with
  | none => cases hc : caller e <;> simp only [tableStep, hb, hc, Option.elim]
  | some born =>
    have hne := hnew born.1 born.2 hb
    cases hc : caller e <;> simp only [tableStep, hb, hc, Option.elim, update_of_ne hne]

/-- Who has a call after a step of the table had it before. -/
theorem call_tableStep (h : (tableStep s e b').call q = some f) :
    (∀ np p, births s.sys e = some (np, p) → q ≠ np) ∧
      ∃ f₀, s.call q = some f₀ ∧ f₀.Goes f ∧ (f = f₀ ∨ caller e = some q) := by
  have hnew : ∀ np p, births s.sys e = some (np, p) → q ≠ np := by
    rintro np p hb rfl
    rw [call_born hb] at h
    cases h
  refine ⟨hnew, ?_⟩
  rw [call_old hnew] at h
  cases hc : caller e with
  | none =>
    rw [hc] at h
    exact ⟨f, h, .refl f, .inl rfl⟩
  | some p =>
    rw [hc] at h
    obtain ⟨f₀, hf₀, ⟨rfl, rfl⟩ | ⟨-, rfl⟩⟩ := setCall_eq_some h
    · exact ⟨f₀, hf₀, f₀.goes_after .., .inr rfl⟩
    · exact ⟨f, hf₀, .refl f, .inl rfl⟩

theorem setCall_goes (h : s.call q = some f) (hg : ∀ f : Frame, f.Goes (g f)) :
    ∃ f', s.setCall p g q = some f' ∧ f.Goes f' := by
  by_cases hqp : q = p
  · subst hqp
    exact ⟨g f, by rw [Sys.setCall, update_self, h, Option.map_some], hg f⟩
  · exact ⟨f, by rw [Sys.setCall, update_of_ne hqp, h], .refl f⟩

theorem call_goes (h : s.call q = some f) (hnew : ∀ np p, births s.sys e = some (np, p) → q ≠ np) :
    ∃ g, (tableStep s e b').call q = some g ∧ f.Goes g := by
  rw [call_old hnew]
  cases caller e with
  | none => exact ⟨f, h, .refl f⟩
  | some p => exact setCall_goes h fun f => f.goes_after ..

theorem num_of_caller (ha : allows s e = true) (hp : caller e = some p) (hf : s.call p = some f) : f.num ≠ SYS_trace := by
  intro hnum
  cases e with
  | fork q | wait q addr | kill q pid i =>
    cases hp
    simp [allows, hf, hnum, SYS_trace, SYS_fork, SYS_wait, SYS_kill] at ha
  | exit q status =>
    cases hp
    simp [allows, hf, hnum, SYS_trace, SYS_exit] at ha
  | _ => cases hp

theorem Inherits.table (h : Inherits s) (ha : allows s e = true) (hstep : Procs.step s.sys e = some b') : Inherits (tableStep s e b') := by
  have hth := (orderly_of_reach h.reach).threads
  -- who was there before, with the same mask and the same generation
  have hold : ∀ q, (b'.proc q).state ≠ .unused → (∀ np p, births s.sys e = some (np, p) → q ≠ np) →
      (s.sys.proc q).state ≠ .unused ∧ b'.gen q = s.sys.gen q ∧ maskNext s e q = s.mask q := by
    intro q hq hne
    cases hb : births s.sys e with
    | none => exact ⟨used_of_step hth hstep hb hq, congrFun (gen_of_step hstep hb) q, maskNext_eq hstep hb hq⟩
    | some np =>
      obtain ⟨np, p⟩ := np
      obtain ⟨-, -, hgen, hproc, -⟩ := of_births hstep hb
      have hqn := hne np p hb
      rw [hproc, update_of_ne hqn] at hq
      refine ⟨hq, ?_, ?_⟩
      · rw [hgen, update_of_ne hqn]
      · rw [maskNext_born hb, update_of_ne hqn]
  refine ⟨h.reach.tail hstep, fun q hq => ?_, fun q f hf hq => ?_⟩
  · by_cases hborn : ∃ p, births s.sys e = some (q, p)
    · obtain ⟨p, hb⟩ := hborn
      obtain ⟨hrun, -, hgen, -⟩ := of_births hstep hb
      have hmask := h.mask p (by rw [hrun]; decide)
      simp only [tableStep, maskNext_born hb, hb, hgen, update_self, inherited, and_self, if_true]
      exact hmask
    have hne : ∀ np p, births s.sys e = some (np, p) → q ≠ np := by
      rintro np p hb rfl
      exact hborn ⟨p, hb⟩
    obtain ⟨hused, hgen, hmask⟩ := hold q hq hne
    refine hmask.trans ((h.mask q hused).trans ?_)
    simp only [tableStep, hgen]
    split
    · rename_i np p hb
      exact (if_neg fun heq => hne np p hb heq.1.symm).symm
    · rfl
  · obtain ⟨hnew, g, hg, hgo, hcase⟩ := call_tableStep hf
    obtain ⟨hused, -, hmask⟩ := hold q hq hnew
    have hok := h.calls q g hg hused
    rw [← hmask] at hok
    refine ⟨hgo.num ▸ hok.num, by rw [hgo.begun, hgo.num, hgo.arg]; exact hok.begun, fun hnum hdone => ?_⟩
    rcases hcase with rfl | hcaller
    · exact hok.done hnum hdone
    · exact absurd (hgo.num.symm.trans hnum) (num_of_caller ha hcaller hg)

theorem Inherits.same (h : Inherits s) (hst : s.Same t) : Inherits t where
  reach := hst.sys ▸ h.reach
  mask p hp := by
    rw [hst.sys] at hp ⊢
    rw [hst.mask, hst.hist]
    exact h.mask p hp
  calls p f hf hp := by
    rw [hst.call] at hf
    rw [hst.sys] at hp
    rw [hst.mask]
    exact h.calls p f hf hp

/-- A step of one process, for which there is left to show what it should. -/
theorem Inherits.own (h : Inherits s) (hsys : t.sys = s.sys) (hmask : ∀ q, q ≠ p → t.mask q = s.mask q)
    (hcall : ∀ q, q ≠ p → t.call q = s.call q) (hhist : ∀ q k, q ≠ p → inherited t.hist q k = inherited s.hist q k)
    (hp : (s.sys.proc p).state ≠ .unused → t.mask p = inherited t.hist p (s.sys.gen p) ∧ ∀ f, t.call p = some f → f.Ok (t.mask p)) :
    Inherits t := by
  refine ⟨hsys ▸ h.reach, fun q hq => ?_, fun q f hf hq => ?_⟩ <;> rw [hsys] at hq <;> rcases eq_or_ne q p with rfl | hqp
  · rw [hsys]
    exact (hp hq).1
  · rw [hsys, hmask q hqp, hhist q _ hqp]
    exact h.mask q hq
  · exact (hp hq).2 f hf
  · rw [hmask q hqp]
    exact h.calls q f (hcall q hqp ▸ hf) hq

/-- A process begins a call, or is done with one. -/
theorem Inherits.setCall {o : Option Frame} (h : Inherits s) (hsys : t.sys = s.sys) (hmask : t.mask = s.mask)
    (hhist : t.hist = s.hist) (hcall : t.call = update s.call p o) (ho : ∀ f ∈ o, f.Ok (s.mask p)) : Inherits t := by
  refine h.own (p := p) hsys (fun _ _ => by rw [hmask]) (fun q hq => by rw [hcall, update_of_ne hq]) (fun _ _ _ => by rw [hhist]) fun hp => ?_
  rw [hmask, hhist, hcall, update_self]
  exact ⟨h.mask p hp, fun f hf => ho f hf⟩

theorem enter_cases (h : enter s p a7 a0 name = some t) :
    (∃ num f, callNumber a7 = some num ∧ f = ⟨num, a0, false, 0, traces (deciding s p num a0) num⟩ ∧
      t.call = update s.call p (some f) ∧ t.sys = s.sys ∧ t.mask = s.mask ∧ t.hist = s.hist ∧ t.log = s.log ∧
      t.out = s.out ∧
      (f.begun = true ∧ s.pr.rest = [] ∧ t.pr = ⟨recordStart (s.sys.proc p).pid num, some p, true⟩ ∨
        f.begun = false ∧ t.pr = s.pr)) ∨
    callNumber a7 = none ∧ s.pr.rest = [] ∧ s.Same t ∧ t.out = s.out ∧
      t.pr = ⟨printf "%d %s: unknown sys call %d\n".toList
        [.int (s.sys.proc p).pid, .str (some name), .int (a7.setWidth 32).toInt], some p, false⟩ := by
  rw [enter] at h
  split at h
  · next num hnum =>
    refine .inl ⟨num, _, hnum, rfl, ?_⟩
    dsimp only at h
    split at h
    · next hb =>
      obtain ⟨hs, rfl⟩ := Sys.print_eq_some.mp h
      exact ⟨rfl, rfl, rfl, rfl, rfl, rfl, .inl ⟨hb, hs, rfl⟩⟩
    · next hb =>
      obtain rfl := Option.some.inj h
      exact ⟨rfl, rfl, rfl, rfl, rfl, rfl, .inr ⟨Bool.eq_false_iff.mpr hb, rfl⟩⟩
  · next hnum =>
    obtain ⟨hs, rfl⟩ := Sys.print_eq_some.mp h
    exact .inr ⟨hnum, hs, ⟨rfl, rfl, rfl, rfl, rfl⟩, rfl, rfl⟩

theorem ret_cases (h : ret s p f value = some t) :
    t.call = update s.call p none ∧ t.sys = s.sys ∧ t.mask = s.mask ∧ t.hist = s.hist ∧ t.out = s.out ∧
      (traces (deciding s p f.num f.arg) f.num = true ∧ s.pr.rest = [] ∧ t.pr = ⟨recordEnd value, some p, true⟩ ∧
          t.log = ⟨(s.sys.proc p).pid, f.num, value⟩ :: s.log ∨
        traces (deciding s p f.num f.arg) f.num = false ∧ t.pr = s.pr ∧ t.log = s.log) := by
  simp only [ret] at h
  split at h
  · next htr =>
    obtain ⟨hs, rfl⟩ := Sys.print_eq_some.mp h
    exact ⟨rfl, rfl, rfl, rfl, rfl, .inl ⟨htr, hs, rfl, rfl⟩⟩
  · next htr =>
    obtain rfl := Option.some.inj h
    exact ⟨rfl, rfl, rfl, rfl, rfl, .inr ⟨Bool.eq_false_iff.mpr htr, rfl, rfl⟩⟩

theorem Inherits.setMask (h : Inherits s) (hf : s.call p = some f) (hnum : f.num = SYS_trace)
    (hmask : t.mask = update s.mask p (argint f.arg)) (hcall : t.call = s.setCall p fun f => { f with done := true })
    (hhist : t.hist = .traced p (s.sys.gen p) (argint f.arg) :: s.hist) (hsys : t.sys = s.sys) : Inherits t := by
  refine h.own (p := p) hsys (fun q hq => by rw [hmask, update_of_ne hq]) (fun q hq => by rw [hcall, Sys.setCall, update_of_ne hq])
    (fun q k hq => ?_) fun hp => ?_
  · rw [hhist, inherited, if_neg fun heq => hq heq.1.symm]
  · have hok := h.calls p f hf hp
    rw [hmask, hhist, hcall, Sys.setCall, update_self, update_self, hf]
    refine ⟨by simp [inherited], ?_⟩
    rintro _ ⟨⟩
    exact ⟨hok.num, by simpa only [hnum, if_true] using hok.begun, fun _ _ => rfl⟩

theorem Inherits.fault (h : Inherits s) (hb : Procs.step s.sys (.fault p) = some b') :
    Inherits { s with sys := b', trap := update s.trap p none } := by
  have hth := (orderly_of_reach h.reach).threads
  have hused := fun q => used_of_step (q := q) hth hb rfl
  refine ⟨h.reach.tail hb, fun q hq => ?_, fun q f hf hq => h.calls q f hf (hused q hq)⟩
  simp only [gen_of_step hb rfl]
  exact h.mask q (hused q hq)

theorem inherits_step {e : Event} (h : Inherits s) (hstep : step s e = some t) : Inherits t := by
  cases tick_of_step hstep with
  | enter p a7 a0 name t hp hc he =>
    obtain ⟨num, f, hnum, rfl, hcall, hsys, hmask, hhist, -⟩ | ⟨-, -, hst, -⟩ := enter_cases he
    · refine h.setCall hsys hmask hhist hcall fun f hf => ?_
      obtain rfl := Option.some.inj hf
      exact ⟨callNumber_lt hnum, rfl, fun _ hdone => by cases hdone⟩
    · exact h.same hst
  | setMask p f hc hf => exact h.setMask hc hf rfl rfl rfl rfl
  | ret p value f t hp hc hf he =>
    obtain ⟨hcall, hsys, hmask, hhist, -⟩ := ret_cases he
    exact h.setCall hsys hmask hhist hcall fun f hf => absurd hf (Option.not_mem_none f)
  | fault p b hb => exact h.fault hb
  | table e b ha hb => exact h.table ha hb
  | print e x t he hs hx ht ho hst => exact h.same hst
  | quiet e t hp ho hst => exact h.same hst
  | _ => exact h.same ⟨rfl, rfl, rfl, rfl, rfl⟩

theorem inherits_of_reach (h : Reach step boot s) : Inherits s :=
  h.invariant (fun hs he => inherits_step hs he) inherits_boot

theorem enter_of_step (h : step s (.enter p a7 a0 name) = some t) :
    InUser s.sys p ∧ enter s p a7 a0 name = some t := by
  rw [step, Option.ite_none_right_eq_some] at h
  obtain ⟨⟨hp, -⟩, he⟩ := Option.ite_none_right_eq_some.mp h.2
  exact ⟨hp, he⟩

theorem ret_of_step (h : step s (.ret p value) = some t) :
    ∃ f, s.call p = some f ∧ InUser s.sys p ∧ f.Ready ∧ ret s p f value = some t := by
  rw [step, Option.ite_none_right_eq_some] at h
  replace h := h.2
  simp only [act] at h
  split at h
  · next f hf =>
    obtain ⟨⟨hp, hready⟩, he⟩ := Option.ite_none_right_eq_some.mp h
    exact ⟨f, hf, hp, hready, he⟩
  · cases h

theorem used_of_inUser (h : InUser s.sys p) : (s.sys.proc p).state ≠ .unused := by
  rw [h.1]
  decide

/-- **Masks are inherited, and they decide what is traced.** The mask of a process is the one it set last since its birth,
or else the one its parent had at the `fork`. A call has a record if the bit of its number is set, which for `trace` is the
bit of the new mask; a record that was begun is also ended. -/
theorem trace_mask_inherited (h : Reach step boot s) :
    (∀ p, (s.sys.proc p).state ≠ .unused → s.mask p = inherited s.hist p (s.sys.gen p)) ∧
    (∀ p a7 a0 name t, step s (.enter p a7 a0 name) = some t →
      match callNumber a7 with
      | some num =>
        let mask := if num = SYS_trace then argint a0 else inherited s.hist p (s.sys.gen p)
        t.out ++ t.pr.rest = s.out ++ s.pr.rest ++ if mask.getLsbD num then recordStart (s.sys.proc p).pid num else []
      | none =>
        t.out ++ t.pr.rest = s.out ++ s.pr.rest ++ printf "%d %s: unknown sys call %d\n".toList
          [.int (s.sys.proc p).pid, .str (some name), .int (a7.setWidth 32).toInt]) ∧
    ∀ p value t, step s (.ret p value) = some t →
      ∃ f, s.call p = some f ∧ f.begun = (inherited s.hist p (s.sys.gen p)).getLsbD f.num ∧
        t.out ++ t.pr.rest = s.out ++ s.pr.rest ++ if f.begun then recordEnd value else [] := by
  have hinv := inherits_of_reach h
  refine ⟨hinv.mask, fun p a7 a0 name t hstep => ?_, fun p value t hstep => ?_⟩
  · obtain ⟨hin, he⟩ := enter_of_step hstep
    rw [← hinv.mask p (used_of_inUser hin)]
    obtain ⟨num, f, hnum, rfl, -, -, -, -, -, hout, hpr⟩ | ⟨hnum, hs, -, hout, hpr⟩ := enter_cases he
    · simp only [hnum, hout, ← traces_eq (callNumber_lt hnum)]
      change _ = _ ++ if traces (deciding s p num a0) num then _ else _
      obtain ⟨hb, hs, hpr⟩ | ⟨hb, hpr⟩ := hpr
      · rw [if_pos hb, hpr, hs, List.append_nil]
      · rw [if_neg (Bool.eq_false_iff.mp hb), hpr, List.append_nil]
    · simp only [hnum, hout, hpr, hs, List.append_nil]
  · obtain ⟨f, hf, hin, hready, he⟩ := ret_of_step hstep
    have hused := used_of_inUser hin
    have hok := hinv.calls p f hf hused
    have hbegun : f.begun = traces (deciding s p f.num f.arg) f.num := hok.begun
    -- when `trace` returns, its argument is the mask
    have hmask : deciding s p f.num f.arg = inherited s.hist p (s.sys.gen p) := by
      rw [← hinv.mask p hused, deciding]
      split
      · rename_i hnum
        exact (hok.done hnum (hready.2 (.inr (.inr (.inr hnum))))).symm
      · rfl
    refine ⟨f, hf, ?_, ?_⟩
    · rw [hbegun, hmask, traces_eq hok.num]
    · obtain ⟨-, -, -, -, hout, ⟨htr, hs, hpr, -⟩ | ⟨htr, hpr, -⟩⟩ := ret_cases he
      · rw [if_pos (hbegun.trans htr), hout, hpr, hs, List.append_nil]
      · rw [if_neg (Bool.eq_false_iff.mp (hbegun.trans htr)), hout, hpr, List.append_nil]

/-- The first process has `fork` traced, and forks: the child inherits the mask. -/
def tracedFork : List Event :=
  [.table (.schedule 0), .enter 0 22 2 [], .setMask 0, .ret 0 0, .enter 0 1 0 []] ++ List.replicate 19 .putc ++
    [.table (.fork 0), .table (.advance 0 true), .table (.advance 0 true), .table (.advance 0 true),
      .table (.advance 0 true)]

theorem trace_mask_inherited_fork : ∃ s, run step boot tracedFork = some s ∧ s.mask 1 = 2 ∧ s.mask 1 = inherited s.hist 1 (s.sys.gen 1) := by
  have hr : run step boot tracedFork = some ((run step boot tracedFork).get (by decide +kernel)) :=
    (Option.some_get _).symm
  exact ⟨_, hr, by decide +kernel, (trace_mask_inherited ⟨_, hr⟩).1 1 (by decide +kernel)⟩

end Xv6.Tracing
