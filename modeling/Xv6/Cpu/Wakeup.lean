import Xv6.Cpu.Refine
import Xv6.Proc.Rouse

/-!
# No lost wakeup

A process that is going to sleep gives up `lk` before its state says so, and a `wakeup` looks at one process after the
other. That no wakeup is lost rests on two things. The process takes `p->lock` before it gives up `lk`, and keeps it
until the scheduler has it off its stack, so that a `wakeup` waits there; and the caller of `wakeup` holds `lk`, so that
behind the slots it has passed nobody falls asleep on the channel.

A process *dozes* on a channel from the moment `sleep` has given up `lk` until it is woken.
-/

namespace Xv6.Cpus

open Lib Function

open Procs (Slot Chan Pc AsleepOn)

variable {v u : Procs.Sys} {addr j a : ℕ}

variable {κ : Type} {s t : Sys κ} {c d : κ} {ac : Act} {p q i : Slot} {guard : ℕ → ℕ} {chan : Chan}

/-! ### Sleepers and wakers -/

def SleepsOn (s : Sys κ) (p : Slot) (chan : Chan) : Prop := AsleepOn s.table p chan

def Why.sleepsOn (p : Slot) : Why → Option Chan
  | .sleep addr => some (.other addr)
  | .wait _ => some (.proc p)
  | _ => none

/-- The process has given up `lk` in `sleep(chan, lk)` and was not woken since. -/
def Dozes (s : Sys κ) (p : Slot) (chan : Chan) : Prop :=
  SleepsOn s p chan ∨ ∃ c why, s.now c = .unlocked p why ∧ why.sleepsOn p = some chan

/-- The CPU executes `wakeup(chan)`, and has come to slot `j`: one of a thread or an interrupt,
or one of those that `exit` makes. -/
def Wakes (s : Sys κ) (c : κ) (chan : Chan) (j : ℕ) : Prop :=
  (∃ addr, chan = .other addr ∧ s.wake c = some (addr, j)) ∨
  ∃ p st, s.now c = .thread p ∧
    ((∃ k, s.table.pc p = .exitWakeInit st k j ∧ chan = .proc s.table.initproc) ∨
      (s.table.pc p = .exitWakeParent st j ∧ (s.table.proc p).parent.map .proc = some chan))

theorem Inv.dozes_iff (h : Inv s) : Dozes s p chan ↔ AsleepOn (abs s) p chan := by
  have hs := h.seated
  constructor
  · rintro (hsl | ⟨c, why, hn, hw⟩)
    · -- the process is not running, so nothing about it is hidden
      have hp : Plain s p := by
        intro c hc
        have hlock := (hs.lock c p).mpr hc
        have hrun : (s.now c).runs ≠ some p := fun hr =>
          absurd (hsl.1.symm.trans (hs.runs c p hr)) (by simp)
        cases hn : s.now c with
        | resumed q | unlocked q why => exact absurd (by rw [hn] at hlock ⊢; exact hlock) hrun
        | _ => trivial
      rw [abs, AsleepOn, seen_proc hp]
      exact hsl
    · have hl : s.lock p = some c := (hs.lock c p).mp (by rw [hn]; rfl)
      cases why with
      | yield | exit status => simp [Why.sleepsOn] at hw
      | sleep addr | wait addr =>
        obtain rfl := Option.some.inj hw
        simp [AsleepOn, abs, seen, view, hl, hn]
  · intro ha
    by_cases hp : Plain s p
    · rw [abs, AsleepOn, seen_proc hp] at ha
      exact Or.inl ha
    simp only [Plain, not_forall] at hp
    obtain ⟨c, hc, hn⟩ := hp
    have hlock := (hs.lock c p).mpr hc
    cases hnow : s.now c with
    | resumed q =>
      -- a process that is being resumed is seen running
      simp only [AsleepOn, abs, seen, view, hc, hnow] at ha
      have := (Procs.resume_exit (s.table.proc p) (s.table.pc p)).2.2.2.2
      exact absurd (this.symm.trans ha.1) (by simp)
    | unlocked q why =>
      rw [hnow] at hlock
      obtain rfl : q = p := Option.some.inj hlock
      refine Or.inr ⟨c, why, hnow, ?_⟩
      have hnd := (h.unlocked c q why hnow).2
      cases why with
      | yield | exit status => exact absurd trivial hnd
      | sleep addr | wait addr =>
        simp only [AsleepOn, abs, seen, view, hc, hnow] at ha
        exact ha.2
    | _ => exact absurd (by rw [hnow]; trivial) hn

/-! ### Who starts to doze -/

variable [DecidableEq κ]

theorem sleepsOn_advance {ok : Bool} (hpt : parts (v.pc p) = false)
    (hu : Procs.advance v p ok = some u) (hd : AsleepOn u i chan) : AsleepOn v i chan := by
  rcases advance_cases hpt hu with ⟨k, x, hx⟩ | ⟨k, y, -, hy, hsect⟩
  · rw [AsleepOn, hx, Procs.Sys.setProc_proc] at hd
    split at hd
    · next hik => exact hik ▸ hd
    · exact hd
  rw [AsleepOn, hy, Procs.Sys.setProc_proc] at hd
  split at hd
  · next hik =>
    subst hik
    cases hsect with
    | touch y hty =>
      rcases hty.state with hst | ⟨-, hst⟩
      · exact ⟨hst ▸ hd.1, hty.chan ▸ hd.2⟩
      · exact absurd (hst.symm.trans hd.1) (by simp)
    | alloc pid h => exact absurd hd.1 (by simp [Procs.allocproc])
    | undo h | reap h => exact absurd hd.1 (by simp [Procs.freeproc])
    | ready h => exact absurd hd.1 (by simp)
  · exact hd

theorem sleepsOn_call {k : Call} (hu : Procs.step v (k.event p) = some u) (hd : AsleepOn u i chan) : AsleepOn v i chan := by
  cases k with
  | fork | wait addr =>
    obtain ⟨-, rfl⟩ : Procs.InUser v p ∧ _ := by simpa [Procs.step, Call.event] using hu
    exact hd
  | exit status =>
    obtain ⟨-, rfl⟩ : (Procs.InUser v p ∧ _) ∧ _ := by simpa [Procs.step, Call.event] using hu
    exact hd
  | fault =>
    obtain ⟨-, rfl⟩ : Procs.InUser v p ∧ _ := by simpa [Procs.step, Call.event] using hu
    rw [AsleepOn, Procs.Sys.setProc_proc] at hd
    split at hd
    · next hip => exact hip ▸ hd
    · exact hd

theorem sleepsOn_touch {x : Procs.Proc} (hx : Procs.Touched (v.proc q) x) (hd : AsleepOn (v.setProc q x) i chan) : AsleepOn v i chan := by
  rw [AsleepOn, Procs.Sys.setProc_proc] at hd
  split at hd
  · next hiq =>
    subst hiq
    rcases hx.state with hst | ⟨-, hst⟩
    · exact ⟨hst ▸ hd.1, hx.chan ▸ hd.2⟩
    · exact absurd (hst.symm.trans hd.1) (by simp)
  · exact hd

theorem sleepsOn_tick (ht : Tick guard s c ac t) (hd : SleepsOn t i chan) :
    SleepsOn s i chan ∨ ∃ why, s.now c = .unlocked i why ∧ why.sleepsOn i = some chan := by
  cases ht with
  | dispatch p hn hr =>
    refine Or.inl ?_
    rw [SleepsOn, AsleepOn] at hd
    simp only [Sys.setNow, Sys.setProc, Sys.setTable] at hd
    rw [Procs.Sys.setProc_proc] at hd
    split at hd
    · exact absurd hd.1 (by simp)
    · exact hd
  | settle p hn =>
    refine Or.inl ?_
    rw [SleepsOn, AsleepOn] at hd
    simp only [Sys.setNow, Sys.setLock, Sys.setTable] at hd
    rw [Procs.Sys.setPc_proc, Procs.Sys.setProc_proc] at hd
    split at hd
    · have := (Procs.resume_exit (s.table.proc p) (s.table.pc p)).2.2.2.2
      exact absurd (this.symm.trans hd.1) (by simp)
    · exact hd
  | partNow p why hn hw =>
    refine Or.inl ?_
    rw [SleepsOn, AsleepOn] at hd
    cases why with
    | sleep addr | wait addr => exact absurd hw id
    | yield =>
      simp only [Sys.setNow, Sys.setTable, part] at hd
      rw [Procs.Sys.setProc_proc] at hd
      split at hd
      · exact absurd hd.1 (by simp)
      · exact hd
    | exit status =>
      simp only [Sys.setNow, Sys.setTable, part] at hd
      rw [Procs.Sys.setPc_proc, Procs.Sys.setProc_proc] at hd
      split at hd
      · exact absurd hd.1 (by simp)
      · exact hd
  | part p why hn =>
    rw [SleepsOn, AsleepOn] at hd
    by_cases hip : i = p
    · subst hip
      refine Or.inr ⟨why, hn, ?_⟩
      cases why <;> simp_all [Sys.setNow, Sys.setTable, part, setSleeping, Why.sleepsOn]
    refine Or.inl ?_
    have : (part s.table p why).proc i = s.table.proc i := by
      cases why <;> exact update_of_ne hip ..
    simp only [Sys.setNow, Sys.setTable] at hd
    rw [this] at hd
    exact hd
  | killHit p q hn hp hl => exact Or.inl (sleepsOn_touch (Procs.touched_kill1 _) hd)
  | call p k u hn hu => exact Or.inl (sleepsOn_call hu hd)
  | advance p ok u hn hp hf hu =>
    obtain ⟨-, hadv⟩ : (s.table.proc p).state = .running ∧ _ := by simpa [Procs.step] using hu
    exact Or.inl (sleepsOn_advance hp hadv hd)
  | _ => exact Or.inl hd

theorem dozes_tick (ht : Tick guard s c ac t) (hd : Dozes t i chan) :
    Dozes s i chan ∨ ∃ why, s.now c = .entered i why ∧ why.sleepsOn i = some chan := by
  rcases hd with hd | ⟨d, why, hn, hw⟩
  · rcases sleepsOn_tick ht hd with h | ⟨why, hn, hw⟩
    · exact Or.inl (Or.inl h)
    · exact Or.inl (Or.inr ⟨c, why, hn, hw⟩)
  by_cases hdc : d = c
  · subst hdc
    cases ht with
    | unlock p addr hp =>
      obtain ⟨rfl, rfl⟩ : p = i ∧ Why.sleep addr = why := by simpa [Sys.setNow] using hn
      exact Or.inr ⟨_, hp, hw⟩
    | unlockWait p addr hp =>
      obtain ⟨rfl, rfl⟩ : p = i ∧ Why.wait addr = why := by simpa [Sys.setNow] using hn
      exact Or.inr ⟨_, hp, hw⟩
    | acquire l ho hl | release l ho hl | wakeup addr ho hl => exact Or.inl (Or.inr ⟨d, why, hn, hw⟩)
    | kill p pid hp | killMove p pid j k hp hk hj | killHit p q hp hk hl | call p k u hp hu | advance p ok u hp hpt hf hu => exact Or.inl (Or.inr ⟨d, why, hn, hw⟩)
    | _ => simp [Sys.setNow] at hn
  · refine Or.inl (Or.inr ⟨d, why, ?_, hw⟩)
    rw [← hn]
    cases ht <;> first | rfl | exact (update_of_ne hdc ..).symm

theorem dozes_wakeTick (ht : WakeTick s c addr j t) (hd : Dozes t i chan) : Dozes s i chan := by
  cases ht with
  | self q hq hp | done hj => exact hd
  | slot q hq hl =>
    rcases hd with hd | hd
    · exact Or.inl (sleepsOn_touch (Procs.touched_wakeup1 _ _) hd)
    · exact Or.inr hd

/-! ### The invariant -/

/-- **Behind a `wakeup` nobody dozes.** -/
structure Roused (guard : ℕ → ℕ) (s : Sys κ) : Prop where
  held : ∀ c l, l ∈ s.held c ↔ s.spin l = some c
  nodup : ∀ c, (s.held c).Nodup
  /-- `sleep` is called with the lock of the channel held. -/
  lk : ∀ c p addr, s.now c = .entered p (.sleep addr) → guard addr ∈ s.held c
  waking : ∀ c addr j, s.wake c = some (addr, j) → (s.now c).Open ∧ guard addr ∈ s.held c
  passed : ∀ c addr j, s.wake c = some (addr, j) → ∀ i : Slot, i < j → ¬Dozes s i (.other addr)
  table : Procs.Rousing (abs s)

omit [DecidableEq κ] in
theorem roused_boot : Roused guard (boot κ) where
  held c l := by simp [boot]
  nodup c := List.nodup_nil
  lk c p addr h := by simp [boot] at h
  waking c addr j h := by simp [boot] at h
  passed c addr j h := by simp [boot] at h
  table := Procs.rousing_boot

namespace Roused

theorem held_acquire (h : Roused guard s) {l : ℕ} (hl : s.spin l = none) : (∀ d m, m ∈ (s.acquire c l).held d ↔ (s.acquire c l).spin m = some d) ∧
      ∀ d, ((s.acquire c l).held d).Nodup := by
  have hno : ∀ d, l ∉ s.held d := fun d hd =>
    absurd (((h.held d l).mp hd).symm.trans hl) (by simp)
  refine ⟨fun d m => ?_, fun d => ?_⟩
  · simp only [Sys.acquire, update_apply]
    by_cases hd : d = c <;> by_cases hm : m = l
    · simp [hd, hm]
    · simp [hd, hm, h.held]
    · simp [hd, hm, hno, Ne.symm hd]
    · simp [hd, hm, h.held]
  · simp only [Sys.acquire, update_apply]
    split
    · exact List.nodup_cons.mpr ⟨hno c, h.nodup c⟩
    · exact h.nodup d

theorem held_release (h : Roused guard s) {l : ℕ} (hl : l ∈ s.held c) : (∀ d m, m ∈ (s.release c l).held d ↔ (s.release c l).spin m = some d) ∧
      ∀ d, ((s.release c l).held d).Nodup := by
  have hc := (h.held c l).mp hl
  refine ⟨fun d m => ?_, fun d => ?_⟩
  · simp only [Sys.release, update_apply]
    by_cases hd : d = c <;> by_cases hm : m = l
    · simp [hd, hm, (h.nodup c).mem_erase_iff]
    · simp [hd, hm, (h.nodup c).mem_erase_iff, h.held]
    · simp [hd, hm, h.held, hc, Ne.symm hd]
    · simp [hd, hm, h.held]
  · simp only [Sys.release, update_apply]
    split
    · exact (h.nodup c).erase l
    · exact h.nodup d

theorem held_tick (h : Roused guard s) (ht : Tick guard s c ac t) : (∀ d l, l ∈ t.held d ↔ t.spin l = some d) ∧ ∀ d, (t.held d).Nodup := by
  cases ht with
  | acquire l ho hl => exact h.held_acquire hl
  | release l ho hl => exact h.held_release hl
  | unlock p addr hn => exact h.held_release (h.lk c p addr hn)
  | _ => exact ⟨h.held, h.nodup⟩

theorem held_other (ht : Tick guard s c ac t) (hd : d ≠ c) : t.held d = s.held d ∧ t.now d = s.now d ∧ t.wake d = s.wake d := by
  cases ht <;> refine ⟨?_, ?_, ?_⟩ <;> first | rfl | exact update_of_ne hd ..

theorem lk_tick (h : Roused guard s) (ht : Tick guard s c ac t) (hd : t.now d = .entered p (.sleep addr)) : guard addr ∈ t.held d := by
  by_cases hdc : d = c
  · subst hdc
    cases ht with
    | enter q why hn hl hm =>
      obtain ⟨rfl, rfl⟩ : q = p ∧ why = .sleep addr := by simpa [Sys.setNow] using hd
      have : s.held d = [guard addr] := hm.2.2
      simp [Sys.setNow, Sys.setLock, this]
    | acquire l ho hl | release l ho hl =>
      have hd' : s.now d = .entered p (.sleep addr) := hd
      rw [hd'] at ho
      exact absurd ho id
    | wakeup a ho hl | kill q pid hn | killMove q pid j k hn hk hj | killHit q k hn hk hl | call q k u hn hu | advance q ok u hn hpt hf hu => exact h.lk d p addr hd
    | _ => simp [Sys.setNow] at hd
  · obtain ⟨hh, hn, -⟩ := held_other ht hdc
    rw [hh]
    exact h.lk d p addr (hn ▸ hd)

theorem wake_tick (ht : Tick guard s c ac t) (hw : s.wake c = none)
    (hd : t.wake c = some (a, j)) : j = 0 ∧ (s.now c).Open ∧ guard a ∈ s.held c ∧ t.now c = s.now c ∧ t.held c = s.held c := by
  cases ht with
  | wakeup addr ho hl =>
    obtain ⟨rfl, rfl⟩ : addr = a ∧ 0 = j := by simpa [Sys.setWake] using hd
    exact ⟨rfl, ho, hl, rfl, rfl⟩
  | _ => exact absurd (hw.symm.trans hd) (by simp)

section

variable (h : Roused guard s)

include h

theorem waking_tick (ht : Tick guard s c ac t) (hw : s.wake c = none)
    (hd : t.wake d = some (addr, j)) : (t.now d).Open ∧ guard addr ∈ t.held d := by
  by_cases hdc : d = c
  · subst hdc
    obtain ⟨-, ho, hg, hn, hh⟩ := wake_tick ht hw hd
    rw [hn, hh]
    exact ⟨ho, hg⟩
  · obtain ⟨hh, hn, hwk⟩ := held_other ht hdc
    rw [hn, hh]
    exact h.waking d addr j (hwk ▸ hd)

omit [DecidableEq κ] in
theorem not_entered (hd : s.wake d = some (addr, j)) : s.now c ≠ .entered p (.sleep addr) := by
  intro hn
  obtain ⟨ho, hg⟩ := h.waking d addr j hd
  have hc := (h.held c _).mp (h.lk c p addr hn)
  rw [(h.held d _).mp hg] at hc
  obtain rfl := Option.some.inj hc
  rw [hn] at ho
  exact ho

theorem passed_tick (ht : Tick guard s c ac t) (hw : s.wake c = none)
    (hd : t.wake d = some (addr, j)) (hi : i < j) : ¬Dozes t i (.other addr) := by
  by_cases hdc : d = c
  · subst hdc
    obtain ⟨rfl, -⟩ := wake_tick ht hw hd
    exact absurd hi (Nat.not_lt_zero _)
  have hwk : s.wake d = some (addr, j) := (held_other ht hdc).2.2 ▸ hd
  intro hdoze
  rcases dozes_tick ht hdoze with hs | ⟨why, hn, hwy⟩
  · exact h.passed d addr j hwk i hi hs
  · cases why with
    | sleep a =>
      obtain rfl : a = addr := by simpa [Why.sleepsOn] using hwy
      exact h.not_entered hwk hn
    | wait a | yield | exit st => simp [Why.sleepsOn] at hwy

theorem tick (hi : Inv s) (hw : s.wake c = none) (ht : Tick guard s c ac t) : Roused guard t where
  held := (h.held_tick ht).1
  nodup := (h.held_tick ht).2
  lk _ _ _ := h.lk_tick ht
  waking _ _ _ := h.waking_tick ht hw
  passed _ _ _ hd _ := h.passed_tick ht hw hd
  table := h.table.step hi.threads (hi.simulates_tick ht)

omit [DecidableEq κ] in
theorem not_dozes_self (hi : Inv s) (hw : s.wake c = some (addr, j)) (hp : s.proc c = some i) : ¬Dozes s i chan := by
  have ho := (h.waking c addr j hw).1
  rw [hi.seated.proc c] at hp
  have hn : s.now c = .thread i := by
    cases hnow : s.now c with
    | thread q =>
      rw [hnow] at hp
      rw [Option.some.inj hp]
    | scan => simp [hnow, At.proc] at hp
    | _ =>
      rw [hnow] at ho
      exact absurd ho id
  have hrun := hi.seated.runs c i (by rw [hn]; rfl)
  rintro (hd | ⟨d, why, hd, -⟩)
  · exact absurd (hd.1.symm.trans hrun) (by simp)
  · have hdc := hi.seated.uniq d c i (by rw [hd]; rfl) (by rw [hn]; rfl)
    subst hdc
    exact absurd (hd.symm.trans hn) (by simp)

end

theorem not_dozes_slot (hi : Inv s) (hl : s.lock i = none) {w : Option (ℕ × ℕ)} :
    ¬Dozes ((s.setTable (s.table.setProc i (Procs.wakeup1 (.other addr) (s.table.proc i)))).setWake c w) i (.other addr) := by
  rintro (hd | ⟨d, why, hd, -⟩)
  · rw [SleepsOn, AsleepOn] at hd
    simp only [Sys.setWake, Sys.setTable] at hd
    rw [Procs.Sys.setProc_proc, if_pos rfl] at hd
    refine Procs.wakeup1_not_sleeping ?_ hd.1
    rw [← (Procs.touched_wakeup1 (.other addr) (s.table.proc i)).chan]
    exact hd.2
  · have hd' : s.now d = .unlocked i why := hd
    have := (hi.seated.lock d i).mp (by rw [hd']; rfl)
    rw [hl] at this
    exact absurd this (by simp)

theorem wakeTick (h : Roused guard s) (hi : Inv s) (hw : s.wake c = some (addr, j)) (ht : WakeTick s c addr j t) : Roused guard t := by
  have htable := h.table.step hi.threads (Inv.simulates_wakeTick ht : Procs.Move (fun _ => False) (abs s) (abs t))
  have hback : ∀ {q ch}, Dozes t q ch → Dozes s q ch := dozes_wakeTick ht
  have hsame : t.held = s.held ∧ t.spin = s.spin ∧ t.now = s.now := by
    cases ht <;> exact ⟨rfl, rfl, rfl⟩
  obtain ⟨hheld, hspin, hnow⟩ := hsame
  have hother : ∀ d, d ≠ c → t.wake d = s.wake d := by
    intro d hd
    cases ht <;> exact update_of_ne hd ..
  -- in the `wakeup` itself one more slot has been looked at
  have hself : ∀ a m, t.wake c = some (a, m) → a = addr ∧ ∀ q : Slot, q < m → ¬Dozes t q (.other addr) := by
    intro a m hm
    have hold := h.passed c addr j hw
    cases ht with
    | self q hq hp =>
      obtain ⟨rfl, rfl⟩ : addr = a ∧ j + 1 = m := by simpa [Sys.setWake] using hm
      refine ⟨rfl, fun r hr hd => ?_⟩
      rcases Nat.lt_succ_iff_lt_or_eq.mp hr with hlt | heq
      · exact hold r hlt (hback hd)
      · obtain rfl : r = q := Fin.ext (heq.trans hq.symm)
        exact h.not_dozes_self hi hw hp (hback hd)
    | slot q hq hl =>
      obtain ⟨rfl, rfl⟩ : addr = a ∧ j + 1 = m := by simpa [Sys.setWake] using hm
      refine ⟨rfl, fun r hr hd => ?_⟩
      rcases Nat.lt_succ_iff_lt_or_eq.mp hr with hlt | heq
      · exact hold r hlt (hback hd)
      · obtain rfl : r = q := Fin.ext (heq.trans hq.symm)
        exact not_dozes_slot hi hl hd
    | done hj => simp [Sys.setWake] at hm
  refine ⟨fun d l => ?_, fun d => ?_, fun d p a hd => ?_, fun d a m hd => ?_, fun d a m hd q hq hdoze => ?_, htable⟩
  · rw [hheld, hspin]
    exact h.held d l
  · rw [hheld]
    exact h.nodup d
  · rw [hheld]
    exact h.lk d p a (hnow ▸ hd)
  · rw [hheld, hnow]
    by_cases hdc : d = c
    · subst hdc
      obtain ⟨rfl, -⟩ := hself a m hd
      exact h.waking d a j hw
    · exact h.waking d a m (hother d hdc ▸ hd)
  · by_cases hdc : d = c
    · subst hdc
      obtain ⟨rfl, hno⟩ := hself a m hd
      exact hno q hq hdoze
    · exact h.passed d a m (hother d hdc ▸ hd) q hq (hback hdoze)

theorem of_reach (h : Reach (step guard) (boot κ) s) : Inv s ∧ Roused guard s := by
  refine h.invariant (I := fun s => Inv s ∧ Roused guard s) ?_ ⟨inv_boot, roused_boot⟩
  rintro s e t ⟨hi, hr⟩ he
  refine ⟨hi.of_step he, ?_⟩
  rcases tick_of_step he with ⟨hw, ht⟩ | ⟨addr, j, hw, ht⟩
  · exact hr.tick hi hw ht
  · exact hr.wakeTick hi hw ht

omit [DecidableEq κ] in
theorem not_dozes (h : Roused guard s) (hi : Inv s) (hw : Wakes s c chan j) (hj : i < j) : ¬Dozes s i chan := by
  intro hd
  rcases hw with ⟨addr, rfl, hwk⟩ | ⟨p, st, hn, hex⟩
  · exact h.passed c addr j hwk i hj hd
  have hp := hi.seated.plain_of_thread hn
  have ha := hi.dozes_iff.mp hd
  rcases hex with ⟨k, hpc, rfl⟩ | ⟨hpc, hpar⟩
  · obtain ⟨rfl, hwait⟩ := h.table.waitsAsleep hi.threads ha
    exact h.table.init p st k j ((seen_pc hp _).trans hpc) hj hwait
  obtain ⟨r, hr, rfl⟩ := Option.map_eq_some_iff.mp hpar
  obtain ⟨rfl, hwait⟩ := h.table.waitsAsleep hi.threads ha
  refine hi.table.woken p i ?_ ?_ hwait
  · exact (seen_parent s.table).trans hr
  · rw [abs, seen_pc hp, hpc]
    exact hj

end Roused

/-- **No wakeup is lost.** The slots a `wakeup(chan)` has passed hold no process that has given up `lk` in `sleep(chan, lk)` and was not
woken since. So a process that has given up `lk` before a `wakeup(chan)` returns is not `SLEEPING` on the channel then. -/
theorem no_lost_wakeup (h : Reach (step guard) (boot κ) s) : (∀ c chan j, Wakes s c chan j → ∀ i : Slot, i < j → ¬Dozes s i chan) ∧
    ∀ p chan, Dozes s p chan → ∀ es t c j, run (step guard) s es = some t → Wakes t c chan j → NPROC ≤ j → ¬SleepsOn t p chan := by
  refine ⟨fun c chan j hw i hj => ?_, fun p chan _ es t c j hrun hw hj hd => ?_⟩
  · obtain ⟨hi, hr⟩ := Roused.of_reach h
    exact hr.not_dozes hi hw hj
  · obtain ⟨hi, hr⟩ := Roused.of_reach (h.trans ⟨es, hrun⟩)
    exact hr.not_dozes hi hw (lt_of_lt_of_le p.isLt hj) (Or.inl hd)

attribute [local instance] two_cpus

/-- The first process goes to sleep on address `7` and gives up the lock, but has not set its
state yet. -/
def goesToSleep : List (Fin 2 × Act) :=
  [(0, .pick 0), (0, .dispatch), (0, .settle), (0, .acquire 7), (0, .enter (.sleep 7)), (0, .unlock)]

/-- An interrupt on the other CPU acquires the lock and calls `wakeup`. At slot `0` it has to wait
until the process is off its CPU. -/
def isWoken : List (Fin 2 × Act) :=
  [(1, .acquire 7), (1, .wakeup 7), (0, .part), (0, .swtch), (0, .clear), (0, .drop)] ++
    List.replicate NPROC (1, .wakeNext)

theorem no_lost_wakeup_interrupt : ∃ s t : Sys (Fin 2), run (step id) (boot (Fin 2)) goesToSleep = some s ∧ run (step id) s isWoken = some t ∧
      Dozes s 0 (.other 7) ∧ t.wake 1 = some (7, NPROC) ∧ ¬SleepsOn t 0 (.other 7) := by
  have hs : run (step id) (boot (Fin 2)) goesToSleep = some ((run (step id) (boot (Fin 2)) goesToSleep).get (by decide)) := (Option.some_get _).symm
  have hd : Dozes ((run (step id) (boot (Fin 2)) goesToSleep).get (by decide)) 0 (.other 7) :=
    Or.inr ⟨0, .sleep 7, by decide, rfl⟩
  have ht := (Option.some_get (x := run (step id) ((run (step id) (boot (Fin 2)) goesToSleep).get (by decide)) isWoken) (by decide +kernel)).symm
  refine ⟨_, _, hs, ht, hd, by decide +kernel, ?_⟩
  exact (no_lost_wakeup ⟨_, hs⟩).2 0 _ hd _ _ 1 NPROC ht (Or.inl ⟨7, rfl, by decide +kernel⟩) le_rfl

end Xv6.Cpus
