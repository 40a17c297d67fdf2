import Xv6.Cpu.Machine
import Xv6.Proc.Move

/-!
# What a step of a CPU can do

The step function of `Xv6.Cpu.Machine` is gone through once: `Xv6.Cpus.Tick` lists the steps a CPU can make outside of a
`wakeup`, `Xv6.Cpus.WakeTick` those inside of one, and `Xv6.Cpus.tick_of_step` says that there are no others.
-/

namespace Xv6.Cpus

open Lib Function

open Procs (Slot Chan Pc resume wakeup1 kill1)

variable {κ : Type} [DecidableEq κ] {s t : Sys κ} {c : κ} {guard : ℕ → ℕ} {j : ℕ}

theorem slotAt_eq_some {i : Slot} : slotAt j = some i ↔ (i : ℕ) = j := by
  rw [slotAt]
  split
  · next h =>
    rw [Option.some_inj]
    exact ⟨fun hi => hi ▸ rfl, fun hi => Fin.ext hi.symm⟩
  · next h => exact ⟨fun hi => absurd hi (by simp), fun hi => absurd (hi ▸ i.isLt) h⟩

theorem slotAt_eq_none : slotAt j = none ↔ NPROC ≤ j := by
  rw [slotAt]
  split
  · next h => exact ⟨fun hn => absurd hn (by simp), fun hn => absurd h (Nat.not_lt.mpr hn)⟩
  · next h => exact ⟨fun _ => Nat.le_of_not_lt h, fun _ => rfl⟩

/-- A process sets its state without releasing a lock first. -/
def Why.direct : Why → Prop
  | .yield | .exit _ => True
  | .sleep _ | .wait _ => False

/-- **The steps of CPU `c` outside of a `wakeup`.** -/
inductive Tick (guard : ℕ → ℕ) (s : Sys κ) (c : κ) : Act → Sys κ → Prop
  | pick (p : Slot) (hn : s.now c = .scan) (hl : s.lock p = none) :
      Tick guard s c (.pick p) ((s.setLock p (some c)).setNow c (.picked p))
  | skip (p : Slot) (hn : s.now c = .picked p) :
      Tick guard s c .skip ((s.setLock p none).setNow c .scan)
  | dispatch (p : Slot) (hn : s.now c = .picked p) (hs : (s.table.proc p).state = .runnable) :
      Tick guard s c .dispatch (((s.setTable (s.table.setProc p
        { s.table.proc p with state := .running })).setProc c (some p)).setNow c (.resumed p))
  | settle (p : Slot) (hn : s.now c = .resumed p) :
      Tick guard s c .settle (((s.setTable ((s.table.setProc p (resume (s.table.proc p) (s.table.pc p)).1).setPc p
        (resume (s.table.proc p) (s.table.pc p)).2)).setLock p none).setNow c (.thread p))
  | enter (p : Slot) (why : Why) (hn : s.now c = .thread p) (hl : s.lock p = none)
      (hm : MayEnter guard s c p why) :
      Tick guard s c (.enter why) ((s.setLock p (some c)).setNow c (.entered p why))
  | unlock (p : Slot) (addr : ℕ) (hn : s.now c = .entered p (.sleep addr)) :
      Tick guard s c .unlock ((s.release c (guard addr)).setNow c (.unlocked p (.sleep addr)))
  | unlockWait (p : Slot) (addr : ℕ) (hn : s.now c = .entered p (.wait addr)) :
      Tick guard s c .unlock ((s.setTable { s.table with waitLock := none }).setNow c
        (.unlocked p (.wait addr)))
  | partNow (p : Slot) (why : Why) (hn : s.now c = .entered p why) (hw : why.direct) :
      Tick guard s c .part ((s.setTable (part s.table p why)).setNow c (.parted p))
  | part (p : Slot) (why : Why) (hn : s.now c = .unlocked p why) :
      Tick guard s c .part ((s.setTable (part s.table p why)).setNow c (.parted p))
  | swtch (p : Slot) (hn : s.now c = .parted p) : Tick guard s c .swtch (s.setNow c (.back p))
  | clear (p : Slot) (hn : s.now c = .back p) :
      Tick guard s c .clear ((s.setProc c none).setNow c (.cleared p))
  | drop (p : Slot) (hn : s.now c = .cleared p) :
      Tick guard s c .drop ((s.setLock p none).setNow c .scan)
  | acquire (l : ℕ) (ho : (s.now c).Open) (hl : s.spin l = none) : Tick guard s c (.acquire l) (s.acquire c l)
  | release (l : ℕ) (ho : (s.now c).Open) (hl : l ∈ s.held c) : Tick guard s c (.release l) (s.release c l)
  | wakeup (addr : ℕ) (ho : (s.now c).Open) (hl : guard addr ∈ s.held c) :
      Tick guard s c (.wakeup addr) (s.setWake c (some (addr, 0)))
  | kill (p : Slot) (pid : ℤ) (hn : s.now c = .thread p) :
      Tick guard s c (.kill pid) (s.setKilling p (some (pid, 0)))
  /-- A `kill` goes on to the next slot, or fails. -/
  | killMove (p : Slot) (pid : ℤ) (j : ℕ) (k : Option (ℤ × ℕ)) (hn : s.now c = .thread p)
      (hp : s.killing p = some (pid, j)) (hk : k = none ∨ k = some (pid, j + 1)) :
      Tick guard s c .killNext (s.setKilling p k)
  | killHit (p i : Slot) (hn : s.now c = .thread p) (hp : s.killing p = some ((s.table.proc i).pid, i.val))
      (hl : s.lock i = none) :
      Tick guard s c .killNext
        ((s.setTable (s.table.setProc i (kill1 (s.table.proc i)))).setKilling p none)
  | call (p : Slot) (k : Call) (u : Procs.Sys) (hn : s.now c = .thread p)
      (hu : Procs.step s.table (k.event p) = some u) : Tick guard s c (.call k) (s.setTable u)
  | advance (p : Slot) (ok : Bool) (u : Procs.Sys) (hn : s.now c = .thread p)
      (hp : parts (s.table.pc p) = false) (hf : s.Free (needs s.table p))
      (hu : Procs.step s.table (.advance p ok) = some u) : Tick guard s c (.advance ok) (s.setTable u)

/-- **The steps of CPU `c` in a `wakeup` that has come to slot `j`.** -/
inductive WakeTick (s : Sys κ) (c : κ) (addr j : ℕ) : Sys κ → Prop
  /-- `myproc()` is passed over. -/
  | self (i : Slot) (hi : (i : ℕ) = j) (hp : s.proc c = some i) :
      WakeTick s c addr j (s.setWake c (some (addr, j + 1)))
  | slot (i : Slot) (hi : (i : ℕ) = j) (hl : s.lock i = none) :
      WakeTick s c addr j ((s.setTable (s.table.setProc i
        (wakeup1 (.other addr) (s.table.proc i)))).setWake c (some (addr, j + 1)))
  | done (hj : NPROC ≤ j) : WakeTick s c addr j (s.setWake c none)

theorem wakeTick_of_wakeNext {addr j : ℕ} (h : wakeNext s c addr j = some t) : WakeTick s c addr j t := by
  rw [wakeNext] at h
  split at h
  · next hj =>
    obtain rfl := Option.some.inj h
    exact .done (slotAt_eq_none.mp hj)
  rename_i i hj
  have hi := slotAt_eq_some.mp hj
  split at h
  · next hp =>
    obtain rfl := Option.some.inj h
    exact .self i hi hp
  · split at h <;> cases h
    rename_i hl
    exact .slot i hi hl

theorem tick_of_killNext {p : Slot} {pid : ℤ} {r : Option ℤ} (hn : s.now c = .thread p)
    (hp : s.killing p = some (pid, j)) (h : killNext s p pid j = some (r, t)) : Tick guard s c .killNext t := by
  rw [killNext] at h
  split at h
  · obtain ⟨-, rfl⟩ := Prod.mk.inj (Option.some.inj h)
    exact .killMove p pid j none hn hp (.inl rfl)
  rename_i i hj
  split at h
  · next hl =>
    split at h
    · next hpid =>
      obtain ⟨-, rfl⟩ := Prod.mk.inj (Option.some.inj h)
      exact .killHit p i hn (by rw [hpid, slotAt_eq_some.mp hj]; exact hp) hl
    · obtain ⟨-, rfl⟩ := Prod.mk.inj (Option.some.inj h)
      exact .killMove p pid j _ hn hp (.inr rfl)
  · cases h

theorem tick_of_act {a : Act} (h : act guard s c a = some t) : Tick guard s c a t := by
  cases a
  case pick p =>
    obtain ⟨⟨hn, -, hl⟩, rfl⟩ : (_ ∧ _ ∧ _) ∧ _ := by simpa [act] using h
    exact .pick p hn hl
  case acquire l | release l | wakeup addr =>
    obtain ⟨⟨ho, hl⟩, rfl⟩ : (_ ∧ _) ∧ _ := by simpa [act] using h
    constructor <;> assumption
  case wakeNext => exact absurd h (by simp [act])
  all_goals simp only [act] at h
  case skip =>
    split at h
    · next p hn =>
      split at h <;> cases h
      exact .skip p hn
    · cases h
  case dispatch =>
    split at h
    · next p hn =>
      split at h <;> cases h
      rename_i hs
      exact .dispatch p hn hs
    · cases h
  case settle | swtch | clear | drop =>
    split at h <;> cases h
    rename_i p hn
    constructor
    exact hn
  case enter why =>
    split at h
    · next p hn =>
      split at h <;> cases h
      rename_i hl
      exact .enter p why hn hl.1 hl.2
    · cases h
  case unlock =>
    split at h <;> cases h
    · exact .unlock _ _ ‹_›
    · exact .unlockWait _ _ ‹_›
  case part =>
    split at h <;> cases h
    · exact .partNow _ .yield ‹_› trivial
    · exact .partNow _ (.exit _) ‹_› trivial
    · exact .part _ _ ‹_›
  case kill pid =>
    split at h
    · next p hn =>
      split at h <;> cases h
      exact .kill p pid hn
    · cases h
  case killNext =>
    split at h
    · next p hn =>
      obtain ⟨k, hp, hk⟩ := Option.bind_eq_some_iff.mp h
      obtain ⟨⟨r, u⟩, hnext, rfl⟩ := Option.map_eq_some_iff.mp hk
      exact tick_of_killNext hn hp hnext
    · cases h
  case call k =>
    split at h
    · next p hn =>
      split at h
      · obtain ⟨u, hu, rfl⟩ := Option.map_eq_some_iff.mp h
        exact .call p k u hn hu
      · cases h
    · cases h
  case advance ok =>
    split at h
    · next p hn =>
      split at h
      · next hp =>
        obtain ⟨u, hu, rfl⟩ := Option.map_eq_some_iff.mp h
        exact .advance p ok u hn hp.1 hp.2 hu
      · cases h
    · cases h

theorem tick_of_step {e : κ × Act} (h : step guard s e = some t) : (s.wake e.1 = none ∧ Tick guard s e.1 e.2 t) ∨
      ∃ addr j, s.wake e.1 = some (addr, j) ∧ WakeTick s e.1 addr j t := by
  rw [step] at h
  split at h
  · next addr j hw =>
    split at h
    · exact Or.inr ⟨addr, j, hw, wakeTick_of_wakeNext h⟩
    · cases h
  · next hw => exact Or.inl ⟨hw, tick_of_act h⟩

end Xv6.Cpus
