import Xv6.Cpu.Machine
import Xv6.Proc.Move

/-!
# The table as it is seen

Twice a process is not what its fields say. Once it has released `lk` in `sleep` it is as good as asleep; and once a CPU
has switched to it, it has as good as gone on. Both times it holds its own lock, so that nobody can tell. `Xv6.Cpus.seen`
is the table with these processes moved on. The critical sections of a thread need the lock, so they are the same on the
table as it is and as it is seen (`Xv6.Cpus.seen_advance`).
-/

namespace Xv6.Cpus

open Lib Function

open Procs (Slot Chan Pc Proc resume wakeup1 kill1)

variable {κ : Type} {s t : Sys κ} {c d : κ} {p q i : Slot} {guard : ℕ → ℕ}

/-! ### The table as it is seen -/

/-- A process with the fields `x` and its thread at `a`, in the eyes of the others. -/
def view (s : Sys κ) (p : Slot) (x : Proc) (a : Pc) : Proc × Pc :=
  match s.lock p with
  | none => (x, a)
  | some c =>
    match s.now c with
    | .resumed _ => resume x a
    | .unlocked _ (.sleep addr) => ({ x with chan := some (.other addr), state := .sleeping }, .slept)
    | .unlocked _ (.wait addr) =>
      ({ x with chan := some (.proc p), state := .sleeping }, .waitSlept addr)
    | _ => (x, a)

def seen (s : Sys κ) (v : Procs.Sys) : Procs.Sys :=
  { v with
    proc := fun p => (view s p (v.proc p) (v.pc p)).1
    pc := fun p => (view s p (v.proc p) (v.pc p)).2 }

def abs (s : Sys κ) : Procs.Sys := seen s s.table

def At.plain : At → Prop
  | .resumed _ | .unlocked _ _ => False
  | _ => True

def Plain (s : Sys κ) (p : Slot) : Prop := ∀ c, s.lock p = some c → (s.now c).plain

theorem Plain.of_free (h : s.lock p = none) : Plain s p := fun c hc => by simp [h] at hc

theorem Plain.of_lock (h : s.lock p = some c) (hc : (s.now c).plain) : Plain s p := fun d hd => by
  rw [h] at hd
  exact Option.some.inj hd ▸ hc

theorem view_of_plain (h : Plain s p) (x : Proc) (a : Pc) : view s p x a = (x, a) := by
  rw [view]
  split
  · rfl
  rename_i c hc
  have := h c hc
  split
  · next hn => simp [hn, At.plain] at this
  · next hn => simp [hn, At.plain] at this
  · next hn => simp [hn, At.plain] at this
  · rfl

theorem view_setParent (x : Proc) (a : Pc) (r : Option Slot) :
    view s p { x with parent := r } a = ({ (view s p x a).1 with parent := r }, (view s p x a).2) := by
  rw [view, view]
  split
  · rfl
  · split
    · cases a <;> rfl
    · rfl
    · rfl
    · rfl

theorem seen_proc (h : Plain s p) (v : Procs.Sys) : (seen s v).proc p = v.proc p :=
  congrArg Prod.fst (view_of_plain h ..)

theorem seen_pc (h : Plain s p) (v : Procs.Sys) : (seen s v).pc p = v.pc p :=
  congrArg Prod.snd (view_of_plain h ..)

theorem seen_parent (v : Procs.Sys) : ((seen s v).proc p).parent = (v.proc p).parent := by
  have := congrArg (fun r => r.1.parent) (view_setParent (s := s) (p := p) (v.proc p) (v.pc p) (v.proc p).parent)
  exact this

variable {v u : Procs.Sys} {ok : Bool}

/-- What others see of a system in which only slot `i` has changed. -/
theorem seen_set {w : Procs.Sys} (hne : ∀ q, q ≠ i → w.proc q = v.proc q ∧ w.pc q = v.pc q) :
    (seen s w).proc = update (seen s v).proc i ((seen s w).proc i) ∧
      (seen s w).pc = update (seen s v).pc i ((seen s w).pc i) := by
  have hview : ∀ q, q ≠ i → view s q (w.proc q) (w.pc q) = view s q (v.proc q) (v.pc q) := fun q hq => by
    rw [(hne q hq).1, (hne q hq).2]
  refine ⟨?_, ?_⟩ <;> rw [eq_update_iff]
  · exact ⟨rfl, fun q hq => congrArg Prod.fst (hview q hq)⟩
  · exact ⟨rfl, fun q hq => congrArg Prod.snd (hview q hq)⟩

theorem seen_setProc (h : Plain s i) (v : Procs.Sys) (x : Proc) : seen s (v.setProc i x) = (seen s v).setProc i x := by
  obtain ⟨hp, hc⟩ := seen_set (s := s) (v := v) (w := v.setProc i x) fun q hq => ⟨update_of_ne hq .., rfl⟩
  rw [seen_proc h, Procs.Sys.setProc_proc, if_pos rfl] at hp
  rw [seen_pc h, Procs.Sys.setProc_pc, ← seen_pc h v, update_eq_self] at hc
  exact Procs.Sys.ext hp hc rfl rfl rfl rfl rfl

theorem seen_setPc (h : Plain s i) (v : Procs.Sys) (a : Pc) : seen s (v.setPc i a) = (seen s v).setPc i a := by
  obtain ⟨hp, hc⟩ := seen_set (s := s) (v := v) (w := v.setPc i a) fun q hq => ⟨rfl, update_of_ne hq ..⟩
  rw [seen_proc h, Procs.Sys.setPc_proc, ← seen_proc h v, update_eq_self] at hp
  rw [seen_pc h, Procs.Sys.setPc_pc, if_pos rfl] at hc
  exact Procs.Sys.ext hp hc rfl rfl rfl rfl rfl

theorem seen_setParent (v : Procs.Sys) (r : Option Slot) : seen s (v.setProc i { v.proc i with parent := r }) =
      (seen s v).setProc i { (seen s v).proc i with parent := r } := by
  have hi := view_setParent (s := s) (p := i) (v.proc i) (v.pc i) r
  rw [← update_self i { v.proc i with parent := r } v.proc] at hi
  obtain ⟨hp, hc⟩ := seen_set (s := s) (v := v) (w := v.setProc i { v.proc i with parent := r })
    fun q hq => ⟨update_of_ne hq .., rfl⟩
  refine Procs.Sys.ext (hp.trans ?_) (hc.trans ?_) rfl rfl rfl rfl rfl
  · exact congrArg (update (seen s v).proc i) (congrArg Prod.fst hi)
  · exact (congrArg (update (seen s v).pc i) (congrArg Prod.snd hi)).trans (update_eq_self ..)

theorem seen_wakeupAt (v : Procs.Sys) (ch : Option Chan) (h : i ≠ p → Plain s i) :
    seen s (Procs.wakeupAt v p ch i) = Procs.wakeupAt (seen s v) p ch i := by
  cases ch with
  | none => rfl
  | some ch =>
    simp only [Procs.wakeupAt]
    split
    · rfl
    · next hi => rw [seen_setProc (h hi), seen_proc (h hi)]

/-! ### The critical sections of a thread -/

/-- What a thread at `c` does to the process in slot `i`, under the lock of it. -/
inductive Sect (c : Pc) (i : Slot) (x : Proc) : Proc → Prop
  | alloc (pid : ℤ) (h : x.state = .unused) : Sect c i x (Procs.allocproc x pid)
  | undo (h : x.state = .unused) : Sect c i x Procs.freeproc
  | ready (h : c = .forkReady i) : Sect c i x { x with state := .runnable }
  | touch (y : Proc) (h : Procs.Touched x y) : Sect c i x y
  | reap (h : x.state = .zombie) : Sect c i x Procs.freeproc

/-- **A critical section changes the process it has the lock of**, or the parent of one, which
`wait_lock` protects. -/
theorem advance_cases (hp : parts (v.pc p) = false) (hu : Procs.advance v p ok = some u) :
    (∃ i x, u.proc = (v.setProc i { v.proc i with parent := x }).proc) ∨
      ∃ i y, needs v p = some i ∧ u.proc = (v.setProc i y).proc ∧ Sect (v.pc p) i (v.proc i) y := by
  have same : ∀ w : Procs.Sys, w.proc = v.proc → ∃ i x, w.proc = (v.setProc i { v.proc i with parent := x }).proc := by
    intro w h
    exact ⟨p, (v.proc p).parent, h.trans (congrArg Procs.Sys.proc (v.setProc_self p)).symm⟩
  rcases hc : v.pc p with _ | _ | i | np | np | st | ⟨st, i⟩ | ⟨st, i, j⟩ | ⟨st, j⟩ | st | _ | addr |
      ⟨addr, i, hk⟩ | addr | addr <;> simp only [Procs.advance, hc] at hu
  case user | slept | dead | waitSlept => cases hu
  case exitDie | waitIdle => simp [hc, parts] at hp
  case forkScan =>
    obtain rfl := Option.some.inj hu
    rw [Procs.forkProbe]
    split
    · next hi =>
      have hneed : needs v p = some ⟨i, hi⟩ := by simp [needs, hc, slotAt, hi]
      dsimp only
      split
      · next hun =>
        split
        · exact Or.inr ⟨⟨i, hi⟩, _, hneed, rfl, .alloc _ hun⟩
        · exact Or.inr ⟨⟨i, hi⟩, _, hneed, rfl, .undo hun⟩
      · exact Or.inl (same _ rfl)
    · next hi => exact Or.inl (same _ rfl)
  case forkLink =>
    split at hu <;> cases hu
    exact Or.inl ⟨np, some p, rfl⟩
  case forkReady =>
    obtain rfl := Option.some.inj hu
    exact Or.inr ⟨np, _, by simp [needs, hc], rfl, .ready rfl⟩
  case exitAcquire | waitAcquire =>
    split at hu <;> cases hu
    exact Or.inl (same _ rfl)
  case exitReparent =>
    obtain rfl := Option.some.inj hu
    rw [Procs.reparent1]
    split
    · next hi =>
      dsimp only
      split
      · exact Or.inl ⟨⟨i, hi⟩, some v.initproc, rfl⟩
      · exact Or.inl (same _ rfl)
    · next hi => exact Or.inl (same _ rfl)
  case exitWakeInit =>
    split at hu <;> obtain rfl := Option.some.inj hu
    · next hj =>
      rw [Procs.wakeupAt]
      split
      · exact Or.inl (same _ rfl)
      · next hjp =>
        refine Or.inr ⟨⟨j, hj⟩, _, ?_, rfl, .touch _ (Procs.touched_wakeup1 _ _)⟩
        simp [needs, hc, slotAt, hj, hjp]
    · exact Or.inl (same _ rfl)
  case exitWakeParent =>
    split at hu <;> obtain rfl := Option.some.inj hu
    · next hj =>
      cases hpar : (v.proc p).parent with
      | none => exact Or.inl (same _ rfl)
      | some r =>
        rw [Option.map_some, Procs.wakeupAt]
        split
        · exact Or.inl (same _ rfl)
        · next hjp =>
          refine Or.inr ⟨⟨j, hj⟩, _, ?_, rfl, .touch _ (Procs.touched_wakeup1 _ _)⟩
          simp [needs, hc, slotAt, hj, hjp]
    · exact Or.inl (same _ rfl)
  case waitScan =>
    obtain rfl := Option.some.inj hu
    rw [Procs.waitProbe]
    split
    · next hi =>
      dsimp only
      split
      · next hpar =>
        have hneed : needs v p = some ⟨i, hi⟩ := by simp [needs, hc, slotAt, hi, hpar]
        split
        · next hz =>
          split
          · exact Or.inl (same _ rfl)
          · exact Or.inr ⟨⟨i, hi⟩, _, hneed, rfl, .reap hz⟩
        · exact Or.inl (same _ rfl)
      · exact Or.inl (same _ rfl)
    · split <;> exact Or.inl (same _ rfl)

theorem seen_advance (hp : Plain s p) (hn : ∀ i, needs v p = some i → Plain s i) (hpt : parts (v.pc p) = false)
    (hu : Procs.advance v p ok = some u) : Procs.advance (seen s v) p ok = some (seen s u) := by
  have hpc := seen_pc hp v
  rcases hc : v.pc p with _ | _ | i | np | np | st | ⟨st, i⟩ | ⟨st, i, j⟩ | ⟨st, j⟩ | st | _ | addr |
      ⟨addr, i, hk⟩ | addr | addr <;> rw [hc] at hpc <;>
    simp only [Procs.advance, hc] at hu <;> simp only [Procs.advance, hpc]
  case user | slept | dead | waitSlept => cases hu
  case exitDie | waitIdle => simp [hc, parts] at hpt
  case forkScan =>
    obtain rfl := Option.some.inj hu
    rw [Procs.forkProbe, Procs.forkProbe]
    split
    · next hi =>
      have hpl : Plain s ⟨i, hi⟩ := hn _ (by simp [needs, hc, slotAt, hi])
      dsimp only
      rw [seen_proc hpl]
      split
      · split
        · have := seen_setPc hp ((v.setProc ⟨i, hi⟩ (Procs.allocproc (v.proc ⟨i, hi⟩) v.nextpid)).setPc ⟨i, hi⟩ .user) (.forkLink ⟨i, hi⟩)
          rw [seen_setPc hpl, seen_setProc hpl] at this
          exact congrArg (fun w : Procs.Sys => some { w with
            nextpid := Procs.allocpid v.nextpid
            gen := update v.gen ⟨i, hi⟩ (v.gen ⟨i, hi⟩ + 1) }) this.symm
        · have := seen_setPc hp (v.setProc ⟨i, hi⟩ Procs.freeproc) .user
          rw [seen_setProc hpl] at this
          exact congrArg (fun w : Procs.Sys => some { w with nextpid := Procs.allocpid v.nextpid }) this.symm
      · exact congrArg some (seen_setPc hp v _).symm
    · exact congrArg some (seen_setPc hp v _).symm
  case forkLink =>
    have hl : (seen s v).waitLock = v.waitLock := rfl
    rw [hl]
    split at hu <;> cases hu
    rename_i h0
    rw [if_pos h0, seen_setPc hp, seen_setParent]
  case forkReady =>
    obtain rfl := Option.some.inj hu
    have hpl : Plain s np := hn _ (by simp [needs, hc])
    rw [seen_setPc hp, seen_setProc hpl, seen_proc hpl]
  case exitAcquire | waitAcquire =>
    have hl : (seen s v).waitLock = v.waitLock := rfl
    rw [hl]
    split at hu <;> cases hu
    rename_i h0
    rw [if_pos h0, ← seen_setPc hp]
    rfl
  case exitReparent =>
    obtain rfl := Option.some.inj hu
    rw [Procs.reparent1, Procs.reparent1]
    split
    · next hi =>
      dsimp only
      rw [seen_parent]
      split
      · rw [seen_setPc hp, seen_setParent]
        rfl
      · rw [seen_setPc hp]
    · rw [seen_setPc hp]
  case exitWakeInit =>
    split at hu <;> obtain rfl := Option.some.inj hu
    · next hj =>
      have hpl : (⟨j, hj⟩ : Slot) ≠ p → Plain s ⟨j, hj⟩ := fun hjp =>
        hn _ (by simp [needs, hc, slotAt, hj, hjp])
      rw [dif_pos hj, seen_setPc hp, seen_wakeupAt v _ hpl]
      rfl
    · next hj => rw [dif_neg hj, seen_setPc hp]
  case exitWakeParent =>
    split at hu <;> obtain rfl := Option.some.inj hu
    · next hj =>
      have hpl : (⟨j, hj⟩ : Slot) ≠ p → Plain s ⟨j, hj⟩ := fun hjp =>
        hn _ (by simp [needs, hc, slotAt, hj, hjp])
      rw [dif_pos hj, seen_setPc hp, seen_wakeupAt v _ hpl, seen_parent]
    · next hj => rw [dif_neg hj, seen_setPc hp]
  case waitScan =>
    obtain rfl := Option.some.inj hu
    rw [Procs.waitProbe, Procs.waitProbe]
    split
    · next hi =>
      dsimp only
      rw [seen_parent]
      split
      · next hpar =>
        have hpl : Plain s ⟨i, hi⟩ := hn _ (by simp [needs, hc, slotAt, hi, hpar])
        rw [seen_proc hpl]
        split
        · split
          · rw [← seen_setPc hp]
            rfl
          · rw [← seen_setProc hpl, ← seen_setPc hp]
            rfl
        · rw [seen_setPc hp]
      · rw [seen_setPc hp]
    · rw [seen_proc hp]
      split
      · rw [← seen_setPc hp]
        rfl
      · rw [seen_setPc hp]

theorem wakeupAt_pc (v : Procs.Sys) (ch : Option Chan) : (Procs.wakeupAt v p ch i).pc q = v.pc q := by
  cases ch with
  | none => rfl
  | some ch =>
    simp only [Procs.wakeupAt]
    split
    · rfl
    · rfl

theorem advance_pc (hu : Procs.advance v p ok = some u) (hq : q ≠ p)
    (hs : (v.proc q).state ≠ .unused) : u.pc q = v.pc q := by
  rcases hc : v.pc p with _ | _ | i | np | np | st | ⟨st, i⟩ | ⟨st, i, j⟩ | ⟨st, j⟩ | st | _ | addr |
      ⟨addr, i, hk⟩ | addr | addr <;> simp only [Procs.advance, hc] at hu
  case user | slept | dead | waitSlept => cases hu
  case forkScan =>
    obtain rfl := Option.some.inj hu
    rw [Procs.forkProbe]
    split
    · next hi =>
      dsimp only
      split
      · next hun =>
        split
        · have hne : q ≠ ⟨i, hi⟩ := fun hqi => hs (hqi ▸ hun)
          exact (update_of_ne hq ..).trans (update_of_ne hne ..)
        · exact update_of_ne hq ..
      · exact update_of_ne hq ..
    · exact update_of_ne hq ..
  case exitReparent =>
    obtain rfl := Option.some.inj hu
    rw [Procs.reparent1]
    dsimp only
    repeat' split
    all_goals exact update_of_ne hq ..
  case waitScan =>
    obtain rfl := Option.some.inj hu
    rw [Procs.waitProbe]
    dsimp only
    repeat' split
    all_goals exact update_of_ne hq ..
  case forkReady | exitDie | waitIdle => exact Option.some.inj hu ▸ update_of_ne hq ..
  case forkLink | exitAcquire | waitAcquire =>
    split at hu
    · exact Option.some.inj hu ▸ update_of_ne hq ..
    · cases hu
  case exitWakeInit | exitWakeParent =>
    split at hu
    · obtain rfl := Option.some.inj hu
      exact (update_of_ne hq ..).trans (wakeupAt_pc ..)
    · exact Option.some.inj hu ▸ update_of_ne hq ..

end Xv6.Cpus
