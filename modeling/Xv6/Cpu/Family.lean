import Xv6.Cpu.Refine
import Xv6.Proc.Reap

/-!
# The process tree, with CPUs

What `Xv6.Proc` shows of critical sections that are executed one at a time holds when any number of CPUs execute them: whatever the CPUs do
to the table is a sequence of moves of the table (`Xv6.Cpus.Inv.simulates`). A process that is not what it is seen as is `RUNNING`, so that
nothing is lost when the results are read off the table itself.
-/

namespace Xv6.Cpus

open Lib

open Procs (Slot Obs)

variable {κ : Type} {s t : Sys κ} {p q i : Slot} {guard : ℕ → ℕ} {x : Procs.Proc} {a : Procs.Pc}

/-- A move of the table, whatever it hits. -/
def Moves (v u : Procs.Sys) : Prop := ∃ hit, Procs.Move hit v u

/-- What holds of the table with critical sections holds after any moves. -/
theorem orderly_of_moves {v : Procs.Sys} (h : Relation.ReflTransGen Moves Procs.boot v) : Procs.Orderly v := by
  induction h with
  | refl => exact ⟨Procs.sleepers_boot, Procs.history_boot⟩
  | tail hmoves hmove ih =>
    obtain ⟨hit, hm⟩ := hmove
    exact ⟨ih.sleepers.step hm, ih.history.step (Procs.lifeStep_of_move ih.threads hm)⟩

/-- The process is seen as it is, unless it runs. -/
theorem Seated.plain (h : Seated s) (hp : (s.table.proc p).state ≠ .running) : Plain s p := by
  intro c hc
  have hlocks := (h.lock c p).mpr hc
  rcases hnow : s.now c with _ | q | q | q | ⟨q, why⟩ | ⟨q, why⟩ | q | q | q
  case resumed | unlocked =>
    rw [hnow] at hlocks
    obtain rfl := Option.some.inj hlocks
    exact absurd (h.runs c q (by rw [hnow]; rfl)) hp
  all_goals trivial

theorem Seated.alive (h : Seated s) (hp : Procs.Alive (abs s) p) : Procs.Alive s.table p := by
  by_cases hr : (s.table.proc p).state = .running
  · rw [Procs.Alive, hr]
    decide
  · rwa [Procs.Alive, abs, seen_proc (h.plain hr)] at hp

theorem state_view_ne (hx : x.state ≠ .unused) : (view s p x a).1.state ≠ .unused := by
  unfold view
  split
  · exact hx
  · split
    · cases a <;> simp [Procs.resume]
    · simp
    · simp
    · exact hx

/-- A thread that is seen to be about to link a child is. -/
theorem pc_of_view (h : (view s p x a).2 = .forkLink i) : a = .forkLink i := by
  unfold view at h
  split at h
  · exact h
  · split at h
    · cases a <;> simp_all [Procs.resume]
    · cases h
    · cases h
    · exact h

variable [DecidableEq κ]

/-- **The CPUs make moves of the table.** -/
theorem moves_of_reach (h : Reach (step guard) (boot κ) s) : Relation.ReflTransGen Moves Procs.boot (abs s) := by
  have hboth : Reach (step guard) (boot κ) s ∧ Relation.ReflTransGen Moves Procs.boot (abs s) := by
    refine h.invariant (I := fun s => Reach (step guard) (boot κ) s ∧ Relation.ReflTransGen Moves Procs.boot (abs s))
      (fun {s e t} hs he => ?_) ⟨.refl, by rw [abs_boot]⟩
    obtain ⟨hreach, hmoves⟩ := hs
    refine ⟨hreach.tail he, ?_⟩
    exact hmoves.tail ⟨_, Inv.simulates hreach he⟩
  exact hboth.2

/-- **The process tree and reaping, with CPUs.** Over any number of CPUs and in every interleaving, what has been done to the table, as it
is seen, is a sequence of moves. So every process but the first, and a child that `fork` has not linked yet, has a parent that
is neither free nor a zombie; no process exits or is reaped twice, and `wait` returns what was said in `exit`; and while `wait_lock` is
free, nobody who sleeps in `wait` has a zombie child. -/
theorem cpus_tree_and_reaping (h : Reach (step guard) (boot κ) s) : Relation.ReflTransGen Moves Procs.boot (abs s) ∧
    (∀ i, (s.table.proc i).state ≠ .unused → i ≠ s.table.initproc → (∀ p, s.table.pc p ≠ .forkLink i) →
      ∃ p, (s.table.proc i).parent = some p ∧ (s.table.proc p).state ≠ .unused ∧ (s.table.proc p).state ≠ .zombie) ∧
    ((s.table.hist.filterMap Obs.exitedProcess).Nodup ∧ (s.table.hist.filterMap Obs.reapedProcess).Nodup ∧
      ∀ pre post p pid status i g, s.table.hist = pre ++ .reaped p pid status i g :: post →
        ∃ st, .exited i g pid st ∈ post ∧ (status = none ∨ status = some st)) ∧
    (s.table.waitLock = none → ∀ p i, Procs.WaitsAsleep s.table p → (s.table.proc i).parent = some p →
      (s.table.proc i).state ≠ .zombie) := by
  have hmoves := moves_of_reach h
  have ho := orderly_of_moves hmoves
  have hs := (Inv.of_reach h).seated
  have hf := ho.sleepers.family
  have hparent : ∀ i, ((abs s).proc i).parent = (s.table.proc i).parent := fun i => seen_parent s.table
  refine ⟨hmoves, fun i hi hne hlink => ?_, ⟨ho.history.exitedOnce, ho.history.reapedOnce, ho.history.report⟩, fun hl p i hp hpar hz => ?_⟩
  · rcases hpar : (s.table.proc i).parent with _ | p
    · obtain ⟨p, hp⟩ := hf.orphan i (state_view_ne hi) hne ((hparent i).trans hpar)
      exact absurd (pc_of_view hp) (hlink p)
    · exact ⟨p, rfl, hs.alive (hf.tree i p ((hparent i).trans hpar))⟩
  have hplain : Plain s p := hs.plain (by rw [hp.1]; decide)
  have hplain' : Plain s i := hs.plain (by rw [hz]; decide)
  have hp' : Procs.WaitsAsleep (abs s) p := by
    rw [Procs.WaitsAsleep, abs, seen_proc hplain, seen_pc hplain]
    exact hp
  have hz' : ((abs s).proc i).state = .zombie := by
    rw [abs, seen_proc hplain']
    exact hz
  -- the scan that is still to wake the first process holds the lock
  obtain ⟨-, q, st, k, j, hq, -⟩ := ho.sleepers.zombie p i hp' ((hparent i).trans hpar) hz'
  have := ho.threads.not_holds (p := q) (show (abs s).waitLock = none from hl)
  simp [hq, Procs.Pc.holds] at this

attribute [local instance] two_cpus

/-- Two CPUs: one is on the first process, which calls `fork` and goes through the table up to the slot of the child. -/
def firstChild : List (Fin 2 × Act) :=
  [(0, .pick 0), (0, .dispatch), (0, .settle), (0, .call .fork), (0, .advance true), (0, .advance true), (0, .advance true), (0, .advance true)]

/-- The child has a living parent. -/
theorem cpus_tree_first_child : ∃ s, run (step id) (boot (Fin 2)) firstChild = some s ∧ ∃ p, (s.table.proc 1).parent = some p ∧
      (s.table.proc p).state ≠ .unused ∧ (s.table.proc p).state ≠ .zombie := by
  have hr : run (step id) (boot (Fin 2)) firstChild = some ((run (step id) (boot (Fin 2)) firstChild).get (by decide)) :=
    (Option.some_get _).symm
  exact ⟨_, hr, (cpus_tree_and_reaping ⟨_, hr⟩).2.1 1 (by decide) (by decide) (by decide)⟩

end Xv6.Cpus
