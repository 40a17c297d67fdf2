import Xv6.Cpu.Tick
import Xv6.Cpu.Seen
import Xv6.Lib.Update
import Xv6.Proc.Wait

/-!
# CPUs execute critical sections

The machine with CPUs refines the machine of the table: what a step does to the table as it is seen is one of the moves of
`Xv6.Procs.Move`, or nothing (`Xv6.Cpus.Inv.simulates`). The invariants that make it work are about seats: which CPU is
on which stack, which holds which lock, and which process is `RUNNING`.
-/

namespace Xv6.Cpus

open Lib Function

open Procs (Slot Chan Pc Proc resume wakeup1 kill1)

variable {v u : Procs.Sys} {addr j : ℕ} {why : Why} {hit : Slot → Prop}

variable {κ : Type} {s t : Sys κ} {c d : κ} {ac : Act} {p q i : Slot} {guard : ℕ → ℕ}

/-! ### Seats -/

def At.proc : At → Option Slot
  | .scan | .picked _ | .cleared _ => none
  | .resumed p | .thread p | .entered p _ | .unlocked p _ | .parted p | .back p => some p

def At.runs : At → Option Slot
  | .resumed p | .thread p | .entered p _ | .unlocked p _ => some p
  | _ => none

def At.rests : At → Option Slot
  | .parted p | .back p => some p
  | _ => none

/-- **The seats**: the stack a CPU is on, the locks it holds, and the processes that are
`RUNNING` go together. -/
structure Seated (s : Sys κ) : Prop where
  proc : ∀ c, s.proc c = (s.now c).proc
  lock : ∀ c p, (s.now c).locks = some p ↔ s.lock p = some c
  uniq : ∀ c d p, (s.now c).proc = some p → (s.now d).proc = some p → c = d
  runs : ∀ c p, (s.now c).runs = some p → (s.table.proc p).state = .running
  rests : ∀ c p, (s.now c).rests = some p → (s.table.proc p).state ≠ .running
  running : ∀ p, (s.table.proc p).state = .running → ∃ c, (s.now c).runs = some p

theorem seated_boot : Seated (boot κ) where
  proc _ := rfl
  lock c p := by simp [boot, At.locks]
  uniq c d p h := by simp [boot, At.proc] at h
  runs c p h := by simp [boot, At.runs] at h
  rests c p h := by simp [boot, At.rests] at h
  running p h := by
    simp only [boot, Procs.boot, update_apply] at h
    split at h <;> simp [Procs.freeproc] at h

theorem At.proc_of_runs {a : At} (h : a.runs = some p) : a.proc = some p := by
  cases a <;> simp_all [At.proc, At.runs]

theorem At.runs_or_rests {a : At} (h : a.proc = some p) : a.runs = some p ∨ a.rests = some p := by
  cases a <;> simp_all [At.proc, At.runs, At.rests]

theorem At.locks_of_rests {a : At} (h : a.rests = some p) : a.locks = some p := by
  cases a <;> simp_all [At.rests, At.locks]

namespace Seated

theorem plain_of_runs (h : Seated s) (hc : (s.now c).runs = some p) (hn : (s.now c).plain) : Plain s p := by
  intro d hd
  by_cases hcd : d = c
  · rwa [hcd]
  have hl := (h.lock d p).mpr hd
  have hu := h.uniq d c p
  cases hnd : s.now d with
  | resumed q | unlocked q why =>
    rw [hnd] at hl hu
    exact absurd (hu hl (At.proc_of_runs hc)) hcd
  | _ => trivial

theorem plain_of_thread (h : Seated s) (hc : s.now c = .thread p) : Plain s p :=
  h.plain_of_runs (c := c) (by rw [hc]; rfl) (by rw [hc]; trivial)

/-! A CPU goes from one place to the next. -/

section Move

variable [DecidableEq κ] {a b : At} (h : Seated s) (hn : s.now c = b)

include h

theorem proc_set : ∀ d, update s.proc c a.proc d = (update s.now c a d).proc :=
  forall_update₂ (P := fun _ o a => o = At.proc a) rfl fun d _ => h.proc d

include hn

theorem lock_keep (ha : a.locks = b.locks) : ∀ d q, (update s.now c a d).locks = some q ↔ s.lock q = some d := by
  intro d q
  rw [apply_update_of_eq At.locks (by rw [hn, ha]), h.lock]

theorem lock_acquire (hb : b.locks = none) (ha : a.locks = some p) (hl : s.lock p = none) :
    ∀ d q, (update s.now c a d).locks = some q ↔ update s.lock p (some c) q = some d :=
  iff_update (R := fun a q => At.locks a = some q) (S := fun o d => o = some d) h.lock (by simp [ha])
    (fun q hq => by simp [ha, hn, hb, Ne.symm hq]) fun d hd => by simp [hl, Ne.symm hd]

theorem lock_release (hb : b.locks = some p) (ha : a.locks = none) :
    ∀ d q, (update s.now c a d).locks = some q ↔ update s.lock p none q = some d :=
  have hp := (h.lock c p).mp (by rw [hn, hb])
  iff_update (R := fun a q => At.locks a = some q) (S := fun o d => o = some d) h.lock (by simp [ha])
    (fun q hq => by simp [ha, hn, hb, Ne.symm hq]) fun d hd => by simp [hp, Ne.symm hd]

theorem proc_keep (ha : a.proc = b.proc) : ∀ d, s.proc d = (update s.now c a d).proc := by
  intro d
  rw [apply_update_of_eq At.proc (by rw [hn, ha]), h.proc]

theorem uniq_keep (ha : a.proc = none ∨ a.proc = b.proc) :
    ∀ d e q, (update s.now c a d).proc = some q → (update s.now c a e).proc = some q → d = e := by
  subst hn
  exact fun d e q hd he => h.uniq d e q (eq_some_of_update hd ha) (eq_some_of_update he ha)

theorem move (hnow : t.now = update s.now c a) (hproc : ∀ d, t.proc d = (update s.now c a d).proc)
    (hlock : ∀ d q, (update s.now c a d).locks = some q ↔ t.lock q = some d)
    (hstate : ∀ q, (t.table.proc q).state = (s.table.proc q).state) (hp : a.proc = none ∨ a.proc = b.proc)
    (hruns : a.runs = b.runs) (hrests : a.rests = none ∨ a.rests = b.rests) : Seated t := by
  have hrun : ∀ d, (update s.now c a d).runs = (s.now d).runs := apply_update_of_eq At.runs (by rw [hn, hruns])
  refine ⟨fun d => ?_, fun d q => ?_, fun d e q => ?_, fun d q hq => ?_, fun d q hq => ?_, fun q hq => ?_⟩
  · rw [hproc, hnow]
  · rw [hnow]
    exact hlock d q
  · rw [hnow]
    exact h.uniq_keep hn hp d e q
  · rw [hnow, hrun] at hq
    rw [hstate]
    exact h.runs d q hq
  · rw [hnow] at hq
    rw [hstate]
    exact h.rests d q (eq_some_of_update hq (hn ▸ hrests))
  · rw [hstate] at hq
    obtain ⟨d, hd⟩ := h.running q hq
    exact ⟨d, by rw [hnow, hrun, hd]⟩

end Move

theorem table (h : Seated s) (hnow : t.now = s.now) (hproc : t.proc = s.proc) (hlock : t.lock = s.lock)
    (hstate : ∀ q, (t.table.proc q).state = .running ↔ (s.table.proc q).state = .running) : Seated t := by
  refine ⟨fun d => ?_, fun d q => ?_, fun d e q => ?_, fun d q hq => ?_, fun d q hq => ?_, fun q hq => ?_⟩
  · rw [hnow, hproc, h.proc]
  · rw [hnow, hlock, h.lock]
  · rw [hnow]
    exact h.uniq d e q
  · rw [hnow] at hq
    exact (hstate q).mpr (h.runs d q hq)
  · rw [hnow] at hq
    exact fun hr => h.rests d q hq ((hstate q).mp hr)
  · rw [hnow]
    exact h.running q ((hstate q).mp hq)

end Seated

/-! ### What others see while a CPU moves on -/

theorem seen_eq_of_view (h : ∀ q x a, view t q x a = view s q x a) : seen t v = seen s v := by
  simp only [seen, h]

theorem view_move (hnow : ∀ d, d ≠ c → t.now d = s.now d) (hs : (s.now c).plain) (ht : (t.now c).plain) (hlock : t.lock q = s.lock q ∨
      ((s.lock q = none ∨ s.lock q = some c) ∧ (t.lock q = none ∨ t.lock q = some c))) (x : Proc) (a : Pc) : view t q x a = view s q x a := by
  have plain : ∀ {u : Sys κ}, (u.now c).plain → u.lock q = none ∨ u.lock q = some c → Plain u q := by
    rintro u hu (h | h)
    · exact Plain.of_free h
    · exact Plain.of_lock h hu
  rcases hlock with hl | ⟨hls, hlt⟩
  · rcases hq : s.lock q with _ | d
    · rw [hq] at hl
      rw [view_of_plain (Plain.of_free hq), view_of_plain (Plain.of_free hl)]
    rw [hq] at hl
    by_cases hd : d = c
    · subst hd
      rw [view_of_plain (Plain.of_lock hq hs), view_of_plain (Plain.of_lock hl ht)]
    · rw [view, view, hl, hq]
      simp only [hnow d hd]
  · rw [view_of_plain (plain hs hls), view_of_plain (plain ht hlt)]

theorem Seated.view_other (h : Seated s) (hc : (s.now c).locks = some p)
    (hnow : ∀ d, d ≠ c → t.now d = s.now d) (hlock : t.lock q = s.lock q) (hq : q ≠ p) (x : Proc) (a : Pc) : view t q x a = view s q x a := by
  rcases hl : s.lock q with _ | d
  · rw [view_of_plain (Plain.of_free hl), view_of_plain (Plain.of_free (hlock.trans hl))]
  · have hd : d ≠ c := by
      rintro rfl
      exact hq (Option.some.inj (((h.lock d q).mpr hl).symm.trans hc))
    rw [view, view, hlock, hl]
    simp only [hnow d hd]

section Turn

variable (h : Seated s) (hc : (s.now c).locks = some p) (hnow : ∀ d, d ≠ c → t.now d = s.now d)
  (hlock : ∀ q, q ≠ p → t.lock q = s.lock q)
  (hw : ∀ q, q ≠ p → t.table.proc q = s.table.proc q ∧ t.table.pc q = s.table.pc q)
  (hrest : t.table.nextpid = s.table.nextpid ∧ t.table.initproc = s.table.initproc ∧ t.table.gen = s.table.gen ∧
    t.table.hist = s.table.hist)

include h hc hnow hlock hw hrest

/-- **The CPU that holds the lock of `p` goes on**, and the others see what it does to `p`. -/
theorem Seated.abs_turn {x : Proc} {a : Pc} (hp : view t p (t.table.proc p) (t.table.pc p) = (x, a)) {w : Option Slot}
    (hwl : t.table.waitLock = w) (hv : v = { ((abs s).setProc p x).setPc p a with waitLock := w }) : abs t = v := by
  subst hv
  obtain ⟨h₁, h₂, h₃, h₄⟩ := hrest
  have hview : ∀ q, view t q (t.table.proc q) (t.table.pc q) = (update (abs s).proc p x q, update (abs s).pc p a q) := by
    refine forall_update₂ (P := fun q x a => view t q (t.table.proc q) (t.table.pc q) = (x, a)) hp fun q hq => ?_
    rw [h.view_other hc hnow (hlock q hq) hq, (hw q hq).1, (hw q hq).2]
    rfl
  exact Procs.Sys.ext (funext fun q => congrArg Prod.fst (hview q)) (funext fun q => congrArg Prod.snd (hview q)) h₁ h₂ hwl h₃ h₄

theorem Seated.abs_turn_same (hp : view t p (t.table.proc p) (t.table.pc p) = view s p (s.table.proc p) (s.table.pc p))
    (hwl : t.table.waitLock = s.table.waitLock) : abs t = abs s := by
  rw [h.abs_turn hc hnow hlock hw hrest (hp.trans (Prod.mk.eta).symm) hwl rfl]
  exact Procs.Sys.ext (update_eq_self p (abs s).proc) (update_eq_self p (abs s).pc) rfl rfl rfl rfl rfl

end Turn

/-! ### The simulation -/

def Why.Fits (a : Pc) : Why → Prop
  | .yield => a.holds = false
  | .sleep _ => a = .user
  | .wait addr => a = .waitIdle addr
  | .exit status => a = .exitDie status

structure Inv (s : Sys κ) : Prop where
  seated : Seated s
  entered : ∀ c p why, s.now c = .entered p why → why.Fits (s.table.pc p)
  unlocked : ∀ c p why, s.now c = .unlocked p why → why.Fits (s.table.pc p) ∧ ¬why.direct
  table : Procs.Sleepers (abs s)

theorem abs_boot : abs (boot κ) = Procs.boot := rfl

theorem inv_boot : Inv (boot κ) where
  seated := seated_boot
  entered c p why h := by simp [boot] at h
  unlocked c p why h := by simp [boot] at h
  table := Procs.sleepers_boot

/-- The slots whose processes a step of CPU `c` may kill. -/
def Hit (s : Sys κ) (c : κ) (ac : Act) (i : Slot) : Prop :=
  (∃ p, s.killing p = some ((s.table.proc i).pid, i.val)) ∨ ac = .call .fault ∧ s.now c = .thread i

namespace Inv

theorem threads (h : Inv s) : Procs.Threads (abs s) := h.table.family.threads

theorem not_running_of_builds (h : Inv s) (hp : Plain s p) (hi : Plain s i)
    (hc : s.table.pc p = .forkReady i) : (s.table.proc i).state ≠ .running := by
  have hpc : (abs s).pc p = .forkReady i := (seen_pc hp _).trans hc
  have := (h.threads.builds p i (by rw [hpc]; rfl)).1
  rw [abs, seen_proc hi] at this
  simp [this]

theorem simulates_call {k : Call} (h : Inv s) (hn : s.now c = .thread p) (hu : Procs.step s.table (k.event p) = some u) :
    Procs.Move (Hit s c (.call k)) (abs s) (abs (s.setTable u)) := by
  have hp := h.seated.plain_of_thread hn
  have huser : ∀ v : Procs.Sys, Procs.InUser v p → Procs.InUser (seen s v) p := fun v hv => by
    rw [Procs.InUser, seen_proc hp, seen_pc hp]
    exact hv
  have habs : abs (s.setTable u) = seen s u := rfl
  have hhit : ∀ i, (k.event p).Hits (abs s) i → Hit s c (.call k) i := by
    intro i hi
    cases k with
    | fault => exact .inr ⟨rfl, hi.1 ▸ hn⟩
    | _ => exact absurd hi id
  refine (Procs.move_of_step (e := k.event p) ?_).mono hhit
  rw [habs, abs]
  cases k with
  | fork | wait addr =>
    obtain ⟨hin, rfl⟩ : Procs.InUser s.table p ∧ _ := by simpa [Procs.step, Call.event] using hu
    rw [Call.event, Procs.step, if_pos (huser _ hin), seen_setPc hp]
  | exit status =>
    obtain ⟨⟨hin, hne⟩, rfl⟩ : (Procs.InUser s.table p ∧ _) ∧ _ := by
      simpa [Procs.step, Call.event] using hu
    rw [Call.event, Procs.step, if_pos ⟨huser _ hin, hne⟩, ← seen_setPc hp, seen_proc hp]
    rfl
  | fault =>
    obtain ⟨hin, rfl⟩ : Procs.InUser s.table p ∧ _ := by simpa [Procs.step, Call.event] using hu
    rw [Call.event, Procs.step, if_pos (huser _ hin), seen_setProc hp, seen_proc hp]

theorem simulates_advance {ok : Bool} (h : Inv s) (hn : s.now c = .thread p) (hpt : parts (s.table.pc p) = false)
    (hf : s.Free (needs s.table p)) (hu : Procs.step s.table (.advance p ok) = some u) :
    Procs.Move hit (abs s) (abs (s.setTable u)) := by
  have hp := h.seated.plain_of_thread hn
  have hneed : ∀ i, needs s.table p = some i → Plain s i := fun i hi => by
    rw [hi] at hf
    exact Plain.of_free hf
  obtain ⟨hr, hadv⟩ : (s.table.proc p).state = .running ∧ _ := by simpa [Procs.step] using hu
  have hr' : ((abs s).proc p).state = .running := by rwa [abs, seen_proc hp]
  exact Procs.move_of_advance hr' (seen_advance hp hneed hpt hadv)

theorem simulates_touch {x : Proc} (hl : s.lock i = none) (hx : Procs.Touched (s.table.proc i) x)
    (hk : x.killed = (s.table.proc i).killed ∨ hit i) : Procs.Move hit (abs s) (seen s (s.table.setProc i x)) := by
  have hp := Plain.of_free hl
  have hi : (abs s).proc i = s.table.proc i := seen_proc hp _
  rw [seen_setProc hp]
  exact .touch i x (hi ▸ hx) (hi ▸ hk)

variable [DecidableEq κ]

theorem simulates_dispatch (h : Inv s) (hn : s.now c = .picked p) (hs : (s.table.proc p).state = .runnable) :
    Procs.Move hit (abs s) (abs (((s.setTable (s.table.setProc p
      { s.table.proc p with state := .running })).setProc c (some p)).setNow c (.resumed p))) := by
  have hlock : (s.now c).locks = some p := by rw [hn]; rfl
  have hl := (h.seated.lock c p).mp hlock
  have hp : Plain s p := Plain.of_lock hl (by rw [hn]; trivial)
  have hs' : ((abs s).proc p).state = .runnable := by rwa [abs, seen_proc hp]
  convert Procs.Move.schedule p hs' using 1
  refine h.seated.abs_turn hlock (fun d hd => update_of_ne hd ..) (fun q hq => rfl) (fun q hq => ⟨update_of_ne hq .., rfl⟩)
    ⟨rfl, rfl, rfl, rfl⟩ ?_ rfl rfl
  rw [abs, seen_proc hp, seen_pc hp, view]
  simp only [Sys.setNow, Sys.setProc, Sys.setTable, hl, update_self, Procs.Sys.setProc_proc, if_true, Procs.Sys.setProc_pc]
  cases s.table.pc p <;> rfl

theorem abs_settle (h : Inv s) (hn : s.now c = .resumed p) : abs (((s.setTable ((s.table.setProc p (resume (s.table.proc p) (s.table.pc p)).1).setPc p
      (resume (s.table.proc p) (s.table.pc p)).2)).setLock p none).setNow c (.thread p)) = abs s := by
  have hlock : (s.now c).locks = some p := by rw [hn]; rfl
  have hl := (h.seated.lock c p).mp hlock
  refine h.seated.abs_turn_same hlock (fun d hd => update_of_ne hd ..) (fun q hq => update_of_ne hq ..)
    (fun q hq => ⟨update_of_ne hq .., update_of_ne hq ..⟩) ⟨rfl, rfl, rfl, rfl⟩ ?_ rfl
  rw [view_of_plain (Plain.of_free (update_self ..)), view, hl]
  simp only [hn, Sys.setNow, Sys.setLock, Sys.setTable, Procs.Sys.setPc_proc, Procs.Sys.setProc_proc, Procs.Sys.setPc_pc, if_true]

omit [DecidableEq κ] in
/-- A CPU that has taken the lock of the process it is about to leave. -/
theorem of_entered (h : Inv s) (hn : s.now c = .entered p why) : (s.now c).locks = some p ∧ s.lock p = some c ∧
    (abs s).proc p = s.table.proc p ∧ ((abs s).proc p).state = .running ∧ why.Fits ((abs s).pc p) := by
  have hlock : (s.now c).locks = some p := by rw [hn]; rfl
  have hl := (h.seated.lock c p).mp hlock
  have hp : Plain s p := Plain.of_lock hl (by rw [hn]; trivial)
  rw [abs, seen_proc hp, seen_pc hp]
  exact ⟨hlock, hl, rfl, h.seated.runs c p (by rw [hn]; rfl), h.entered c p why hn⟩

theorem simulates_unlock (h : Inv s) (hn : s.now c = .entered p (.sleep addr)) : Procs.Move hit (abs s)
      (abs ((s.release c (guard addr)).setNow c (.unlocked p (.sleep addr)))) := by
  obtain ⟨hlock, hl, hproc, hrun, hpc⟩ := h.of_entered hn
  convert Procs.Move.sleep p addr ⟨hrun, hpc⟩ using 1
  refine h.seated.abs_turn hlock (fun d hd => update_of_ne hd ..) (fun q hq => rfl) (fun q hq => ⟨rfl, rfl⟩)
    ⟨rfl, rfl, rfl, rfl⟩ ?_ rfl rfl
  rw [view, hproc]
  simp only [Sys.setNow, Sys.release, hl, update_self]

theorem simulates_unlockWait (h : Inv s) (hn : s.now c = .entered p (.wait addr)) :
    Procs.Move hit (abs s) (abs ((s.setTable { s.table with waitLock := none }).setNow c (.unlocked p (.wait addr)))) := by
  obtain ⟨hlock, hl, hproc, hrun, hpc⟩ := h.of_entered hn
  convert Procs.Move.waitSleep p addr hrun hpc using 1
  refine h.seated.abs_turn hlock (fun d hd => update_of_ne hd ..) (fun q hq => rfl) (fun q hq => ⟨rfl, rfl⟩)
    ⟨rfl, rfl, rfl, rfl⟩ ?_ rfl rfl
  rw [view, hproc]
  simp only [Sys.setNow, Sys.setTable, hl, update_self]

theorem plain_parted (hl : s.lock p = some c) : Plain ((s.setTable (part s.table p why)).setNow c (.parted p)) p :=
  Plain.of_lock (c := c) hl (by simp [Sys.setNow, At.plain])

theorem simulates_partNow (h : Inv s) (hn : s.now c = .entered p why) (hw : why.direct) :
    Procs.Move hit (abs s) (abs ((s.setTable (part s.table p why)).setNow c (.parted p))) := by
  obtain ⟨hlock, hl, hproc, hrun, hpc⟩ := h.of_entered hn
  cases why with
  | sleep addr | wait addr => exact absurd hw id
  | yield =>
    convert Procs.Move.yield p hrun hpc using 1
    rw [← Procs.Sys.setPc_self ((abs s).setProc p _) p]
    refine h.seated.abs_turn hlock (fun d hd => update_of_ne hd ..) (fun q hq => rfl) (fun q hq => ⟨update_of_ne hq .., rfl⟩)
      ⟨rfl, rfl, rfl, rfl⟩ ?_ rfl rfl
    rw [view_of_plain (plain_parted hl), Procs.Sys.setProc_pc, hproc, abs, seen_pc (Plain.of_lock hl (by rw [hn]; trivial))]
    exact congrArg (·, s.table.pc p) (update_self ..)
  | exit status =>
    convert Procs.Move.exitDie p status hrun hpc using 1
    refine h.seated.abs_turn hlock (fun d hd => update_of_ne hd ..) (fun q hq => rfl)
      (fun q hq => ⟨update_of_ne hq .., update_of_ne hq ..⟩) ⟨rfl, rfl, rfl, rfl⟩ ?_ rfl rfl
    rw [view_of_plain (plain_parted hl), hproc]
    exact congrArg₂ Prod.mk (update_self ..) (update_self ..)

theorem abs_part (h : Inv s) (hn : s.now c = .unlocked p why) : abs ((s.setTable (part s.table p why)).setNow c (.parted p)) = abs s := by
  have hlock : (s.now c).locks = some p := by rw [hn]; rfl
  have hl := (h.seated.lock c p).mp hlock
  have hnd := (h.unlocked c p why hn).2
  cases why with
  | yield | exit status => exact absurd trivial hnd
  | sleep addr | wait addr =>
    refine h.seated.abs_turn_same hlock (fun d hd => update_of_ne hd ..) (fun q hq => rfl)
      (fun q hq => ⟨update_of_ne hq .., update_of_ne hq ..⟩) ⟨rfl, rfl, rfl, rfl⟩ ?_ rfl
    rw [view_of_plain (plain_parted hl), view, hl]
    simp only [hn, Sys.setNow, Sys.setTable, part, setSleeping, Procs.Sys.setPc_proc, Procs.Sys.setProc_proc, Procs.Sys.setPc_pc, if_true]

theorem abs_move {a : At} (hnow : t.now = update s.now c a) (htab : t.table = s.table) (hs : (s.now c).plain) (ha : a.plain)
    (hlock : ∀ q, t.lock q = s.lock q ∨ ((s.lock q = none ∨ s.lock q = some c) ∧ (t.lock q = none ∨ t.lock q = some c))) : abs t = abs s := by
  rw [abs, abs, htab]
  refine seen_eq_of_view fun q x b => view_move (c := c) ?_ hs ?_ (hlock q) x b
  · intro d hd
    rw [hnow, update_of_ne hd]
  · rwa [hnow, update_self]

omit [DecidableEq κ] in
theorem lock_update {o : Option κ} (hs : s.lock p = none ∨ s.lock p = some c)
    (ho : o = none ∨ o = some c) (q : Slot) : update s.lock p o q = s.lock q ∨
      ((s.lock q = none ∨ s.lock q = some c) ∧ (update s.lock p o q = none ∨ update s.lock p o q = some c)) := by
  by_cases hq : q = p
  · subst hq
    rw [update_self]
    exact Or.inr ⟨hs, ho⟩
  · exact Or.inl (update_of_ne hq ..)

/-- **A step of a CPU is a move of the table, or is not seen at all.** -/
theorem simulates_tick (h : Inv s) (ht : Tick guard s c ac t) : Procs.Move (Hit s c ac) (abs s) (abs t) := by
  have hheld : ∀ {p}, (s.now c).locks = some p → s.lock p = none ∨ s.lock p = some c := fun hp =>
    Or.inr ((h.seated.lock c _).mp hp)
  cases ht with
  | pick p hn hl | enter p why hn hl hm =>
    refine .of_eq (abs_move rfl rfl (by rw [hn]; trivial) trivial ?_)
    exact lock_update (Or.inl hl) (Or.inr rfl)
  | skip p hn | drop p hn =>
    refine .of_eq (abs_move rfl rfl (by rw [hn]; trivial) trivial ?_)
    exact lock_update (hheld (by rw [hn]; rfl)) (Or.inl rfl)
  | dispatch p hn hs => exact h.simulates_dispatch hn hs
  | settle p hn => exact .of_eq (h.abs_settle hn)
  | unlock p addr hn => exact h.simulates_unlock hn
  | unlockWait p addr hn => exact h.simulates_unlockWait hn
  | partNow p why hn hw => exact h.simulates_partNow hn hw
  | part p why hn => exact .of_eq (h.abs_part hn)
  | swtch p hn | clear p hn => exact .of_eq (abs_move rfl rfl (by rw [hn]; trivial) trivial fun q => Or.inl rfl)
  | acquire l ho hl | release l ho hl | wakeup addr ho hl | kill p pid hn | killMove p pid j k hn hp hk => exact .of_eq rfl
  | killHit p i hn hp hl => exact simulates_touch hl (Procs.touched_kill1 _) (.inr (.inl ⟨p, hp⟩))
  | call p k u hn hu => exact h.simulates_call hn hu
  | advance p ok u hn hp hf hu => exact h.simulates_advance hn hp hf hu

theorem simulates_wakeTick (ht : WakeTick s c addr j t) : Procs.Move hit (abs s) (abs t) := by
  cases ht with
  | self i hi hp | done hj => exact .of_eq rfl
  | slot i hi hl => exact simulates_touch hl (Procs.touched_wakeup1 _ _) (.inl (Procs.wakeup1_killed ..))

/-! ### Every step keeps the invariants -/

theorem running_setProc {x : Proc} (hx : x.state = .running ↔ (v.proc i).state = .running) (q : Slot) :
    ((v.setProc i x).proc q).state = .running ↔ (v.proc q).state = .running := by
  rw [Procs.Sys.setProc_proc]
  split
  · next hq => rw [hx, hq]
  · rfl

theorem running_touch {x : Proc} (hx : Procs.Touched (v.proc i) x) :
    ∀ q, ((v.setProc i x).proc q).state = .running ↔ (v.proc q).state = .running := by
  refine running_setProc ?_
  rcases hx.state with he | ⟨hs, hr⟩
  · rw [he]
  · simp [hs, hr]

omit [DecidableEq κ] in
theorem running_advance {ok : Bool} (h : Inv s) (hn : s.now c = .thread p) (hpt : parts (s.table.pc p) = false) (hf : s.Free (needs s.table p))
    (hu : Procs.step s.table (.advance p ok) = some u) : ∀ q, (u.proc q).state = .running ↔ (s.table.proc q).state = .running := by
  obtain ⟨-, hadv⟩ : (s.table.proc p).state = .running ∧ _ := by simpa [Procs.step] using hu
  rcases advance_cases hpt hadv with ⟨i, x, hx⟩ | ⟨i, y, hneed, hy, hsect⟩
  · rw [hx]
    exact running_setProc Iff.rfl
  rw [hneed] at hf
  rw [hy]
  cases hsect with
  | touch y hty => exact running_touch hty
  | alloc pid hun => exact running_setProc (by simp [hun, Procs.allocproc])
  | undo hun => exact running_setProc (by simp [hun, Procs.freeproc])
  | reap hz => exact running_setProc (by simp [hz, Procs.freeproc])
  | ready hc =>
    have := h.not_running_of_builds (h.seated.plain_of_thread hn) (Plain.of_free hf) hc
    exact running_setProc (by simp [this])

theorem call_cases {k : Call} (hu : Procs.step v (k.event p) = some u) :
    (∀ q, (u.proc q).state = (v.proc q).state) ∧ ∀ q, q ≠ p → u.pc q = v.pc q := by
  cases k with
  | fork | wait addr =>
    obtain ⟨-, rfl⟩ : Procs.InUser v p ∧ _ := by simpa [Procs.step, Call.event] using hu
    exact ⟨fun q => rfl, fun q hq => update_of_ne hq ..⟩
  | exit status =>
    obtain ⟨-, rfl⟩ : (Procs.InUser v p ∧ _) ∧ _ := by simpa [Procs.step, Call.event] using hu
    exact ⟨fun q => rfl, fun q hq => update_of_ne hq ..⟩
  | fault =>
    obtain ⟨-, rfl⟩ : Procs.InUser v p ∧ _ := by simpa [Procs.step, Call.event] using hu
    refine ⟨fun q => ?_, fun q _ => rfl⟩
    rw [Procs.Sys.setProc_proc]
    split
    · next hq => rw [hq]
    · rfl

section

variable (h : Inv s)

include h

omit [DecidableEq κ] in
theorem not_proc_of_runnable (hn : s.now c = .picked p) (hs : (s.table.proc p).state = .runnable) : (s.now d).proc ≠ some p := by
  intro hd
  have hl : s.lock p = some c := (h.seated.lock c p).mp (by rw [hn]; rfl)
  rcases At.runs_or_rests hd with hr | hr
  · simpa [hs] using h.seated.runs d p hr
  · have hld := (h.seated.lock d p).mp (At.locks_of_rests hr)
    rw [hl] at hld
    obtain rfl := Option.some.inj hld
    simp [hn, At.proc] at hd

theorem seated_dispatch (hn : s.now c = .picked p) (hs : (s.table.proc p).state = .runnable) :
    Seated (((s.setTable (s.table.setProc p { s.table.proc p with state := .running })).setProc c (some p)).setNow c (.resumed p)) := by
  have hno : ∀ d, (s.now d).proc ≠ some p := fun d => h.not_proc_of_runnable hn hs
  refine ⟨h.seated.proc_set (a := .resumed p), h.seated.lock_keep hn rfl, fun d e q hd he => ?_, fun d q hd => ?_,
    fun d q hd => ?_, fun q hq => ?_⟩
  · simp only [Sys.setNow, Sys.setProc, Sys.setTable, update_apply] at hd he
    split at hd <;> split at he
    · next h₁ h₂ => rw [h₁, h₂]
    · exact absurd (Option.some.inj hd ▸ he) (hno e)
    · exact absurd (Option.some.inj he ▸ hd) (hno d)
    · exact h.seated.uniq d e q hd he
  · simp only [Sys.setNow, Sys.setProc, Sys.setTable, update_apply] at hd ⊢
    rw [Procs.Sys.setProc_proc]
    split at hd
    · rw [if_pos (Option.some.inj hd).symm]
    · have := h.seated.runs d q hd
      split
      · rfl
      · exact this
  · simp only [Sys.setNow, Sys.setProc, Sys.setTable, update_apply] at hd ⊢
    rw [Procs.Sys.setProc_proc]
    split at hd
    · simp [At.rests] at hd
    have hqp : q ≠ p := by
      rintro rfl
      have hl := (h.seated.lock d q).mp (At.locks_of_rests hd)
      rw [(h.seated.lock c q).mp (by rw [hn]; rfl)] at hl
      exact absurd (Option.some.inj hl).symm ‹_›
    rw [if_neg hqp]
    exact h.seated.rests d q hd
  · simp only [Sys.setNow, Sys.setProc, Sys.setTable] at hq ⊢
    rw [Procs.Sys.setProc_proc] at hq
    split at hq
    · next hqp =>
      refine ⟨c, ?_⟩
      rw [update_self, hqp]
      rfl
    · obtain ⟨d, hd⟩ := h.seated.running q hq
      refine ⟨d, ?_⟩
      rw [update_of_ne]
      · exact hd
      · rintro rfl
        simp [hn, At.runs] at hd

theorem seated_part (hc : (s.now c).runs = some p) (hl : (s.now c).locks = some p) :
    Seated ((s.setTable (part s.table p why)).setNow c (.parted p)) := by
  have hpart : ((part s.table p why).proc p).state ≠ .running := by
    cases why <;> simp [part, setSleeping]
  have hother : ∀ q, q ≠ p → (part s.table p why).proc q = s.table.proc q := by
    intro q hq
    cases why <;> exact update_of_ne hq ..
  refine ⟨h.seated.proc_keep rfl (At.proc_of_runs hc).symm, h.seated.lock_keep rfl hl.symm,
    h.seated.uniq_keep rfl (.inr (At.proc_of_runs hc).symm), fun d q hd => ?_,
    fun d q hd => ?_, fun q hq => ?_⟩
  · simp only [Sys.setNow, Sys.setTable, update_apply] at hd ⊢
    split at hd
    · simp [At.runs] at hd
    · next hdc =>
      have hqp : q ≠ p := fun hqp => hdc (h.seated.uniq d c q (At.proc_of_runs hd) (hqp ▸ At.proc_of_runs hc))
      rw [hother q hqp]
      exact h.seated.runs d q hd
  · simp only [Sys.setNow, Sys.setTable, update_apply] at hd ⊢
    split at hd
    · rwa [← Option.some.inj hd]
    · by_cases hqp : q = p
      · rwa [hqp]
      · rw [hother q hqp]
        exact h.seated.rests d q hd
  · simp only [Sys.setNow, Sys.setTable] at hq ⊢
    have hqp : q ≠ p := fun hqp => hpart (hqp ▸ hq)
    rw [hother q hqp] at hq
    obtain ⟨d, hd⟩ := h.seated.running q hq
    refine ⟨d, ?_⟩
    rw [update_of_ne]
    · exact hd
    · rintro rfl
      exact hqp (Option.some.inj (hd.symm.trans hc))

section

variable (ht : Tick guard s c ac t)

include ht

theorem seated_tick : Seated t := by
  have hs := h.seated
  cases ht with
  | pick p hn hl =>
    exact hs.move hn rfl (hs.proc_keep hn rfl) (hs.lock_acquire hn rfl rfl hl) (fun q => rfl) (.inl rfl) rfl (.inl rfl)
  | skip p hn | drop p hn =>
    exact hs.move hn rfl (hs.proc_keep hn rfl) (hs.lock_release hn rfl rfl) (fun q => rfl) (.inl rfl) rfl (.inl rfl)
  | dispatch p hn hr => exact h.seated_dispatch hn hr
  | settle p hn =>
    have hrun := hs.runs c p (by rw [hn]; rfl)
    refine hs.move hn rfl (hs.proc_keep hn rfl) (hs.lock_release hn rfl rfl) (fun q => ?_) (.inr rfl) rfl (.inl rfl)
    simp only [Sys.setNow, Sys.setLock, Sys.setTable]
    rw [Procs.Sys.setPc_proc, Procs.Sys.setProc_proc]
    split
    · next hq =>
      rw [hq, hrun]
      cases s.table.pc p <;> rfl
    · rfl
  | enter p why hn hl hm =>
    exact hs.move hn rfl (hs.proc_keep hn rfl) (hs.lock_acquire hn rfl rfl hl) (fun q => rfl) (.inr rfl) rfl (.inl rfl)
  | unlock p addr hn | unlockWait p addr hn =>
    exact hs.move hn rfl (hs.proc_keep hn rfl) (hs.lock_keep hn rfl) (fun q => rfl) (.inr rfl) rfl (.inl rfl)
  | partNow p why hn hw | part p why hn => exact h.seated_part (by rw [hn]; rfl) (by rw [hn]; rfl)
  | swtch p hn => exact hs.move hn rfl (hs.proc_keep hn rfl) (hs.lock_keep hn rfl) (fun q => rfl) (.inr rfl) rfl (.inr rfl)
  | clear p hn => exact hs.move hn rfl (hs.proc_set (a := .cleared p)) (hs.lock_keep hn rfl) (fun q => rfl) (.inl rfl) rfl (.inl rfl)
  | acquire l ho hl | release l ho hl | wakeup addr ho hl | kill p pid hn | killMove p pid j k hn hp hk => exact hs.table rfl rfl rfl fun q => Iff.rfl
  | killHit p i hn hp hl => exact hs.table rfl rfl rfl (running_touch (Procs.touched_kill1 _))
  | call p k u hn hu =>
    refine hs.table rfl rfl rfl fun q => ?_
    exact Iff.of_eq (congrArg (· = Procs.ProcState.running) ((call_cases hu).1 q))
  | advance p ok u hn hp hf hu => exact hs.table rfl rfl rfl (h.running_advance hn hp hf hu)

theorem pc_tick (hd : (s.now d).runs = some q) (hdc : d ≠ c) : t.table.pc q = s.table.pc q := by
  have hs := h.seated
  have hne : ∀ {p}, (s.now c).runs = some p → q ≠ p := fun hp hqp => hdc (hs.uniq d c q (At.proc_of_runs hd) (hqp ▸ At.proc_of_runs hp))
  cases ht with
  | settle p hn => exact update_of_ne (hne (by rw [hn]; rfl)) ..
  | partNow p why hn hw | part p why hn =>
    have := hne (p := p) (by rw [hn]; rfl)
    cases why with
    | yield => rfl
    | _ => exact update_of_ne this ..
  | call p k u hn hu => exact (call_cases hu).2 q (hne (by rw [hn]; rfl))
  | advance p ok u hn hp hf hu =>
    obtain ⟨-, hadv⟩ : (s.table.proc p).state = .running ∧ _ := by simpa [Procs.step] using hu
    refine advance_pc hadv (hne (by rw [hn]; rfl)) ?_
    rw [hs.runs d q hd]
    simp
  | _ => rfl

theorem entered_tick (hd : t.now d = .entered q why) : why.Fits (t.table.pc q) := by
  by_cases hdc : d = c
  · subst hdc
    cases ht with
    | enter p w hn hl hm =>
      obtain ⟨rfl, rfl⟩ : p = q ∧ w = why := by simpa [Sys.setNow] using hd
      cases w with
      | yield | sleep addr | wait addr | exit status => exact hm.1
    | acquire l ho hl | release l ho hl | wakeup addr ho hl =>
      have hd' : s.now d = .entered q why := hd
      rw [hd'] at ho
      exact absurd ho id
    | kill p pid hn | killMove p pid j k hn hp hk | killHit p i hn hp hl | call p k u hn hu | advance p ok u hn hp hf hu => exact absurd (hn.symm.trans hd) (by simp)
    | _ => simp [Sys.setNow] at hd
  · have hold : s.now d = .entered q why := by
      rw [← hd]
      cases ht <;> first | rfl | exact (update_of_ne hdc ..).symm
    rw [h.pc_tick ht (d := d) (by rw [hold]; rfl) hdc]
    exact h.entered d q why hold

theorem unlocked_tick (hd : t.now d = .unlocked q why) : why.Fits (t.table.pc q) ∧ ¬why.direct := by
  by_cases hdc : d = c
  · subst hdc
    cases ht with
    | unlock p addr hn =>
      obtain ⟨rfl, rfl⟩ : p = q ∧ Why.sleep addr = why := by simpa [Sys.setNow] using hd
      exact ⟨h.entered d p _ hn, id⟩
    | unlockWait p addr hn =>
      obtain ⟨rfl, rfl⟩ : p = q ∧ Why.wait addr = why := by simpa [Sys.setNow] using hd
      exact ⟨h.entered d p _ hn, id⟩
    | acquire l ho hl | release l ho hl | wakeup addr ho hl =>
      have hd' : s.now d = .unlocked q why := hd
      rw [hd'] at ho
      exact absurd ho id
    | kill p pid hn | killMove p pid j k hn hp hk | killHit p i hn hp hl | call p k u hn hu | advance p ok u hn hp hf hu => exact absurd (hn.symm.trans hd) (by simp)
    | _ => simp [Sys.setNow] at hd
  · have hold : s.now d = .unlocked q why := by
      rw [← hd]
      cases ht <;> first | rfl | exact (update_of_ne hdc ..).symm
    rw [h.pc_tick ht (d := d) (by rw [hold]; rfl) hdc]
    exact h.unlocked d q why hold

theorem tick : Inv t where
  seated := h.seated_tick ht
  entered _ _ _ := h.entered_tick ht
  unlocked _ _ _ := h.unlocked_tick ht
  table := h.table.step (h.simulates_tick ht)

end

theorem wakeTick (ht : WakeTick s c addr j t) : Inv t := by
  have htable := h.table.step (simulates_wakeTick ht : Procs.Move (fun _ => False) (abs s) (abs t))
  cases ht with
  | self i hi hp | done hj => exact ⟨h.seated.table rfl rfl rfl fun q => Iff.rfl, h.entered, h.unlocked, htable⟩
  | slot i hi hl =>
    refine ⟨?_, h.entered, h.unlocked, htable⟩
    exact h.seated.table rfl rfl rfl (running_touch (Procs.touched_wakeup1 _ _))

end

theorem of_step {e : κ × Act} (h : Inv s) (he : step guard s e = some t) : Inv t := by
  rcases tick_of_step he with ⟨-, ht⟩ | ⟨addr, j, -, ht⟩
  · exact h.tick ht
  · exact h.wakeTick ht

theorem of_reach (h : Reach (step guard) (boot κ) s) : Inv s :=
  h.invariant (fun hi he => hi.of_step he) inv_boot

/-- **The machine with CPUs refines the machine of critical sections**: what a step does to the
table as it is seen is a move of the table, or nothing. -/
theorem simulates {e : κ × Act} (h : Reach (step guard) (boot κ) s) (he : step guard s e = some t) :
    Procs.Move (Hit s e.1 e.2) (abs s) (abs t) := by
  rcases tick_of_step he with ⟨-, ht⟩ | ⟨addr, j, -, ht⟩
  · exact (of_reach h).simulates_tick ht
  · exact simulates_wakeTick ht

end Inv

end Xv6.Cpus
