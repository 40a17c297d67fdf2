import Xv6.Cpu.Family
import Xv6.Proc.Birth

/-!
# Killing a process

`kill(pid)` goes through the table, and gives up the lock of a slot before it takes that of the next one. It stops at the
first slot with the number, whatever the state of the slot, and sets `killed` there. Two things go wrong.

* A free slot has the number 0. So `kill(0)` marks the first free slot and reports success; and since `allocproc` leaves
  the flag alone, the next process that is given this slot is born killed.
* A process may get its number while a `kill` with this number is on its way, on another CPU. It is then killed by a call
  that was made before it was there.

Nothing else does: in the runs without these two (`Xv6.Cpus.Fair`) a process is killed for a reason
(`Xv6.Cpus.KilledForReason`).
-/

namespace Xv6.Cpus

open Lib Function

open Procs (Slot kill1)

variable {κ : Type} {s t : Sys κ} {guard : ℕ → ℕ} {i p : Slot} {pid : ℤ} {k : ℤ × ℕ}

/-! ### One call -/

/-- A `kill(pid)` of the process in slot `p` from slot `j` on, while nothing else happens: what it returns. -/
def killLoop : ℕ → Sys κ → Slot → ℤ → ℕ → Option (ℤ × Sys κ)
  | 0, _, _, _, _ => none
  | fuel + 1, s, p, pid, j =>
    (killNext s p pid j).bind fun x =>
      x.1.elim (killLoop fuel x.2 p pid (j + 1)) fun r => some (r, x.2)

/-- **`kill(pid)`**, called by the process in slot `p`, while nothing else happens. -/
def kill (s : Sys κ) (p : Slot) (pid : ℤ) : Option (ℤ × Sys κ) := killLoop (NPROC + 1) s p pid 0

/-- What `kill(pid)` is for: if some process has the number it kills one that has it, and returns 0; otherwise it returns -1
and leaves the table alone. -/
def Hits (s : Sys κ) (pid r : ℤ) (t : Sys κ) : Prop :=
  r = 0 ∧ (∃ i, (s.table.proc i).state ≠ .unused ∧ (s.table.proc i).pid = pid ∧
      t.table = s.table.setProc i (kill1 (s.table.proc i))) ∨
    r = -1 ∧ (∀ i, (s.table.proc i).state ≠ .unused → (s.table.proc i).pid ≠ pid) ∧ t.table = s.table

/-- The first slot with the number, if there is one, is not free. -/
def FirstUsed (s : Sys κ) (pid : ℤ) : Prop :=
  ∀ i, (s.table.proc i).pid = pid → (∀ j < i, (s.table.proc j).pid ≠ pid) → (s.table.proc i).state ≠ .unused

variable (p pid) in
/-- The scan from slot `j` on finds the first slot with the number. -/
theorem killLoop_cases {fuel j : ℕ} (hlock : ∀ i, s.lock i = none) (hle : j ≤ NPROC)
    (hfuel : NPROC < j + fuel) :
    (∃ t, killLoop fuel s p pid j = some (-1, t) ∧ t.table = s.table ∧
      ∀ i : Slot, j ≤ i → (s.table.proc i).pid ≠ pid) ∨
    ∃ i t, killLoop fuel s p pid j = some (0, t) ∧ j ≤ i.val ∧ (s.table.proc i).pid = pid ∧
      (∀ k : Slot, j ≤ k → k < i → (s.table.proc k).pid ≠ pid) ∧
      t.table = s.table.setProc i (kill1 (s.table.proc i)) := by
  induction fuel generalizing s j with
  | zero => omega
  | succ fuel ih =>
    rw [killLoop, killNext]
    split
    · next hj =>
      have hj := slotAt_eq_none.mp hj
      exact .inl ⟨_, rfl, rfl, fun i hi => absurd (hj.trans hi) (not_le.mpr i.isLt)⟩
    rename_i i hj
    have hj := slotAt_eq_some.mp hj
    rw [if_pos (hlock i)]
    by_cases hpid : (s.table.proc i).pid = pid
    · rw [if_pos hpid]
      exact .inr ⟨i, _, rfl, hj.ge, hpid, fun k h1 h2 => absurd (hj.trans_le h1) (not_le.mpr h2), rfl⟩
    rw [if_neg hpid]
    have hne : ∀ k : Slot, j ≤ k → ¬j + 1 ≤ k → (s.table.proc k).pid ≠ pid := by
      intro k h1 h2
      obtain rfl : k = i := Fin.ext (by omega)
      exact hpid
    have hnext := ih (s := s.setKilling p (some (pid, j + 1))) (j := j + 1) hlock (hj ▸ i.isLt) (by omega)
    rcases hnext with ⟨t, hrun, ht, hall⟩ | ⟨k, t, hrun, hk, hkpid, hall, ht⟩
    · exact .inl ⟨t, hrun, ht, fun k h1 => (em (j + 1 ≤ k.val)).elim (hall k) (hne k h1)⟩
    · exact .inr ⟨k, t, hrun, by omega, hkpid,
        fun l h1 h2 => (em (j + 1 ≤ l.val)).elim (fun h => hall l h h2) (hne l h1), ht⟩

/-- **A call that is not disturbed** does what it is for if and only if the first slot with its number is not free. -/
theorem kill_hits_iff (hclean : ∀ i, (s.table.proc i).state = .unused → (s.table.proc i).killed = false)
    (hlock : ∀ i, s.lock i = none) (p : Slot) (pid : ℤ) :
    ∃ r t, kill s p pid = some (r, t) ∧ (Hits s pid r t ↔ FirstUsed s pid) := by
  rcases killLoop_cases p pid hlock (Nat.zero_le _) (show NPROC < 0 + (NPROC + 1) by omega) with
    ⟨t, hrun, ht, hall⟩ | ⟨i, t, hrun, -, hpid, hfirst, ht⟩
  · exact ⟨-1, t, hrun, fun _ i hi => absurd hi (hall i (Nat.zero_le _)),
      fun _ => .inr ⟨rfl, fun i _ => hall i (Nat.zero_le _), ht⟩⟩
  have hleast : ∀ j < i, (s.table.proc j).pid ≠ pid := fun j => hfirst j (Nat.zero_le _)
  refine ⟨0, t, hrun, fun hhits j hj hjfirst hun => ?_, fun huse => .inl ⟨rfl, i, huse i hpid hleast, hpid, ht⟩⟩
  obtain rfl : j = i := by
    rcases lt_trichotomy j i with hlt | heq | hlt
    · exact absurd hj (hleast j hlt)
    · exact heq
    · exact absurd hpid (hjfirst i hlt)
  rcases hhits with ⟨-, k, hk, -, hkt⟩ | ⟨h0, -⟩
  · -- the free slot `j` is marked, and `k` is another one
    have hjk : j ≠ k := by
      rintro rfl
      exact hk hun
    have := congrArg (fun v : Procs.Sys => (v.proc j).killed) (ht.symm.trans hkt)
    simp only [Procs.Sys.setProc_proc, if_true, if_neg hjk, hclean j hun, kill1] at this
    cases this
  · omega

/-! ### What a step does to flags and numbers -/

theorem abs_flags : ((abs s).proc i).pid = (s.table.proc i).pid ∧ ((abs s).proc i).killed = (s.table.proc i).killed := by
  dsimp only [abs, seen]
  unfold view
  split
  · exact ⟨rfl, rfl⟩
  · split
    · cases s.table.pc i <;> exact ⟨rfl, rfl⟩
    all_goals exact ⟨rfl, rfl⟩

theorem Seated.used_abs (h : Seated s) : ((abs s).proc i).state ≠ .unused ↔ (s.table.proc i).state ≠ .unused := by
  refine ⟨fun hi => ?_, fun hi => state_view_ne hi⟩
  by_cases hr : (s.table.proc i).state = .running
  · rw [hr]
    decide
  · rwa [abs, seen_proc (h.plain hr)] at hi

variable [DecidableEq κ] {e : κ × Act} {es : List (κ × Act)}

section

variable (h : Reach (step guard) (boot κ) s) (he : step guard s e = some t)

include h he

/-- A process keeps its number. -/
theorem kept_of_step (hs : (s.table.proc i).state ≠ .unused) (ht : (t.table.proc i).state ≠ .unused) :
    t.table.gen i = s.table.gen i ∧ (t.table.proc i).pid = (s.table.proc i).pid := by
  have hinv := Inv.of_reach h
  rw [← abs_flags.1, ← (abs_flags (s := s)).1]
  exact (Inv.simulates h he).pid hinv.threads (hinv.seated.used_abs.mpr hs)
    ((hinv.of_step he).seated.used_abs.mpr ht)

/-- What becomes killed is hit by a `kill`, or has a fault. -/
theorem killed_of_step (hi : (t.table.proc i).killed = true) : (s.table.proc i).killed = true ∨ Hit s e.1 e.2 i := by
  rw [← abs_flags.2] at hi ⊢
  exact (Inv.simulates h he).killed hi

theorem unused_of_step (hi : (t.table.proc i).state = .unused) :
    ((s.table.proc i).state = .unused ∧ (t.table.proc i).pid = (s.table.proc i).pid) ∨
      t.table.proc i = Procs.freeproc := by
  have hinv := Inv.of_reach h
  have hproc : (abs t).proc i = t.table.proc i := seen_proc ((hinv.of_step he).seated.plain (by rw [hi]; decide)) _
  have hmove := (Inv.simulates h he).unused (hproc ▸ hi)
  rwa [hproc, abs_flags.1, ← not_ne_iff, hinv.seated.used_abs, not_ne_iff] at hmove

end

/-- A `kill` that is on its way was so before, or it begins. -/
theorem killing_of_step (he : step guard s e = some t) (hk : t.killing p = some k) :
    (∃ j, s.killing p = some (k.1, j)) ∨ e.2 = .kill k.1 ∧ t.table = s.table := by
  obtain ⟨c, ac⟩ := e
  have same : t.killing = s.killing → (∃ j, s.killing p = some (k.1, j)) ∨ ac = .kill k.1 ∧ t.table = s.table :=
    fun heq => .inl ⟨k.2, heq ▸ hk⟩
  have other : ∀ {q o}, t.killing = update s.killing q o → p ≠ q →
      (∃ j, s.killing p = some (k.1, j)) ∨ ac = .kill k.1 ∧ t.table = s.table := by
    intro q o heq hne
    rw [heq, update_of_ne hne] at hk
    exact .inl ⟨k.2, hk⟩
  rcases tick_of_step he with ⟨-, ht⟩ | ⟨addr, j, -, ht⟩
  · dsimp only at ht
    cases ht with
    | kill q pid hn =>
      by_cases hpq : p = q
      · subst hpq
        simp only [Sys.setKilling, update_self] at hk
        obtain rfl := Option.some.inj hk
        exact .inr ⟨rfl, rfl⟩
      · exact other rfl hpq
    | killMove q pid j o hn hq ho =>
      by_cases hpq : p = q
      · subst hpq
        simp only [Sys.setKilling, update_self] at hk
        subst hk
        rcases ho with ho | ho
        · cases ho
        · obtain rfl := Option.some.inj ho
          exact .inl ⟨j, hq⟩
      · exact other rfl hpq
    | killHit q j hn hq hl =>
      by_cases hpq : p = q
      · subst hpq
        simp only [Sys.setKilling, update_self] at hk
        cases hk
      · exact other rfl hpq
    | _ => exact same rfl
  · cases ht <;> exact same rfl

/-! ### Runs -/

/-- **No call with the number 0, and no new process with the number of a call that is on its way.** -/
def Fair (guard : ℕ → ℕ) (s : Sys κ) (e : κ × Act) : Prop :=
  e.2 ≠ .kill 0 ∧ ∀ t ∈ step guard s e, ∀ i, (s.table.proc i).state = .unused → (t.table.proc i).state ≠ .unused →
    ∀ p, ∀ k ∈ s.killing p, k.1 ≠ (t.table.proc i).pid

instance (guard : ℕ → ℕ) (s : Sys κ) (e : κ × Act) : Decidable (Fair guard s e) :=
  inferInstanceAs (Decidable (_ ∧ _))

/-- In the run `es` to `s`, while the process of slot `i` lived, an event with the property `P` has happened. -/
def Happened (guard : ℕ → ℕ) (es : List (κ × Act)) (s : Sys κ) (i : Slot) (P : Sys κ → κ × Act → Prop) : Prop :=
  ∃ es₁ e es₂ s₁, es = es₁ ++ e :: es₂ ∧ run (step guard) (boot κ) es₁ = some s₁ ∧
    ((s₁.table.proc i).state ≠ .unused ∧ s₁.table.gen i = s.table.gen i ∧
      (s₁.table.proc i).pid = (s.table.proc i).pid) ∧ P s₁ e

/-- The process of slot `i` was killed for a reason: while it lived, somebody called `kill` with its number, or it had a
fault. -/
def KilledForReason (guard : ℕ → ℕ) (es : List (κ × Act)) (s : Sys κ) (i : Slot) : Prop :=
  Happened guard es s i fun s₁ e => e.2 = .kill (s.table.proc i).pid ∨ e.2 = .call .fault ∧ s₁.now e.1 = .thread i

theorem Happened.snoc {P : Sys κ → κ × Act → Prop} (h : Happened guard es s i P) (hg : t.table.gen i = s.table.gen i)
    (hp : (t.table.proc i).pid = (s.table.proc i).pid) : Happened guard (es ++ [e]) t i P := by
  obtain ⟨es₁, e₁, es₂, s₁, rfl, hrun, hs₁, he₁⟩ := h
  exact ⟨es₁, e₁, es₂ ++ [e], s₁, by simp, hrun, by rwa [hg, hp], he₁⟩

/-- **The invariant of fair runs.** -/
structure Justified (guard : ℕ → ℕ) (es : List (κ × Act)) (s : Sys κ) : Prop where
  zero : ∀ i, (s.table.proc i).state = .unused → (s.table.proc i).pid = 0
  clean : ∀ i, (s.table.proc i).state = .unused → (s.table.proc i).killed = false
  nonzero : ∀ p k, s.killing p = some k → k.1 ≠ 0
  /-- Who has the number of a call that is on its way was there when it began. -/
  named : ∀ p k i, s.killing p = some k → (s.table.proc i).state ≠ .unused → (s.table.proc i).pid = k.1 →
    Happened guard es s i fun _ e => e.2 = .kill k.1
  reason : ∀ i, (s.table.proc i).state ≠ .unused → (s.table.proc i).killed = true → KilledForReason guard es s i

theorem justified_boot : Justified guard [] (boot κ) := by
  have hproc : ∀ i, ((boot κ).table.proc i).killed = false ∧
      (((boot κ).table.proc i).state = .unused → ((boot κ).table.proc i).pid = 0) := by
    intro i
    simp only [boot, Procs.boot, update_apply]
    split <;> simp [Procs.freeproc]
  refine ⟨fun i => (hproc i).2, fun i _ => (hproc i).1, fun p k hk => ?_, fun p k i hk => ?_, fun i _ hk => ?_⟩
  · cases hk
  · cases hk
  · rw [(hproc i).1] at hk
    cases hk

namespace Justified

variable (h : Justified guard es s) (hrun : run (step guard) (boot κ) es = some s) (hfair : Fair guard s e)
  (he : step guard s e = some t)

include h

/-- A slot that is hit is in use. -/
theorem used_of_hit {c : κ} {ac : Act} (hreach : Reach (Cpus.step guard) (boot κ) s) (hhit : Hit s c ac i) :
    (s.table.proc i).state ≠ .unused := by
  rcases hhit with ⟨p, hp⟩ | ⟨-, hn⟩
  · exact fun hu => h.nonzero p _ hp (h.zero i hu)
  · rw [(Inv.of_reach hreach).seated.runs c i (by rw [hn]; rfl)]
    decide

include hrun he

theorem clean_step (hi : (t.table.proc i).state = .unused) : (t.table.proc i).killed = false := by
  by_contra hk
  rcases unused_of_step ⟨es, hrun⟩ he hi with ⟨hu, -⟩ | hfree
  · rcases killed_of_step ⟨es, hrun⟩ he (Bool.not_eq_false _ ▸ hk) with hk' | hhit
    · rw [h.clean i hu] at hk'
      cases hk'
    · exact h.used_of_hit ⟨es, hrun⟩ hhit hu
  · rw [hfree] at hk
    exact hk rfl

include hfair in
theorem named_step (hk : t.killing p = some k) (hi : (t.table.proc i).state ≠ .unused)
    (hpid : (t.table.proc i).pid = k.1) : Happened guard (es ++ [e]) t i fun _ e => e.2 = .kill k.1 := by
  rcases killing_of_step he hk with ⟨j, hj⟩ | ⟨hkill, htab⟩
  · by_cases hs : (s.table.proc i).state = .unused
    · -- it cannot be new
      exact absurd hpid.symm (hfair.2 t he i hs hi p (k.1, j) hj)
    · obtain ⟨hg, hp⟩ := kept_of_step ⟨es, hrun⟩ he hs hi
      exact (h.named p _ i hj hs (hp.symm.trans hpid)).snoc hg hp
  · rw [htab] at hi
    exact ⟨es, e, [], s, rfl, hrun, ⟨hi, by rw [htab], by rw [htab]⟩, hkill⟩

theorem reason_step (hi : (t.table.proc i).state ≠ .unused) (hk : (t.table.proc i).killed = true) :
    KilledForReason guard (es ++ [e]) t i := by
  have hkilled := killed_of_step ⟨es, hrun⟩ he hk
  have hs : (s.table.proc i).state ≠ .unused := hkilled.elim
    (fun hk' hu => by simp [h.clean i hu] at hk') (h.used_of_hit ⟨es, hrun⟩)
  obtain ⟨hg, hpid⟩ := kept_of_step ⟨es, hrun⟩ he hs hi
  rcases hkilled with hk' | ⟨p, hp⟩ | hfault
  · have := (h.reason i hs hk').snoc (e := e) hg hpid
    rwa [KilledForReason, hpid]
  · obtain ⟨es₁, e₁, es₂, s₁, heq, hrun₁, hsame, hkill⟩ := (h.named p _ i hp hs rfl).snoc (e := e) hg hpid
    exact ⟨es₁, e₁, es₂, s₁, heq, hrun₁, hsame, .inl (by rw [hkill, hpid])⟩
  · exact ⟨es, e, [], s, rfl, hrun, ⟨hs, hg.symm, hpid.symm⟩, .inr hfault⟩

include hfair in
/-- **A fair step** keeps the invariant. -/
theorem step : Justified guard (es ++ [e]) t where
  zero i hi := by
    rcases unused_of_step ⟨es, hrun⟩ he hi with ⟨hu, hp⟩ | hfree
    · rw [hp, h.zero i hu]
    · rw [hfree]
      rfl
  clean _ := h.clean_step hrun he
  nonzero p k hk := by
    rcases killing_of_step he hk with ⟨j, hj⟩ | ⟨hkill, -⟩
    · exact h.nonzero p (k.1, j) hj
    · intro h0
      exact hfair.1 (by rw [hkill, h0])
  named _ _ _ := h.named_step hrun hfair he
  reason _ := h.reason_step hrun he

end Justified

theorem justified_run (hrun : run (step guard) (boot κ) es = some s) (hfair : Along (step guard) (Fair guard) (boot κ) es) :
    Justified guard es s :=
  hfair.run_induction (J := Justified guard) justified_boot (fun hrun hj hf he => hj.step hrun hf he) hrun

/-- **Killing hits its target, in the runs that are fair.** An iteration of `kill` that returns 0 has marked a process with
the number, and every other one leaves the table alone. A call that is not disturbed does what it is for if and only if the
first slot with its number is not free, as is the case for every number but 0. No process is born killed; and a process that
is killed was so for a reason. -/
theorem kill_hits_target (hrun : run (step guard) (boot κ) es = some s)
    (hfair : Along (step guard) (Fair guard) (boot κ) es) :
    (∀ p pid j r t, s.killing p = some (pid, j) → killNext s p pid j = some (r, t) →
      (r = some 0 ∧ ∃ i, (s.table.proc i).state ≠ .unused ∧ (s.table.proc i).pid = pid ∧
          t.table = s.table.setProc i (kill1 (s.table.proc i))) ∨
        r ≠ some 0 ∧ t.table = s.table) ∧
    ((∀ i, s.lock i = none) → ∀ p pid, ∃ r t, kill s p pid = some (r, t) ∧ (Hits s pid r t ↔ FirstUsed s pid)) ∧
    (∀ pid, pid ≠ 0 → FirstUsed s pid) ∧
    (∀ i pid, (s.table.proc i).state = .unused → (Procs.allocproc (s.table.proc i) pid).killed = false) ∧
    ∀ i, (s.table.proc i).state ≠ .unused → (s.table.proc i).killed = true → KilledForReason guard es s i := by
  have hj := justified_run hrun hfair
  refine ⟨fun p pid j r t hp hnext => ?_, fun hlock => kill_hits_iff hj.clean hlock,
    fun pid hpid i hi _ hu => hpid (hi.symm.trans (hj.zero i hu)), fun i _ => hj.clean i, hj.reason⟩
  rw [killNext] at hnext
  split at hnext
  · obtain ⟨rfl, rfl⟩ := Prod.mk.inj (Option.some.inj hnext)
    exact .inr ⟨by decide, rfl⟩
  rename_i i hi
  split at hnext
  · split at hnext
    · next hpid =>
      obtain ⟨rfl, rfl⟩ := Prod.mk.inj (Option.some.inj hnext)
      refine .inl ⟨rfl, i, fun hu => hj.nonzero p _ hp ?_, hpid, rfl⟩
      exact hpid.symm.trans (hj.zero i hu)
    · obtain ⟨rfl, rfl⟩ := Prod.mk.inj (Option.some.inj hnext)
      exact .inr ⟨by decide, rfl⟩
  · cases hnext

attribute [local instance] two_cpus

/-- CPU 1 takes the first child, which kills its parent on CPU 0. -/
def childKills : List (Fin 2 × Act) :=
  firstChild ++ [(1, .pick 1), (1, .dispatch), (1, .settle), (1, .kill 1), (1, .killNext)]

/-- The parent is killed for a reason; the next `kill(2)` that is not disturbed does what it is for. -/
theorem kill_hits_parent : ∃ s, run (step id) (boot (Fin 2)) childKills = some s ∧
    KilledForReason id childKills s 0 ∧ ∃ r t, kill s 1 2 = some (r, t) ∧ Hits s 2 r t := by
  have hr : run (step id) (boot (Fin 2)) childKills =
      some ((run (step id) (boot (Fin 2)) childKills).get (by decide +kernel)) := (Option.some_get _).symm
  obtain ⟨-, hcall, hfirst, -, hreason⟩ := kill_hits_target hr (by decide +kernel)
  obtain ⟨r, t, hrun, hiff⟩ := hcall (by decide +kernel) 1 2
  exact ⟨_, hr, hreason 0 (by decide +kernel) (by decide +kernel), r, t, hrun, hiff.mpr (hfirst 2 (by decide))⟩

/-- The first process calls `kill(0)` and then `fork`. -/
def killZero : List (Fin 2 × Act) :=
  [(0, .pick 0), (0, .dispatch), (0, .settle), (0, .kill 0), (0, .killNext), (0, .killNext), (0, .call .fork),
    (0, .advance true), (0, .advance true)]

/-- The first process calls `kill(3)` when there are the processes 1 and 2. When it has looked at their slots, process 2
forks. -/
def killEarly : List (Fin 2 × Act) :=
  firstChild ++ [(1, .pick 1), (1, .dispatch), (1, .settle), (0, .kill 3), (0, .killNext), (0, .killNext),
    (1, .call .fork), (1, .advance true), (1, .advance true), (1, .advance true), (0, .killNext)]

/-- **Two processes that nobody has killed.** After `kill(0)` the next child, process 2, is born killed; and process 3 is
killed by a `kill(3)` that was called before it was there. -/
theorem kill_kills_others :
    ((run (step id) (boot (Fin 2)) killZero).map fun s => s.table.proc 1) =
      some { state := .used, chan := none, killed := true, xstate := 0, pid := 2, parent := none } ∧
    ((run (step id) (boot (Fin 2)) killEarly).map fun s => s.table.proc 2) =
      some { state := .used, chan := none, killed := true, xstate := 0, pid := 3, parent := none } :=
  ⟨by decide +kernel, by decide +kernel⟩

end Xv6.Cpus
