import Xv6.Lib.Scan
import Xv6.Proc.Birth

/-!
# The number of processes

`nproc` goes through the process table and counts the slots that are not `UNUSED`, taking the lock of one slot at a time,
and meanwhile processes are born and reaped. The machine is the process table of `Xv6.Procs` with the scans that processes
have under way. A process that was counted can be reaped, and another be born in a slot the scan has yet to come to: then
`nproc` returns a number there never was (`Xv6.Counting.process_counted_twice`).
-/

namespace Xv6.Counting

open Lib Function Procs

structure Sys where
  sys : Procs.Sys
  scan : Slot → Option Scan

def boot : Sys where
  sys := Procs.boot
  scan _ := none

inductive Event
  | call (p : Slot)
  | look (p : Slot)
  | ret (p : Slot) (value : ℕ)
  | table (e : Procs.Event)
  deriving DecidableEq

def actor : Procs.Event → Option Slot
  | .sleep p _ | .fork p | .exit p _ | .wait p _ | .kill p _ _ | .fault p | .advance p _ => some p
  | .schedule _ | .yield _ | .wake _ _ => none

/-- What a scan records of a step of the table from `b` to `b'`. -/
def note (b : Procs.Sys) (e : Procs.Event) (b' : Procs.Sys) (sc : Scan) : Scan :=
  match births b e, frees b e with
  | some (np, _), _ => sc.born np (inUse b'.used)
  | none, some i => sc.freed i (inUse b'.used)
  | none, none => sc

def step (s : Sys) : Event → Option Sys
  | .call p =>
    if InUser s.sys p ∧ s.scan p = none then
      some { s with scan := update s.scan p (some (Scan.start s.sys.used)) }
    else none
  | .look p =>
    match s.scan p with
    | some sc =>
      if h : sc.next < NPROC then
        if InUser s.sys p then
          some { s with scan := update s.scan p (some (sc.look (s.sys.used ⟨sc.next, h⟩))) }
        else none
      else none
    | none => none
  | .ret p value =>
    match s.scan p with
    | some sc =>
      if InUser s.sys p ∧ sc.next = NPROC ∧ value = sc.count then
        some { s with scan := update s.scan p none }
      else none
    | none => none
  | .table e =>
    if ∀ p ∈ actor e, s.scan p = none then
      (Procs.step s.sys e).map fun t =>
        { sys := t, scan := fun q => (s.scan q).map (note s.sys e t) }
    else none

variable {s t u : Sys} {p q : Slot} {sc : Scan} {e : Event} {es : List Event}

def Fair (s : Sys) : Event → Prop
  | .table e =>
    ∀ q, ∀ sc ∈ s.scan q, (∀ x ∈ births s.sys e, sc.AllowsBirth x.1) ∧
      ∀ i ∈ frees s.sys e, sc.AllowsFree i
  | _ => True

instance (s : Sys) : ∀ e, Decidable (Fair s e)
  | .table e =>
    have (sc : Scan) : Decidable (∀ x ∈ births s.sys e, sc.AllowsBirth x.1) := Option.decidableForallMem _
    have (sc : Scan) : Decidable (∀ i ∈ frees s.sys e, sc.AllowsFree i) := Option.decidableForallMem _
    have (q : Slot) : Decidable (∀ sc ∈ s.scan q, (∀ x ∈ births s.sys e, sc.AllowsBirth x.1) ∧
        ∀ i ∈ frees s.sys e, sc.AllowsFree i) := Option.decidableForallMem _
    inferInstanceAs (Decidable (∀ q, ∀ sc ∈ s.scan q, (∀ x ∈ births s.sys e, sc.AllowsBirth x.1) ∧
      ∀ i ∈ frees s.sys e, sc.AllowsFree i))
  | .call _ | .look _ | .ret _ _ => inferInstanceAs (Decidable True)

/-! ### What a step does to a scan -/

theorem scan_cases (h : step s e = some t) (hsc : t.scan p = some sc) : (e = .call p ∧ sc = Scan.start t.sys.used ∧ t.sys = s.sys) ∨
    (t.sys = s.sys ∧ e ≠ .call p ∧ s.scan p = some sc) ∨ (∃ sc₀, ∃ hk : sc₀.next < NPROC, t.sys = s.sys ∧ e = .look p ∧ s.scan p = some sc₀ ∧
      sc = sc₀.look (s.sys.used ⟨sc₀.next, hk⟩)) ∨ ∃ e₀ sc₀, e = .table e₀ ∧ Procs.step s.sys e₀ = some t.sys ∧ s.scan p = some sc₀ ∧
      sc = note s.sys e₀ t.sys sc₀ := by
  rcases e with q | q | ⟨q, value⟩ | e₀
  · obtain ⟨-, rfl⟩ : (_ ∧ _) ∧ _ := by simpa [step] using h
    by_cases hpq : p = q
    · subst hpq
      simp only [update_self, Option.some.injEq] at hsc
      exact .inl ⟨rfl, hsc.symm, rfl⟩
    · simp only [update_of_ne hpq] at hsc
      refine .inr (.inl ⟨rfl, ?_, hsc⟩)
      rintro ⟨⟩
      exact hpq rfl
  · simp only [step] at h
    split at h
    · rename_i sc₀ hsc₀
      split at h
      · rename_i hk
        obtain ⟨-, rfl⟩ : InUser s.sys q ∧ _ := by simpa using h
        by_cases hpq : p = q
        · subst hpq
          simp only [update_self, Option.some.injEq] at hsc
          exact .inr (.inr (.inl ⟨sc₀, hk, rfl, rfl, hsc₀, hsc.symm⟩))
        · simp only [update_of_ne hpq] at hsc
          exact .inr (.inl ⟨rfl, nofun, hsc⟩)
      · cases h
    · cases h
  · simp only [step] at h
    split at h
    · obtain ⟨-, rfl⟩ : (_ ∧ _ ∧ _) ∧ _ := by simpa using h
      by_cases hpq : p = q
      · subst hpq
        simp only [update_self] at hsc
        cases hsc
      · simp only [update_of_ne hpq] at hsc
        exact .inr (.inl ⟨rfl, nofun, hsc⟩)
    · cases h
  · simp only [step] at h
    split at h
    · obtain ⟨b', hb', rfl⟩ := Option.map_eq_some_iff.mp h
      obtain ⟨sc₀, hsc₀, rfl⟩ := Option.map_eq_some_iff.mp hsc
      exact .inr (.inr (.inr ⟨e₀, sc₀, rfl, hb', hsc₀, rfl⟩))
    · cases h

theorem sys_of_step (h : step s e = some t) : t.sys = s.sys ∨ ∃ e₀, e = .table e₀ ∧ Procs.step s.sys e₀ = some t.sys := by
  rcases e with q | q | ⟨q, value⟩ | e₀
  · obtain ⟨-, rfl⟩ : (_ ∧ _) ∧ _ := by simpa [step] using h
    exact .inl rfl
  · simp only [step] at h
    split at h
    · split at h
      · obtain ⟨-, rfl⟩ : InUser s.sys q ∧ _ := by simpa using h
        exact .inl rfl
      · cases h
    · cases h
  · simp only [step] at h
    split at h
    · obtain ⟨-, rfl⟩ : (_ ∧ _ ∧ _) ∧ _ := by simpa using h
      exact .inl rfl
    · cases h
  · simp only [step] at h
    split at h
    · obtain ⟨b', hb', rfl⟩ := Option.map_eq_some_iff.mp h
      exact .inr ⟨e₀, rfl, hb'⟩
    · cases h

theorem reach_sys (h : Reach step boot s) : Reach Procs.step Procs.boot s.sys := by
  refine h.invariant (I := fun s => Reach Procs.step Procs.boot s.sys) ?_ .refl
  intro s e t hs he
  rcases sys_of_step he with heq | ⟨e₀, -, he₀⟩
  · rwa [heq]
  · exact hs.tail he₀

/-! ### The moments of a scan -/

theorem note_moments (b b' : Procs.Sys) (e₀ : Procs.Event) (sc : Scan) : (note b e₀ b' sc).moments = sc.moments ∨
      (note b e₀ b' sc).moments = inUse b'.used :: sc.moments := by
  unfold note
  split
  · exact .inr rfl
  · exact .inr rfl
  · exact .inl rfl

theorem now_mem_moments (h : Reach step boot s) (hsc : s.scan p = some sc) : inUse s.sys.used ∈ sc.moments := by
  have hinv : Reach step boot s ∧ ∀ p sc, s.scan p = some sc → inUse s.sys.used ∈ sc.moments := by
    refine h.invariant (I := fun s => Reach step boot s ∧
      ∀ p sc, s.scan p = some sc → inUse s.sys.used ∈ sc.moments) ?_ ⟨.refl, fun _ _ h => nomatch h⟩
    rintro s e t ⟨hr, hs⟩ he
    refine ⟨hr.tail he, fun p sc hsc => ?_⟩
    rcases scan_cases he hsc with ⟨-, rfl, -⟩ | ⟨hsys, -, hold⟩ | ⟨sc₀, hk, hsys, -, hold, rfl⟩ | ⟨e₀, sc₀, rfl, he₀, hold, rfl⟩
    · exact List.mem_singleton_self _
    · exact hsys ▸ hs p sc hold
    · exact hsys ▸ hs p sc₀ hold
    rcases used_cases (orderly_of_reach (reach_sys hr)).threads he₀ with
      ⟨hb, hf, hu⟩ | ⟨np, p', hb, -, -, -⟩ | ⟨np, hb, hf, -, -⟩
    · simp only [note, hb, hf, hu]
      exact hs p sc₀ hold
    · simp [note, hb, Scan.born]
    · simp [note, hb, hf, Scan.freed]
  exact hinv.2 p sc hsc

/-- As many slots were in use at some time after the call. -/
abbrev Between (p : Slot) (es : List Event) (m : ℕ) : Prop :=
  ∃ es₁ es₂ u, es = es₁ ++ es₂ ∧ run step boot es₁ = some u ∧ (u.scan p).isSome = true ∧ .call p ∉ es₂ ∧ inUse u.sys.used = m

theorem of_mem_moments {m : ℕ} (hrun : run step boot es = some s) (hsc : s.scan p = some sc) (hm : m ∈ sc.moments) : Between p es m := by
  refine run_induction (s := boot) (J := fun es s => ∀ sc m, s.scan p = some sc → m ∈ sc.moments → Between p es m)
    (fun _ _ h _ => nomatch h) ?_ hrun sc m hsc hm
  intro es e s t hrun ih he sc m hsc hm
  have hnow : m = inUse t.sys.used → Between p (es ++ [e]) m :=
    fun hm => ⟨es ++ [e], [], t, (List.append_nil _).symm, run_snoc_eq_some.mpr ⟨s, hrun, he⟩, by rw [hsc]; rfl, List.not_mem_nil, hm.symm⟩
  -- what was recorded before the step
  have hold : ∀ sc₀, s.scan p = some sc₀ → m ∈ sc₀.moments → e ≠ .call p → Between p (es ++ [e]) m := by
    intro sc₀ hsc₀ hm₀ hne
    obtain ⟨es₁, es₂, u, rfl, hu, hin, hcall, hmu⟩ := ih sc₀ m hsc₀ hm₀
    refine ⟨es₁, es₂ ++ [e], u, List.append_assoc _ _ _, hu, hin, ?_, hmu⟩
    rw [List.mem_append, List.mem_singleton]
    rintro (hmem | heq)
    · exact hcall hmem
    · exact hne heq.symm
  rcases scan_cases he hsc with ⟨-, rfl, -⟩ | ⟨hsys, hne, hsc₀⟩ | ⟨sc₀, hk, hsys, rfl, hsc₀, rfl⟩ | ⟨e₀, sc₀, rfl, he₀, hsc₀, rfl⟩
  · exact hnow (List.mem_singleton.mp hm)
  · exact hold sc hsc₀ hm hne
  · exact hold sc₀ hsc₀ hm nofun
  rcases note_moments s.sys t.sys e₀ sc₀ with heq | heq
  · exact hold sc₀ hsc₀ (heq ▸ hm) nofun
  · rw [heq] at hm
    rcases List.mem_cons.mp hm with hm | hm
    · exact hnow hm
    · exact hold sc₀ hsc₀ hm nofun

theorem mem_moments {es₁ es₂ : List Event} (hu : run step boot es₁ = some u)
    (hrun : run step u es₂ = some s) (hcall : .call p ∉ es₂) (hsc : s.scan p = some sc) : inUse u.sys.used ∈ sc.moments := by
  refine run_induction (J := fun es s => .call p ∉ es → ∀ sc, s.scan p = some sc →
    inUse u.sys.used ∈ sc.moments) (fun _ sc hsc => now_mem_moments ⟨es₁, hu⟩ hsc) ?_ hrun hcall sc hsc
  intro es e s t hrun ih he hcall sc hsc
  rw [List.mem_append, List.mem_singleton, not_or] at hcall
  rcases scan_cases he hsc with ⟨rfl, -, -⟩ | ⟨-, -, hsc₀⟩ | ⟨sc₀, hk, -, -, hsc₀, rfl⟩ | ⟨e₀, sc₀, -, -, hsc₀, rfl⟩
  · exact absurd rfl hcall.2
  · exact ih hcall.1 sc hsc₀
  · exact ih hcall.1 sc₀ hsc₀
  · have hold := ih hcall.1 sc₀ hsc₀
    rcases note_moments s.sys t.sys e₀ sc₀ with heq | heq
    · rwa [heq]
    · rw [heq]
      exact List.mem_cons_of_mem _ hold

/-! ### The count -/

theorem sound_of_fair (hal : Along step Fair boot es) (hrun : run step boot es = some s) (hsc : s.scan p = some sc) : sc.Sound s.sys.used := by
  have hinv : Reach step boot s ∧ ∀ p sc, s.scan p = some sc → sc.Sound s.sys.used := by
    refine hal.invariant (I := fun s => Reach step boot s ∧ ∀ p sc, s.scan p = some sc → sc.Sound s.sys.used) ?_ ⟨.refl, fun _ _ h => nomatch h⟩ hrun
    rintro s e t ⟨hr, hs⟩ hfair he
    refine ⟨hr.tail he, fun p sc hsc => ?_⟩
    rcases scan_cases he hsc with ⟨-, rfl, -⟩ | ⟨hsys, -, hold⟩ | ⟨sc₀, hk, hsys, -, hold, rfl⟩ | ⟨e₀, sc₀, rfl, he₀, hold, rfl⟩
    · exact Scan.sound_start
    · exact hsys ▸ hs p sc hold
    · rw [hsys]
      exact (hs p sc₀ hold).look hk
    obtain ⟨hbirth, hfree⟩ := hfair p sc₀ hold
    rcases used_cases (orderly_of_reach (reach_sys hr)).threads he₀ with
      ⟨hb, hf, hu⟩ | ⟨np, p', hb, -, hnp, hu⟩ | ⟨np, hb, hf, hnp, hu⟩
    · simp only [note, hb, hf, hu]
      exact hs p sc₀ hold
    · simp only [note, hb, hu]
      exact (hs p sc₀ hold).birth hnp (hbirth (np, p') hb)
    · simp only [note, hb, hf, hu]
      exact (hs p sc₀ hold).free hnp (hfree np hf)
  exact hinv.2 p sc hsc

theorem of_ret {value : ℕ} (h : step s (.ret p value) = some t) : ∃ sc, s.scan p = some sc ∧ sc.next = NPROC ∧ value = sc.count := by
  simp only [step] at h
  split at h
  · rename_i sc hsc
    obtain ⟨⟨-, hnext, hvalue⟩, -⟩ : (InUser s.sys p ∧ sc.next = NPROC ∧ value = sc.count) ∧ _ := by
      simpa using h
    exact ⟨sc, hsc, hnext, hvalue⟩
  · cases h

/-- **`nproc` returns a number that there was, in the runs that are fair.** Some time after
the call as many slots were in use. -/
theorem nproc_true_count {value : ℕ} (hal : Along step Fair boot es) (hrun : run step boot es = some s) (hret : step s (.ret p value) = some t) :
    ∃ es₁ es₂ u, es = es₁ ++ es₂ ∧ run step boot es₁ = some u ∧ (u.scan p).isSome = true ∧ .call p ∉ es₂ ∧ inUse u.sys.used = value := by
  obtain ⟨sc, hsc, hnext, rfl⟩ := of_ret hret
  exact of_mem_moments hrun hsc ((sound_of_fair hal hrun hsc).mem_moments hnext)

def sections (p : Slot) (k : ℕ) : List Event := List.replicate k (.table (.advance p true))

/-- The child of the first process calls `nproc`. When it has looked at two slots a process is born in the third one. -/
def bornAhead : List Event :=
  [.table (.schedule 0), .table (.fork 0)] ++ sections 0 4 ++ [.table (.schedule 1), .call 1, .look 1, .look 1, .table (.fork 0)] ++ sections 0 5 ++
    List.replicate (NPROC - 2) (.look 1)

theorem nproc_true_count_born : ∃ s t, run step boot bornAhead = some s ∧ step s (.ret 1 3) = some t ∧ ∃ es₁ es₂ u, bornAhead = es₁ ++ es₂ ∧
    run step boot es₁ = some u ∧ (u.scan 1).isSome = true ∧ .call 1 ∉ es₂ ∧ inUse u.sys.used = 3 := by
  have hr : run step boot bornAhead = some ((run step boot bornAhead).get (by decide +kernel)) :=
    (Option.some_get _).symm
  have ht : step ((run step boot bornAhead).get (by decide +kernel)) (.ret 1 3) =
      some ((step ((run step boot bornAhead).get (by decide +kernel)) (.ret 1 3)).get (by decide +kernel)) := (Option.some_get _).symm
  exact ⟨_, _, hr, ht, nproc_true_count (by decide +kernel) hr ht⟩

/-- The first process has three children. The first exits; the second calls `fork`, and has
come to slot `4` in its search for a free one. -/
def threeChildren : List Event :=
  [.table (.schedule 0)] ++
    .table (.fork 0) :: sections 0 4 ++ .table (.fork 0) :: sections 0 5 ++
    .table (.fork 0) :: sections 0 6 ++
    .table (.schedule 1) :: .table (.exit 1 0) :: sections 1 132 ++
    .table (.schedule 2) :: .table (.fork 2) :: sections 2 4 ++ [.table (.schedule 3)]

/-- The third child calls `nproc` and counts the four processes; then the first child is
reaped, and a process is born in slot `4`. -/
def overtaken : List Event :=
  .call 3 :: List.replicate 4 (.look 3) ++ .table (.wait 0 0) :: sections 0 3 ++ sections 2 1 ++
    List.replicate 60 (.look 3)

theorem overtaken_run : ((run step boot (threeChildren ++ overtaken)).any fun s =>
      (step s (.ret 3 5)).isSome && (s.scan 3).all fun sc => decide (5 ∉ sc.moments)) = true := by
  decide +kernel

/-- **A number that there never was**: `nproc` returns five, and there were at most
four processes at any time. -/
theorem process_counted_twice : ∃ s t, run step boot (threeChildren ++ overtaken) = some s ∧ step s (.ret 3 5) = some t ∧
      ∀ es₁ es₂ u, threeChildren ++ overtaken = es₁ ++ es₂ → run step boot es₁ = some u →
        (u.scan 3).isSome = true → .call 3 ∉ es₂ → inUse u.sys.used ≠ 5 := by
  obtain ⟨s, hs, hend⟩ := (Option.any_eq_true _ _).mp overtaken_run
  rw [Bool.and_eq_true] at hend
  obtain ⟨t, ht⟩ := Option.isSome_iff_exists.mp hend.1
  refine ⟨s, t, hs, ht, fun es₁ es₂ u heq hu _ hcall hfive => ?_⟩
  obtain ⟨sc, hsc, -⟩ := of_ret ht
  obtain ⟨u', hu', hrest⟩ := run_append_eq_some.mp ((congrArg (run step boot) heq).symm.trans hs)
  obtain rfl := Option.some.inj (hu.symm.trans hu')
  have hnever : 5 ∉ sc.moments := by simpa [hsc] using hend.2
  exact hnever (hfive ▸ mem_moments hu hrest hcall hsc)

end Xv6.Counting
