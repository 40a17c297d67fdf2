import Xv6.File.Pipes

/-!
# Between system calls the files and pipes are exactly those in use

However the steps of the processes interleave, references and pipes are in line with what each process is in the middle
of. Outside the system calls that is nothing: the count of a file is the number of descriptors that point to it, and a
page is a pipe if and only if a file refers to it.
-/

namespace Xv6.Descriptors

open Lib Function

variable {Page : Type} [DecidableEq Page] {s s' : Files Page} {w : Pid → View Page} {p q : Pid}
  {f : FileId}

/-! ### One action -/

namespace Exact

variable (h : Exact s w)

include h

omit [DecidableEq Page] in
theorem ref_pos_of_fd {o : Table} {fd : Fd} {b : Bool} (ho : s.procs p = some ⟨o, b⟩) (hfd : o fd = some f) : 0 < (s.ftable f).ref := by
  have := h.refs.files_le p f
  have hpos : 0 < fdsAt f (s.procs p) := by
    rw [ho]
    exact Table.fds_pos hfd
  omega

theorem exec_ne_error {β : Type} {r : Act Page β} (hpre : rights.pre r (w p)) (e : Err) : exec r p s ≠ .error e := by
  intro hexec
  have hclose : ∀ f, 0 < (s.ftable f).ref → ∀ e, s.fileclose f ≠ .error e := by
    intro f hf e he
    rw [Files.fileclose, if_neg (by omega)] at he
    split at he <;> cases he
  have hdup : ∀ f, 0 < (s.ftable f).ref → ∀ e, s.filedup f ≠ .error e := by
    intro f hf e he
    rw [Files.filedup, if_neg (by omega)] at he
    cases he
  have hfd : ∀ {o fd f}, (w p).proc = some o → o fd = some f → 0 < (s.ftable f).ref :=
    fun ho hfd => h.ref_pos_of_fd ((h.refs.each p).proc _ ho).1 hfd
  cases r with
  | fileclose f =>
    have := h.refs.files_le p f
    have := hpre.1
    exact hclose f (by omega) e (of_map_eq_error hexec)
  | pipeclose pi writable =>
    obtain ⟨P, hP, -⟩ := h.ends.page_of_owner (r := .inr p) hpre
    have := of_map_eq_error hexec
    rw [Files.pipeclose, hP] at this
    cases this
  | closeFd fd =>
    obtain ⟨⟨o, ho⟩, -⟩ := hpre
    dsimp only [exec] at hexec
    rw [h.ofile ho] at hexec
    split at hexec
    · rename_i f hf
      exact hclose f (hfd ho hf) e (of_map_eq_error hexec)
    · cases hexec
  | dup fd =>
    obtain ⟨⟨o, ho⟩, -⟩ := hpre
    dsimp only [exec] at hexec
    rw [h.ofile ho] at hexec
    split at hexec
    · rename_i f fd' hf hfd'
      exact hdup f (hfd ho hf) e (of_map_eq_error hexec)
    · cases hexec
  | access fd =>
    dsimp only [exec] at hexec
    split at hexec
    · rename_i t ht
      obtain ⟨f, -, hf⟩ := Option.bind_eq_some_iff.mp ht
      have howner : owner s w (.inl f) = some (t.1, t.2) := hf
      obtain ⟨P, hP, -⟩ := h.ends.page_of_owner howner
      rw [if_neg (by rw [hP]; simp)] at hexec
      cases hexec
    · cases hexec
  | allocproc np =>
    change (if s.procs np = none then _ else _) = _ at hexec
    split at hexec <;> cases hexec
  | copyFd np fd =>
    obtain ⟨⟨o, c, ho, -⟩, -⟩ := hpre
    dsimp only [exec] at hexec
    rw [h.ofile ho] at hexec
    split at hexec
    · rename_i f hf
      exact hdup f (hfd ho hf) e (of_map_eq_error hexec)
    · cases hexec
  | _ => cases hexec

end Exact

/-- What an action of `p` leaves alone: the record of the calls, a file that is filled in and
stays in use, and, if the call is one that opens something, the descriptors of the others. -/
structure Frame (p : Pid) (v : View Page) (s s' : Files Page) : Prop where
  before : s'.before = s.before
  entry : ∀ f, 0 < (s.ftable f).ref → (s.ftable f).type ≠ .none → 0 < (s'.ftable f).ref →
    s'.ftable f = { s.ftable f with ref := (s'.ftable f).ref }
  procs : v.saved ≠ none → ∀ q, q ≠ p → s'.procs q = s.procs q

namespace Frame

variable {v : View Page} {t : Files Page}

omit [DecidableEq Page]

theorem refl : Frame p v s s := ⟨rfl, fun _ _ _ _ => rfl, fun _ _ _ => rfl⟩

theorem setProc (h : Frame p v s t) (q : Pid) (pr : Option Proc) (hq : q = p ∨ v.saved = none) : Frame p v s (t.setProc q pr) := by
  refine ⟨h.before, h.entry, fun hv r hr => ?_⟩
  obtain rfl := hq.resolve_right hv
  exact (update_of_ne hr ..).trans (h.procs hv r hr)

theorem setFile (f : FileId) (e : File Page) (he : e = { s.ftable f with ref := e.ref } ∨ e.ref = 0 ∨ (s.ftable f).type = .none ∨
      (s.ftable f).ref = 0) : Frame p v s (s.setFile f e) := by
  refine ⟨rfl, fun g hg htype hg' => ?_, fun _ _ _ => rfl⟩
  change 0 < (update s.ftable f e g).ref at hg'
  change update s.ftable f e g = { s.ftable g with ref := (update s.ftable f e g).ref }
  by_cases hgf : g = f
  · rw [hgf] at hg htype hg' ⊢
    rw [update_self] at hg' ⊢
    rcases he with he | he | he | he
    · exact he
    · omega
    · exact absurd he htype
    · omega
  · rw [update_of_ne hgf]

theorem filealloc {r : Option FileId} (h : s.filealloc = (r, s')) : Frame p v s s' := by
  rcases Files.of_filealloc h with ⟨f, -, hf, rfl⟩ | ⟨-, rfl⟩
  · exact setFile f _ (.inl rfl)
  · exact refl

theorem fileclose {r : Option (Page × Bool)} (h : s.fileclose f = .ok (r, s')) : Frame p v s s' := by
  rcases Files.of_fileclose h with ⟨-, -, rfl⟩ | ⟨-, -, rfl⟩
  · exact setFile f _ (.inl rfl)
  · exact setFile f _ (.inr (.inl rfl))

theorem filedup (h : s.filedup f = .ok s') : Frame p v s s' := by
  rw [Files.of_filedup h]
  exact setFile f _ (.inl rfl)

end Frame

theorem Exact.frame (h : Exact s w) {β : Type} {r : Act Page β} {b : β} (hpre : rights.pre r (w p))
    (hexec : exec r p s = .ok (some (b, s'))) : Frame p (w p) s s' := by
  cases r with
  | filealloc => exact .filealloc (Option.some.inj (Except.ok.inj hexec))
  | fdalloc f =>
    have heq := Option.some.inj (Except.ok.inj hexec)
    split at heq <;> cases heq
    · exact Frame.refl.setProc p _ (.inl rfl)
    · exact .refl
  | openFile f device readable writable =>
    cases hexec
    exact .setFile f _ (.inr (.inr (.inl ((h.refs.each p).fresh f hpre).1)))
  | kalloc page f₀ f₁ =>
    have heq := Option.some.inj (Except.ok.inj hexec)
    split at heq
    · split at heq <;> cases heq
      · -- both files are still to be filled in
        refine ⟨rfl, fun g _ htype _ => ?_, fun _ _ _ => rfl⟩
        have hne : ∀ f, (w p).fresh f = true → g ≠ f := by
          rintro f hf rfl
          exact htype ((h.refs.each p).fresh g hf).1
        simp [Files.makePipe, Files.setFile, Files.setPage, update_of_ne (hne f₁ hpre.2.1), update_of_ne (hne f₀ hpre.1)]
      · exact .refl
    · cases heq
      exact .refl
  | fileclose f =>
    exact .fileclose (ok_of_map_some hexec)
  | pipeclose pi writable =>
    have ha := ok_of_map_unit hexec
    rw [Files.pipeclose] at ha
    split at ha <;> cases ha
    exact ⟨rfl, fun _ _ _ _ => rfl, fun _ _ _ => rfl⟩
  | clearFd fd | zombie =>
    cases hexec
    exact Frame.refl.setProc p _ (.inl rfl)
  | closeFd fd =>
    dsimp only [exec] at hexec
    split at hexec
    · obtain ⟨⟨a, t⟩, ha, heq⟩ := of_map_eq_ok hexec
      cases heq
      exact (Frame.fileclose ha).setProc p _ (.inl rfl)
    · cases hexec
      exact .refl
  | dup fd =>
    dsimp only [exec] at hexec
    split at hexec
    · obtain ⟨t, ht, heq⟩ := of_map_eq_ok hexec
      cases heq
      exact (Frame.filedup ht).setProc p _ (.inl rfl)
    · cases hexec
      exact .refl
  | access fd =>
    dsimp only [exec] at hexec
    split at hexec
    · split at hexec <;> cases hexec
      exact .refl
    · cases hexec
      exact .refl
  | allocproc np =>
    change (if s.procs np = none then _ else _) = _ at hexec
    split at hexec <;> cases hexec
    · exact Frame.refl.setProc np _ (.inr hpre.2.2)
    · exact .refl
  | freeproc np | spawn np =>
    cases hexec
    exact Frame.refl.setProc np _ (.inr hpre.2.2)
  | copyFd np fd =>
    dsimp only [exec] at hexec
    split at hexec
    · obtain ⟨t, ht, heq⟩ := of_map_eq_ok hexec
      cases heq
      exact (Frame.filedup ht).setProc np _ (.inr hpre.2.2)
    · cases hexec
      exact .refl
  | leave failed =>
    cases hexec
    exact ⟨rfl, fun _ _ _ _ => rfl, fun _ _ _ => rfl⟩

/-! ### The machine -/

/-- Everything is in line with what the processes are in the middle of, and they keep to the
discipline. -/
def Sys.Inv (s : Sys Page) : Prop := rights.Kept Exact (fun _ => View.Settled) s.fs s.thr

omit [DecidableEq Page] in
theorem Sys.outside_iff {s : Sys Page} : s.outside p = true ↔ s.thr p = .ret () := by
  unfold Sys.outside
  split
  · rename_i u hu
    simp [hu]
  · rename_i hne
    simp only [Bool.false_eq_true, false_iff]
    exact hne ()

omit [DecidableEq Page] in
theorem Exact.enter (h : Exact s w) {o : Table} (hv : (w p).Settled) (ho : s.procs p = some ⟨o, true⟩) (c : Call Page) :
    Exact (s.enter p c) (update w p (.idle (some o) (if c.opens then some o else none))) := by
  obtain ⟨hfiles, hfresh, hclosing, hchild⟩ := hv
  have hsaved : (if c.opens then (s.procs p).map (·.ofile) else none) =
      if c.opens then some o else none := by
    rw [ho]
    rfl
  refine ⟨h.refs.rebuild (update_eq_self p s.procs).symm ⟨fun g hg => ?_, fun o' ho' => ?_, fun r d hr => ?_, ?_, fun o' ho' => ?_⟩
    (fun q hq => (h.refs.each q).congr rfl (fun _ _ => rfl) (fun _ _ _ => rfl) (update_of_ne hq ..) (update_of_ne hq ..))
    (fun g => by rw [hfiles g]; rfl) h.refs.free (fun g hg ht => .inr ⟨(hfresh g).symm, hg, ht⟩)
    (fun _ => .inr fun r d => ⟨fun hr => ?_, fun hr => by cases hr⟩) (fun q d hd => by cases hd) (fun q hq => ?_),
    h.ends.of_view rfl rfl hclosing.symm⟩
  · cases hg
  · cases ho'
    exact ⟨ho, update_self ..⟩
  · cases hr
  · change _ = update s.before p _ p
    rw [update_self, hsaved]
    rfl
  · refine ⟨o, ho, ?_⟩
    change (if c.opens then some o else none) = some o' at ho'
    split at ho'
    · cases ho'
      exact fun _ _ hf => hf
    · cases ho'
  · have := (h.refs.each r).child p d hr
    rw [ho] at this
    cases this
  · change update s.failed p false q = true at hq
    by_cases hqp : q = p
    · rw [hqp, update_self] at hq
      cases hq
    · rw [update_of_ne hqp] at hq
      obtain ⟨o', hb, hpr⟩ := h.refs.failed q hq
      exact ⟨o', (update_of_ne hqp ..).trans hb, hpr⟩

theorem Sys.Inv.step {s t : Sys Page} {e : Event Page} (h : s.Inv) (he : step s e = some t) : t.Inv := by
  cases e with
  | call p c =>
    rw [Descriptors.step] at he
    split at he <;> cases he
    rename_i hguard
    obtain ⟨hout, hready⟩ := hguard
    obtain ⟨⟨o, _⟩, ho, rfl⟩ := (Option.any_eq_true _ _).mp hready
    obtain ⟨w, hw, hok⟩ := h
    have hp := hok p
    rw [Sys.outside_iff.mp hout] at hp
    exact ⟨_, hw.enter hp ho c, forall_update₂ (P := fun _ prog v => Program.Ok rights prog v fun _ => View.Settled)
      (Prog.call_ok c o) fun q _ => hok q⟩
  | act p =>
    rw [Descriptors.step] at he
    split at he <;> cases he
    rename_i fs q hnext
    exact rights_sound.step h hnext

omit [DecidableEq Page] in
theorem inv_boot : (boot : Sys Page).Inv := by
  refine ⟨fun _ => .idle none none, ⟨⟨fun p => ?_, fun f => ?_, fun f _ => rfl, fun f hf => ?_,
    fun a b c hab => ?_, fun p hp => ?_⟩, ⟨fun f hf => ?_, ⟨fun e => ?_, fun {r r' b} hr => ?_⟩, fun pi P hP => ?_⟩⟩, fun p => ?_⟩
  · refine ⟨fun f hf => ?_, fun o ho => ?_, fun q c hq => ?_, rfl, fun o ho => ?_⟩
    · cases hf
    · cases ho
    · cases hq
    · cases ho
  · have hfds : ∀ p : Pid, fdsAt f ((boot : Sys Page).fs.procs p) = 0 := fun p => by
      change fdsAt f (if p = initproc then some ⟨bare, true⟩ else none) = 0
      split
      · exact Table.fds_bare
      · rfl
    simp only [hfds, View.idle, Finset.sum_const_zero]
    rfl
  · cases hf
  · cases hab
  · cases hp
  · cases hf
  · refine ⟨fun he => ?_, ?_⟩
    · cases he
    · rintro ⟨r | r, hr⟩ <;> cases hr
  · rcases r with r | r <;> cases hr
  · cases hP
  · exact Prog.idle_settled none none

theorem Sys.inv_of_reach {s : Sys Page} (hs : Reach Descriptors.step boot s) : s.Inv :=
  Reach.invariant (fun h he => Sys.Inv.step h he) inv_boot hs

namespace Sys.Inv

variable {s t : Sys Page} (h : s.Inv)

include h

section

omit [DecidableEq Page]

theorem before_of_failed (hp : s.fs.failed p = true) : ∃ o, s.fs.before p = some o ∧ s.fs.procs p = some ⟨o, true⟩ := by
  obtain ⟨w, hw, -⟩ := h
  exact hw.refs.failed p hp

theorem kept {o : Table} (ho : s.fs.before p = some o) : ∃ o', s.fs.procs p = some ⟨o', true⟩ ∧ ∀ fd f, o fd = some f → o' fd = some f := by
  obtain ⟨w, hw, -⟩ := h
  have hp := hw.refs.each p
  exact hp.kept o (hp.saved.trans ho)

theorem ref_pos {o : Table} {fd : Fd} {b : Bool} (ho : s.fs.procs p = some ⟨o, b⟩) (hfd : o fd = some f) : 0 < (s.fs.ftable f).ref := by
  obtain ⟨w, hw, -⟩ := h
  exact hw.ref_pos_of_fd ho hfd

/-- **Between system calls**, references are descriptors, and the ends of pipes that are open are
files. -/
theorem quiet (hout : ∀ p, s.outside p = true) : (∀ f, (s.fs.ftable f).ref = ∑ p, fdsAt f (s.fs.procs p)) ∧
    (∀ f, 0 < (s.fs.ftable f).ref ↔ (s.fs.ftable f).type ≠ .none) ∧ (∀ f, (s.fs.ftable f).type = .pipe →
      (s.fs.ftable f).pipe.isSome ∧ (s.fs.ftable f).readable = !(s.fs.ftable f).writable) ∧ (∀ e, s.fs.IsOpen e ↔ ∃ f, (s.fs.ftable f).tip = some e) ∧
    ∀ pi P, s.fs.pages pi = some P → P.readopen = true ∨ P.writeopen = true := by
  obtain ⟨w, hw, hok⟩ := h
  have hv : ∀ p, (w p).Settled := fun p => by
    have := hok p
    rw [Sys.outside_iff.mp (hout p)] at this
    exact this
  refine ⟨fun f => ?_, fun f => ⟨fun hf htype => ?_, fun htype => ?_⟩, hw.ends.sides, fun e => ?_, hw.ends.pages⟩
  · rw [hw.refs.refs f, Finset.sum_eq_zero fun p _ => (hv p).1 f, Nat.add_zero]
  · obtain ⟨p, hp⟩ := hw.refs.filled f hf htype
    rw [(hv p).2.1 f] at hp
    cases hp
  · by_contra hf
    exact htype (hw.refs.free f (by omega))
  · rw [hw.ends.ends.used_iff e]
    constructor
    · rintro ⟨f | p, hr⟩
      · exact ⟨f, hr⟩
      · change (w p).closing = some e at hr
        rw [(hv p).2.2.1] at hr
        cases hr
    · rintro ⟨f, hf⟩
      exact ⟨.inl f, hf⟩

end

theorem next_ne_error (p : Pid) (e : Err) : (s.thr p).next exec p s.fs ≠ .error e := by
  obtain ⟨w, hw, hok⟩ := h
  have hp := hok p
  intro hnext
  cases hthr : s.thr p with
  | ret u =>
    rw [hthr] at hnext
    cases hnext
  | panic e' =>
    rw [hthr] at hp
    exact hp
  | act r k =>
    rw [hthr] at hnext hp
    exact hw.exec_ne_error hp.1 e (of_map_eq_error hnext)

theorem frame {o : Table} (ho : s.fs.before p = some o) (hst : Descriptors.step s (.act p) = some t) :
    t.fs.before p = some o ∧ (∀ q, q ≠ p → t.fs.procs q = s.fs.procs q ∧ t.thr q = s.thr q) ∧
      ∀ f, 0 < (s.fs.ftable f).ref → (s.fs.ftable f).type ≠ .none → 0 < (t.fs.ftable f).ref →
        t.fs.ftable f = { s.fs.ftable f with ref := (t.fs.ftable f).ref } := by
  obtain ⟨w, hw, hok⟩ := h
  rw [Descriptors.step] at hst
  split at hst <;> cases hst
  rename_i fs k hnext
  obtain ⟨β, r, k, b, hthr, hexec, rfl⟩ := Program.of_next hnext
  have hp := hok p
  rw [hthr] at hp
  have hframe := hw.frame hp.1 hexec
  refine ⟨(congrFun hframe.before p).trans ho, fun q hq => ⟨hframe.procs ?_ q hq, update_of_ne hq ..⟩, hframe.entry⟩
  rw [(hw.refs.each p).saved, ho]
  simp

end Sys.Inv

/-! ### A call that fails and is not disturbed -/

section Alone

variable {s t u : Sys Page} {o : Table}

/-- While one process takes the steps of a call that opens something, and the others none, what
was there before is still there. -/
structure Aside (p : Pid) (o : Table) (s t : Sys Page) : Prop where
  inv : t.Inv
  before : t.fs.before p = some o
  others : ∀ q, q ≠ p → t.fs.procs q = s.fs.procs q ∧ t.thr q = s.thr q
  entry : ∀ f, 0 < (s.fs.ftable f).ref → t.fs.ftable f = { s.fs.ftable f with ref := (t.fs.ftable f).ref }

omit [DecidableEq Page] in
theorem ref_pos_of_aside (hs : s.Inv) (hout : ∀ q, s.outside q = true) (ht : t.Inv)
    (ho : s.fs.procs p = some ⟨o, true⟩) (hbefore : t.fs.before p = some o)
    (hothers : ∀ q, q ≠ p → t.fs.procs q = s.fs.procs q) (hf : 0 < (s.fs.ftable f).ref) : 0 < (t.fs.ftable f).ref := by
  rw [(hs.quiet hout).1 f] at hf
  obtain ⟨q, -, hq⟩ := Finset.exists_ne_zero_of_sum_ne_zero (Nat.ne_of_gt hf)
  cases hpr : s.fs.procs q with
  | none => simp [hpr, fdsAt] at hq
  | some pr =>
    have hfds : Table.fds f pr.ofile ≠ 0 := by rwa [hpr] at hq
    obtain ⟨fd, -, hfd⟩ := Finset.exists_ne_zero_of_sum_ne_zero hfds
    have hfd : pr.ofile fd = some f := by
      by_contra hne
      exact hfd (if_neg hne)
    by_cases hqp : q = p
    · rw [hqp, ho] at hpr
      cases hpr
      obtain ⟨o', ho', hkept⟩ := ht.kept hbefore
      exact ht.ref_pos ho' (hkept fd f hfd)
    · exact ht.ref_pos ((hothers q hqp).trans hpr) hfd

theorem Aside.step (h : Aside p o s t) (hs : s.Inv) (hout : ∀ q, s.outside q = true)
    (ho : s.fs.procs p = some ⟨o, true⟩) (he : Descriptors.step t (.act p) = some u) : Aside p o s u := by
  have hu := h.inv.step he
  obtain ⟨hbefore, hothers, hentry⟩ := h.inv.frame h.before he
  have hothers' : ∀ q, q ≠ p → u.fs.procs q = s.fs.procs q ∧ u.thr q = s.thr q := fun q hq =>
    ⟨(hothers q hq).1.trans (h.others q hq).1, (hothers q hq).2.trans (h.others q hq).2⟩
  refine ⟨hu, hbefore, hothers', fun f hf => ?_⟩
  have htype : (t.fs.ftable f).type ≠ .none := by
    rw [h.entry f hf]
    exact ((hs.quiet hout).2.1 f).mp hf
  have hpos := ref_pos_of_aside hs hout h.inv ho h.before (fun q hq => (h.others q hq).1) hf
  have hpos' := ref_pos_of_aside hs hout hu ho hbefore (fun q hq => (hothers' q hq).1) hf
  rw [hentry f hpos htype hpos', h.entry f hf]

theorem Aside.run (hs : s.Inv) (hout : ∀ q, s.outside q = true) (ho : s.fs.procs p = some ⟨o, true⟩) {n : ℕ} (h : Aside p o s t)
    (hrun : Lib.run Descriptors.step t (List.replicate n (.act p)) = some u) : Aside p o s u := by
  induction n generalizing t with
  | zero =>
    cases hrun
    exact h
  | succ n ih =>
    rw [List.replicate_succ, run_cons_eq_some] at hrun
    obtain ⟨t', ht', hrun⟩ := hrun
    exact ih (h.step hs hout ho ht') hrun

theorem pages_ext {P P' : Option Pipe} (h : ∀ b, P.any (·.isOpen b) = P'.any (·.isOpen b))
    (hP : ∀ Q, P = some Q → Q.readopen = true ∨ Q.writeopen = true) (hP' : ∀ Q, P' = some Q → Q.readopen = true ∨ Q.writeopen = true) : P = P' := by
  have hf := h false
  have ht := h true
  rcases P with _ | ⟨r, c⟩ <;> rcases P' with _ | ⟨r', c'⟩
  · rfl
  · have := hP' _ rfl
    simp [Pipe.isOpen] at hf ht
    simp [hf, ht] at this
  · have := hP _ rfl
    simp [Pipe.isOpen] at hf ht
    simp [hf, ht] at this
  · simp only [Option.any_some, Pipe.isOpen, if_true, if_false, Bool.false_eq_true] at hf ht
    rw [hf, ht]

theorem alone (hs : s.Inv) (hout : ∀ q, s.outside q = true) {c : Call Page} (hc : c.opens = true)
    {n : ℕ} (hrun : Lib.run step s (.call p c :: List.replicate n (.act p)) = some t) (htout : t.outside p = true) (hfailed : t.fs.failed p = true) :
    t.fs.procs = s.fs.procs ∧ t.fs.pages = s.fs.pages ∧ ∀ f, (t.fs.ftable f).ref = (s.fs.ftable f).ref ∧ (t.fs.ftable f).type = (s.fs.ftable f).type ∧
        (0 < (s.fs.ftable f).ref → t.fs.ftable f = s.fs.ftable f) := by
  rw [run_cons_eq_some] at hrun
  obtain ⟨s₁, hs₁, hrun⟩ := hrun
  have hinv₁ := hs.step hs₁
  rw [step] at hs₁
  split at hs₁
  swap
  · cases hs₁
  rename_i hguard
  cases hs₁
  obtain ⟨⟨o, _⟩, ho, rfl⟩ := (Option.any_eq_true _ _).mp hguard.2
  have hbefore : (s.fs.enter p c).before p = some o := by
    change update s.fs.before p _ p = _
    rw [update_self, if_pos hc, ho]
    rfl
  have h₁ : Aside p o s ⟨s.fs.enter p c, update s.thr p c.prog⟩ :=
    ⟨hinv₁, hbefore, fun q hq => ⟨rfl, update_of_ne hq ..⟩, fun _ _ => rfl⟩
  have h := h₁.run hs hout ho hrun
  have houtt : ∀ q, t.outside q = true := by
    intro q
    by_cases hq : q = p
    · rwa [hq]
    · rw [Sys.outside_iff, (h.others q hq).2]
      exact Sys.outside_iff.mp (hout q)
  -- the descriptor tables are the same, and so are the counts
  have hprocs : t.fs.procs = s.fs.procs := by
    funext q
    by_cases hq : q = p
    · obtain ⟨o', ho', hpr⟩ := h.inv.before_of_failed hfailed
      rw [hq, hpr, ho, Option.some.inj (ho'.symm.trans h.before)]
    · exact (h.others q hq).1
  obtain ⟨hcount, hfilled, -, hopen, hpages⟩ := hs.quiet hout
  obtain ⟨hcount', hfilled', -, hopen', hpages'⟩ := h.inv.quiet houtt
  have href : ∀ f, (t.fs.ftable f).ref = (s.fs.ftable f).ref := fun f => by
    rw [hcount', hcount, hprocs]
  have hentry : ∀ f, 0 < (s.fs.ftable f).ref → t.fs.ftable f = s.fs.ftable f := fun f hf => by
    rw [h.entry f hf, href]
  have htype : ∀ f, (s.fs.ftable f).ref = 0 → (t.fs.ftable f).type = .none ∧ (s.fs.ftable f).type = .none := fun f hf => by
    refine ⟨?_, ?_⟩
    · by_contra hne
      have := (hfilled' f).mpr hne
      rw [href] at this
      omega
    · by_contra hne
      have := (hfilled f).mpr hne
      omega
  have htip : ∀ f, (t.fs.ftable f).tip = (s.fs.ftable f).tip := fun f => by
    rcases Nat.eq_zero_or_pos (s.fs.ftable f).ref with hf | hf
    · rw [File.tip, File.tip, (htype f hf).1, (htype f hf).2]
      rfl
    · rw [hentry f hf]
  refine ⟨hprocs, funext fun pi => pages_ext (fun b => ?_) (hpages' pi) (hpages pi), fun f => ⟨href f, ?_, hentry f⟩⟩
  · have hiff : t.fs.IsOpen (pi, b) ↔ s.fs.IsOpen (pi, b) := by
      rw [hopen', hopen]
      simp only [htip]
    exact Bool.eq_iff_iff.mpr hiff
  · rcases Nat.eq_zero_or_pos (s.fs.ftable f).ref with hf | hf
    · rw [(htype f hf).1, (htype f hf).2]
    · rw [hentry f hf]

end Alone

/-! ### The theorem -/

def Files.slots (s : Files Page) (f : FileId) : ℕ :=
  ∑ p : Pid, ∑ fd : Fd, if s.ofile p fd = some f then 1 else 0

def File.Refers (e : File Page) (pi : Page) : Prop := 0 < e.ref ∧ e.type = .pipe ∧ e.pipe = some pi

omit [DecidableEq Page] in
theorem fdsAt_eq (s : Files Page) (p : Pid) (f : FileId) : fdsAt f (s.procs p) = ∑ fd : Fd, if s.ofile p fd = some f then 1 else 0 := by
  unfold Files.ofile
  cases s.procs p with
  | none => simp [fdsAt]
  | some pr => rfl

omit [DecidableEq Page] in
theorem File.tip_eq_some {e : File Page} {pi : Page} {b : Bool} : e.tip = some (pi, b) ↔ e.type = .pipe ∧ e.pipe = some pi ∧ e.writable = b := by
  unfold File.tip
  split
  · rename_i htype
    simp [htype, Option.map_eq_some_iff]
  · rename_i htype
    simp [htype]

/-- **File references and pipe lifetime are exact**, in every state of every run, whatever the calls run out of:

* no panic of `filedup` or `fileclose`, no second `kfree` of a pipe and no use of a freed one is ahead;
* if no process is inside a system call, the count of each file is the number of descriptor slots that point to it, a page is a pipe if
  and only if a file in use refers to it, and its ends are open if and only if there are such files for reading and for writing;
* a process whose `open` or `pipe` has failed has the descriptors it had before;
* a call of `open` or `pipe` that fails, with no other steps in between, leaves all descriptors, pipes and files as they were. -/
theorem file_references_exact {s : Sys Page} (hs : Reach step boot s) : (∀ p e, (s.thr p).next exec p s.fs ≠ .error e) ∧ ((∀ p, s.outside p = true) →
      (∀ f, (s.fs.ftable f).ref = s.fs.slots f) ∧ (∀ pi, (s.fs.pages pi).isSome ↔ ∃ f, (s.fs.ftable f).Refers pi) ∧ ∀ pi P, s.fs.pages pi = some P →
        (P.readopen = true ↔ ∃ f, (s.fs.ftable f).Refers pi ∧ (s.fs.ftable f).readable = true) ∧
        (P.writeopen = true ↔ ∃ f, (s.fs.ftable f).Refers pi ∧ (s.fs.ftable f).writable = true)) ∧ (∀ p, s.fs.failed p = true →
      ∃ o, s.fs.before p = some o ∧ s.fs.procs p = some ⟨o, true⟩) ∧ ∀ (p : Pid) (c : Call Page) (n : ℕ) (t : Sys Page), (∀ q, s.outside q = true) →
      c.opens = true → run step s (.call p c :: List.replicate n (.act p)) = some t → t.outside p = true → t.fs.failed p = true →
      t.fs.procs = s.fs.procs ∧ t.fs.pages = s.fs.pages ∧ ∀ f, (t.fs.ftable f).ref = (s.fs.ftable f).ref ∧
          (t.fs.ftable f).type = (s.fs.ftable f).type ∧ (0 < (s.fs.ftable f).ref → t.fs.ftable f = s.fs.ftable f) := by
  have hinv := Sys.inv_of_reach hs
  refine ⟨hinv.next_ne_error, fun hout => ?_, fun p => hinv.before_of_failed, fun p c n t hout hc => alone hinv hout hc⟩
  obtain ⟨hcount, hfilled, hsides, hopen, hpages⟩ := hinv.quiet hout
  -- an end is open if and only if there is a file for it
  have hend : ∀ pi b, (s.fs.pages pi).any (·.isOpen b) = true ↔ ∃ f, (s.fs.ftable f).Refers pi ∧ (s.fs.ftable f).writable = b := by
    intro pi b
    rw [show ((s.fs.pages pi).any (·.isOpen b) = true) = s.fs.IsOpen (pi, b) from rfl, hopen]
    refine exists_congr fun f => ?_
    rw [File.tip_eq_some, File.Refers, and_assoc, and_assoc]
    refine ⟨fun hf => ⟨?_, hf⟩, fun hf => hf.2⟩
    rw [hfilled, hf.1]
    simp
  have hread : ∀ f pi, (s.fs.ftable f).Refers pi → ((s.fs.ftable f).readable = true ↔ (s.fs.ftable f).writable = false) := by
    intro f pi hf
    rw [(hsides f hf.2.1).2]
    simp
  refine ⟨fun f => ?_, fun pi => ?_, fun pi P hP => ?_⟩
  · rw [hcount, Files.slots]
    exact Finset.sum_congr rfl fun p _ => fdsAt_eq s.fs p f
  · constructor
    · intro hsome
      obtain ⟨P, hP⟩ := Option.isSome_iff_exists.mp hsome
      have hof : ∀ b, P.isOpen b = true → ∃ f, (s.fs.ftable f).Refers pi := fun b hb => by
        obtain ⟨f, hf, -⟩ := (hend pi b).mp (by rw [hP]; exact hb)
        exact ⟨f, hf⟩
      rcases hpages pi P hP with h | h
      · exact hof false h
      · exact hof true h
    · rintro ⟨f, hf⟩
      have := (hend pi _).mpr ⟨f, hf, rfl⟩
      obtain ⟨P, hP, -⟩ := (Option.any_eq_true _ _).mp this
      rw [hP]
      rfl
  · have hr := hend pi false
    have hw := hend pi true
    rw [hP] at hr hw
    refine ⟨hr.trans (exists_congr fun f => and_congr_right fun hf => ?_), hw⟩
    exact (hread f pi hf).symm

def firstFile : FileId := ⟨0, by decide⟩

/-- A process makes a pipe and forks. Then it asks for another pipe, and there is no memory. -/
theorem file_references_exact_fork : ∃ s t : Sys Bool, Reach step boot s ∧
    (∀ p, s.outside p = true) ∧ (s.fs.ftable firstFile).ref = 2 ∧ s.fs.slots firstFile = 2 ∧
    run step s (.call initproc (.pipe none true) :: List.replicate 6 (.act initproc)) = some t ∧
    t.fs.failed initproc = true ∧ t.fs.procs = s.fs.procs := by
  let es : List (Event Bool) :=
    .call initproc (.pipe (some true) true) :: List.replicate 6 (.act initproc) ++
      .call initproc (.fork ⟨1, by decide⟩ true) :: List.replicate 18 (.act initproc)
  have heval : (run step boot es).any (fun s =>
      decide (∀ p, s.outside p = true) && decide ((s.fs.ftable firstFile).ref = 2) &&
      (run step s (.call initproc (.pipe none true) :: List.replicate 6 (.act initproc))).any fun t =>
        t.outside initproc && t.fs.failed initproc) = true := by
    decide +kernel
  obtain ⟨s, hs, heval⟩ := (Option.any_eq_true _ _).mp heval
  simp only [Bool.and_eq_true, decide_eq_true_eq] at heval
  obtain ⟨⟨hout, href⟩, heval⟩ := heval
  obtain ⟨t, ht, heval⟩ := (Option.any_eq_true _ _).mp heval
  simp only [Bool.and_eq_true] at heval
  have h := file_references_exact ⟨es, hs⟩
  refine ⟨s, t, ⟨es, hs⟩, hout, href, ((h.2.1 hout).1 _).symm.trans href, ht, heval.2, ?_⟩
  exact (h.2.2.2 _ _ 6 t hout rfl ht heval.1 heval.2).1

end Xv6.Descriptors
