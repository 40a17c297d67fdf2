import Xv6.File.View
import Xv6.Lib.Count

/-!
# References to files are counted exactly

The number in an entry of the table of files is the number of descriptors that point to it, plus the references of system
calls that are under way. There is one lemma for each thing an action can do to references and descriptor tables.
-/

namespace Xv6.Descriptors

open Lib Function

variable {Page : Type} {s : Files Page} {w : Pid → View Page} {p q : Pid} {v : View Page} {f g : FileId}
  {pr : Option Proc} {s' : Files Page} {e : File Page}

def fdsAt (f : FileId) : Option Proc → ℕ
  | some pr => Table.fds f pr.ofile
  | none => 0

/-- What a process in the middle of a call knows of the tables. -/
structure Local (s : Files Page) (p : Pid) (v : View Page) : Prop where
  fresh : ∀ f, v.fresh f = true →
    (s.ftable f).type = .none ∧ (s.ftable f).ref = 1 ∧ 0 < v.uses f
  proc : ∀ o, v.proc = some o → s.procs p = some ⟨o, true⟩ ∧ s.failed p = false
  child : ∀ q c, v.child = some (q, c) → s.procs q = some ⟨c, false⟩
  saved : v.saved = s.before p
  /-- The descriptors that were there are still there. -/
  kept : ∀ o, v.saved = some o →
    ∃ o', s.procs p = some ⟨o', true⟩ ∧ ∀ fd f, o fd = some f → o' fd = some f

/-- **References are counted.** -/
structure Refs (s : Files Page) (w : Pid → View Page) : Prop where
  each : ∀ p, Local s p (w p)
  refs : ∀ f, (s.ftable f).ref = ∑ p, fdsAt f (s.procs p) + ∑ p, (w p).files f
  free : ∀ f, (s.ftable f).ref = 0 → (s.ftable f).type = .none
  filled : ∀ f, 0 < (s.ftable f).ref → (s.ftable f).type = .none → ∃ p, (w p).fresh f = true
  /-- A child does not run, and is made by one process only. -/
  child : ∀ p q c, (w p).child = some (q, c) →
    (w q).proc = none ∧ ∀ r c', (w r).child = some (q, c') → r = p
  failed : ∀ p, s.failed p = true → ∃ o, s.before p = some o ∧ s.procs p = some ⟨o, true⟩

/-! ### Counting descriptors -/

namespace Table

variable (o : Table) (fd : Fd)

theorem fds_update (r : Option FileId) (g : FileId) : fds g (update o fd r) + (if o fd = some g then 1 else 0) =
      fds g o + if r = some g then 1 else 0 :=
  sum_update (fun r : Option FileId => if r = some g then 1 else 0) o fd r

variable {o fd}

theorem fds_pos (h : o fd = some f) : 0 < fds f o := by
  have := le_sum (fun r : Option FileId => if r = some f then 1 else 0) o fd
  rw [h, if_pos rfl] at this
  exact this

theorem fds_bare : fds f bare = 0 := by
  simp [fds, bare]

theorem fds_take (h : o fd = none) : fds g (update o fd (some f)) = fds g o + if f = g then 1 else 0 := by
  have := fds_update o fd (some f) g
  simpa [h] using this

theorem fds_clear (h : o fd = some f) : fds g (update o fd none) + (if f = g then 1 else 0) = fds g o := by
  have := fds_update o fd none g
  simpa [h] using this

end Table

/-! ### Changing one thing -/

namespace Local

theorem congr (h : Local s p v) (hproc : s'.procs p = s.procs p) (hfile : ∀ f, v.fresh f = true → s'.ftable f = s.ftable f)
    (hchild : ∀ q c, v.child = some (q, c) → s'.procs q = s.procs q)
    (hbefore : s'.before p = s.before p) (hfailed : s'.failed p = s.failed p) : Local s' p v where
  fresh f hf := by
    rw [hfile f hf]
    exact h.fresh f hf
  proc o ho := by
    rw [hproc, hfailed]
    exact h.proc o ho
  child q c hq := (hchild q c hq).trans (h.child q c hq)
  saved := h.saved.trans hbefore.symm
  kept o ho := by
    rw [hproc]
    exact h.kept o ho

end Local

namespace Refs

variable (h : Refs s w)

include h

theorem uses_le (p : Pid) (f : FileId) : (w p).uses f ≤ fdsAt f (s.procs p) + (w p).files f := by
  rw [View.uses]
  cases ho : (w p).proc with
  | none => exact Nat.le_add_left ..
  | some o =>
    rw [((h.each p).proc o ho).1]
    exact Nat.le_of_eq (Nat.add_comm ..)

theorem files_le (p : Pid) (f : FileId) : fdsAt f (s.procs p) + (w p).files f ≤ (s.ftable f).ref := by
  have := le_sum (fdsAt f) s.procs p
  have := le_sum (fun v : View Page => v.files f) w p
  have := h.refs f
  omega

theorem files_add_le (hpq : p ≠ q) (f : FileId) : fdsAt f (s.procs p) + (w p).files f + (fdsAt f (s.procs q) + (w q).files f) ≤ (s.ftable f).ref := by
  have := add_le_sum (fdsAt f) s.procs hpq
  have := add_le_sum (fun v : View Page => v.files f) w hpq
  have := h.refs f
  omega

theorem fresh_other (hpq : q ≠ p) (hq : (w q).fresh f = true) : fdsAt f (s.procs p) + (w p).files f = 0 := by
  have := h.files_add_le hpq f
  have := h.uses_le q f
  have := (h.each q).fresh f hq
  omega

theorem child_ne {o : Table} {r : Pid} {c : Table} (ho : (w p).proc = some o) (hr : (w r).child = some (q, c)) : q ≠ p := by
  rintro rfl
  rw [(h.child r q c hr).1] at ho
  cases ho

theorem pages (P : Page → Option Pipe) : Refs { s with pages := P } w where
  each p := ⟨(h.each p).fresh, (h.each p).proc, (h.each p).child, (h.each p).saved, (h.each p).kept⟩
  refs := h.refs
  free := h.free
  filled := h.filled
  child := h.child
  failed := h.failed

/-- It is enough to look at what an action changes: one file, one process, and the rights of `p`. -/
theorem rebuild (hprocs : s'.procs = update s.procs q pr) (hself : Local s' p v)
    (hother : ∀ r, r ≠ p → Local s' r (w r))
    (hcount : ∀ g, (s'.ftable g).ref + fdsAt g (s.procs q) + (w p).files g = (s.ftable g).ref + fdsAt g pr + v.files g)
    (hfree : ∀ g, (s'.ftable g).ref = 0 → (s'.ftable g).type = .none)
    (hfilled : ∀ g, 0 < (s'.ftable g).ref → (s'.ftable g).type = .none →
      v.fresh g = true ∨ v.fresh g = (w p).fresh g ∧ 0 < (s.ftable g).ref ∧ (s.ftable g).type = .none)
    (hproc : (w p).proc = none → v.proc = none ∨ ∀ r c, (w r).child ≠ some (p, c) ∧ v.child ≠ some (p, c))
    (hchild : ∀ q c, v.child = some (q, c) → (w q).proc = none ∧ ∀ r c', (w r).child = some (q, c') → r = p)
    (hfailed : ∀ p, s'.failed p = true → ∃ o, s'.before p = some o ∧ s'.procs p = some ⟨o, true⟩) :
    Refs s' (update w p v) := by
  refine ⟨forall_update hself hother, fun g => ?_, hfree, fun g hg htype => ?_, fun a b c hab => ?_, hfailed⟩
  · have hsum := sum_update (fun v : View Page => v.files g) w p v
    have hfds := sum_update (fdsAt g) s.procs q pr
    have hold := h.refs g
    have hg := hcount g
    rw [hprocs]
    omega
  · rcases hfilled g hg htype with hf | ⟨hf, hg, htype⟩
    · exact ⟨p, by rwa [update_self]⟩
    · obtain ⟨r, hr⟩ := h.filled g hg htype
      refine ⟨r, ?_⟩
      rcases eq_or_ne r p with rfl | hrp
      · rw [update_self, hf, hr]
      · rwa [update_of_ne hrp]
  · have hnone := forall_update (P := fun b u => (w b).proc = none → (w a).child = some (b, c) ∨ v.child = some (b, c) → View.proc u = none)
      (fun hb hab => (hproc hb).resolve_right fun hno => hab.elim (hno a c).1 (hno a c).2) (fun _ _ hb _ => hb) b
    rcases eq_or_ne a p with rfl | hap
    · rw [update_self] at hab
      refine ⟨hnone (hchild b c hab).1 (.inr hab), fun r c' hr => ?_⟩
      by_contra hra
      rw [update_of_ne hra] at hr
      exact hra ((hchild b c hab).2 r c' hr)
    · rw [update_of_ne hap] at hab
      refine ⟨hnone (h.child a b c hab).1 (.inl hab), fun r c' hr => ?_⟩
      rcases eq_or_ne r p with rfl | hrp
      · rw [update_self] at hr
        exact absurd ((hchild b c' hr).2 a c hab) hap
      · rw [update_of_ne hrp] at hr
        exact (h.child a b c hab).2 r c' hr

theorem setClosing (e : Option (Page × Bool)) : Refs s (update w p ((w p).setClosing e)) :=
  have hp := h.each p
  h.rebuild (update_eq_self p s.procs).symm ⟨hp.fresh, hp.proc, hp.child, hp.saved, hp.kept⟩ (fun r _ => h.each r)
    (fun _ => rfl) h.free (fun _ hg htype => .inr ⟨rfl, hg, htype⟩) .inl (h.child p) h.failed

variable {files : FileId → ℕ}

theorem file {fresh : FileId → Bool} {closing : Option (Page × Bool)}
    (hother : ∀ q, q ≠ p → (w q).fresh f = false) (hcount : e.ref + (w p).files f = (s.ftable f).ref + files f)
    (hfiles : ∀ g, g ≠ f → files g = (w p).files g) (hfree : e.ref = 0 → e.type = .none)
    (hfreshs : ∀ g, g ≠ f → fresh g = (w p).fresh g)
    (hfresh : fresh f = true → e.type = .none ∧ e.ref = 1 ∧ 0 < ({ w p with files := files } : View Page).uses f)
    (hfilled : 0 < e.ref → e.type = .none → fresh f = true) :
    Refs (s.setFile f e) (update w p { w p with files := files, fresh := fresh, closing := closing }) := by
  have hp := h.each p
  have hf : (s.setFile f e).ftable f = e := update_self ..
  have hne : ∀ g, g ≠ f → (s.setFile f e).ftable g = s.ftable g := fun g hg => update_of_ne hg ..
  refine h.rebuild (update_eq_self p s.procs).symm ⟨fun g hg => ?_, hp.proc, hp.child, hp.saved, hp.kept⟩
    (fun q hq => (h.each q).congr rfl (fun g hg => hne g ?_) (fun _ _ _ => rfl) rfl rfl) (fun g => ?_) (fun g hg => ?_)
    (fun g hg htype => ?_) .inl (h.child p) h.failed <;> try dsimp only
  · rcases eq_or_ne g f with rfl | hgf
    · rw [hf]
      exact hfresh hg
    · have hold := hp.fresh g ((hfreshs g hgf).symm.trans hg)
      rw [View.uses, ← hfiles g hgf] at hold
      rwa [hne g hgf]
  · rintro rfl
    rw [hother q hq] at hg
    cases hg
  · rcases eq_or_ne g f with rfl | hgf
    · rw [hf]
      omega
    · rw [hne g hgf, hfiles g hgf]
  · rcases eq_or_ne g f with rfl | hgf
    · rw [hf] at hg ⊢
      exact hfree hg
    · rw [hne g hgf] at hg ⊢
      exact h.free g hg
  · rcases eq_or_ne g f with rfl | hgf
    · rw [hf] at hg htype
      exact .inl (hfilled hg htype)
    · rw [hne g hgf] at hg htype
      exact .inr ⟨hfreshs g hgf, hg, htype⟩

/-! ### Files -/

theorem fresh_of_use (hf : 0 < fdsAt f (s.procs p) + (w p).files f) (hq : q ≠ p) : (w q).fresh f = false := by
  by_contra hfr
  have := h.fresh_other hq (by simpa using hfr)
  omega

theorem filealloc (hf : (s.ftable f).ref = 0) : Refs (s.setFile f { s.ftable f with ref := 1 }) (update w p ((w p).alloc f)) := by
  have hfresh : ∀ q, (w q).fresh f = false := by
    intro q
    by_contra hq
    have := (h.each q).fresh f (by simpa using hq)
    omega
  refine h.file (fun q _ => hfresh q) ?_ (fun g hg => update_of_ne hg ..) (fun h0 => ?_)
    (fun g hg => update_of_ne hg ..) (fun _ => ⟨h.free f hf, rfl, ?_⟩) (fun _ _ => update_self ..)
  · simp only [View.addFile, update_self]
    omega
  · cases h0
  · simp only [View.uses, View.addFile, update_self]
    omega

theorem filedup (hf : 0 < fdsAt f (s.procs p)) (hp : (w p).fresh f = false) : Refs (s.setFile f { s.ftable f with ref := (s.ftable f).ref + 1 })
      (update w p ((w p).addFile f)) := by
  refine h.file (fun q hq => h.fresh_of_use (by omega) hq) ?_ (fun g hg => update_of_ne hg ..)
    (fun h0 => ?_) (fun g _ => rfl) (fun hfr => ?_) (fun _ htype => ?_)
  · rw [update_self]
    dsimp only
    omega
  · cases h0
  · exact absurd hfr (ne_true_of_eq_false hp)
  · have := h.files_le p f
    obtain ⟨q, hq⟩ := h.filled f (by omega) htype
    by_cases hqp : q = p
    · rwa [hqp] at hq
    · rw [h.fresh_of_use (by omega) hqp] at hq
      cases hq

theorem fileclose (hp : 0 < (w p).files f) (hf : 1 < (s.ftable f).ref) : Refs (s.setFile f { s.ftable f with ref := (s.ftable f).ref - 1 })
      (update w p ((w p).release f)) := by
  refine h.file (fun q hq => h.fresh_of_use (by omega) hq) ?_ (fun g hg => update_of_ne hg ..)
    (fun h0 => ?_) (fun g hg => update_of_ne hg ..) (fun hfr => ?_) (fun _ htype => ?_)
  · simp only [View.dropFile, update_self]
    omega
  · dsimp only at h0
    omega
  · simp at hfr
  · -- a file that is not filled in has one reference
    obtain ⟨q, hq⟩ := h.filled f (by omega) htype
    have := (h.each q).fresh f hq
    omega

theorem filefree {e : Option (Page × Bool)} (hp : 0 < (w p).files f) (hf : (s.ftable f).ref = 1) :
    Refs (s.setFile f { s.ftable f with ref := 0, type := .none }) (update w p (((w p).release f).setClosing e)) := by
  refine h.file (fun q hq => h.fresh_of_use (by omega) hq) ?_ (fun g hg => update_of_ne hg ..)
    (fun _ => rfl) (fun g hg => update_of_ne hg ..) (fun hfr => ?_) (fun h0 => ?_)
  · simp only [View.release, View.setFresh, View.dropFile, update_self]
    omega
  · simp [View.release, View.setFresh] at hfr
  · cases h0

theorem fill (hf : (w p).fresh f = true) (href : e.ref = (s.ftable f).ref)
    (htype : e.type ≠ .none) : Refs (s.setFile f e) (update w p ((w p).setFresh f false)) := by
  obtain ⟨-, hone, huse⟩ := (h.each p).fresh f hf
  have := h.uses_le p f
  refine h.file (fun q hq => h.fresh_of_use (by omega) hq) ?_ (fun g _ => rfl) (fun h0 => ?_)
    (fun g hg => update_of_ne hg ..) (fun hfr => ?_) (fun _ hn => absurd hn htype)
  · rw [href]
  · omega
  · simp at hfr

theorem makePipe [DecidableEq Page] {pi : Page} (hf : (w p).fresh f = true) (hg : (w p).fresh g = true) (hfg : f ≠ g) :
    Refs (s.makePipe pi f g) (update w p (((w p).setFresh f false).setFresh g false)) := by
  have h₀ := (h.pages (update s.pages pi (some ⟨true, true⟩))).fill (e := { s.ftable f with
    type := .pipe, readable := true, writable := false, pipe := some pi }) hf rfl (by simp)
  have hg' : (update w p ((w p).setFresh f false) p).fresh g = true := by
    rw [update_self]
    exact (update_of_ne hfg.symm ..).trans hg
  have h₁ := h₀.fill (e := { s.ftable g with
    type := .pipe, readable := false, writable := true, pipe := some pi }) hg'
    (by simp [Files.setFile, update_of_ne hfg.symm]) (by simp)
  rw [update_self, update_idem] at h₁
  convert h₁ using 1
  simp [Files.makePipe, Files.setFile, Files.setPage, update_of_ne hfg.symm]

/-! ### Descriptor tables -/

theorem own {o : Table} {o' : Option Table}
    (hproc : ∀ a, o' = some a → pr = some ⟨a, true⟩) (ho : (w p).proc = some o)
    (hcount : ∀ g, fdsAt g pr + files g = Table.fds g o + (w p).files g) (hkept : ∀ a, (w p).saved = some a →
      ∃ b, pr = some ⟨b, true⟩ ∧ ∀ fd f, a fd = some f → b fd = some f)
    (huses : ∀ g, (w p).fresh g = true → 0 < (w p).uses g →
      0 < ({ w p with files := files, proc := o' } : View Page).uses g) :
    Refs (s.setProc p pr) (update w p { w p with files := files, proc := o' }) := by
  have hp := h.each p
  obtain ⟨hold, hfailed⟩ := hp.proc o ho
  have hself : (s.setProc p pr).procs p = pr := update_self ..
  have hne : ∀ q, q ≠ p → (s.setProc p pr).procs q = s.procs q := fun q hq => update_of_ne hq ..
  refine h.rebuild rfl ⟨fun g hg => ?_, fun a ha => ⟨hself.trans (hproc a ha), hfailed⟩, fun q c hq => ?_, hp.saved,
      fun a ha => ?_⟩
    (fun q hq => (h.each q).congr (hne q hq) (fun _ _ => rfl) (fun r c hr => hne r (h.child_ne ho hr)) rfl rfl)
    (fun g => ?_) h.free (fun _ hg htype => .inr ⟨rfl, hg, htype⟩) (fun hn => ?_) (h.child p) (fun q hq => ?_)
  · obtain ⟨htype, href, huse⟩ := hp.fresh g hg
    exact ⟨htype, href, huses g hg huse⟩
  · rw [hne q (h.child_ne ho hq)]
    exact hp.child q c hq
  · rw [hself]
    exact hkept a ha
  · have := hcount g
    rw [hold]
    change (s.ftable g).ref + Table.fds g o + _ = _
    dsimp only
    omega
  · rw [ho] at hn
    cases hn
  · have hqp : q ≠ p := by
      rintro rfl
      exact absurd hq (ne_true_of_eq_false hfailed)
    rw [hne q hqp]
    exact h.failed q hq

theorem table {o o' : Table} (ho : (w p).proc = some o)
    (hcount : ∀ g, Table.fds g o' + files g = Table.fds g o + (w p).files g)
    (hkept : ∀ a, (w p).saved = some a → ∀ fd f, a fd = some f → o' fd = some f) :
    Refs (s.setProc p (some ⟨o', true⟩)) (update w p { w p with files := files, proc := some o' }) := by
  refine h.own (fun a ha => by rw [Option.some.inj ha]) ho hcount (fun a hs => ⟨o', rfl, hkept a hs⟩) (fun g _ hg => ?_)
  have := hcount g
  rw [View.uses, ho] at hg
  simp only [View.uses, Option.map_some, Option.getD_some] at hg ⊢
  omega

theorem kept_of {o o' : Table} {fd : Fd} (ho : (w p).proc = some o) (hs : (w p).saved = some o') (hfd : o' fd = some f) : o fd = some f := by
  obtain ⟨o'', hpr, hkept⟩ := (h.each p).kept o' hs
  rw [((h.each p).proc o ho).1] at hpr
  cases hpr
  exact hkept fd f hfd

theorem fdalloc {o : Table} {fd : Fd} (ho : (w p).proc = some o) (hfd : o fd = none) (hf : 0 < (w p).files f) :
    Refs (s.setProc p (some ⟨update o fd (some f), true⟩)) (update w p (((w p).dropFile f).setTable (update o fd (some f)))) := by
  refine h.table ho (fun g => ?_) (fun o' hs fd' g hg => ?_)
  · change _ + update (w p).files f ((w p).files f - 1) g = _
    rw [Table.fds_take hfd]
    rcases eq_or_ne g f with rfl | hgf
    · rw [update_self, if_pos rfl]
      omega
    · rw [update_of_ne hgf, if_neg (Ne.symm hgf), Nat.add_zero]
  · have hold := h.kept_of ho hs hg
    have hne : fd' ≠ fd := by
      rintro rfl
      rw [hfd] at hold
      cases hold
    rw [update_of_ne hne, hold]

theorem clearFd {o : Table} {fd : Fd} (ho : (w p).proc = some o) (hfd : o fd = some f) (hs : ∀ o', (w p).saved = some o' → o' fd = none) :
    Refs (s.setProc p (some ⟨update o fd none, true⟩)) (update w p (((w p).addFile f).setTable (update o fd none))) := by
  refine h.table ho (fun g => ?_) (fun o' hs' fd' g hg => ?_)
  · have := Table.fds_clear (g := g) hfd
    change _ + update (w p).files f ((w p).files f + 1) g = _
    rcases eq_or_ne g f with rfl | hgf
    · rw [if_pos rfl] at this
      rw [update_self]
      omega
    · rw [if_neg (Ne.symm hgf)] at this
      rw [update_of_ne hgf]
      omega
  · have hold := h.kept_of ho hs' hg
    have hne : fd' ≠ fd := by
      rintro rfl
      rw [hs o' hs'] at hg
      cases hg
    rw [update_of_ne hne, hold]

theorem zombie (ho : (w p).proc = some bare) (hf : ∀ g, (w p).fresh g = false)
    (hs : (w p).saved = none) : Refs (s.setProc p none) (update w p (w p).away) := by
  refine h.own (fun _ ho' => ?_) ho (fun g => ?_) (fun _ hs' => ?_) (fun g hg => ?_)
  · cases ho'
  · rw [Table.fds_bare]
    rfl
  · rw [hs] at hs'
    cases hs'
  · rw [hf g] at hg
    cases hg

theorem leave {o : Table} {b : Bool} (ho : (w p).saved = some o) (hb : b = true → (w p).proc = some o)
    (hf : ∀ g, (w p).fresh g = false) : Refs { s with failed := update s.failed p b } (update w p (w p).away) := by
  have hp := h.each p
  refine h.rebuild (update_eq_self p s.procs).symm ⟨fun g hg => ?_, fun o' ho' => ?_, hp.child, hp.saved, hp.kept⟩
    (fun q hq => (h.each q).congr rfl (fun _ _ => rfl) (fun _ _ _ => rfl) rfl (update_of_ne hq ..)) (fun _ => rfl) h.free
    (fun _ hg htype => .inr ⟨rfl, hg, htype⟩) (fun _ => .inl rfl) (h.child p) (fun q hq => ?_)
  · exact absurd hg (ne_true_of_eq_false (hf g))
  · cases ho'
  dsimp only at hq
  rcases eq_or_ne q p with rfl | hqp
  · rw [update_self] at hq
    exact ⟨o, hp.saved.symm.trans ho, (hp.proc o (hb hq)).1⟩
  · rw [update_of_ne hqp] at hq
    exact h.failed q hq

/-! ### Children -/

theorem other {c : Option Proc} {child : Option (Pid × Table)} (hpq : q ≠ p)
    (hq : (w q).proc = none) (hold : ∀ pr, s.procs q = some pr → pr.ready = false)
    (hsole : ∀ r c', r ≠ p → (w r).child ≠ some (q, c'))
    (hchild : ∀ r c', child = some (r, c') → r = q ∧ c = some ⟨c', false⟩)
    (hcount : ∀ g, fdsAt g c + files g = fdsAt g (s.procs q) + (w p).files g)
    (hfresh : ∀ g, (w p).fresh g = true → files g = (w p).files g) :
    Refs (s.setProc q c) (update w p { w p with files := files, child := child }) := by
  have hp := h.each p
  have hself : (s.setProc q c).procs q = c := update_self ..
  have hne : ∀ r, r ≠ q → (s.setProc q c).procs r = s.procs r := fun r hr => update_of_ne hr ..
  refine h.rebuild rfl ⟨fun g hg => ?_, hne p hpq.symm ▸ hp.proc, fun r c' hr => ?_, hp.saved, hne p hpq.symm ▸ hp.kept⟩
    (fun r hr => ?_) (fun g => ?_) h.free (fun _ hg htype => .inr ⟨rfl, hg, htype⟩) .inl (fun r c' hr => ?_) (fun r hr => ?_)
  · have huses := hp.fresh g hg
    rwa [View.uses, ← hfresh g hg] at huses
  · obtain ⟨rfl, hc⟩ := hchild r c' hr
    exact hself.trans hc
  · rcases eq_or_ne r q with rfl | hrq
    · have hq' := h.each r
      refine ⟨hq'.fresh, fun o ho => ?_, fun b d hb => ?_, hq'.saved, fun o ho => ?_⟩
      · rw [hq] at ho
        cases ho
      · rw [hne b]
        · exact hq'.child b d hb
        · rintro rfl
          exact hsole b d hpq hb
      · obtain ⟨o', hpr, -⟩ := hq'.kept o ho
        exact absurd (hold _ hpr) Bool.true_eq_false.mp
    · refine (h.each r).congr (hne r hrq) (fun _ _ => rfl) (fun b d hb => hne b ?_) rfl rfl
      rintro rfl
      exact hsole r d hr hb
  · have := hcount g
    change (s.ftable g).ref + _ + _ = _
    dsimp only
    omega
  · obtain ⟨rfl, -⟩ := hchild r c' hr
    exact ⟨hq, fun a d ha => by_contra fun hap => hsole a d hap ha⟩
  · obtain ⟨o, hb, hpr⟩ := h.failed r hr
    have hrq : r ≠ q := by
      rintro rfl
      exact absurd (hold _ hpr) Bool.true_eq_false.mp
    exact ⟨o, hb, (hne r hrq).trans hpr⟩

theorem child_sole {c : Table} (hq : (w p).child = some (q, c)) (r : Pid) (c' : Table) (hr : r ≠ p) :
    (w r).child ≠ some (q, c') := fun hc => hr ((h.child p q c hq).2 r c' hc)

theorem allocproc {o : Table} (ho : (w p).proc = some o) (hq : s.procs q = none) :
    Refs (s.setProc q (some ⟨bare, false⟩)) (update w p ((w p).setChild (some (q, bare)))) := by
  have hpq : q ≠ p := by
    rintro rfl
    rw [((h.each q).proc o ho).1] at hq
    cases hq
  have hproc : (w q).proc = none := by
    rw [Option.eq_none_iff_forall_not_mem]
    intro o' ho'
    rw [((h.each q).proc o' ho').1] at hq
    cases hq
  refine h.other hpq hproc (fun pr hpr => ?_) (fun r c' _ hr => ?_) (fun r c' hr => ?_) (fun g => ?_) (fun g _ => rfl)
  · rw [hq] at hpr
    cases hpr
  · rw [(h.each r).child q c' hr] at hq
    cases hq
  · cases hr
    exact ⟨rfl, rfl⟩
  · rw [hq]
    change Table.fds g bare + _ = _
    rw [Table.fds_bare]
    rfl

section Child

variable {c : Table} (hq : (w p).child = some (q, c)) (hpq : q ≠ p)

include hq hpq

theorem giveFd {fd : Fd} (hfd : c fd = none) (hf : 0 < (w p).files f) (hfresh : ∀ g, (w p).fresh g = false) :
    Refs (s.setProc q (some ⟨update c fd (some f), false⟩)) (update w p (((w p).dropFile f).setChild (some (q, update c fd (some f))))) := by
  have hpr := (h.each p).child q c hq
  refine h.other hpq (h.child p q c hq).1 (fun pr hpr' => ?_) (h.child_sole hq) (fun r c' hr => ?_) (fun g => ?_) (fun g hg => ?_)
  · cases hpr.symm.trans hpr'
    rfl
  · cases hr
    exact ⟨rfl, rfl⟩
  · rw [hpr]
    change Table.fds g (update c fd (some f)) + update (w p).files f ((w p).files f - 1) g = Table.fds g c + _
    rw [Table.fds_take hfd]
    rcases eq_or_ne g f with rfl | hgf
    · rw [update_self, if_pos rfl]
      omega
    · rw [update_of_ne hgf, if_neg (Ne.symm hgf), Nat.add_zero]
  · rw [hfresh g] at hg
    cases hg

theorem spawn : Refs (s.setProc q (some ⟨c, true⟩)) (update w p ((w p).setChild none)) := by
  have hpr := (h.each p).child q c hq
  refine h.other hpq (h.child p q c hq).1 (fun pr hpr' => ?_) (h.child_sole hq) (fun r c' hr => ?_) (fun g => ?_) (fun g _ => rfl)
  · cases hpr.symm.trans hpr'
    rfl
  · cases hr
  · rw [hpr]
    rfl

theorem freeproc (hc : c = bare) : Refs (s.setProc q none) (update w p ((w p).setChild none)) := by
  have hpr := (h.each p).child q c hq
  refine h.other hpq (h.child p q c hq).1 (fun pr hpr' => ?_) (h.child_sole hq) (fun r c' hr => ?_) (fun g => ?_) (fun g _ => rfl)
  · cases hpr.symm.trans hpr'
    rfl
  · cases hr
  · rw [hpr, hc]
    change 0 + _ = Table.fds g bare + _
    rw [Table.fds_bare]

end Child

end Refs

end Xv6.Descriptors
