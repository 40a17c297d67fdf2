import Xv6.Fs.Balance
import Xv6.Lib.Count

/-!
# The tables and the rights of the processes

What the tables of the file system say is what the rights of the processes add up to: an
inode is locked by the process that has the lock, and its reference count is the number of
open files, working directories and references in flight. Every action keeps this, for a
process with the rights it needs.
-/

namespace Xv6.FileSys

open Lib Function

/-! ### The invariant -/

def File.at (k : Slot) (e : File) : ℕ := if e.type ≠ .none ∧ e.ip = k then 1 else 0

def cwdAt (k : Slot) (o : Option Proc) : ℕ := if (o.bind fun pr => pr.cwd) = some k then 1 else 0

def fdsAt (f : FileId) (o : Option Proc) : ℕ := o.elim 0 (Proc.fds f)

/-- What the rights of one process mean for the tables. -/
structure Local (s : Fs) (p : Pid) (v : View) : Prop where
  ops : s.ops p = if v.txn then 1 else 0
  locks : ∀ k, v.locks k = true ↔ (s.itable k).lock = some p
  held : ∀ k, v.locks k = true → 0 < v.refs k ∨ ∃ f, v.known f = some k
  known : ∀ f k, v.known f = some k →
    0 < fdsAt f (s.procs p) ∧ (s.ftable f).type ≠ .none ∧ (s.ftable f).ip = k
  fresh : ∀ f, v.fresh f = true →
    (s.ftable f).type = .none ∧ (s.ftable f).ref = 1 ∧ 0 < v.files f + fdsAt f (s.procs p)
  proc : ∀ pr, v.proc = some pr → s.procs p = some pr
  child : ∀ q, v.child = some q → s.procs q = some Proc.embryo
  light : v.light = true → ∀ k, v.refs k = 0

/-- **The tables are what the rights add up to.** -/
structure Rights (s : Fs) (w : Pid → View) : Prop where
  each : ∀ p, Local s p (w p)
  refs : ∀ k, (s.itable k).ref =
    ∑ f, (s.ftable f).at k + ∑ p, cwdAt k (s.procs p) + ∑ p, (w p).refs k
  frefs : ∀ f, (s.ftable f).ref = ∑ p, fdsAt f (s.procs p) + ∑ p, (w p).files f
  free : ∀ f, (s.ftable f).ref = 0 → (s.ftable f).type = .none
  distinct : ∀ k j, 0 < (s.itable k).ref → 0 < (s.itable j).ref →
    (s.itable k).inum = (s.itable j).inum → k = j
  child : ∀ p q, (w p).child = some q → (w q).proc = none ∧ ∀ r, (w r).child = some q → r = p

variable {s s' : Fs} {w : Pid → View} {p q : Pid} {v : View} {k j : Slot} {f : FileId} {o : Option Proc}
  {e : File}

theorem Local.congr (h : Local s p v) (hops : s'.ops p = s.ops p) (hlock : ∀ k, (s'.itable k).lock = some p ↔ (s.itable k).lock = some p)
    (hproc : s'.procs p = s.procs p) (hchild : ∀ q, v.child = some q → s'.procs q = s.procs q)
    (hknown : ∀ f k, v.known f = some k → s'.ftable f = s.ftable f) (hfresh : ∀ f, v.fresh f = true → s'.ftable f = s.ftable f) : Local s' p v where
  ops := hops ▸ h.ops
  locks k := (h.locks k).trans (hlock k).symm
  held := h.held
  known f k hf := by rw [hproc, hknown f k hf]; exact h.known f k hf
  fresh f hf := by rw [hproc, hfresh f hf]; exact h.fresh f hf
  proc pr hpr := by rw [hproc]; exact h.proc pr hpr
  child q hq := by rw [hchild q hq]; exact h.child q hq
  light := h.light

namespace Rights

variable (h : Rights s w)

include h

/-- It is enough to look at what an action changes: one inode, one file, one process, and the rights of `p`. -/
theorem rebuild (hftable : s'.ftable = update s.ftable f e)
    (hprocs : s'.procs = update s.procs q o) (hself : Local s' p v) (hother : ∀ r, r ≠ p → Local s' r (w r))
    (hrefs : ∀ k, (s'.itable k).ref + (s.ftable f).at k + cwdAt k (s.procs q) + (w p).refs k =
      (s.itable k).ref + e.at k + cwdAt k o + v.refs k)
    (hfrefs : ∀ g, (s'.ftable g).ref + fdsAt g (s.procs q) + (w p).files g = (s.ftable g).ref + fdsAt g o + v.files g)
    (hfree : ∀ g, (s'.ftable g).ref = 0 → (s'.ftable g).type = .none)
    (hdistinct : ∀ k j, 0 < (s'.itable k).ref → 0 < (s'.itable j).ref → (s'.itable k).inum = (s'.itable j).inum → k = j)
    (hproc : (w p).proc = none → v.proc = none ∨ ∀ r, (w r).child ≠ some p ∧ v.child ≠ some p)
    (hchild : ∀ q, v.child = some q → (w q).proc = none ∧ ∀ r, (w r).child = some q → r = p) :
    Rights s' (update w p v) := by
  refine ⟨forall_update hself hother, fun k => ?_, fun g => ?_, hfree, hdistinct, fun a b hab => ?_⟩
  · have hsum := sum_update (fun v : View => v.refs k) w p v
    have hfile := sum_update (File.at k) s.ftable f e
    have hcwd := sum_update (cwdAt k) s.procs q o
    have hold := h.refs k
    have hk := hrefs k
    rw [hftable, hprocs]
    omega
  · have hsum := sum_update (fun v : View => v.files g) w p v
    have hfds := sum_update (fdsAt g) s.procs q o
    have hold := h.frefs g
    have hg := hfrefs g
    rw [hprocs]
    omega
  · have hnone := forall_update (P := fun b u => (w b).proc = none → (w a).child = some b ∨ v.child = some b → View.proc u = none)
      (fun hb hab => (hproc hb).resolve_right fun hno => hab.elim (hno a).1 (hno a).2) (fun _ _ hb _ => hb) b
    rcases eq_or_ne a p with rfl | hap
    · rw [update_self] at hab
      refine ⟨hnone (hchild b hab).1 (.inr hab), fun r hr => ?_⟩
      by_contra hra
      rw [update_of_ne hra] at hr
      exact hra ((hchild b hab).2 r hr)
    · rw [update_of_ne hap] at hab
      refine ⟨hnone (h.child a b hab).1 (.inl hab), fun r hr => ?_⟩
      rcases eq_or_ne r p with rfl | hrp
      · rw [update_self] at hr
        exact absurd ((hchild b hr).2 a hab) hap
      · rw [update_of_ne hrp] at hr
        exact (h.child a b hab).2 r hr

theorem disk (hproc : s'.procs = s.procs) (hftable : s'.ftable = s.ftable) (hops : s'.ops = s.ops)
    (hinum : ∀ k, (s'.itable k).inum = (s.itable k).inum) (href : ∀ k, (s'.itable k).ref = (s.itable k).ref)
    (hlock : ∀ k, (s'.itable k).lock = (s.itable k).lock) : Rights s' w where
  each p := (h.each p).congr (by rw [hops]) (fun k => by rw [hlock]) (by rw [hproc])
    (fun _ _ => by rw [hproc]) (fun _ _ _ => by rw [hftable]) (fun _ _ => by rw [hftable])
  refs k := by rw [href, hftable, hproc]; exact h.refs k
  frefs f := by rw [hftable, hproc]; exact h.frefs f
  free f hf := by rw [hftable] at hf ⊢; exact h.free f hf
  distinct k j hk hj heq := by
    rw [href] at hk hj
    rw [hinum, hinum] at heq
    exact h.distinct k j hk hj heq
  child := h.child

variable {refs : Slot → ℕ} {files : FileId → ℕ}

theorem slot {e : Inode} {locks : Slot → Bool} (hrefs : ∀ j, j ≠ k → refs j = (w p).refs j)
    (hlocks : ∀ j, j ≠ k → locks j = (w p).locks j) (href : e.ref + (w p).refs k = (s.itable k).ref + refs k)
    (hself : locks k = true ↔ e.lock = some p) (hother : ∀ q, q ≠ p → (e.lock = some q ↔ (s.itable k).lock = some q))
    (hheld : locks k = true → 0 < refs k ∨ ∃ f, (w p).known f = some k)
    (hdistinct : ∀ j, j ≠ k → 0 < e.ref → 0 < (s.itable j).ref → e.inum ≠ (s.itable j).inum)
    (hlight : (w p).light = true → refs k = 0) :
    Rights (s.setInode k e) (update w p { w p with refs := refs, locks := locks }) := by
  have hp := h.each p
  have hk : (s.setInode k e).itable k = e := update_self ..
  have hne : ∀ j, j ≠ k → (s.setInode k e).itable j = s.itable j := fun j hj => update_of_ne hj ..
  refine h.rebuild (update_eq_self 0 s.ftable).symm (update_eq_self p s.procs).symm
    ⟨hp.ops, fun j => ?_, fun j hj => ?_, hp.known, hp.fresh, hp.proc, hp.child, fun hl j => ?_⟩
    (fun q hq => (h.each q).congr rfl (fun j => ?_) rfl (fun _ _ => rfl) (fun _ _ _ => rfl) (fun _ _ => rfl))
    (fun j => ?_) (fun _ => rfl) h.free (fun a b ha hb hab => ?_) .inl (h.child p) <;> try dsimp only
  · rcases eq_or_ne j k with rfl | hjk
    · rwa [hk]
    · rw [hne j hjk, hlocks j hjk]
      exact hp.locks j
  · rcases eq_or_ne j k with rfl | hjk
    · exact hheld hj
    · rw [hrefs j hjk]
      exact hp.held j ((hlocks j hjk).symm.trans hj)
  · rcases eq_or_ne j k with rfl | hjk
    · exact hlight hl
    · rw [hrefs j hjk]
      exact hp.light hl j
  · rcases eq_or_ne j k with rfl | hjk
    · rw [hk]
      exact hother q hq
    · rw [hne j hjk]
  · rcases eq_or_ne j k with rfl | hjk
    · rw [hk]
      omega
    · rw [hne j hjk, hrefs j hjk]
  · rcases eq_or_ne a k with rfl | hak <;> rcases eq_or_ne b a with rfl | hba
    · rfl
    · rw [hk] at ha hab
      rw [hne b hba] at hb hab
      exact absurd hab (hdistinct b hba ha hb)
    · rfl
    · rcases eq_or_ne b k with rfl | hbk
      · rw [hk] at hb hab
        rw [hne a hak] at ha hab
        exact absurd hab.symm (hdistinct a hak hb ha)
      · rw [hne a hak] at ha hab
        rw [hne b hbk] at hb hab
        exact h.distinct a b ha hb hab

theorem file {fresh : FileId → Bool} {known : FileId → Option Slot}
    (hother : ∀ q, q ≠ p → (∀ k, (w q).known f = some k → e.type = (s.ftable f).type ∧ e.ip = (s.ftable f).ip) ∧
      ((w q).fresh f = true → e.type = (s.ftable f).type ∧ e.ref = (s.ftable f).ref))
    (hrefs : ∀ k, e.at k + refs k = (s.ftable f).at k + (w p).refs k)
    (hfrefs : e.ref + (w p).files f = (s.ftable f).ref + files f) (hfiles : ∀ g, g ≠ f → files g = (w p).files g)
    (hfree : e.ref = 0 → e.type = .none) (hheld : ∀ k, (w p).locks k = true → 0 < refs k ∨ ∃ g, known g = some k)
    (hknowns : ∀ g, g ≠ f → known g = (w p).known g)
    (hknown : ∀ k, known f = some k → 0 < fdsAt f (s.procs p) ∧ e.type ≠ .none ∧ e.ip = k)
    (hfreshs : ∀ g, g ≠ f → fresh g = (w p).fresh g)
    (hfresh : fresh f = true → e.type = .none ∧ e.ref = 1 ∧ 0 < files f + fdsAt f (s.procs p))
    (hlight : (w p).light = true → ∀ k, refs k = 0) : Rights (s.setFile f e)
      (update w p { w p with refs := refs, files := files, fresh := fresh, known := known }) := by
  have hp := h.each p
  have hf : (s.setFile f e).ftable f = e := update_self ..
  have hne : ∀ g, g ≠ f → (s.setFile f e).ftable g = s.ftable g := fun g hg => update_of_ne hg ..
  refine h.rebuild rfl (update_eq_self p s.procs).symm ⟨hp.ops, hp.locks, hheld, fun g k hg => ?_,
      fun g hg => ?_, hp.proc, hp.child, hlight⟩
    (fun q hq => ?_) (fun k => ?_) (fun g => ?_) (fun g hg => ?_) h.distinct .inl (h.child p) <;> try dsimp only
  · rcases eq_or_ne g f with rfl | hgf
    · rw [hf]
      exact hknown k hg
    · rw [hne g hgf]
      exact hp.known g k ((hknowns g hgf).symm.trans hg)
  · rcases eq_or_ne g f with rfl | hgf
    · rw [hf]
      exact hfresh hg
    · rw [hne g hgf, hfiles g hgf]
      exact hp.fresh g ((hfreshs g hgf).symm.trans hg)
  · have hq' := h.each q
    obtain ⟨hk, hfr⟩ := hother q hq
    refine { hq' with known := fun g k hg => ?_, fresh := fun g hg => ?_ }
    · have hold := hq'.known g k hg
      rcases eq_or_ne g f with rfl | hgf
      · rwa [hf, (hk k hg).1, (hk k hg).2]
      · rwa [hne g hgf]
    · have hold := hq'.fresh g hg
      rcases eq_or_ne g f with rfl | hgf
      · rwa [hf, (hfr hg).1, (hfr hg).2]
      · rwa [hne g hgf]
  · have hk := hrefs k
    change (s.itable k).ref + _ + _ + _ = _
    omega
  · rcases eq_or_ne g f with rfl | hgf
    · rw [hf]
      omega
    · rw [hne g hgf, hfiles g hgf]
  · rcases eq_or_ne g f with rfl | hgf
    · rw [hf] at hg ⊢
      exact hfree hg
    · rw [hne g hgf] at hg ⊢
      exact h.free g hg

theorem own {pr : Proc} (hpr : (w p).proc = some pr)
    (hfiles : ∀ g, fdsAt g o + files g = pr.fds g + (w p).files g)
    (hrefs : ∀ k, cwdAt k o + refs k = cwdAt k (some pr) + (w p).refs k)
    (hheld : ∀ k, (w p).locks k = true → 0 < refs k ∨ ∃ g, (w p).known g = some k)
    (hknown : ∀ g k, (w p).known g = some k → 0 < fdsAt g o) (hlight : (w p).light = true → ∀ k, refs k = 0) :
    Rights (s.setProc p o) (update w p { w p with refs := refs, files := files, proc := o }) := by
  have hp := h.each p
  have hpr' : s.procs p = some pr := hp.proc pr hpr
  have hself : (s.setProc p o).procs p = o := update_self ..
  have hne : ∀ q, q ≠ p → (s.setProc p o).procs q = s.procs q := fun q hq => update_of_ne hq ..
  -- nobody is about to make a child of a process that runs
  have hchild_ne : ∀ r q, (w r).child = some q → q ≠ p := by
    rintro r q hq rfl
    rw [(h.child r q hq).1] at hpr
    cases hpr
  have hown : ∀ g, fdsAt g (s.procs p) = pr.fds g := fun g => by rw [hpr']; rfl
  refine h.rebuild (update_eq_self 0 s.ftable).symm rfl ⟨hp.ops, hp.locks, hheld, fun g k hg => ?_,
      fun g hg => ?_, fun pr' hpr' => hself.trans hpr', fun q hq => ?_, hlight⟩
    (fun q hq => (h.each q).congr rfl (fun _ => Iff.rfl) (hne q hq) (fun r hr => hne r (hchild_ne q r hr))
      (fun _ _ _ => rfl) (fun _ _ => rfl))
    (fun k => ?_) (fun g => ?_) h.free h.distinct (fun hn => .inl ?_) (h.child p) <;> try dsimp only
  · rw [hself]
    exact ⟨hknown g k hg, (hp.known g k hg).2⟩
  · have hg' := hp.fresh g hg
    rw [hown] at hg'
    have := hfiles g
    rw [hself]
    exact ⟨hg'.1, hg'.2.1, by omega⟩
  · rw [hne q (hchild_ne p q hq)]
    exact hp.child q hq
  · have hk := hrefs k
    rw [hpr']
    change (s.itable k).ref + _ + _ + _ = _
    omega
  · have hg := hfiles g
    rw [hown]
    change (s.ftable g).ref + _ + _ = _
    omega
  · rw [hpr] at hn
    cases hn

/-! ### References and locks -/

theorem refs_le (p : Pid) (k : Slot) : (w p).refs k ≤ (s.itable k).ref := by
  have := le_sum (fun v : View => v.refs k) w p
  have := h.refs k
  omega

theorem cwdAt_le (p : Pid) (k : Slot) : cwdAt k (s.procs p) ≤ (s.itable k).ref := by
  have := le_sum (cwdAt k) s.procs p
  have := h.refs k
  omega

theorem at_le (f : FileId) (k : Slot) : (s.ftable f).at k ≤ (s.itable k).ref := by
  have := le_sum (File.at k) s.ftable f
  have := h.refs k
  omega

theorem ref_pos_of_known (hf : (w p).known f = some k) : 0 < (s.itable k).ref := by
  obtain ⟨-, htype, hip⟩ := (h.each p).known f k hf
  have hat : (s.ftable f).at k = 1 := if_pos ⟨htype, hip⟩
  have := h.at_le f k
  omega

theorem ref_pos (hk : 0 < (w p).refs k ∨ ∃ f, (w p).known f = some k) : 0 < (s.itable k).ref := by
  rcases hk with hr | ⟨f, hf⟩
  · exact Nat.lt_of_lt_of_le hr (h.refs_le p k)
  · exact h.ref_pos_of_known hf

theorem locked (hk : (w p).locks k = true) : (s.itable k).lock = some p := ((h.each p).locks k).mp hk

theorem ref_pos_of_lock (hk : (s.itable k).lock = some p) : 0 < (s.itable k).ref := h.ref_pos ((h.each p).held k (((h.each p).locks k).mpr hk))

theorem ref_pos_of_cwd (hk : ((s.procs p).bind fun pr => pr.cwd) = some k) : 0 < (s.itable k).ref := by
  have hone : cwdAt k (s.procs p) = 1 := if_pos hk
  have := h.cwdAt_le p k
  omega

theorem light_of_pos (hk : 0 < (w p).refs k) : (w p).light = false := by
  by_contra hl
  have := (h.each p).light (by simpa using hl) k
  omega

theorem locks_of_free (hk : (s.itable k).lock = none) (p : Pid) : (w p).locks k = false := by
  by_contra hl
  have := ((h.each p).locks k).mp (by simpa using hl)
  rw [hk] at this
  cases this

theorem incRef (hk : 0 < (s.itable k).ref) (hl : (w p).light = false) : Rights (s.incRef k) (update w p ((w p).addRef k)) := by
  refine h.slot (fun j hj => update_of_ne hj ..) (fun j hj => rfl) ?_
    ((h.each p).locks k) (fun q hq => Iff.rfl) (fun _ => ?_) 
    (fun j hj _ hpos heq => hj (h.distinct k j hk hpos heq).symm) (fun hl' => absurd hl' (ne_true_of_eq_false hl))
  · rw [update_self]
    dsimp only
    omega
  · rw [update_self]
    exact .inl (Nat.succ_pos _)

theorem recycle {inum : ℕ} (hk : (s.itable k).ref = 0) (hnew : ∀ j, 0 < (s.itable j).ref → (s.itable j).inum ≠ inum) (hl : (w p).light = false) :
    Rights (s.setInode k { s.itable k with inum := inum, ref := 1, valid := false }) (update w p ((w p).addRef k)) := by
  refine h.slot (fun j hj => update_of_ne hj ..) (fun j hj => rfl) ?_ ((h.each p).locks k) (fun q hq => Iff.rfl) (fun _ => ?_)
    (fun j hj _ hpos heq => hnew j hpos heq.symm) (fun hl' => absurd hl' (ne_true_of_eq_false hl))
  · have := h.refs_le p k
    rw [update_self]
    dsimp only
    omega
  · rw [update_self]
    exact .inl (Nat.succ_pos _)

theorem decRef (hk : 0 < (w p).refs k) (hl : (w p).locks k = true → 2 ≤ (w p).refs k) : Rights (s.decRef k) (update w p ((w p).dropRef k)) := by
  have hle := h.refs_le p k
  refine h.slot (fun j hj => update_of_ne hj ..) (fun j hj => rfl) ?_ ((h.each p).locks k)
    (fun q hq => Iff.rfl) (fun hlock => ?_)
    (fun j hj _ hpos heq => hj (h.distinct k j (by omega) hpos heq).symm)
    (fun hl' => absurd hl' (ne_true_of_eq_false (h.light_of_pos hk)))
  · rw [update_self]
    dsimp only
    omega
  · have := hl hlock
    rw [update_self]
    exact .inl (by omega)

theorem setLock (hk : (s.itable k).lock = none) (hold : 0 < (w p).refs k ∨ ∃ f, (w p).known f = some k) :
    Rights (s.setLock k (some p)) (update w p ((w p).lock k)) := by
  refine h.slot (fun j hj => rfl) (fun j hj => update_of_ne hj ..) rfl
    ⟨fun _ => rfl, fun _ => update_self ..⟩ (fun q hq => ?_) (fun _ => hold)
    (fun j hj _ hpos heq => hj (h.distinct k j (h.ref_pos hold) hpos heq).symm)
    (fun hl' => (h.each p).light hl' k)
  rw [hk]
  refine ⟨fun heq => absurd (Option.some.inj heq).symm hq, fun heq => ?_⟩
  cases heq

theorem unlock (hk : (w p).locks k = true) : Rights (s.setLock k none) (update w p ((w p).unlock k)) := by
  refine h.slot (fun j hj => rfl) (fun j hj => update_of_ne hj ..) rfl ?_ (fun q hq => ?_)
    (fun hl => ?_) (fun j hj hpos hpos' heq => hj (h.distinct k j hpos hpos' heq).symm)
    (fun hl' => (h.each p).light hl' k)
  · rw [update_self]
    refine ⟨fun heq => ?_, fun heq => ?_⟩ <;> cases heq
  · rw [((h.each p).locks k).mp hk]
    refine ⟨fun heq => ?_, fun heq => absurd (Option.some.inj heq).symm hq⟩
    cases heq
  · simp at hl

/-! ### Open files -/

theorem files_le (p : Pid) (f : FileId) : fdsAt f (s.procs p) + (w p).files f ≤ (s.ftable f).ref := by
  have := le_sum (fdsAt f) s.procs p
  have := le_sum (fun v : View => v.files f) w p
  have := h.frefs f
  omega

theorem files_add_le (hpq : p ≠ q) (f : FileId) : fdsAt f (s.procs p) + (w p).files f + (fdsAt f (s.procs q) + (w q).files f) ≤ (s.ftable f).ref := by
  have := add_le_sum (fdsAt f) s.procs hpq
  have := add_le_sum (fun v : View => v.files f) w hpq
  have := h.frefs f
  omega

theorem fresh_other (hpq : q ≠ p) (hq : (w q).fresh f = true) : fdsAt f (s.procs p) + (w p).files f = 0 := by
  have := h.files_add_le hpq f
  have := (h.each q).fresh f hq
  omega

theorem filealloc (hf : (s.ftable f).ref = 0) : Rights (s.setFile f { s.ftable f with ref := 1 })
      (update w p (((w p).addFile f).setFresh f true)) := by
  -- nobody has it open
  have hknown : ∀ q k, (w q).known f ≠ some k := by
    intro q k hk
    have := (h.each q).known f k hk
    have := h.files_le q f
    omega
  have hfresh : ∀ q, (w q).fresh f ≠ true := by
    intro q hq
    have := (h.each q).fresh f hq
    omega
  refine h.file (fun q _ => ⟨fun k hk => absurd hk (hknown q k), fun hq => absurd hq (hfresh q)⟩)
    (fun k => rfl) ?_ (fun g hg => update_of_ne hg ..) (fun h0 => ?_) (h.each p).held
    (fun g _ => rfl) (fun k hk => absurd hk (hknown p k)) (fun g hg => update_of_ne hg ..)
    (fun _ => ⟨h.free f hf, rfl, ?_⟩) (h.each p).light
  · simp only [View.addFile, update_self]
    omega
  · cases h0
  · simp only [View.addFile, update_self]
    omega

theorem filedup (hf : 0 < fdsAt f (s.procs p)) (hp : (w p).fresh f = false) : Rights (s.setFile f { s.ftable f with ref := (s.ftable f).ref + 1 })
      (update w p ((w p).addFile f)) := by
  refine h.file (fun q hq => ⟨fun k _ => ⟨rfl, rfl⟩, fun hfr => ?_⟩) (fun k => rfl) ?_
    (fun g hg => update_of_ne hg ..) (fun h0 => ?_) (h.each p).held (fun g _ => rfl)
    (fun k hk => (h.each p).known f k hk) (fun g _ => rfl) (fun hfr => ?_) (h.each p).light
  · have := h.fresh_other hq hfr
    omega
  · rw [update_self]
    dsimp only
    omega
  · cases h0
  · exact absurd hfr (ne_true_of_eq_false hp)

theorem fileclose (hp : 0 < (w p).files f) (hf : 1 < (s.ftable f).ref) : Rights (s.setFile f { s.ftable f with ref := (s.ftable f).ref - 1 })
      (update w p (((w p).dropFile f).setFresh f false)) := by
  refine h.file (fun q hq => ⟨fun k _ => ⟨rfl, rfl⟩, fun hfr => ?_⟩) (fun k => rfl) ?_
    (fun g hg => update_of_ne hg ..) (fun h0 => ?_) (h.each p).held (fun g _ => rfl)
    (fun k hk => (h.each p).known f k hk) (fun g hg => update_of_ne hg ..) (fun hfr => ?_)
    (h.each p).light
  · have := h.fresh_other hq hfr
    omega
  · simp only [View.dropFile, update_self]
    omega
  · dsimp only at h0
    omega
  · simp at hfr

theorem filefree (refs : Slot → ℕ) (hp : 0 < (w p).files f) (hf : (s.ftable f).ref = 1)
    (hrefs : ∀ k, refs k = (s.ftable f).at k + (w p).refs k) (hl : (w p).light = false) :
    Rights (s.setFile f { s.ftable f with ref := 0, type := .none }) (update w p { ((w p).dropFile f).setFresh f false with refs := refs }) := by
  have hp' := h.files_le p f
  refine h.file (fun q hq => ⟨fun k hk => ?_, fun hfr => ?_⟩) (fun k => ?_) ?_
    (fun g hg => update_of_ne hg ..) (fun _ => rfl) (fun k hk => ?_) (fun g _ => rfl)
    (fun k hk => ?_) (fun g hg => update_of_ne hg ..) (fun hfr => ?_) (fun hl' => ?_)
  · have := h.files_add_le hq f
    have := (h.each q).known f k hk
    omega
  · have := h.fresh_other hq hfr
    omega
  · rw [hrefs]
    simp [File.at]
  · simp only [View.setFresh, View.dropFile, update_self]
    omega
  · refine ((h.each p).held k hk).imp (fun hr => ?_) id
    rw [hrefs]
    omega
  · have := (h.each p).known f k hk
    omega
  · simp [View.setFresh] at hfr
  · exact absurd hl' (ne_true_of_eq_false hl)

theorem openFile (hf : (w p).fresh f = true) (hfiles : (w p).files f = 0) (hk : 0 < (w p).refs k) (htype : e.type ≠ .none) (hip : e.ip = k)
    (href : e.ref = (s.ftable f).ref) : Rights (s.setFile f e) (update w p
      { ((w p).dropRef k).setFresh f false with known := update (w p).known f (some k) }) := by
  obtain ⟨hnone, hone, hfds⟩ := (h.each p).fresh f hf
  have hknown : update (w p).known f (some k) f = some k := update_self ..
  refine h.file (fun q hq => ⟨fun j hj => ?_, fun hfr => ?_⟩) (fun j => ?_) ?_ (fun g _ => rfl)
    (fun h0 => ?_) (fun j hj => ?_) (fun g hg => update_of_ne hg ..) (fun j hj => ?_)
    (fun g hg => update_of_ne hg ..) (fun hfr => ?_) (fun hl => ?_)
  · exact absurd hnone ((h.each q).known f j hj).2.1
  · have := h.fresh_other hq hfr
    omega
  · rcases eq_or_ne j k with rfl | hjk
    · simp only [View.setFresh, View.dropRef, update_self, File.at, htype, hip, hnone, ne_eq, not_true_eq_false,
        not_false_eq_true, and_self, false_and, if_true, if_false]
      omega
    · simp [View.setFresh, View.dropRef, File.at, hip, hnone, hjk, Ne.symm hjk]
  · rw [href]
    rfl
  · omega
  · rcases eq_or_ne j k with rfl | hjk
    · exact .inr ⟨f, hknown⟩
    refine ((h.each p).held j hj).imp (fun hr => Nat.lt_of_lt_of_eq hr (update_of_ne hjk ..).symm) ?_
    rintro ⟨g, hg⟩
    refine ⟨g, ?_⟩
    have hgf : g ≠ f := by
      rintro rfl
      exact ((h.each p).known g j hg).2.1 hnone
    rwa [update_of_ne hgf]
  · obtain rfl : k = j := Option.some.inj (hknown.symm.trans hj)
    exact ⟨by omega, htype, hip⟩
  · simp [View.setFresh] at hfr
  · exact absurd hl (ne_true_of_eq_false (h.light_of_pos hk))

theorem advance {off : ℕ} : Rights (s.setFile f { s.ftable f with off := off }) (update w p (w p)) := by
  refine h.file (fun q hq => ⟨fun k _ => ⟨rfl, rfl⟩, fun _ => ⟨rfl, rfl⟩⟩) (fun k => rfl) rfl
    (fun g _ => rfl) (h.free f) (h.each p).held (fun g _ => rfl) ((h.each p).known f)
    (fun g _ => rfl) ((h.each p).fresh f) (h.each p).light

theorem learn (hf : 0 < fdsAt f (s.procs p)) (htype : (s.ftable f).type ≠ .none) :
    Rights s (update w p { w p with known := update (w p).known f (some (s.ftable f).ip) }) := by
  have hself : update (w p).known f (some (s.ftable f).ip) f = some (s.ftable f).ip := update_self ..
  have hset : s.setFile f (s.ftable f) = s := by simp [Fs.setFile]
  rw [← hset]
  refine h.file (fun q hq => ⟨fun k _ => ⟨rfl, rfl⟩, fun _ => ⟨rfl, rfl⟩⟩) (fun k => rfl) rfl
    (fun g _ => rfl) (h.free f) (fun k hk => ?_) (fun g hg => update_of_ne hg ..) (fun k hk => ?_)
    (fun g _ => rfl) ((h.each p).fresh f) (h.each p).light
  · refine ((h.each p).held k hk).imp id ?_
    rintro ⟨g, hg⟩
    refine ⟨g, ?_⟩
    rcases eq_or_ne g f with rfl | hgf
    · rw [hset, hself, ((h.each p).known g k hg).2.2]
    · rwa [update_of_ne hgf]
  · rw [hset, hself] at hk
    obtain rfl := Option.some.inj hk
    exact ⟨hf, htype, rfl⟩

/-! ### Processes -/

end Rights

theorem Proc.fds_update (pr : Proc) (fd : Fd) (o : Option FileId) (g : FileId) :
    Proc.fds g { pr with ofile := update pr.ofile fd o } + (if pr.ofile fd = some g then 1 else 0) = pr.fds g + if o = some g then 1 else 0 :=
  sum_update (fun o : Option FileId => if o = some g then 1 else 0) pr.ofile fd o

theorem Proc.fds_pos {pr : Proc} {fd : Fd} (hfd : pr.ofile fd = some f) : 0 < pr.fds f := by
  have := le_sum (fun o : Option FileId => if o = some f then 1 else 0) pr.ofile fd
  rw [hfd, if_pos rfl] at this
  exact this

theorem fdsAt_pos {fd : Fd} (hfd : s.ofile p fd = some f) : 0 < fdsAt f (s.procs p) := by
  obtain ⟨pr, hpr, hf⟩ := Option.bind_eq_some_iff.mp hfd
  rw [hpr]
  exact Proc.fds_pos hf

namespace Rights

variable (h : Rights s w) {pr : Proc} {fd : Fd}

include h

section

variable (hpr : (w p).proc = some pr)

include hpr

theorem fdalloc (hfd : pr.ofile fd = none) (hf : 0 < (w p).files f) :
    Rights (s.setProc p (some { pr with ofile := update pr.ofile fd (some f) })) (update w p (((w p).dropFile f).setOfile pr fd (some f))) := by
  have hfds : ∀ g, Proc.fds g { pr with ofile := update pr.ofile fd (some f) } = pr.fds g + if f = g then 1 else 0 := by
    intro g
    simpa [hfd] using pr.fds_update fd (some f) g
  refine h.own hpr (fun g => ?_) (fun k => rfl) (h.each p).held (fun g k hg => ?_) (h.each p).light
  · change Proc.fds g _ + update (w p).files f ((w p).files f - 1) g = _
    rw [hfds]
    rcases eq_or_ne g f with rfl | hgf
    · rw [update_self, if_pos rfl]
      omega
    · rw [update_of_ne hgf, if_neg (Ne.symm hgf), Nat.add_zero]
  · have hold := ((h.each p).known g k hg).1
    rw [(h.each p).proc pr hpr] at hold
    change 0 < Proc.fds g _
    rw [hfds]
    exact Nat.lt_of_lt_of_le hold (Nat.le_add_right ..)

theorem clearFd (hfd : pr.ofile fd = some f) (hknown : ∀ g, (w p).known g = none) :
    Rights (s.setProc p (some { pr with ofile := update pr.ofile fd none })) (update w p (((w p).addFile f).setOfile pr fd none)) := by
  refine h.own hpr (fun g => ?_) (fun k => rfl) (h.each p).held (fun g k hg => ?_) (h.each p).light
  · have hfds := pr.fds_update fd none g
    rw [hfd] at hfds
    change Proc.fds g _ + update (w p).files f ((w p).files f + 1) g = _
    rcases eq_or_ne g f with rfl | hgf
    · rw [if_pos rfl, if_neg (by simp)] at hfds
      rw [update_self]
      omega
    · rw [if_neg (by simpa using Ne.symm hgf), if_neg (by simp)] at hfds
      rw [update_of_ne hgf]
      omega
  · rw [hknown] at hg
    cases hg

theorem takeCwd (hcwd : pr.cwd = some k) (hl : (w p).light = false) : Rights (s.setProc p (some { pr with cwd := none }))
      (update w p (((w p).addRef k).setCwd pr none)) := by
  refine h.own hpr (fun g => rfl) (fun j => ?_) (fun j hj => ?_) (fun g j hg => ?_) (fun hl' => ?_)
  · rcases eq_or_ne j k with rfl | hjk
    · rw [View.addRef_refs_self]
      simp [cwdAt, hcwd]
      omega
    · rw [View.addRef_refs_of_ne hjk]
      simp [cwdAt, hcwd, Ne.symm hjk]
  · exact ((h.each p).held j hj).imp (fun hr => Nat.lt_of_lt_of_le hr (View.le_addRef_refs (v := w p))) id
  · have hold := ((h.each p).known g j hg).1
    rw [(h.each p).proc pr hpr] at hold
    exact hold
  · exact absurd hl' (ne_true_of_eq_false hl)

theorem setCwd (hcwd : pr.cwd = none) (hk : 0 < (w p).refs k) (hlock : (w p).locks k = false) :
    Rights (s.setProc p (some { pr with cwd := some k })) (update w p (((w p).dropRef k).setCwd pr (some k))) := by
  refine h.own hpr (fun g => rfl) (fun j => ?_) (fun j hj => ?_) (fun g j hg => ?_) (fun hl => ?_)
  · change cwdAt j _ + update (w p).refs k ((w p).refs k - 1) j = _
    rcases eq_or_ne j k with rfl | hjk
    · rw [update_self]
      simp [cwdAt, hcwd]
      omega
    · rw [update_of_ne hjk]
      simp [cwdAt, hcwd, Ne.symm hjk]
  · have hjk : j ≠ k := by
      rintro rfl
      rw [hlock] at hj
      cases hj
    change 0 < update (w p).refs k ((w p).refs k - 1) j ∨ _
    rw [update_of_ne hjk]
    exact (h.each p).held j hj
  · have hold := ((h.each p).known g j hg).1
    rw [(h.each p).proc pr hpr] at hold
    exact hold
  · exact absurd hl (ne_true_of_eq_false (h.light_of_pos hk))

theorem zombie (hbare : pr.Bare) : Rights (s.setProc p none) (update w p { w p with proc := none }) := by
  have hfds : ∀ g, pr.fds g = 0 := fun g => by simp [Proc.fds, hbare.2]
  refine h.own hpr (fun g => ?_) (fun j => ?_) (h.each p).held (fun g j hg => ?_) (h.each p).light
  · rw [hfds]
    rfl
  · simp [cwdAt, hbare.1]
  · have hold := ((h.each p).known g j hg).1
    rw [(h.each p).proc pr hpr] at hold
    have : 0 < pr.fds g := hold
    rw [hfds] at this
    omega

end

theorem other {refs : Slot → ℕ} {files : FileId → ℕ} {child : Option Pid} (hpq : q ≠ p)
    (hq : (w q).proc = none) (hfds : ∀ g, fdsAt g (s.procs q) = 0) (hsole : ∀ r, r ≠ p → (w r).child ≠ some q)
    (hchild : ∀ r, child = some r → r = q ∧ o = some Proc.embryo) (hfiles : ∀ g, fdsAt g o + files g = (w p).files g)
    (hrefs : ∀ k, cwdAt k o + refs k = cwdAt k (s.procs q) + (w p).refs k)
    (hheld : ∀ k, (w p).locks k = true → 0 < refs k ∨ ∃ g, (w p).known g = some k)
    (hfresh : ∀ g, (w p).fresh g = true → 0 < files g + fdsAt g (s.procs p))
    (hlight : (w p).light = true → ∀ k, refs k = 0) :
    Rights (s.setProc q o) (update w p { w p with refs := refs, files := files, child := child }) := by
  have hp := h.each p
  have hself : (s.setProc q o).procs q = o := update_self ..
  have hne : ∀ r, r ≠ q → (s.setProc q o).procs r = s.procs r := fun r hr => update_of_ne hr ..
  have hpp := hne p hpq.symm
  refine h.rebuild (update_eq_self 0 s.ftable).symm rfl ⟨hp.ops, hp.locks, hheld, hpp ▸ hp.known,
      fun g hg => ?_, hpp ▸ hp.proc, fun r hr => ?_, hlight⟩
    (fun r hr => ?_) (fun k => ?_) (fun g => ?_) h.free h.distinct .inl (fun r hr => ?_) <;> try dsimp only
  · rw [hpp]
    exact ⟨(hp.fresh g hg).1, (hp.fresh g hg).2.1, hfresh g hg⟩
  · obtain ⟨rfl, ho⟩ := hchild r hr
    rw [hself, ho]
  · rcases eq_or_ne r q with rfl | hrq
    · have hq' := h.each r
      refine ⟨hq'.ops, hq'.locks, hq'.held, fun g k hg => ?_, fun g hg => ?_, fun pr hpr => ?_, fun c hc => ?_, hq'.light⟩
      · have := (hq'.known g k hg).1
        rw [hfds] at this
        omega
      · obtain ⟨htype, href, hpos⟩ := hq'.fresh g hg
        rw [hfds] at hpos
        exact ⟨htype, href, by omega⟩
      · rw [hq] at hpr
        cases hpr
      · rw [hne c]
        · exact hq'.child c hc
        · rintro rfl
          exact hsole c hr hc
    · refine (h.each r).congr rfl (fun _ => Iff.rfl) (hne r hrq) (fun c hc => hne c ?_) (fun _ _ _ => rfl) (fun _ _ => rfl)
      rintro rfl
      exact hsole r hr hc
  · have hk := hrefs k
    change (s.itable k).ref + _ + _ + _ = _
    omega
  · have hg := hfiles g
    rw [hfds]
    change (s.ftable g).ref + _ + _ = _
    omega
  · obtain ⟨rfl, -⟩ := hchild r hr
    refine ⟨hq, fun a ha => ?_⟩
    by_contra hap
    exact hsole a hap ha

theorem allocproc (hq : s.procs q = none) (hpq : q ≠ p) : Rights (s.setProc q (some Proc.embryo)) (update w p { w p with child := some q }) := by
  have hfds : ∀ g, fdsAt g (some Proc.embryo) = 0 := fun g => by
    simp [fdsAt, Proc.fds, Proc.embryo]
  have hcwd : ∀ k, cwdAt k (some Proc.embryo) = cwdAt k (s.procs q) := fun k => by
    simp [hq, cwdAt, Proc.embryo]
  have hproc : (w q).proc = none := by
    cases hpr : (w q).proc with
    | none => rfl
    | some pr =>
      have := (h.each q).proc pr hpr
      rw [hq] at this
      cases this
  refine h.other hpq hproc (fun g => by rw [hq]; rfl) (fun r _ hr => ?_)
    (fun r hr => ⟨(Option.some.inj hr).symm, rfl⟩) (fun g => ?_) (fun k => ?_) (h.each p).held
    (fun g hg => ((h.each p).fresh g hg).2.2) (h.each p).light
  · have := (h.each r).child q hr
    rw [hq] at this
    cases this
  · rw [hfds, Nat.zero_add]
  · rw [hcwd]

theorem spawn (hq : (w p).child = some q) (hpr : (w p).proc = some pr) (hk : 0 < (w p).refs k)
    (hlock : (w p).locks k = false) (hfiles : ∀ g, (w p).files g = pr.fds g) : Rights (s.setProc q (some ⟨some k, pr.ofile, true⟩))
      (update w p { (w p).dropRef k with files := fun _ => 0, child := none }) := by
  obtain ⟨hproc, hsole⟩ := h.child p q hq
  have hpq : q ≠ p := by
    rintro rfl
    rw [hproc] at hpr
    cases hpr
  have hembryo := (h.each p).child q hq
  refine h.other hpq hproc (fun g => ?_) (fun r hr hrq => hr (hsole r hrq)) (fun r hr => ?_)
    (fun g => ?_) (fun j => ?_) (fun j hj => ?_) (fun g hg => ?_) (fun hl => ?_)
  · simp [hembryo, fdsAt, Proc.fds, Proc.embryo]
  · cases hr
  · rw [hfiles, ← Nat.add_zero (pr.fds g)]
    rfl
  · change cwdAt j _ + update (w p).refs k ((w p).refs k - 1) j = _
    rcases eq_or_ne j k with rfl | hjk
    · rw [update_self]
      simp [cwdAt, hembryo, Proc.embryo]
      omega
    · rw [update_of_ne hjk]
      simp [cwdAt, hembryo, Proc.embryo, Ne.symm hjk]
  · have hjk : j ≠ k := by
      rintro rfl
      rw [hlock] at hj
      cases hj
    change 0 < update (w p).refs k ((w p).refs k - 1) j ∨ _
    rw [update_of_ne hjk]
    exact (h.each p).held j hj
  · have hpos := ((h.each p).fresh g hg).2.2
    rw [hfiles, (h.each p).proc pr hpr] at hpos
    rw [(h.each p).proc pr hpr]
    change 0 < 0 + pr.fds g
    change 0 < pr.fds g + pr.fds g at hpos
    omega
  · exact absurd hl (ne_true_of_eq_false (h.light_of_pos hk))

end Rights

end Xv6.FileSys
