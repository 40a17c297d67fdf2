import Xv6.Trace.Mask

/-!
# Records and lines

A record is printed in two parts, before and after the call. The parts make a line if nothing reaches the console between
them or within one of them, and the record starts where a line starts (`Xv6.Tracing.Layout`). Nothing ensures this:
`printf` holds its lock for one part only, and neither the queue of the UART nor the echo asks for it. Lines stay whole in
the runs in which everybody else keeps silent until a record is out (`Xv6.Tracing.Clear`). An `exit` that is traced has no
second part.
-/

namespace Xv6.Tracing

open Lib Function Procs

variable {s t : Sys} {b' : Procs.Sys} {p q : Slot} {es : List Event}

/-! ### The console -/

def Record.line (r : Record) : List Char := recordStart r.pid r.num ++ recordEnd r.value

inductive Item
  | text (t : List Char)
  | line (r : Record)

def Item.chars : Item → List Char
  | .text t => t
  | .line r => r.line

def Item.record : Item → Option Record
  | .text _ => none
  | .line r => some r

def output (items : List Item) : List Char := items.flatMap Item.chars

def AtLineStart (out : List Char) : Prop := out = [] ∨ out.getLast? = some '\n'

instance (out : List Char) : Decidable (AtLineStart out) := by
  unfold AtLineStart
  infer_instance

def Lined (items : List Item) : Prop :=
  ∀ pre r post, items = pre ++ .line r :: post → AtLineStart (output pre)

def Open (s : Sys) (p : Slot) : Prop := (s.call p).any Frame.begun = true

instance (s : Sys) (p : Slot) : Decidable (Open s p) := by
  unfold Open
  infer_instance

theorem open_iff : Open s p ↔ ∃ f, s.call p = some f ∧ f.begun = true := by
  rw [Open, Option.any_eq_true]

/-- What the process has printed of a record that is not complete. -/
def part (s : Sys) (p : Slot) : List Char :=
  match s.call p with
  | some f => recordStart (s.sys.proc p).pid f.num
  | none => []

/-- The console, with the rest of a part of a record that is being printed. -/
def shown (s : Sys) : List Char := s.out ++ if s.pr.record then s.pr.rest else []

theorem shown_idle (h : s.pr.rest = []) : shown s = s.out := by
  rw [shown, h, ite_self, List.append_nil]

theorem shown_other (h : s.pr.record = false) : shown s = s.out := by
  rw [shown, h]
  exact List.append_nil _

/-- **The console consists of whole lines and other text.** The records are those of the calls that have returned, in that
order, and at most one process, `o`, has printed the first part of one more. -/
structure Layout (s : Sys) (items : List Item) (o : Option Slot) : Prop where
  out : shown s = output items ++ o.elim [] (part s)
  records : items.filterMap Item.record = s.log.reverse
  lined : Lined items
  opened : ∀ p, Open s p ↔ o = some p
  start : o ≠ none → AtLineStart (output items)

theorem output_snoc (items : List Item) (i : Item) : output (items ++ [i]) = output items ++ i.chars := by
  simp [output]

variable {items : List Item} {o : Option Slot}

theorem line_within {r : Record} (h : r ∈ items.filterMap Item.record) : r.line <:+: output items := by
  obtain ⟨i, hi, hr⟩ := List.mem_filterMap.mp h
  obtain ⟨pre, post, rfl⟩ := List.append_of_mem hi
  cases i with
  | text => cases hr
  | line r' =>
    cases hr
    exact ⟨output pre, output post, by simp [output, Item.chars]⟩

theorem Lined.snoc {i : Item} (h : Lined items) (hi : ∀ r, i = .line r → AtLineStart (output items)) : Lined (items ++ [i]) := by
  intro pre r post heq
  obtain rfl | ⟨post', x, rfl⟩ := List.eq_nil_or_concat post
  · obtain ⟨rfl, hlast⟩ := List.append_inj' heq rfl
    exact hi r (List.cons.inj hlast).1
  · rw [List.concat_eq_append, ← List.cons_append, ← List.append_assoc] at heq
    exact h pre r post' (List.append_inj' heq rfl).1

/-! ### Runs in which lines stay whole -/

def begins (s : Sys) : Event → Option ℕ
  | .enter p a7 a0 _ => (callNumber a7).filter fun num => traces (deciding s p num a0) num
  | _ => none

/-- Steps that put something other than the second part of a record on the console, or begin to. -/
def disturbs (s : Sys) : Event → Bool
  | .enter p a7 a0 _ => (callNumber a7).all fun num => traces (deciding s p num a0) num
  | .tell _ | .report _ | .send | .echo _ => true
  | _ => false

/-- No record is under way. -/
def Quiet (s : Sys) : Prop := (∀ q, ¬Open s q) ∧ (s.pr.record = true → s.pr.rest = [])

/-- Nobody else disturbs a record that is under way; a record begins where a line begins; and `exit` is not traced. -/
def Clear (s : Sys) (e : Event) : Prop :=
  (disturbs s e = true → Quiet s) ∧ ∀ num ∈ begins s e, AtLineStart s.out ∧ num ≠ SYS_exit

instance (s : Sys) (e : Event) : Decidable (Clear s e) := by
  unfold Clear Quiet
  infer_instance

theorem Quiet.shown (h : Quiet s) : shown s = s.out := by
  cases hr : s.pr.record with
  | false => exact shown_other hr
  | true => exact shown_idle (h.2 hr)

structure Whole (s : Sys) : Prop where
  inherits : Inherits s
  layout : ∃ items o, Layout s items o
  alive : ∀ p f, s.call p = some f → f.begun = true → f.num ≠ SYS_exit ∧
    ∃ l, s.sys.life p = some l ∧ l.exit = none
  /-- Another text is printed only while no record is open. -/
  other : s.pr.rest ≠ [] → s.pr.record = false → ∀ q, ¬Open s q

theorem whole_boot : Whole boot where
  inherits := inherits_boot
  layout := ⟨[], none, rfl, rfl, by simp [Lined], by simp [Open, boot], fun h => absurd rfl h⟩
  alive _ _ h := by cases h
  other h := absurd rfl h

theorem Layout.none_of_closed (h : Layout s items o) (hq : ∀ q, ¬Open s q) : o = none := by
  cases o with
  | none => rfl
  | some p => exact absurd ((h.opened p).mpr rfl) (hq p)

/-- Other text comes after everything else. -/
theorem Layout.text {text : List Char} (h : Layout s items none)
    (hout : shown t = shown s ++ text) (hst : s.Same t) : Layout t (items ++ [.text text]) none where
  out := by
    rw [hout, h.out, output_snoc]
    simp [Item.chars]
  records := by
    rw [List.filterMap_append, h.records, hst.log]
    simp [Item.record]
  lined := h.lined.snoc fun r hr => by cases hr
  opened p := by
    rw [← h.opened p, Open, Open, hst.call]
  start hne := absurd rfl hne

theorem Layout.silent (h : Layout s items o)
    (hout : shown t = shown s) (hlog : t.log = s.log) (hopen : ∀ p, Open t p ↔ Open s p)
    (hpart : ∀ p, Open s p → part t p = part s p) : Layout t items o where
  out := by
    rw [hout, h.out]
    cases o with
    | none => rfl
    | some p => exact congrArg _ (hpart p ((h.opened p).mpr rfl)).symm
  records := by rw [h.records, hlog]
  lined := h.lined
  opened p := (hopen p).trans (h.opened p)
  start := h.start

namespace Whole

variable (h : Whole s)

include h

/-- **As much is shown as before**: calls go on, or are not traced. -/
theorem silent (hin : Inherits t) (hout : shown t = shown s) (hlog : t.log = s.log)
    (hother : t.pr.rest ≠ [] → t.pr.record = false → ∀ q, ¬Open s q)
    (hkeep : ∀ q f, s.call q = some f → f.begun = true → t.sys.life q = s.sys.life q ∧ ∃ g, t.call q = some g ∧ f.Goes g)
    (hback : ∀ q g, t.call q = some g → g.begun = true → ∃ f, s.call q = some f ∧ f.Goes g) : Whole t := by
  obtain ⟨items, o, hlay⟩ := h.layout
  have hopen : ∀ q, Open t q ↔ Open s q := by
    intro q
    rw [open_iff, open_iff]
    constructor
    · rintro ⟨g, hg, hb⟩
      obtain ⟨f, hf, hgo⟩ := hback q g hg hb
      exact ⟨f, hf, hgo.begun.symm.trans hb⟩
    · rintro ⟨f, hf, hb⟩
      obtain ⟨-, g, hg, hgo⟩ := hkeep q f hf hb
      exact ⟨g, hg, hgo.begun.trans hb⟩
  refine ⟨hin, ⟨items, o, hlay.silent hout hlog hopen fun q hq => ?_⟩, fun q g hg hb => ?_,
    fun h1 h2 q hq => hother h1 h2 q ((hopen q).mp hq)⟩
  · obtain ⟨f, hf, hb⟩ := open_iff.mp hq
    obtain ⟨-, l, hl, -⟩ := h.alive q f hf hb
    obtain ⟨hlife, g, hg, hgo⟩ := hkeep q f hf hb
    have hpid : (t.sys.proc q).pid = (s.sys.proc q).pid :=
      (pid_of_life (hlife.trans hl)).trans (pid_of_life hl).symm
    simp only [part, hf, hg, hpid, hgo.num]
  · obtain ⟨f, hf, hgo⟩ := hback q g hg hb
    have hfb := hgo.begun.symm.trans hb
    rw [(hkeep q f hf hfb).1, hgo.num]
    exact h.alive q f hf hfb

theorem same (hst : s.Same t) (hout : shown t = shown s)
    (hother : t.pr.rest ≠ [] → t.pr.record = false → ∀ q, ¬Open s q) : Whole t :=
  h.silent (h.inherits.same hst) hout hst.log hother
    (fun q f hf _ => ⟨by rw [hst.sys], f, by rw [hst.call, hf], .refl f⟩)
    fun q g hg _ => ⟨g, hst.call ▸ hg, .refl g⟩

/-- A call that is not traced begins or returns. -/
theorem setCall {o : Option Frame} (hin : Inherits t) (hcall : t.call = update s.call p o) (hsys : t.sys = s.sys)
    (hout : t.out = s.out) (hpr : t.pr = s.pr) (hlog : t.log = s.log) (hold : ∀ f, s.call p = some f → f.begun = false)
    (hnew : ∀ f, o = some f → f.begun = false) : Whole t := by
  refine h.silent hin (by rw [shown, shown, hout, hpr]) hlog (hpr ▸ h.other) (fun q f hf hb => ?_) fun q g hg hb => ?_
  · have hqp : q ≠ p := by
      rintro rfl
      exact absurd ((hold f hf).symm.trans hb) Bool.false_ne_true
    exact ⟨by rw [hsys], f, by rw [hcall, update_of_ne hqp, hf], .refl f⟩
  · have hqp : q ≠ p := by
      rintro rfl
      rw [hcall, update_self] at hg
      exact absurd ((hnew g hg).symm.trans hb) Bool.false_ne_true
    rw [hcall, update_of_ne hqp] at hg
    exact ⟨g, hg, .refl g⟩

/-- A character comes to the console that is not of a record. -/
theorem char {c : Char} (hst : s.Same t) (hclosed : ∀ q, ¬Open s q) (hout : shown t = shown s ++ [c]) : Whole t := by
  obtain ⟨items, o, hlay⟩ := h.layout
  obtain rfl := hlay.none_of_closed hclosed
  refine ⟨h.inherits.same hst, ⟨_, none, hlay.text hout hst⟩, fun q f hf => ?_, fun _ _ q hq => ?_⟩
  · rw [hst.sys]
    exact h.alive q f (hst.call ▸ hf)
  · rw [Open, hst.call] at hq
    exact hclosed q hq

theorem enterTraced (hin : Inherits t) (hp : InUser s.sys p) {f : Frame} (hf : f.begun = true) (hnum : f.num ≠ SYS_exit)
    (hcall : t.call = update s.call p (some f)) (hsys : t.sys = s.sys) (hout : t.out = s.out) (hs : s.pr.rest = [])
    (hpr : t.pr = ⟨recordStart (s.sys.proc p).pid f.num, some p, true⟩) (hlog : t.log = s.log)
    (hclosed : ∀ q, ¬Open s q) (hstart : AtLineStart s.out) : Whole t := by
  obtain ⟨items, o, hlay⟩ := h.layout
  obtain rfl := hlay.none_of_closed hclosed
  have hitems : s.out = output items := (shown_idle hs).symm.trans (hlay.out.trans (List.append_nil _))
  refine ⟨hin, ⟨items, some p, ?_, hlog ▸ hlay.records, hlay.lined, fun q => ?_, fun _ => hitems ▸ hstart⟩,
    fun q g hg hb => ?_, fun _ h2 => ?_⟩
  · rw [shown, hpr, hout, hitems]
    simp only [if_true, Option.elim, part, hcall, hsys, update_self]
  · by_cases hqp : q = p
    · subst hqp
      simp [Open, hcall, hf]
    · have hq := hclosed q
      simp only [Open, hcall, update_of_ne hqp, Option.some.injEq] at hq ⊢
      exact ⟨fun hop => absurd hop hq, fun heq => absurd heq.symm hqp⟩
  · rw [hcall] at hg
    rw [hsys]
    by_cases hqp : q = p
    · subst hqp
      rw [update_self] at hg
      cases hg
      exact ⟨hnum, life_of_inUser hp⟩
    · rw [update_of_ne hqp] at hg
      exact h.alive q g hg hb
  · rw [hpr] at h2
    cases h2

theorem retTraced (hin : Inherits t) {f : Frame} {value : BitVec 64} (hf : s.call p = some f) (hb : f.begun = true)
    (hcall : t.call = update s.call p none) (hsys : t.sys = s.sys) (hout : t.out = s.out) (hs : s.pr.rest = [])
    (hpr : t.pr = ⟨recordEnd value, some p, true⟩)
    (hlog : t.log = ⟨(s.sys.proc p).pid, f.num, value⟩ :: s.log) : Whole t := by
  obtain ⟨items, o, hlay⟩ := h.layout
  obtain rfl := (hlay.opened p).mp (open_iff.mpr ⟨f, hf, hb⟩)
  have hbefore := (shown_idle hs).symm.trans hlay.out
  refine ⟨hin, ⟨items ++ [.line ⟨(s.sys.proc p).pid, f.num, value⟩], none, ?_, ?_, ?_, fun q => ?_, ?_⟩,
    fun q g hg hgb => ?_, fun _ h2 => ?_⟩
  · rw [shown, hpr, hout, hbefore, output_snoc]
    simp only [if_true, Item.chars, Record.line, Option.elim, part, hf, List.append_assoc, List.append_nil]
  · simp [List.filterMap_append, hlay.records, hlog, Item.record]
  · exact hlay.lined.snoc fun r _ => hlay.start (Option.some_ne_none p)
  · by_cases hqp : q = p
    · subst hqp
      simp [Open, hcall]
    · have hq := hlay.opened q
      simp only [Open, hcall, update_of_ne hqp, Option.some.injEq, reduceCtorEq, iff_false] at hq ⊢
      exact fun hop => hqp (hq.mp hop).symm
  · exact fun hne => absurd rfl hne
  · rw [hsys]
    rw [hcall] at hg
    by_cases hqp : q = p
    · rw [hqp, update_self] at hg
      cases hg
    · rw [update_of_ne hqp] at hg
      exact h.alive q g hg hgb
  · rw [hpr] at h2
    cases h2

theorem table {e : Procs.Event} (ha : allows s e = true) (hstep : Procs.step s.sys e = some b')
    (hin : Inherits (tableStep s e b')) : Whole (tableStep s e b') := by
  have hth := (orderly_of_reach h.inherits.reach).threads
  refine h.silent hin rfl rfl h.other (fun q f hf hb => ?_) fun q g hg _ => ?_
  · obtain ⟨hnum, l, hl, hexit⟩ := h.alive q f hf hb
    refine ⟨?_, call_goes hf fun np p hborn => ?_⟩
    · rw [hl]
      refine life_of_step hth hstep hl hexit ?_
      rintro st rfl
      simp [allows, hf, hnum] at ha
    · -- a slot that is given out had no process in it
      rintro rfl
      rw [Sys.life_of_unused (of_births hstep hborn).2.1] at hl
      cases hl
  · obtain ⟨-, f, hf, hgo, -⟩ := call_tableStep hg
    exact ⟨f, hf, hgo⟩

theorem fault (hb : Procs.step s.sys (.fault p) = some b') :
    Whole { s with sys := b', trap := update s.trap p none } := by
  have hth := (orderly_of_reach h.inherits.reach).threads
  refine h.silent (h.inherits.fault hb) rfl rfl h.other (fun q f hf hfb => ⟨?_, f, hf, .refl f⟩)
    fun q g hg _ => ⟨g, hg, .refl g⟩
  obtain ⟨-, l, hl, hexit⟩ := h.alive q f hf hfb
  rw [hl]
  exact life_of_step hth hb hl hexit fun st heq => by cases heq

end Whole

theorem whole_step {e : Event} (h : Whole s) (hc : Clear s e) (hstep : step s e = some t) : Whole t := by
  have hinh := inherits_step h.inherits hstep
  cases tick_of_step hstep with
  | enter p a7 a0 name t hp hnone he =>
    obtain ⟨num, f, hnum, rfl, hcall, hsys, -, -, hlog, hout, ⟨hb, hs, hpr⟩ | ⟨hb, hpr⟩⟩ | ⟨hnum, hs, hst, hout, hpr⟩ :=
      enter_cases he
    · have htr : traces (deciding s p num a0) num = true := hb
      have hbegins := hc.2 num (by simp [begins, hnum, htr])
      have hquiet := hc.1 (by simp [disturbs, hnum, htr])
      exact h.enterTraced hinh hp hb hbegins.2 hcall hsys hout hs hpr hlog hquiet.1 hbegins.1
    · refine h.setCall hinh hcall hsys hout hpr hlog (fun f hf => ?_) fun f hf => Option.some.inj hf ▸ hb
      rw [hnone] at hf
      cases hf
    · have hquiet := hc.1 (by simp [disturbs, hnum])
      refine h.same hst ?_ fun _ _ => hquiet.1
      rw [shown_other (by rw [hpr]), shown_idle hs, hout]
  | setMask p f hf hnum =>
    refine h.silent hinh rfl rfl h.other (fun q g hg _ => ⟨rfl, ?_⟩) fun q g hg _ => ?_
    · exact setCall_goes hg fun _ => ⟨rfl, rfl, rfl⟩
    · obtain ⟨g₀, hg₀, ⟨-, rfl⟩ | ⟨-, rfl⟩⟩ := setCall_eq_some hg
      · exact ⟨g₀, hg₀, rfl, rfl, rfl⟩
      · exact ⟨g, hg₀, .refl g⟩
  | ret p value f t hp hf hready he =>
    have hbegun : f.begun = traces (deciding s p f.num f.arg) f.num := (h.inherits.calls p f hf (used_of_inUser hp)).begun
    obtain ⟨hcall, hsys, -, -, hout, ⟨htr, hs, hpr, hlog⟩ | ⟨htr, hpr, hlog⟩⟩ := ret_cases he
    · exact h.retTraced hinh hf (hbegun.trans htr) hcall hsys hout hs hpr hlog
    · refine h.setCall hinh hcall hsys hout hpr hlog (fun g hg => ?_) fun g hg => ?_
      · rw [← Option.some.inj (hf.symm.trans hg), hbegun, htr]
      · cases hg
  | fault p b hb => exact h.fault hb
  | table e b ha hb => exact h.table ha hb hinh
  | putc c rest hr =>
    have hst : s.Same { s with out := s.out ++ [c], pr := { s.pr with rest := rest } } := ⟨rfl, rfl, rfl, rfl, rfl⟩
    have hne : s.pr.rest ≠ [] := hr ▸ List.cons_ne_nil _ _
    cases hrec : s.pr.record with
    | false =>
      refine h.char (c := c) hst (h.other hne hrec) ?_
      rw [shown_other hrec]
      exact shown_other hrec
    | true =>
      refine h.same hst ?_ fun _ h2 => absurd (hrec.symm.trans h2) (by decide)
      simp [shown, hrec, hr]
  | send c rest ht =>
    have hquiet := hc.1 rfl
    have hnext : Quiet { s with out := s.out ++ [c], tx := rest } := hquiet
    exact h.char ⟨rfl, rfl, rfl, rfl, rfl⟩ hquiet.1 (by rw [hnext.shown, hquiet.shown])
  | echo c =>
    have hquiet := hc.1 rfl
    have hnext : Quiet { s with out := s.out ++ [c] } := hquiet
    exact h.char ⟨rfl, rfl, rfl, rfl, rfl⟩ hquiet.1 (by rw [hnext.shown, hquiet.shown])
  | print e x t he hs hx hpr hout hst =>
    have hquiet : Quiet s := hc.1 (by obtain ⟨p, rfl⟩ | ⟨text, rfl⟩ := he <;> rfl)
    refine h.same hst ?_ fun _ _ => hquiet.1
    rw [shown_other (by rw [hpr, hx]), shown_idle hs, hout]
  | quiet e t hpr hout hst =>
    refine h.same hst (by rw [shown, shown, hpr, hout]) ?_
    rw [hpr]
    exact h.other

/-- **Records are whole lines, in the runs that are clear**: the console consists of the lines of the calls that have
returned and of other text, and of the first part of one more record at most. -/
theorem records_whole_lines (hal : Along step Clear boot es) (hrun : run step boot es = some s) :
    ∃ items o, Layout s items o :=
  (hal.invariant (fun hs hc he => whole_step hs hc he) whole_boot hrun).layout

/-- The first process calls `trace(mask)`. -/
def startTrace (mask : BitVec 64) : List Event :=
  [.table (.schedule 0), .enter 0 22 mask [], .setMask 0, .ret 0 0]

/-- What `fork` of the first process does when the second slot is free. -/
def forkChild : List Event := .table (.fork 0) :: List.replicate 4 (.table (.advance 0 true))

/-- `n` characters of a `printf`. -/
def putcs (n : ℕ) : List Event := List.replicate n .putc

/-- The first process has `fork` and `getpid` traced, and calls both; it writes a line, and a key is pressed. The child
calls `getpid` when its parent is done. -/
def politeCalls : List Event :=
  startTrace 2050 ++ [.enter 0 1 0 []] ++ putcs 19 ++ forkChild ++ [.ret 0 2] ++ putcs 2 ++
    [.enter 0 16 1 [], .put 0 'h', .put 0 '\n', .send, .ret 0 2, .echo 'k', .send, .enter 0 11 0 []] ++ putcs 21 ++
    [.ret 0 1] ++ putcs 2 ++ [.table (.schedule 1), .enter 1 11 0 []] ++ putcs 21 ++ [.ret 1 2] ++ putcs 2

theorem records_whole_lines_polite : ∃ s, run step boot politeCalls = some s ∧
    s.out = "1: syscall fork -> 2\nhk\n1: syscall getpid -> 1\n2: syscall getpid -> 2\n".toList ∧
    ∃ items o, Layout s items o := by
  have hr : run step boot politeCalls = some ((run step boot politeCalls).get (by decide +kernel)) :=
    (Option.some_get _).symm
  exact ⟨_, hr, by decide +kernel, records_whole_lines (by decide +kernel) hr⟩

/-- The first process has `getpid` traced and forks; both call `getpid`, the child while its parent is in the call. -/
def crossedCalls : List Event :=
  startTrace 2048 ++ [.enter 0 1 0 []] ++ forkChild ++ [.ret 0 2, .enter 0 11 0 []] ++ putcs 21 ++
    [.table (.schedule 1), .enter 1 11 0 []] ++ putcs 21 ++ [.ret 1 2] ++ putcs 2 ++ [.ret 0 1] ++ putcs 2

/-- The first process has `getpid` traced and writes a character. This is sent while it calls `getpid`. -/
def lateWrite : List Event :=
  startTrace 2048 ++ [.enter 0 16 1 [], .put 0 'h', .ret 0 1, .enter 0 11 0 []] ++ putcs 21 ++ [.send, .ret 0 1] ++ putcs 2

theorem Layout.line_within {r : Record} (h : Layout s items o) (hr : r ∈ s.log)
    (hs : s.pr.rest = []) : r.line <:+: s.out := by
  have hmem : r ∈ items.filterMap Item.record := by
    rw [h.records]
    exact List.mem_reverse.mpr hr
  exact (Tracing.line_within hmem).trans ⟨[], _, (h.out.symm.trans (shown_idle hs))⟩

/-- **Records can be broken up**, by another record or by what was written before: the call has returned, and its line is
nowhere on the console. -/
theorem crossed_records :
    (∃ s, run step boot crossedCalls = some s ∧ (∀ p, s.call p = none) ∧
      s.out = "1: syscall getpid -> 2: syscall getpid -> 2\n1\n".toList ∧ ¬∃ items o, Layout s items o) ∧
    ∃ s, run step boot lateWrite = some s ∧ (∀ p, s.call p = none) ∧
      s.out = "1: syscall getpid -> h1\n".toList ∧ ¬∃ items o, Layout s items o := by
  have hr : run step boot crossedCalls = some ((run step boot crossedCalls).get (by decide +kernel)) :=
    (Option.some_get _).symm
  have hr' : run step boot lateWrite = some ((run step boot lateWrite).get (by decide +kernel)) :=
    (Option.some_get _).symm
  refine ⟨⟨_, hr, by decide +kernel, by decide +kernel, ?_⟩, _, hr', by decide +kernel, by decide +kernel, ?_⟩
  all_goals
    rintro ⟨items, o, hlay⟩
    have hinfix := hlay.line_within (r := ⟨1, 11, 1⟩) (by decide +kernel) (by decide +kernel)
    revert hinfix
    decide +kernel

end Xv6.Tracing
