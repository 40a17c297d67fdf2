import Xv6.Lib.Update
import Xv6.Pipe.Fifo

/-!
# Who sleeps on a pipe

A reader should sleep only while the pipe is empty and somebody may still write to it, and a writer only while it is full
and somebody may still read from it. This holds of writers always, and of readers as long as `pipewrite` wakes them up
before it gives the lock away. The one way out without a `wakeup` is the return at the head of its loop, when the reader is
gone or the writer is killed; by then the call may have stored bytes.
-/

namespace Xv6.Pipes

open Function Lib

variable {l l' : At} {dst : ℕ → Bool} {stored : Bool} {i : ℕ}

variable {ι : Type*} {s t : Sys ι} {e : Event ι} {p q : ι}

/-- **Nobody sleeps without reason** while the lock is free. -/
def Reasonable (s : Sys ι) : Prop :=
  s.lock = none →
    (∀ q, s.asleep q = some .nread → s.pipe.Empty ∧ s.pipe.writeopen = true) ∧
    (∀ q, s.asleep q = some .nwrite → s.pipe.Full ∧ s.pipe.readopen = true)

/-- **The condition**: when `pipewrite` gives up after it stored bytes under the lock it is
holding, nobody sleeps waiting for bytes. -/
def Prompt (s : Sys ι) : Event ι → Prop
  | .turn p =>
    ∀ src n i, s.pc p = .writeLoop src n i true → (i : ℤ) < n →
      s.pipe.readopen = false ∨ s.killed p = true → ∀ q, s.asleep q ≠ some .nread
  | _ => True

/-! ### The invariant -/

def At.Locked : At → Prop
  | .writeLoop _ _ _ _ | .writeDone _ | .readWait _ _ | .readCopy _ _ _ | .readDone _ => True
  | _ => False

def At.Storing : At → Prop
  | .writeLoop _ _ _ true | .writeDone _ => True
  | _ => False

def At.Taking : At → Prop
  | .readCopy _ _ _ | .readDone _ => True
  | _ => False

theorem At.Entering.not_locked (h : l.Entering) : ¬l.Locked := by
  cases l <;> simp_all [At.Entering, At.Locked]

theorem At.Entered.locked (h : l.Entered) : l.Locked := by
  cases l <;> simp_all [At.Entered, At.Locked]

theorem At.Storing.locked (h : l.Storing) : l.Locked := by
  cases l <;> simp_all [At.Storing, At.Locked]

theorem At.Taking.locked (h : l.Taking) : l.Locked := by
  cases l <;> simp_all [At.Taking, At.Locked]

theorem At.Leaves.locked (h : l.Leaves l') : l.Locked ∧ l'.Locked := by
  cases l <;> cases l' <;> first | exact ⟨trivial, trivial⟩ | exact h.elim

theorem At.Leaves.storing (h : l.Leaves l') (hl : l.Storing) : l'.Storing := by
  cases l <;> cases l' <;> trivial

theorem At.Leaves.taking (h : l.Leaves l') (hl : l.Taking) : l'.Taking := by
  cases l <;> cases l' <;> trivial

/-- Everyone who sleeps does so with reason, or the holder of the lock is going to wake
them up. -/
structure Watched (s : Sys ι) : Prop where
  locked : ∀ p, (s.pc p).Locked ↔ s.lock = some p
  readers : ∀ q, s.asleep q = some .nread →
    s.pipe.writeopen = true ∧ (s.pipe.Empty ∨ ∃ p, (s.pc p).Storing)
  writers : ∀ q, s.asleep q = some .nwrite →
    s.pipe.readopen = true ∧ (s.pipe.Full ∨ ∃ p, (s.pc p).Taking)

namespace Watched

theorem start (page : Fin PIPESIZE → UInt8) : Watched (start ι page) where
  locked p := by simp [Pipes.start, At.Locked]
  readers q h := by simp [Pipes.start] at h
  writers q h := by simp [Pipes.start] at h

variable (h : Watched s)

include h

theorem reasonable : Reasonable s := by
  intro hlock
  have hfree : ∀ p, ¬(s.pc p).Locked := fun p hp => by
    rw [h.locked, hlock] at hp
    cases hp
  refine ⟨fun q hq => ?_, fun q hq => ?_⟩
  · obtain ⟨hopen, hempty | ⟨p, hp⟩⟩ := h.readers q hq
    · exact ⟨hempty, hopen⟩
    · exact absurd hp.locked (hfree p)
  · obtain ⟨hopen, hfull | ⟨p, hp⟩⟩ := h.writers q hq
    · exact ⟨hfull, hopen⟩
    · exact absurd hp.locked (hfree p)

theorem eq_of_locked (hp : (s.pc p).Locked) (hq : (s.pc q).Locked) : q = p :=
  Option.some.inj (((h.locked q).mp hq).symm.trans ((h.locked p).mp hp))

theorem empty_of_not_storing (hp : (s.pc p).Locked) (hns : ¬(s.pc p).Storing) (hq : s.asleep q = some .nread) : s.pipe.Empty := by
  obtain ⟨-, hempty | ⟨w, hw⟩⟩ := h.readers q hq
  · exact hempty
  · exact absurd (h.eq_of_locked hp hw.locked ▸ hw) hns

theorem full_of_not_taking (hp : (s.pc p).Locked) (hnt : ¬(s.pc p).Taking) (hq : s.asleep q = some .nwrite) : s.pipe.Full := by
  obtain ⟨-, hfull | ⟨r, hr⟩⟩ := h.writers q hq
  · exact hfull
  · exact absurd (h.eq_of_locked hp hr.locked ▸ hr) hnt

theorem same (hpipe : t.pipe = s.pipe) (hpc : t.pc = s.pc) (hlock : t.lock = s.lock)
    (hasleep : ∀ q c, t.asleep q = some c → s.asleep q = some c) : Watched t where
  locked q := by rw [hpc, hlock]; exact h.locked q
  readers q hq := by rw [hpipe, hpc]; exact h.readers q (hasleep q _ hq)
  writers q hq := by rw [hpipe, hpc]; exact h.writers q (hasleep q _ hq)

theorem close (writable : Bool) : Watched (s.pipeclose writable) := by
  have hold : ∀ q c, (s.pipeclose writable).asleep q = some c → s.asleep q = some c := by
    intro q c hq
    simp only [Sys.pipeclose, Sys.wakeup] at hq
    split_ifs at hq <;> simp_all
  have hwoken : ∀ q, (s.pipeclose writable).asleep q ≠ some (if writable then .nread else .nwrite) := by
    intro q hq
    simp only [Sys.pipeclose, Sys.wakeup] at hq
    split_ifs at hq <;> simp_all
  refine ⟨h.locked, fun q hq => ?_, fun q hq => ?_⟩
  · cases writable with
    | true => exact absurd hq (hwoken q)
    | false => exact h.readers q (hold q _ hq)
  · cases writable with
    | true => exact h.writers q (hold q _ hq)
    | false => exact absurd hq (hwoken q)

variable [DecidableEq ι]

theorem locked_goto (hp : (s.pc p).Locked ↔ l.Locked) : ∀ q, (update s.pc p l q).Locked ↔ s.lock = some q :=
  forall_update (P := fun q l => At.Locked l ↔ s.lock = some q) (hp.symm.trans (h.locked p)) fun q _ => h.locked q

theorem locked_leave (hp : (s.pc p).Locked) (hl : ¬l.Locked) : ∀ q, (update s.pc p l q).Locked ↔ (none : Option ι) = some q :=
  forall_update (P := fun q l => At.Locked l ↔ none = some q) (by simp [hl])
    fun q hqp => iff_of_false (fun hq => hqp (h.eq_of_locked hp hq)) (by simp)

/-- A step that leaves the pipe alone and puts nobody to sleep. The process may leave the places from which it was going to wake somebody
up only if nobody is left asleep there. -/
theorem keep (hpipe : t.pipe = s.pipe) (hpc : t.pc = update s.pc p l) (hasleep : ∀ q c, t.asleep q = some c → s.asleep q = some c)
    (hlocked : ∀ q, (update s.pc p l q).Locked ↔ t.lock = some q) (hstoring : ∀ q, t.asleep q = some .nread → (s.pc p).Storing → l.Storing)
    (htaking : ∀ q, t.asleep q = some .nwrite → (s.pc p).Taking → l.Taking) : Watched t := by
  refine ⟨fun q => hpc ▸ hlocked q, fun q hq => ?_, fun q hq => ?_⟩
  · rw [hpipe, hpc]
    obtain ⟨hopen, hempty | ⟨w, hw⟩⟩ := h.readers q (hasleep q _ hq)
    · exact ⟨hopen, Or.inl hempty⟩
    · refine ⟨hopen, Or.inr ⟨w, ?_⟩⟩
      by_cases hwp : w = p
      · rw [hwp, update_self]
        exact hstoring q hq (hwp ▸ hw)
      · rwa [update_of_ne hwp]
  · rw [hpipe, hpc]
    obtain ⟨hopen, hfull | ⟨r, hr⟩⟩ := h.writers q (hasleep q _ hq)
    · exact ⟨hopen, Or.inl hfull⟩
    · refine ⟨hopen, Or.inr ⟨r, ?_⟩⟩
      by_cases hrp : r = p
      · rw [hrp, update_self]
        exact htaking q hq (hrp ▸ hr)
      · rwa [update_of_ne hrp]

variable {n : ℤ} {src : ℕ → Option UInt8}

theorem full (hpc : s.pc p = .writeLoop src n i stored) (hfull : s.pipe.Full)
    (hopen : s.pipe.readopen = true) : Watched ((s.wakeup .nread).sleep p .nwrite (.writeAcquire src n i)) := by
  have hp : (s.pc p).Locked := by rw [hpc]; trivial
  refine ⟨h.locked_leave hp id, fun q hq => ?_, fun q _ => ⟨hopen, Or.inl hfull⟩⟩
  -- all who slept waiting for bytes are awake, and the writer waits for room
  simp only [Sys.sleep, Sys.wakeup, update_apply] at hq
  split_ifs at hq <;> simp_all

theorem empty (hpc : s.pc p = .readWait dst n) (hempty : s.pipe.Empty)
    (hopen : s.pipe.writeopen = true) : Watched (s.sleep p .nread (.readAcquire dst n)) := by
  have hp : (s.pc p).Locked := by rw [hpc]; trivial
  refine ⟨h.locked_leave hp id, fun q _ => ⟨hopen, Or.inl hempty⟩, fun q hq => ?_⟩
  have hold : s.asleep q = some .nwrite := by
    by_cases hqp : q = p
    · simp [Sys.sleep, hqp] at hq
    · simpa [Sys.sleep, hqp] using hq
  exact ⟨(h.writers q hold).1, Or.inl (h.full_of_not_taking hp (by rw [hpc]; exact id) hold)⟩

theorem store (hpc : s.pc p = .writeLoop src n i stored) (hfull : ¬s.pipe.Full) {ch : UInt8}
    (hpipe : t.pipe = s.pipe.store ch) (hlock : t.lock = s.lock) (hasleep : t.asleep = s.asleep)
    (htpc : t.pc = update s.pc p (.writeLoop src n (i + 1) true)) : Watched t := by
  have hp : (s.pc p).Locked := by rw [hpc]; trivial
  refine ⟨fun q => ?_, fun q hq => ?_, fun q hq => ?_⟩
  · rw [htpc, hlock]
    exact h.locked_goto (iff_of_true hp (by trivial)) q
  · rw [hasleep] at hq
    rw [hpipe, htpc]
    exact ⟨(h.readers q hq).1, Or.inr ⟨p, by rw [update_self]; trivial⟩⟩
  · rw [hasleep] at hq
    exact absurd (h.full_of_not_taking hp (by rw [hpc]; exact id) hq) hfull

theorem take (hpc : s.pc p = .readCopy dst n i)
    (hempty : ¬s.pipe.Empty) (hl : l.Taking) (hpipe : t.pipe = s.pipe.take)
    (hlock : t.lock = s.lock) (hasleep : t.asleep = s.asleep) (htpc : t.pc = update s.pc p l) : Watched t := by
  have hp : (s.pc p).Locked := by rw [hpc]; trivial
  refine ⟨fun q => ?_, fun q hq => ?_, fun q hq => ?_⟩
  · rw [htpc, hlock]
    exact h.locked_goto (iff_of_true hp hl.locked) q
  · rw [hasleep] at hq
    exact absurd (h.empty_of_not_storing hp (by rw [hpc]; exact id) hq) hempty
  · rw [hasleep] at hq
    rw [hpipe, htpc]
    exact ⟨(h.writers q hq).1, Or.inr ⟨p, by rwa [update_self]⟩⟩

end Watched

theorem asleep_wakeup {chan : Chan} {q : ι} {c : Chan} : (s.wakeup chan).asleep q = some c ↔ s.asleep q = some c ∧ c ≠ chan := by
  simp only [Sys.wakeup]
  split_ifs with hq
  · simp [hq, eq_comm]
  · refine ⟨fun hc => ⟨hc, ?_⟩, fun hc => hc.1⟩
    rintro rfl
    exact hq hc

theorem Queue.not_empty_store (h : Queue s) (hfull : ¬s.pipe.Full) (ch : UInt8) : ¬(s.pipe.store ch).Empty := by
  intro hempty
  have hroom : s.put.length ≠ s.got.length + PIPESIZE :=
    fun hlen => hfull ((h.holds.full_iff pipesize_lt).mpr hlen)
  have hle := h.holds.le
  have hlen := ((h.holds.put pipesize_dvd hroom ch).empty_iff pipesize_lt).mp hempty
  rw [List.length_append, List.length_singleton] at hlen
  omega

variable [DecidableEq ι]

theorem Watched.of_step (h : Watched s) (hprompt : Prompt s e) (hstep : step s e = some t) : Watched t := by
  cases move_of_step hstep with
  | @enter _ p l r hpc hl =>
    have hout : ¬(s.pc p).Locked := by rw [hpc]; exact id
    exact h.keep rfl rfl (fun _ _ => id) (h.locked_goto (iff_of_false hout hl.not_locked))
      (fun _ _ hs => absurd hs.locked hout) (fun _ _ hs => absurd hs.locked hout)
  | @acquire p l hpc hlock hl =>
    refine h.keep rfl rfl (fun _ _ => id) (fun q => ?_) (fun _ _ hs => absurd hs.locked hpc.not_locked)
      (fun _ _ hs => absurd hs.locked hpc.not_locked)
    by_cases hqp : q = p
    · rw [hqp, update_self]
      exact iff_of_true hl.locked rfl
    · rw [update_of_ne hqp, h.locked, hlock]
      simp [Ne.symm hqp]
  | @quit p src n i stored hpc hn hwhy =>
    have hp : (s.pc p).Locked := by rw [hpc]; trivial
    refine h.keep rfl rfl (fun _ _ => id) (h.locked_leave hp id) (fun q hq hs => ?_) (fun _ _ hs => by rw [hpc] at hs; exact hs)
    cases stored with
    | true => exact absurd hq (hprompt src n i hpc hn hwhy q)
    | false => rw [hpc] at hs; exact hs.elim
  | full hpc hfull hopen => exact h.full hpc hfull hopen
  | store hpc hfull => exact h.store hpc hfull rfl rfl rfl rfl
  | goto hl =>
    exact h.keep rfl rfl (fun _ _ => id) (h.locked_goto (iff_of_true hl.locked.1 hl.locked.2)) (fun _ _ => hl.storing) (fun _ _ => hl.taking)
  | @written p i hpc =>
    have hp : (s.pc p).Locked := by rw [hpc]; trivial
    exact h.keep rfl rfl (fun _ _ hq => (asleep_wakeup.mp hq).1) (h.locked_leave hp id)
      (fun q hq _ => absurd rfl (asleep_wakeup.mp hq).2) (fun _ _ hs => by rw [hpc] at hs; exact hs)
  | @giveUp p dst n hpc =>
    have hp : (s.pc p).Locked := by rw [hpc]; trivial
    exact h.keep rfl rfl (fun _ _ => id) (h.locked_leave hp id)
      (fun _ _ hs => by rw [hpc] at hs; exact hs) (fun _ _ hs => by rw [hpc] at hs; exact hs)
  | empty hpc hempty hopen => exact h.empty hpc hempty hopen
  | take hpc hempty hl =>
    refine h.take hpc hempty ?_ rfl rfl rfl rfl
    rcases hl with rfl | rfl <;> trivial
  | @got p i hpc =>
    have hp : (s.pc p).Locked := by rw [hpc]; trivial
    exact h.keep rfl rfl (fun _ _ hq => (asleep_wakeup.mp hq).1) (h.locked_leave hp id)
      (fun _ _ hs => by rw [hpc] at hs; exact hs) (fun q hq _ => absurd rfl (asleep_wakeup.mp hq).2)
  | @close writable _ => exact h.close writable
  | @kill p =>
    refine h.same rfl rfl rfl fun q c hq => ?_
    by_cases hqp : q = p
    · simp [Sys.kill, hqp] at hq
    · simpa [Sys.kill, hqp] using hq

/-! ### What the condition is for -/

/-- A writer that stored bytes under the lock it holds finds the pipe not empty. -/
def Stocked (s : Sys ι) : Prop :=
  ∀ p src n i, s.pc p = .writeLoop src n i true → ¬s.pipe.Empty

theorem Stocked.move (h : Stocked s) (hw : Watched s) (hl : ∀ src n i, l ≠ .writeLoop src n i true) (hpc : t.pc = update s.pc p l)
    (hpipe : t.pipe = s.pipe ∨ (s.pc p).Locked) : Stocked t := by
  intro w src n i hwpc
  have hwp : w ≠ p := by
    rintro rfl
    rw [hpc, update_self] at hwpc
    exact hl src n i hwpc
  rw [hpc, update_of_ne hwp] at hwpc
  rcases hpipe with hpipe | hlocked
  · rw [hpipe]
    exact h w src n i hwpc
  · exact absurd (hw.eq_of_locked hlocked (by rw [hwpc]; trivial)) hwp

theorem Stocked.of_step (h : Stocked s) (hw : Watched s) (hq : Queue s) (hstep : step s e = some t) : Stocked t := by
  cases move_of_step hstep with
  | enter _ hl => exact h.move hw (fun _ _ _ hc => by rw [hc] at hl; exact hl) rfl (Or.inl rfl)
  | acquire _ _ hl =>
    exact h.move hw (fun _ _ _ hc => by rw [hc] at hl; exact hl) rfl (Or.inl rfl)
  | @store p src n i stored ch hpc hfull =>
    intro w src' n' i' hwpc
    by_cases hwp : w = p
    · exact hq.not_empty_store hfull ch
    · simp only [update_of_ne hwp] at hwpc
      exact absurd (hw.eq_of_locked (p := p) (by rw [hpc]; trivial) (by rw [hwpc]; trivial)) hwp
  | @goto p l hl =>
    refine h.move hw (fun _ _ _ hc => ?_) rfl (Or.inl rfl)
    rw [hc] at hl
    cases hp : s.pc p <;> rw [hp] at hl <;> exact hl
  | take hpc _ hl =>
    refine h.move hw (fun _ _ _ hc => ?_) rfl (Or.inr (by rw [hpc]; trivial))
    rcases hl with rfl | rfl <;> cases hc
  | close hlock =>
    intro p src n i hpc
    have hp : s.lock = some p := (hw.locked p).mp (by rw [show s.pc p = _ from hpc]; trivial)
    rw [hlock] at hp
    cases hp
  | kill => exact h
  | _ => exact h.move hw (fun _ _ _ hc => by cases hc) rfl (Or.inl rfl)

theorem prompt_of_reasonable (hs : Stocked s) (hstep : step s e = some t) (ht : Reasonable t) : Prompt s e := by
  cases e with
  | turn p =>
    intro src n i hpc hn hwhy q hq
    simp only [step] at hstep
    split_ifs at hstep with _ hawake
    have htleave : t = s.leave p (-1) := by
      simp only [Sys.turn, hpc, Sys.writeTurn, if_pos hn, if_pos hwhy] at hstep
      exact (Option.some.inj hstep).symm
    subst htleave
    exact hs p src n i hpc ((ht rfl).1 q hq).1
  | _ => trivial

/-- What a run under the condition keeps. -/
structure Quiet (s : Sys ι) : Prop where
  watched : Watched s
  queue : Queue s
  stocked : Stocked s

theorem Quiet.of_along {page : Fin PIPESIZE → UInt8} {es : List (Event ι)}
    (hal : Along step Prompt (start ι page) es) (hrun : run step (start ι page) es = some s) : Quiet s := by
  refine hal.invariant (I := Quiet) (fun h hprompt hstep => ?_) ?_ hrun
  · exact ⟨h.watched.of_step hprompt hstep, h.queue.of_step hstep, h.stocked.of_step h.watched h.queue hstep⟩
  · exact ⟨Watched.start page, Queue.start page, fun p src n i hpc => by cases hpc⟩

/-- **Nobody sleeps on a pipe without reason**, in a run in which no `pipewrite` gives up, having stored bytes since it took the lock,
while somebody sleeps waiting for bytes; and the first step that does so breaks it. -/
theorem sleeps_with_reason (ι : Type*) [DecidableEq ι] (page : Fin PIPESIZE → UInt8)
    (es : List (Event ι)) (s : Sys ι) (hal : Along step Prompt (start ι page) es) (hrun : run step (start ι page) es = some s) :
    Reasonable s ∧ ∀ e t, step s e = some t → (Reasonable t ↔ Prompt s e) := by
  have hs := Quiet.of_along hal hrun
  refine ⟨hs.watched.reasonable, fun e t hstep => ⟨prompt_of_reasonable hs.stocked hstep, ?_⟩⟩
  exact fun hprompt => (hs.watched.of_step hprompt hstep).reasonable

def readerSleeps : List (Event Bool) :=
  [.read true (fun _ => true) 1, .turn true, .turn true]

def writerStores : List (Event Bool) :=
  [.write false (fun _ => some 7) 2, .turn false, .turn false]

theorem sleeps_with_reason_reader : ∃ s : Sys Bool, s.asleep true = some .nread ∧ Reasonable s ∧
      ∀ e t, step s e = some t → (Reasonable t ↔ Prompt s e) := by
  let s := (run step (start Bool fun _ => 0) readerSleeps).get (by decide)
  refine ⟨s, by decide, sleeps_with_reason Bool (fun _ => 0) readerSleeps s ?_ (Option.some_get _).symm⟩
  refine ⟨trivial, fun t ht => ?_⟩
  obtain rfl := Option.some.inj ht
  refine ⟨fun src n i hpc => (by cases hpc), fun t ht => ?_⟩
  obtain rfl := Option.some.inj ht
  exact ⟨fun src n i hpc => (by cases hpc), fun _ _ => Along.nil⟩

/-- **A reader left asleep beside a byte.** It waits for bytes, a writer stores one of two,
is killed, and gives up. -/
theorem sleeps_beside_byte : ∃ s : Sys Bool, Reach step (start Bool fun _ => 0) s ∧ s.lock = none ∧
      s.asleep true = some .nread ∧ s.pipe.nread = 0 ∧ s.pipe.nwrite = 1 ∧ ¬Reasonable s := by
  let es := readerSleeps ++ writerStores ++ [.kill false, .turn false]
  let s := (run step (start Bool fun _ => 0) es).get (by decide)
  refine ⟨s, ⟨es, (Option.some_get _).symm⟩, by decide, by decide, by decide, by decide, ?_⟩
  intro h
  exact absurd ((h (by decide)).1 true (by decide)).1 (by decide)

end Xv6.Pipes
