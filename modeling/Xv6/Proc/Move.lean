import Xv6.Proc.Table

/-!
# What a step of the process table can do

The step function of `Xv6.Proc.Table` is gone through once: `Xv6.Procs.Move` lists the ways a step can change the
machine, with what is known in each case, and `Xv6.Procs.move_of_step` says that there is no other.

The list is coarser than the code where the invariants do not care: a process that is woken up, killed or hit by a fault
is one case, `touch`, and a thread that only moves on is `goto`.
-/

namespace Xv6.Procs

open Lib Function

variable {s t : Sys} {hit : Slot → Prop}

/-! ### What is touched -/

/-- The slots an event sets `killed` in: one with the number `kill` looks for, or the slot of a
process that faults. -/
def Event.Hits (s : Sys) : Event → Slot → Prop
  | .kill _ pid j, i => i = j ∧ (s.proc i).pid = pid
  | .fault p, i => i = p ∧ InUser s p
  | _, _ => False

structure Touched (q q' : Proc) : Prop where
  pid : q'.pid = q.pid
  parent : q'.parent = q.parent
  xstate : q'.xstate = q.xstate
  chan : q'.chan = q.chan
  state : q'.state = q.state ∨ (q.state = .sleeping ∧ q'.state = .runnable)

theorem Touched.refl (q : Proc) : Touched q q := ⟨rfl, rfl, rfl, rfl, Or.inl rfl⟩

theorem touched_wakeup1 (c : Chan) (q : Proc) : Touched q (wakeup1 c q) := by
  rw [wakeup1]
  split
  · exact ⟨rfl, rfl, rfl, rfl, Or.inr ⟨(‹_ ∧ _›).1, rfl⟩⟩
  · exact Touched.refl q

theorem wakeup1_killed (c : Chan) (q : Proc) : (wakeup1 c q).killed = q.killed := by
  rw [wakeup1]
  split <;> rfl

theorem touched_kill1 (q : Proc) : Touched q (kill1 q) := by
  refine ⟨rfl, rfl, rfl, rfl, ?_⟩
  by_cases h : q.state = .sleeping
  · exact Or.inr ⟨h, if_pos h⟩
  · exact Or.inl (if_neg h)

theorem wakeup1_not_sleeping {c : Chan} {q : Proc} (hc : q.chan = some c) : (wakeup1 c q).state ≠ .sleeping := by
  rw [wakeup1]
  split
  · simp
  · next hn => exact fun h => hn ⟨h, hc⟩

/-! ### The moves -/

/-- The places a thread can go to on its own account, without the table or the
lock changing: between two iterations of a loop, or into and out of a system
call. -/
inductive Goes (s : Sys) (p : Slot) : Pc → Pc → Prop
  | fork : Goes s p .user (.forkScan 0)
  | wait (addr : ℕ) : Goes s p .user (.waitAcquire addr)
  | forkNext (i : ℕ) : Goes s p (.forkScan i) (.forkScan (i + 1))
  | forkFull (i : ℕ) : Goes s p (.forkScan i) .user
  | exitNext (status : ℤ) (i : ℕ) (h : ∀ hi : i < NPROC, (s.proc ⟨i, hi⟩).parent ≠ some p) :
      Goes s p (.exitReparent status i) (.exitReparent status (i + 1))
  | exitChildless (status : ℤ) (i : ℕ) (h : NPROC ≤ i) :
      Goes s p (.exitReparent status i) (.exitWakeParent status 0)
  | exitWoken (status : ℤ) (i j : ℕ) (h : NPROC ≤ j) :
      Goes s p (.exitWakeInit status i j) (.exitReparent status (i + 1))
  | exitDue (status : ℤ) (j : ℕ) (h : NPROC ≤ j) :
      Goes s p (.exitWakeParent status j) (.exitDie status)
  | waitNext (addr i : ℕ) (hk hk' : Bool)
      (h : ∀ hi : i < NPROC, (s.proc ⟨i, hi⟩).parent = some p → (s.proc ⟨i, hi⟩).state ≠ .zombie) :
      Goes s p (.waitScan addr i hk) (.waitScan addr (i + 1) hk')
  | waitIdle (addr i : ℕ) (hk : Bool) (h : NPROC ≤ i) :
      Goes s p (.waitScan addr i hk) (.waitIdle addr)

/-- **The ways a step can change the machine**, if it kills only processes in the
slots `hit`. -/
inductive Move (hit : Slot → Prop) (s : Sys) : Sys → Prop
  | schedule (p : Slot) (h : (s.proc p).state = .runnable) :
      Move hit s ((s.setProc p (resume (s.proc p) (s.pc p)).1).setPc p (resume (s.proc p) (s.pc p)).2)
  | yield (p : Slot) (h : (s.proc p).state = .running) (hc : (s.pc p).holds = false) :
      Move hit s (s.setProc p { s.proc p with state := .runnable })
  | sleep (p : Slot) (addr : ℕ) (h : InUser s p) :
      Move hit s ((s.setProc p { s.proc p with chan := some (.other addr), state := .sleeping }).setPc p
        .slept)
  | touch (i : Slot) (q : Proc) (h : Touched (s.proc i) q)
      (hk : q.killed = (s.proc i).killed ∨ hit i) : Move hit s (s.setProc i q)
  | goto (p : Slot) (c : Pc) (h : (s.proc p).state = .running) (hg : Goes s p (s.pc p) c) :
      Move hit s (s.setPc p c)
  /-- `fork` takes the free slot `np`, and gives it back for lack of memory. -/
  | forkFail (p np : Slot) (i : ℕ) (h : (s.proc p).state = .running) (hc : s.pc p = .forkScan i)
      (hnp : (s.proc np).state = .unused) :
      Move hit s { (s.setProc np freeproc).setPc p .user with nextpid := allocpid s.nextpid }
  /-- `fork` takes the free slot `np`. -/
  | forkAlloc (p np : Slot) (i : ℕ) (h : (s.proc p).state = .running)
      (hc : s.pc p = .forkScan i) (hnp : (s.proc np).state = .unused) :
      Move hit s { s with
        nextpid := allocpid s.nextpid
        proc := update s.proc np (allocproc (s.proc np) s.nextpid)
        pc := update (update s.pc np .user) p (.forkLink np)
        gen := update s.gen np (s.gen np + 1) }
  | forkLink (p np : Slot) (h : (s.proc p).state = .running) (hc : s.pc p = .forkLink np)
      (hl : s.waitLock = none) :
      Move hit s ((s.setProc np { s.proc np with parent := some p }).setPc p (.forkReady np))
  /-- `fork` makes the child runnable. -/
  | forkReady (p np : Slot) (h : (s.proc p).state = .running) (hc : s.pc p = .forkReady np) :
      Move hit s ((s.setProc np { s.proc np with state := .runnable }).setPc p .user)
  | exitCall (p : Slot) (status : ℤ) (h : InUser s p) (hp : p ≠ s.initproc) :
      Move hit s { s.setPc p (.exitAcquire status) with
        hist := .exited p (s.gen p) (s.proc p).pid status :: s.hist }
  | exitAcquire (p : Slot) (status : ℤ) (h : (s.proc p).state = .running)
      (hc : s.pc p = .exitAcquire status) (hl : s.waitLock = none) :
      Move hit s { s.setPc p (.exitReparent status 0) with waitLock := some p }
  /-- `reparent` gives the child `i` to the first process. -/
  | exitReparent (p i : Slot) (status : ℤ) (h : (s.proc p).state = .running)
      (hc : s.pc p = .exitReparent status i) (hi : (s.proc i).parent = some p) :
      Move hit s ((s.setProc i { s.proc i with parent := some s.initproc }).setPc p
        (.exitWakeInit status i 0))
  | exitWakeInit (p j : Slot) (status : ℤ) (i : ℕ) (h : (s.proc p).state = .running)
      (hc : s.pc p = .exitWakeInit status i j) :
      Move hit s ((wakeupAt s p (some (.proc s.initproc)) j).setPc p (.exitWakeInit status i (j + 1)))
  /-- `exit` looks at slot `j` to wake the parent. -/
  | exitWakeParent (p j : Slot) (status : ℤ) (h : (s.proc p).state = .running)
      (hc : s.pc p = .exitWakeParent status j) :
      Move hit s ((wakeupAt s p ((s.proc p).parent.map .proc) j).setPc p
        (.exitWakeParent status (j + 1)))
  /-- `exit` makes its caller a zombie and gives up `wait_lock`. -/
  | exitDie (p : Slot) (status : ℤ) (h : (s.proc p).state = .running)
      (hc : s.pc p = .exitDie status) :
      Move hit s { (s.setProc p { s.proc p with xstate := status, state := .zombie }).setPc p .dead with
        waitLock := none }
  | waitAcquire (p : Slot) (addr : ℕ) (h : (s.proc p).state = .running)
      (hc : s.pc p = .waitAcquire addr) (hl : s.waitLock = none) :
      Move hit s { s.setPc p (.waitScan addr 0 false) with waitLock := some p }
  | waitFail (p : Slot) (addr i : ℕ) (hk : Bool) (h : (s.proc p).state = .running)
      (hc : s.pc p = .waitScan addr i hk) :
      Move hit s { s.setPc p .user with waitLock := none }
  | waitReap (p np : Slot) (addr : ℕ) (hk : Bool) (h : (s.proc p).state = .running)
      (hc : s.pc p = .waitScan addr np hk) (hpar : (s.proc np).parent = some p)
      (hz : (s.proc np).state = .zombie) :
      Move hit s { (s.setProc np freeproc).setPc p .user with
        waitLock := none
        hist := .reaped p (s.proc np).pid (if addr = 0 then none else some (s.proc np).xstate)
          np (s.gen np) :: s.hist }
  | waitSleep (p : Slot) (addr : ℕ) (h : (s.proc p).state = .running)
      (hc : s.pc p = .waitIdle addr) :
      Move hit s { (s.setProc p { s.proc p with chan := some (.proc p), state := .sleeping }).setPc p
        (.waitSlept addr) with waitLock := none }

theorem Move.of_eq (h : t = s) : Move hit s t := by
  have hm : Move hit s (s.setProc 0 (s.proc 0)) := .touch 0 _ (.refl _) (.inl rfl)
  rw [s.setProc_self] at hm
  rwa [h]

theorem Move.mono {hit' : Slot → Prop} (hm : Move hit s t) (h : ∀ i, hit i → hit' i) : Move hit' s t := by
  cases hm with
  | touch i q hq hk => exact .touch i q hq (hk.imp_right (h i))
  | _ => constructor <;> assumption

theorem move_of_advance {p : Slot} {ok : Bool} (h : (s.proc p).state = .running) (ht : advance s p ok = some t) : Move hit s t := by
  rcases hc : s.pc p with _ | _ | i | np | np | st | ⟨st, i⟩ | ⟨st, i, j⟩ | ⟨st, j⟩ | st | _ | addr |
      ⟨addr, i, hk⟩ | addr | addr <;> simp only [advance, hc] at ht
  case user | slept | dead | waitSlept => cases ht
  case forkScan =>
    obtain rfl := Option.some.inj ht
    rw [forkProbe]
    split
    · next hi =>
      dsimp only
      split
      · next hu =>
        split
        · exact .forkAlloc p ⟨i, hi⟩ i h hc hu
        · exact .forkFail p ⟨i, hi⟩ i h hc hu
      · exact .goto p _ h (hc ▸ .forkNext i)
    · exact .goto p _ h (hc ▸ .forkFull i)
  case forkLink =>
    split at ht
    · next hl => exact Option.some.inj ht ▸ .forkLink p np h hc hl
    · cases ht
  case forkReady => exact Option.some.inj ht ▸ .forkReady p np h hc
  case exitAcquire =>
    split at ht
    · next hl => exact Option.some.inj ht ▸ .exitAcquire p st h hc hl
    · cases ht
  case exitReparent =>
    obtain rfl := Option.some.inj ht
    rw [reparent1]
    split
    · next hi =>
      dsimp only
      split
      · next hpar => exact .exitReparent p ⟨i, hi⟩ st h hc hpar
      · next hpar => exact .goto p _ h (hc ▸ .exitNext st i fun _ => hpar)
    · next hi => exact .goto p _ h (hc ▸ .exitChildless st i (Nat.le_of_not_lt hi))
  case exitWakeInit =>
    split at ht
    · next hj => exact Option.some.inj ht ▸ .exitWakeInit p ⟨j, hj⟩ st i h hc
    · next hj =>
      exact Option.some.inj ht ▸ .goto p _ h (hc ▸ .exitWoken st i j (Nat.le_of_not_lt hj))
  case exitWakeParent =>
    split at ht
    · next hj => exact Option.some.inj ht ▸ .exitWakeParent p ⟨j, hj⟩ st h hc
    · next hj =>
      exact Option.some.inj ht ▸ .goto p _ h (hc ▸ .exitDue st j (Nat.le_of_not_lt hj))
  case exitDie => exact Option.some.inj ht ▸ .exitDie p st h hc
  case waitAcquire =>
    split at ht
    · next hl => exact Option.some.inj ht ▸ .waitAcquire p addr h hc hl
    · cases ht
  case waitScan =>
    obtain rfl := Option.some.inj ht
    rw [waitProbe]
    split
    · next hi =>
      dsimp only
      split
      · next hpar =>
        split
        · next hz =>
          split
          · exact .waitFail p addr i hk h hc
          · exact .waitReap p ⟨i, hi⟩ addr hk h hc hpar hz
        · next hz => exact .goto p _ h (hc ▸ .waitNext addr i hk true fun _ _ => hz)
      · next hpar => exact .goto p _ h (hc ▸ .waitNext addr i hk hk fun _ hp => absurd hp hpar)
    · next hi =>
      split
      · exact .waitFail p addr i hk h hc
      · exact .goto p _ h (hc ▸ .waitIdle addr i hk (Nat.le_of_not_lt hi))
  case waitIdle => exact Option.some.inj ht ▸ .waitSleep p addr h hc

theorem move_of_step {e : Event} (he : step s e = some t) : Move (e.Hits s) s t := by
  cases e with
  | schedule p =>
    obtain ⟨h, rfl⟩ : (s.proc p).state = .runnable ∧ _ := by simpa [step] using he
    exact .schedule p h
  | yield p =>
    obtain ⟨⟨h, hc⟩, rfl⟩ : (_ ∧ _) ∧ _ := by simpa [step] using he
    exact .yield p h hc
  | sleep p addr =>
    obtain ⟨h, rfl⟩ : InUser s p ∧ _ := by simpa [step] using he
    exact .sleep p addr h
  | wake i addr =>
    obtain rfl := Option.some.inj he
    exact .touch i _ (touched_wakeup1 _ _) (Or.inl (wakeup1_killed _ _))
  | fork p =>
    obtain ⟨h, rfl⟩ : InUser s p ∧ _ := by simpa [step] using he
    exact .goto p _ h.1 (h.2 ▸ .fork)
  | exit p status =>
    obtain ⟨⟨h, hp⟩, rfl⟩ : (InUser s p ∧ _) ∧ _ := by simpa [step] using he
    exact .exitCall p status h hp
  | wait p addr =>
    obtain ⟨h, rfl⟩ : InUser s p ∧ _ := by simpa [step] using he
    exact .goto p _ h.1 (h.2 ▸ .wait addr)
  | kill p pid i =>
    obtain ⟨-, rfl⟩ : InUser s p ∧ _ := by simpa [step] using he
    rw [killAt]
    split
    · next hi => exact .touch i _ (touched_kill1 _) (Or.inr ⟨rfl, hi⟩)
    · exact .touch i _ (Touched.refl _) (Or.inl rfl)
  | fault p =>
    obtain ⟨h, rfl⟩ : InUser s p ∧ _ := by simpa [step] using he
    exact .touch p _ ⟨rfl, rfl, rfl, rfl, Or.inl rfl⟩ (Or.inr ⟨rfl, h⟩)
  | advance p ok =>
    obtain ⟨h, ht⟩ : (s.proc p).state = .running ∧ _ := by simpa [step] using he
    exact move_of_advance h ht

end Xv6.Procs
