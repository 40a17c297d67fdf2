import Xv6.Log.Stages
import Mathlib.Data.Fintype.Card

/-!
# Crash atomicity

A crash may come at any moment, also while the kernel recovers from the one before. The disk it finds recovers to the state
after the commits whose header had been written: this is the invariant, read at the end of a recovery. Recovery comes to
its end because every buffer is free whenever the recovering thread asks for one (`Xv6.Logging.Quiet`), and the header
names finitely many blocks.
-/

namespace Xv6.Logging

open Lib Function

open Option (bind_some ite_none_right_eq_some map_eq_some_iff map_some)

variable {base : ℕ → Block} {s s' t : Sys} {p : Pid} {i : BufId} {b tail : ℕ} {pins : List ℕ}
  {c : ℕ → Block} {U V : List BufId} {e : Event}

/-! ### Which events are considered -/

/-- Whatever this event changes in a buffer is passed to `log_write` before the buffer is
released. -/
def Event.Logged : Event → Prop
  | .copyin _ _ _ user src len => (Logging.copyin user src len).2 = true
  | _ => True

def Event.Recovers : Event → Prop
  | .log | .crash => True
  | _ => False

theorem Event.Logged.harmless (h : e.Logged) : Harmless s e := by
  cases e with
  | copyin p i off user src len => exact fun hf => Bool.noConfusion (hf.symm.trans h)
  | _ => trivial

theorem Event.Recovers.logged (h : e.Recovers) : e.Logged := by
  cases e with
  | log | crash => trivial
  | _ => exact h.elim

theorem harmless_log : Harmless s .log := trivial

/-! ### Free buffers -/

def Quiet (U : List BufId) (s : Sys) : Prop :=
  ∀ i, s.queue i = [] ∧ (i ∉ U → (s.buf i).holder = none)

theorem quiet_crash : Quiet [] (crash s) := fun _ => ⟨rfl, fun _ => rfl⟩

section

variable (hq : Quiet U s)

include hq

theorem Quiet.refcnt (h : Core [] c s) (hi : i ∉ U) : (s.buf i).refcnt = 0 := by
  rw [(h.bufs i).refs, (hq i).1, (hq i).2 hi]
  simp

theorem Quiet.bread (hr : bread s p b = some (i, s')) : Quiet (i :: U) s' := by
  obtain ⟨-, hother, -, -⟩ := bread_buf hr
  obtain ⟨s₁, hget, hlock⟩ := bread_some hr
  obtain ⟨q, rfl, -, -⟩ := bget_some hget
  obtain ⟨-, -, rfl⟩ := lock_some hlock
  intro j
  refine ⟨?_, fun hj => ?_⟩
  · rw [Sys.put_queue]
    split
    · rw [Sys.put_queue, if_pos rfl, (hq i).1]
      simp
    · next hji => rw [Sys.put_queue, if_neg hji, (hq j).1]
  · rw [List.mem_cons, not_or] at hj
    rw [hother j hj.1]
    exact (hq j).2 hj.2

theorem Quiet.brelse (hU : ∀ j ∈ U, j = i ∨ j ∈ V) : Quiet V (brelse s i) := by
  refine fun j => ⟨(hq j).1, fun hj => ?_⟩
  rw [brelse_buf]
  split
  · rfl
  · next hji => exact (hq j).2 fun hjU => (hU j hjU).elim hji hj

theorem Quiet.bwrite (v : Block) : Quiet U (bwrite s i v) := by
  refine fun j => ⟨(hq j).1, fun hj => ?_⟩
  rw [bwrite_buf]
  split
  · next hji => exact hji ▸ (hq j).2 hj
  · exact (hq j).2 hj

theorem Quiet.setLh (lh : List ℕ) : Quiet U (s.setLh lh) := hq

end

theorem Core.bread_isSome (h : Core pins c s) (hi : (s.buf i).refcnt = 0) (hb : ∀ j, (s.buf j).Caches ROOTDEV b → (s.buf j).holder = none) (p : Pid) :
    ∃ k s', Logging.bread s p b = some (k, s') := by
  have hsome : (s.cache.bget ROOTDEV b).isSome := Cache.bget_isSome (h.lru i) hi
  obtain ⟨⟨k, cache⟩, hget⟩ := Option.isSome_iff_exists.mp hsome
  have hget' : Logging.bget s p b = some (k, { s with cache := cache, queue := update s.queue k (s.queue k ++ [p]) }) := by
    rw [Logging.bget, hget]
    rfl
  obtain ⟨q, hs₁, hq, hcase⟩ := bget_some hget'
  have hholder : (s.buf k).holder = none := by
    rcases hcase with ⟨hc, -⟩ | ⟨-, h0, -⟩
    · exact hb k hc
    · exact ((h.bufs k).of_refcnt h0).1
  rw [hs₁] at hget'
  rw [Logging.bread, hget', bind_some, Logging.lock, if_pos]
  · exact ⟨k, _, rfl⟩
  · rw [Sys.put_buf, Sys.put_queue, if_pos rfl, if_pos rfl, hq]
    exact ⟨by simp, hholder⟩

/-- **In a quiet machine there is a buffer for everybody**, as long as not all are held. -/
theorem Quiet.bread_isSome (hq : Quiet U s) (h : Core [] c s) (hU : U.length < NBUF) (hb : ∀ j ∈ U, (s.buf j).blockno ≠ b) (p : Pid) :
    ∃ k s', Logging.bread s p b = some (k, s') := by
  obtain ⟨i, -, hi⟩ : ∃ i ∈ (Finset.univ : Finset BufId), i ∉ U.toFinset := by
    refine Finset.exists_mem_notMem_of_card_lt_card ((U.toFinset_card_le).trans_lt ?_)
    simpa [BufId] using hU
  refine h.bread_isSome (hq.refcnt h (by simpa using hi)) (fun j hj => (hq j).2 fun hjU => ?_) p
  exact hb j hjU hj.2

/-! ### Recovery comes to its end -/

section

variable (hq : Quiet [] s) (h : Core [] c s)

include hq h

theorem Quiet.readHead : ∃ t, readHead s = some t ∧ Quiet [] t := by
  obtain ⟨k, s₁, hr⟩ := hq.bread_isSome h (b := s.log.start) (by decide) (by simp) s.worker
  refine ⟨_, by rw [Logging.readHead, hr, map_some], ?_⟩
  exact ((hq.bread hr).setLh _).brelse fun j hj => Or.inl (List.mem_singleton.mp hj)

theorem Quiet.writeHead : ∃ t, writeHead s = some t ∧ Quiet [] t := by
  obtain ⟨k, s₁, hr⟩ := hq.bread_isSome h (b := s.log.start) (by decide) (by simp) s.worker
  refine ⟨_, by rw [Logging.writeHead, hr, map_some], ?_⟩
  exact ((hq.bread hr).bwrite _).brelse fun j hj => Or.inl (List.mem_singleton.mp hj)

theorem Quiet.installBlock (hb : b ≠ s.log.start + tail + 1) :
    ∃ t, installBlock s true tail b = some t ∧ Quiet [] t := by
  obtain ⟨l, s₁, hl⟩ := hq.bread_isSome h (b := s.log.start + tail + 1) (by decide) (by simp) s.worker
  obtain ⟨h₁, -, -, hc, -⟩ := h.bread hl
  have hq₁ := hq.bread hl
  obtain ⟨d, s₂, hd⟩ := hq₁.bread_isSome h₁ (b := b) (by simp [NBUF, MAXOPBLOCKS])
    (fun j hj => by rw [List.mem_singleton.mp hj, hc.2]; exact hb.symm) s.worker
  refine ⟨_, by rw [Logging.installBlock, hl, bind_some, hd, map_some], ?_⟩
  refine Quiet.brelse (Quiet.brelse ((hq₁.bread hd).bwrite _) (V := [d]) ?_) ?_
  · simp
  · simp

end

section

variable (h : Inv base s) (hq : Quiet [] s)

include h hq

theorem Inv.replay_step (hstage : s.stage = .replay tail) :
    ∃ t, step s .log = some t ∧ ((s.log.lh.length ≤ tail ∧ t.stage = .idle) ∨
      (tail < s.log.lh.length ∧ t.stage = .replay (tail + 1) ∧ t.log = s.log ∧ Quiet [] t)) := by
  have hpins : s.pins = [] := by rw [Sys.pins, hstage]
  have hcore := h.core
  rw [hpins] at hcore
  have hst := h.stage
  simp only [StageOk, hstage] at hst
  cases hb : s.log.lh[tail]? with
  | none =>
    obtain ⟨t, ht, -⟩ := (hq.setLh []).writeHead (hcore.setLh [])
    refine ⟨{ t with stage := .idle }, ?_, Or.inl ⟨List.getElem?_eq_none_iff.mp hb, rfl⟩⟩
    rw [Logging.step, Logging.logStep, hstage]
    simp only [hb, ht, map_some]
  | some b =>
    obtain ⟨htail, rfl⟩ := List.getElem?_eq_some_iff.mp hb
    have hne := (h.home_ne (h.lh.home _ (List.getElem_mem htail))).2 tail (htail.trans_le h.lh.slots)
    obtain ⟨t, ht, hqt⟩ := hq.installBlock hcore hne
    obtain ⟨-, hf, -⟩ := hcore.installBlock_recovering ht
    refine ⟨{ t with stage := .replay (tail + 1) }, ?_, Or.inr ⟨htail, rfl, hf.log, hqt⟩⟩
    rw [Logging.step, Logging.logStep, hstage]
    simp only [hb, ht, map_some]

/-- **Recovery terminates**: whatever it has to replay, finitely many iterations lead to
its end. -/
theorem Inv.recovers_of_replay (hstage : s.stage = .replay tail) :
    ∃ n t, run step s (List.replicate n .log) = some t ∧ t.stage = .idle := by
  induction hk : s.log.lh.length - tail generalizing s tail with
  | zero =>
    obtain ⟨t, ht, ⟨-, hidle⟩ | ⟨hlt, -⟩⟩ := h.replay_step hq hstage
    · exact ⟨1, t, run_cons_eq_some.mpr ⟨t, ht, rfl⟩, hidle⟩
    · omega
  | succ k ih =>
    obtain ⟨t, ht, ⟨hle, -⟩ | ⟨hlt, hstage', hlog, hqt⟩⟩ := h.replay_step hq hstage
    · omega
    · obtain ⟨n, u, hu, hidle⟩ := ih (h.of_step harmless_log ht) hqt hstage' (by rw [hlog]; omega)
      exact ⟨n + 1, u, run_cons_eq_some.mpr ⟨t, ht, hu⟩, hidle⟩

theorem Inv.recovers (hstage : s.stage = .readHead) :
    ∃ n t, run step s (List.replicate n .log) = some t ∧ t.stage = .idle := by
  have hpins : s.pins = [] := by rw [Sys.pins, hstage]
  have hcore := h.core
  rw [hpins] at hcore
  obtain ⟨t, ht, hqt⟩ := hq.readHead hcore
  have hstep : step s .log = some { t with stage := .replay 0 } := by
    rw [Logging.step, Logging.logStep, hstage]
    simp only [ht, map_some]
  obtain ⟨n, u, hu, hidle⟩ := (h.of_step harmless_log hstep).recovers_of_replay hqt rfl
  exact ⟨n + 1, u, run_cons_eq_some.mpr ⟨_, hstep, hu⟩, hidle⟩

end

/-! ### What is committed, and when -/

/-- The operations, their updates and the commits are the same in two states. -/
structure SameTxns (s t : Sys) : Prop where
  ops : t.ops = s.ops
  cur : t.cur = s.cur
  txns : t.txns = s.txns
  durable : t.durable = s.durable

theorem bread_sameTxns (h : bread s p b = some (i, s')) : SameTxns s s' := by
  obtain ⟨s₁, hget, hlock⟩ := bread_some h
  obtain ⟨q, rfl, -, -⟩ := bget_some hget
  obtain ⟨-, -, rfl⟩ := lock_some hlock
  exact ⟨rfl, rfl, rfl, rfl⟩

theorem SameTxns.trans (h : SameTxns s s') (h' : SameTxns s' t) : SameTxns s t :=
  ⟨h'.ops.trans h.ops, h'.cur.trans h.cur, h'.txns.trans h.txns, h'.durable.trans h.durable⟩

theorem setLh_sameTxns (lh : List ℕ) : SameTxns s (s.setLh lh) := ⟨rfl, rfl, rfl, rfl⟩

theorem brelse_sameTxns : SameTxns s (brelse s i) := ⟨rfl, rfl, rfl, rfl⟩

theorem readHead_sameTxns (h : readHead s = some t) : SameTxns s t := by
  obtain ⟨i, s₁, hr, rfl⟩ := readHead_some h
  exact ((bread_sameTxns hr).trans (setLh_sameTxns _)).trans brelse_sameTxns

theorem writeHead_sameTxns (h : writeHead s = some t) : SameTxns s t := by
  obtain ⟨⟨i, s₁⟩, hr, rfl⟩ := Option.map_eq_some_iff.mp h
  have h₁ := bread_sameTxns hr
  exact { h₁ with }

theorem writeLogBlock_sameTxns (h : writeLogBlock s tail b = some t) : SameTxns s t := by
  obtain ⟨⟨l, s₁⟩, hl, h⟩ := Option.bind_eq_some_iff.mp h
  obtain ⟨⟨d, s₂⟩, hd, rfl⟩ := Option.map_eq_some_iff.mp h
  have h₂ := (bread_sameTxns hl).trans (bread_sameTxns hd)
  exact { h₂ with }

theorem installBlock_sameTxns {r : Bool} (h : installBlock s r tail b = some t) : SameTxns s t := by
  obtain ⟨⟨l, s₁⟩, hl, h⟩ := Option.bind_eq_some_iff.mp h
  obtain ⟨⟨d, s₂⟩, hd, rfl⟩ := Option.map_eq_some_iff.mp h
  have h₂ := (bread_sameTxns hl).trans (bread_sameTxns hd)
  cases r <;> exact { h₂ with }

def Stage.Recovers : Stage → Prop
  | .readHead | .replay _ | .idle => True
  | _ => False

theorem logStep_txns (h : logStep s = some t) : t.ops = s.ops ∧ t.cur = s.cur ∧ t.txns = s.txns ∧
      (s.stage.Recovers → t.durable = s.durable ∧ t.stage.Recovers) := by
  rw [logStep] at h
  split at h
  · obtain ⟨u, hu, rfl⟩ := Option.map_eq_some_iff.mp h
    have h₁ := readHead_sameTxns hu
    exact ⟨h₁.ops, h₁.cur, h₁.txns, fun _ => ⟨h₁.durable, trivial⟩⟩
  · split at h <;> obtain ⟨u, hu, rfl⟩ := Option.map_eq_some_iff.mp h
    · have h₁ := installBlock_sameTxns hu
      exact ⟨h₁.ops, h₁.cur, h₁.txns, fun _ => ⟨h₁.durable, trivial⟩⟩
    · have h₁ := writeHead_sameTxns hu
      exact ⟨h₁.ops, h₁.cur, h₁.txns, fun _ => ⟨h₁.durable, trivial⟩⟩
  · simp at h
  · next hstage =>
    rw [hstage]
    split at h <;> obtain ⟨u, hu, rfl⟩ := Option.map_eq_some_iff.mp h
    · have h₁ := writeLogBlock_sameTxns hu
      exact ⟨h₁.ops, h₁.cur, h₁.txns, False.elim⟩
    · have h₁ := writeHead_sameTxns hu
      exact ⟨h₁.ops, h₁.cur, h₁.txns, False.elim⟩
  · next hstage =>
    rw [hstage]
    split at h <;> obtain ⟨u, hu, rfl⟩ := Option.map_eq_some_iff.mp h
    · have h₁ := installBlock_sameTxns hu
      exact ⟨h₁.ops, h₁.cur, h₁.txns, False.elim⟩
    · have h₁ := writeHead_sameTxns hu
      exact ⟨h₁.ops, h₁.cur, h₁.txns, False.elim⟩
  · next hstage =>
    rw [hstage]
    obtain rfl := Option.some.inj h
    exact ⟨rfl, rfl, rfl, False.elim⟩

theorem startCommit_txns : (startCommit s p).txns = s.txns ++ [s.cur] ∧ (startCommit s p).cur = [] ∧ (startCommit s p).ops = s.ops := by
  rw [startCommit]
  split <;> exact ⟨rfl, rfl, rfl⟩

/-- **Commits are made of whole operations**: a step adds its updates to those of the
present operations, unless it is the end of the last one, which closes the transaction. -/
theorem Inv.commit_closes (h : Inv base s) (hstep : step s e = some t) (he : e ≠ .crash) : (t.txns = s.txns ∧ ∃ us, t.cur = s.cur ++ us) ∨
      (t.txns = s.txns ++ [s.cur] ∧ t.cur = [] ∧ t.ops = []) := by
  have same : ∀ {u : Sys}, u.txns = s.txns → u.cur = s.cur → (u.txns = s.txns ∧ ∃ us, u.cur = s.cur ++ us) ∨
        (u.txns = s.txns ++ [s.cur] ∧ u.cur = [] ∧ u.ops = []) :=
    fun htxns hcur => Or.inl ⟨htxns, [], by rw [hcur, List.append_nil]⟩
  cases e with
  | begin p =>
    obtain ⟨-, hstep⟩ := Option.ite_none_right_eq_some.mp hstep
    obtain ⟨l, -, rfl⟩ := Option.map_eq_some_iff.mp hstep
    exact same rfl rfl
  | bget p b =>
    obtain ⟨-, hstep⟩ := Option.ite_none_right_eq_some.mp hstep
    obtain ⟨⟨i, u⟩, hget, rfl⟩ := Option.map_eq_some_iff.mp hstep
    obtain ⟨q, rfl, -, -⟩ := bget_some hget
    exact same rfl rfl
  | lock p i =>
    obtain ⟨-, -, rfl⟩ := lock_some (Option.ite_none_right_eq_some.mp hstep).2
    exact same rfl rfl
  | modify p i f =>
    obtain ⟨-, ⟨⟩⟩ := Option.ite_none_right_eq_some.mp hstep
    exact Or.inl ⟨rfl, _, rfl⟩
  | logWrite p i =>
    obtain ⟨-, hstep⟩ := Option.ite_none_right_eq_some.mp hstep
    split at hstep <;> cases hstep
    exact same rfl rfl
  | brelse p i =>
    obtain ⟨-, ⟨⟩⟩ := Option.ite_none_right_eq_some.mp hstep
    exact same rfl rfl
  | copyin p i off user src len =>
    rw [step, ite_none_right_eq_some] at hstep
    obtain ⟨-, hstep⟩ := hstep
    rcases hcopy : Logging.copyin user src len with ⟨bs, ok⟩
    simp only [hcopy] at hstep
    obtain rfl := Option.some.inj hstep
    cases ok with
    | true | false => exact Or.inl ⟨rfl, _, rfl⟩
  | leave p =>
    obtain ⟨hp, hstep⟩ := Option.ite_none_right_eq_some.mp hstep
    split at hstep <;> cases hstep
    rename_i commit l hl
    obtain ⟨-, ⟨rfl, hz, -⟩ | ⟨rfl, -, -⟩⟩ := endOp_ok hl
    · have hops : s.ops.erase p = [] := by
        rw [h.outstanding] at hz
        exact List.eq_nil_of_length_eq_zero ((List.length_erase_of_mem hp.1).trans hz)
      rw [if_pos rfl]
      obtain ⟨htxns, hcur, hops'⟩ := startCommit_txns (s := { s with log := l, ops := s.ops.erase p }) (p := p)
      exact Or.inr ⟨htxns, hcur, hops'.trans hops⟩
    · exact same rfl rfl
  | log =>
    obtain ⟨-, hcur, htxns, -⟩ := logStep_txns hstep
    exact same htxns hcur
  | crash => exact absurd rfl he

def Stage.Filling : Stage → Prop
  | .writeLog _ => True
  | _ => False

instance : DecidablePred Stage.Filling
  | .writeLog _ => inferInstanceAs (Decidable True)
  | .readHead | .replay _ | .idle | .install _ | .done => inferInstanceAs (Decidable False)

/-- **All commits are durable** but one whose header has not been written yet. -/
theorem Inv.durable_eq (h : Inv base s) : s.txns.length = s.durable + if s.stage.Filling then 1 else 0 := by
  have hst := h.stage
  rw [StageOk] at hst
  split at hst
  · next heq => simp [heq, Stage.Filling, hst.2.2.1]
  · next heq => simp [heq, Stage.Filling, hst.1.2.2.1]
  · next heq => simp [heq, Stage.Filling, hst.2.1]
  all_goals next heq => simp [heq, Stage.Filling, hst.1.2.2.1]

/-! ### Crash atomicity -/

theorem recovering_step (he : e.Recovers) (hdur : s.durable = s.txns.length) (hstage : s.stage.Recovers) (hstep : step s e = some t) :
    t.txns = s.txns ∧ t.durable = s.durable ∧ t.stage.Recovers := by
  cases e with
  | log =>
    obtain ⟨-, -, htxns, hrec⟩ := logStep_txns hstep
    exact ⟨htxns, hrec hstage⟩
  | crash =>
    obtain rfl := Option.some.inj hstep
    refine ⟨?_, rfl, trivial⟩
    rw [crash, hdur, List.take_length]
  | _ => exact he.elim

theorem Inv.recovering {fs : List Event} (h : Inv base s) (hfs : ∀ e ∈ fs, e.Recovers)
    (hdur : s.durable = s.txns.length) (hstage : s.stage.Recovers) (hrun : run step s fs = some t) :
    Inv base t ∧ t.durably base = s.durably base := by
  induction fs generalizing s with
  | nil =>
    obtain rfl := Option.some.inj hrun
    exact ⟨h, rfl⟩
  | cons e fs ih =>
    obtain ⟨u, hu, hrest⟩ := run_cons_eq_some.mp hrun
    have he := hfs e List.mem_cons_self
    obtain ⟨htxns, hd, hstage'⟩ := recovering_step he hdur hstage hu
    obtain ⟨ht, hdt⟩ := ih (h.of_step he.logged.harmless hu) (fun e he => hfs e (List.mem_cons_of_mem _ he)) (by rw [hd, htxns, hdur]) hstage' hrest
    exact ⟨ht, by rw [hdt, Sys.durably, Sys.durably, hd, htxns]⟩

/-- **The redo log is crash atomic.** On a disk with an empty log, after any run in which every change of a buffer is passed to
`log_write`, and a crash at its end: recovery comes to an end, however often it is itself cut short; at its end every home block has the
contents after the first `s.durable` commits; only a commit that has not written its header yet is missing from these; and commits consist
of whole operations. -/
theorem crash_atomicity {a n : ℕ} {disk : ℕ → Block} {es : List Event} {s : Sys} (hn : 0 < n)
    (hempty : header (disk a) = []) (hlogged : ∀ e ∈ es, e.Logged) (hrun : run step (start a n disk) es = some s) :
    (∃ k t, run step (crash s) (List.replicate k .log) = some t ∧ t.stage = .idle) ∧
    (∀ fs t, (∀ e ∈ fs, e.Recovers) → run step (crash s) fs = some t → t.stage = .idle →
      ∀ b, t.log.Home b → t.disk b = applyUpdates (s.txns.take s.durable).flatten disk b) ∧
    (s.txns.length = s.durable + if s.stage.Filling then 1 else 0) ∧ (∀ e t, step s e = some t → e ≠ .crash →
      (t.txns = s.txns ∧ ∃ us, t.cur = s.cur ++ us) ∨ (t.txns = s.txns ++ [s.cur] ∧ t.cur = [] ∧ t.ops = [])) := by
  have hal : Along step Harmless (start a n disk) es :=
    Along.of_forall fun e he _ _ => (hlogged e he).harmless
  have h : Inv disk s := hal.invariant Inv.of_step (inv_start hn hempty) hrun
  have hcrash := h.crash
  refine ⟨hcrash.recovers quiet_crash rfl, fun fs t hfs hfsrun hidle b hb => ?_, h.durable_eq, fun e t hstep he => h.commit_closes hstep he⟩
  have hdur : (crash s).durable = (crash s).txns.length := hcrash.stage.2.2.1
  obtain ⟨ht, hdt⟩ := hcrash.recovering hfs hdur trivial hfsrun
  have hst := ht.stage
  simp only [StageOk, hidle] at hst
  have hdisk := ht.replays b hb
  rw [replay_of_header_nil hst.2.2.1, hdt] at hdisk
  rw [hdisk, Sys.durably, crash, List.take_take, Nat.min_self]

/-- A process changes a byte of block 45. The crash comes when the commit has written its header, and block 45 is only in the log. -/
def firstCommit : List Event :=
  [.log, .log, .begin 1, .bget 1 45, .lock 1 1, .modify 1 1 (fun v => store v 0 [7]),
    .logWrite 1 1, .brelse 1 1, .leave 1, .log, .log]

theorem crash_atomicity_firstCommit : ∃ s, run step (start 2 30 fun _ _ => 0) firstCommit = some s ∧ s.durable = 1 ∧
      (∃ k t, run step (crash s) (List.replicate k .log) = some t ∧ t.stage = .idle) ∧
      ∀ fs t, (∀ e ∈ fs, e.Recovers) → run step (crash s) fs = some t → t.stage = .idle → ∀ b, t.log.Home b →
          t.disk b = applyUpdates (s.txns.take s.durable).flatten (fun _ _ => 0) b := by
  have hdurable : (run step (start 2 30 fun _ _ => 0) firstCommit).map Sys.durable = some 1 := by
    decide +kernel
  obtain ⟨s, hs, hd⟩ := Option.map_eq_some_iff.mp hdurable
  have h := crash_atomicity (by decide) (by decide +kernel) (by simp [firstCommit, Event.Logged]) hs
  exact ⟨s, hs, hd, h.1, h.2.1⟩

end Xv6.Logging
