import Xv6.Log.Operations

/-!
# Recovery, commit and crash keep the invariant

One lemma for each step of the thread that recovers or commits, and the crash. The point is what a single write does to
the disk as it is read through its log: a write to the log under an empty header, a write to a block the header names,
and the clearing of a header all of whose blocks are installed leave it as it is; the write of the header of a commit
moves it on by one transaction.
-/

namespace Xv6.Logging

open Lib Function

open Option (ite_none_right_eq_some map_eq_some_iff)

variable {base : ℕ → Block} {s s' : Sys} {tail b : ℕ} {lh pins : List ℕ}

/-! ### Steps of recovery and commit -/

section

variable (hf : Frame (s.setLh lh) s')

include hf

theorem Frame.start_eq : s'.log.start = s.log.start := by
  rw [hf.log]
  rfl

theorem Frame.size_eq : s'.log.size = s.log.size := by
  rw [hf.log]
  rfl

theorem Frame.lh_eq : s'.log.lh = lh := by
  rw [hf.log]
  rfl

theorem Frame.content_eq (base : ℕ → Block) : s'.content base = s.content base := by
  rw [Sys.content, Sys.content, hf.txns, hf.cur]
  rfl

theorem Frame.alone {k : ℕ} {c : Bool}
    (h : s.ops = [] ∧ s.cur = [] ∧ s.durable + k = s.txns.length ∧ s.log.committing = c) :
    s'.ops = [] ∧ s'.cur = [] ∧ s'.durable + k = s'.txns.length ∧ s'.log.committing = c := by
  obtain ⟨hops, hcur, hdur, hc⟩ := h
  refine ⟨hf.ops.trans hops, hf.cur.trans hcur, ?_, (congrArg Log.committing hf.log).trans hc⟩
  rw [hf.durable, hf.txns]
  exact hdur

theorem Frame.home_iff : s'.log.Home b ↔ s.log.Home b :=
  Log.home_congr hf.start_eq hf.size_eq

end

theorem durably_eq_content (hcur : s.cur = []) (hdur : s.durable = s.txns.length) : s.durably base = s.content base := by
  rw [Sys.durably, Sys.content, hdur, hcur, List.take_length, List.append_nil]

section

variable (h : Inv base s)

include h

theorem Inv.of_stage (hf : Frame (s.setLh lh) s') (stage : Stage) (d : ℕ) (hcore : Core pins (s.content base) s')
    (hpins : Sys.pins { s' with stage := stage, durable := d } = pins) (hlh : Fits s.log lh) (hhead : Fits s.log (header (s'.disk s.log.start)))
    (hd : d ≤ s.txns.length) (hreplay : ∀ b, s.log.Home b → replay s.log.start s'.disk b = applyUpdates (s.txns.take d).flatten base b)
    (hst : StageOk base { s' with stage := stage, durable := d }) : Inv base { s' with stage := stage, durable := d } := by
  refine ⟨hf.size_eq.symm ▸ h.size, ?_, ?_, ?_, ?_, ?_, fun b hb => ?_, hst⟩
  · rw [hpins]
    exact (hf.content_eq base ▸ hcore).congr rfl rfl rfl rfl rfl
  · refine (congrArg Log.outstanding hf.log).trans (h.outstanding.trans ?_)
    exact congrArg List.length hf.ops.symm
  · exact Fits.congr (hf.lh_eq.symm ▸ hlh) hf.start_eq hf.size_eq
  · rw [Sys.head, hf.start_eq]
    exact hhead.congr hf.start_eq hf.size_eq
  · exact hf.txns.symm ▸ hd
  · rw [Sys.durably, hf.start_eq, hf.txns]
    exact hreplay b (hf.home_iff.mp hb)

/-- A step that makes nothing durable. -/
theorem Inv.of_same (hf : Frame (s.setLh lh) s') (stage : Stage) (hcore : Core pins (s.content base) s')
    (hpins : Sys.pins { s' with stage := stage } = pins) (hlh : Fits s.log lh) (hhead : Fits s.log (header (s'.disk s.log.start)))
    (hreplay : ∀ b, s.log.Home b → replay s.log.start s'.disk b = s.durably base b)
    (hst : StageOk base { s' with stage := stage }) : Inv base { s' with stage := stage } := by
  have hd : s'.durable = s.durable := hf.durable
  refine h.of_stage hf stage s'.durable hcore hpins hlh hhead ?_ ?_ hst
  · rw [hd]
    exact h.durable
  · rw [hd]
    exact hreplay

theorem Inv.start_notMem (hpins : ∀ b ∈ pins, s.log.Home b) : s.log.start ∉ pins := fun hb => (h.home_ne (hpins _ hb)).1 rfl

theorem Inv.readHead (hstage : s.stage = .readHead) (hr : readHead s = some s') : Inv base { s' with stage := .replay 0 } := by
  have hpins : s.pins = [] := by rw [Sys.pins, hstage]
  have hst := h.stage
  simp only [StageOk, hstage] at hst
  obtain ⟨lh, hlh, hcore, hf, hdisk⟩ := (hpins ▸ h.core).readHead List.not_mem_nil hr
  refine h.of_same hf (.replay 0) hcore rfl (hlh ▸ h.head) (hdisk.symm ▸ h.head) (hdisk.symm ▸ h.replays)
    ⟨hf.alone (k := 0) hst, ?_, fun i hi => absurd hi (Nat.not_lt_zero i)⟩
  rw [hf.lh_eq, Sys.head, hf.start_eq, hdisk, hlh]

/-- **A write to a home block the header names** changes neither what the disk stands for
nor the log. -/
theorem Inv.replay_install (hb : b ∈ s.head) (v : Block) : replay s.log.start (update s.disk b v) = replay s.log.start s.disk ∧
      header (update s.disk b v s.log.start) = s.head ∧ ∀ i < s.log.size - 1, update s.disk b v (s.slot i) = s.disk (s.slot i) := by
  obtain ⟨hstart, hslot⟩ := h.home_ne (h.head.home b hb)
  refine ⟨replay_update_of_mem hb hstart fun i hi => hslot i (hi.trans_le h.head.slots), ?_, fun i hi => ?_⟩
  · rw [update_of_ne hstart.symm, Sys.head]
  · rw [update_of_ne (hslot i hi).symm]

theorem Inv.replay_some (hstage : s.stage = .replay tail)
    (hb : s.log.lh[tail]? = some b) (hi : installBlock s true tail b = some s') : Inv base { s' with stage := .replay (tail + 1) } := by
  have hpins : s.pins = [] := by rw [Sys.pins, hstage]
  have hst := h.stage
  simp only [StageOk, hstage] at hst
  obtain ⟨halone, hlh, hdone⟩ := hst
  obtain ⟨hcore, hf, hdisk⟩ := (hpins ▸ h.core).installBlock_recovering hi
  obtain ⟨htail, rfl⟩ := List.getElem?_eq_some_iff.mp hb
  have hmem : s.log.lh[tail] ∈ s.head := by
    rw [← hlh]
    exact List.getElem_mem htail
  obtain ⟨hreplay, hhead, hslot⟩ := h.replay_install hmem (s.disk (s.log.start + tail + 1))
  rw [← hdisk] at hreplay hhead hslot
  have hf' : Frame (s.setLh s.log.lh) s' := hf
  refine h.of_same hf' (.replay (tail + 1)) hcore rfl h.lh (hhead.symm ▸ h.head) (hreplay.symm ▸ h.replays)
    ⟨hf'.alone (k := 0) halone, ?_, fun i hi hi' => ?_⟩
  · rw [Sys.head, hf.log, hhead, hlh]
  simp only [Sys.slot, hf.log] at hi' ⊢
  refine Eq.trans ?_ (hslot i (hi'.trans_le h.lh.slots)).symm
  rw [hdisk]
  rcases Nat.lt_succ_iff_lt_or_eq.mp hi with hi | rfl
  · -- the blocks before are others
    have hne : s.log.lh[i] ≠ s.log.lh[tail] := fun heq =>
      absurd ((h.lh.nodup.getElem_inj_iff).mp heq) (Nat.ne_of_lt hi)
    rw [update_of_ne hne]
    exact hdone i hi hi'
  · rw [update_self, Sys.slot]

theorem Inv.clear_head (hdisk : s'.disk = update s.disk s.log.start (setHeader [] (s.disk s.log.start)))
    (hhome : ∀ b, s.log.Home b → s.disk b = s.durably base b) : header (s'.disk s.log.start) = [] ∧
      ∀ b, s.log.Home b → replay s.log.start s'.disk b = s.durably base b ∧ s'.disk b = s.durably base b := by
  have hhead : header (s'.disk s.log.start) = [] := by
    rw [hdisk, update_self]
    exact header_setHeader (Nat.zero_le _) (by simp)
  refine ⟨hhead, fun b hb => ?_⟩
  have hb' : s'.disk b = s.durably base b := by
    rw [hdisk, update_of_ne (h.home_ne hb).1]
    exact hhome b hb
  exact ⟨by rw [replay_of_header_nil hhead, hb'], hb'⟩

theorem Inv.replay_none (hstage : s.stage = .replay tail) (hb : s.log.lh[tail]? = none) (hw : writeHead (s.setLh []) = some s') :
    Inv base { s' with stage := .idle } := by
  have hpins : s.pins = [] := by rw [Sys.pins, hstage]
  have hst := h.stage
  simp only [StageOk, hstage] at hst
  obtain ⟨halone, hlh, hdone⟩ := hst
  have hlen : s.log.lh.length ≤ tail := List.getElem?_eq_none_iff.mp hb
  obtain ⟨hcore, hf, hdisk⟩ := ((hpins ▸ h.core).setLh []).writeHead List.not_mem_nil hw
  have hinst : replay s.log.start s.disk = s.disk := by
    rw [Sys.head] at hlh
    refine replay_of_installed fun i hi => ?_
    have hi' : i < s.log.lh.length := by rwa [hlh]
    have := hdone i (hi'.trans_le hlen) hi'
    simp only [hlh] at this
    exact this
  obtain ⟨hhead, hhome⟩ := h.clear_head hdisk fun b hb => by
    rw [← h.replays b hb, hinst]
  obtain ⟨-, -, hdur, hc⟩ := hf.alone (k := 0) halone
  refine h.of_same hf .idle hcore hf.lh_eq fits_nil (hhead ▸ fits_nil) (fun b hb => (hhome b hb).1) ⟨hc, hdur, ?_, fun b hb _ _ => ?_⟩
  · rw [Sys.head, hf.start_eq, hhead]
  · rw [(hhome b (hf.home_iff.mp hb)).2, durably_eq_content halone.2.1 halone.2.2.1]
    exact congrFun (hf.content_eq base).symm b

/-! ### Commit -/

theorem Inv.writeLog_some (hstage : s.stage = .writeLog tail)
    (hb : s.log.lh[tail]? = some b) (hw : writeLogBlock s tail b = some s') : Inv base { s' with stage := .writeLog (tail + 1) } := by
  have hpins : s.pins = s.log.lh := by rw [Sys.pins, hstage]
  have hst := h.stage
  simp only [StageOk, hstage] at hst
  obtain ⟨halone, hhead, hset, hdone⟩ := hst
  obtain ⟨htail, rfl⟩ := List.getElem?_eq_some_iff.mp hb
  have hslot : ∀ b, s.log.Home b → b ≠ s.slot tail := fun b hb =>
    (h.home_ne hb).2 tail (htail.trans_le h.lh.slots)
  have hcore := h.core
  rw [hpins] at hcore
  obtain ⟨hcore, hf, hdisk⟩ := hcore.writeLogBlock (List.getElem_mem htail) (fun hb => hslot _ (h.lh.home _ hb) rfl) hw
  have hf' : Frame (s.setLh s.log.lh) s' := hf
  have hhead' : header (s'.disk s.log.start) = [] := by
    rw [hdisk, update_of_ne (by omega)]
    exact hhead
  have hhome : ∀ b, s.log.Home b → s'.disk b = s.disk b := fun b hb => by
    rw [hdisk]
    exact update_of_ne (hslot b hb) ..
  have hpins' : Sys.pins { s' with stage := .writeLog (tail + 1) } = s.pins :=
    hf'.lh_eq.trans hpins.symm
  refine h.of_same hf' (.writeLog (tail + 1)) hcore hf'.lh_eq h.lh (hhead' ▸ fits_nil) (fun b hb => ?_)
    ⟨hf'.alone halone, ?_, fun b hb hpin _ => ?_, fun i hi hi' => ?_⟩
  · rw [replay_of_header_nil hhead', hhome b hb]
    exact (congrFun (replay_of_header_nil hhead) b).symm.trans (h.replays b hb)
  · rw [Sys.head, hf.log, hhead']
  · refine ((hhome b (hf'.home_iff.mp hb)).trans (hset b (hf'.home_iff.mp hb) (hpins' ▸ hpin) ?_)).trans ?_
    · exact h.core.not_dirty halone.1
    · exact congrFun (hf'.content_eq base).symm b
  · simp only [Sys.slot, hf.log] at hi' ⊢
    refine Eq.trans ?_ (congrFun (hf'.content_eq base).symm _)
    rw [hdisk]
    rcases Nat.lt_succ_iff_lt_or_eq.mp hi with hi | rfl
    · rw [update_of_ne (by omega)]
      exact hdone i hi hi'
    · rw [update_self]

/-- **The commit point**: the write of the header makes the transaction durable. -/
theorem Inv.writeLog_none (hstage : s.stage = .writeLog tail) (hb : s.log.lh[tail]? = none) (hw : writeHead s = some s') :
    Inv base { s' with stage := .install 0, durable := s'.txns.length } := by
  have hpins : s.pins = s.log.lh := by rw [Sys.pins, hstage]
  have hst := h.stage
  simp only [StageOk, hstage] at hst
  obtain ⟨halone, hhead, hset, hdone⟩ := hst
  have hlen : s.log.lh.length ≤ tail := List.getElem?_eq_none_iff.mp hb
  have hcore := h.core
  rw [hpins] at hcore
  obtain ⟨hcore, hf, hdisk⟩ := hcore.writeHead (h.start_notMem h.lh.home) hw
  have hf' : Frame (s.setLh s.log.lh) s' := hf
  have hnew : header (setHeader s.log.lh (s.disk s.log.start)) = s.log.lh :=
    header_setHeader h.lh.room fun b hb => (h.lh.home b hb).2
  have hhead' : header (s'.disk s.log.start) = s.log.lh := by
    rw [hdisk, update_self, hnew]
  have hslots : ∀ i, ∀ h : i < s.log.lh.length, s.disk (s.slot i) = s.content base s.log.lh[i] :=
    fun i hi => hdone i (hi.trans_le hlen) hi
  have hclean : ∀ b, s.log.Home b → b ∉ s.log.lh → s.disk b = s.content base b := fun b hb hlh =>
    hset b hb (hpins ▸ hlh) (h.core.not_dirty halone.1)
  refine h.of_stage hf' (.install 0) s'.txns.length hcore ?_ h.lh (hhead' ▸ h.lh) (hf.txns ▸ le_rfl) ?_ ?_
  · exact hf'.lh_eq
  · intro b hb
    have hcontent : applyUpdates (s.txns.take s'.txns.length).flatten base = s.content base := by
      rw [hf.txns, List.take_length, Sys.content, halone.2.1, List.append_nil]
    rw [hcontent, hdisk]
    refine replay_update_header (fun i hi => ?_) (h.home_ne hb).1 fun hlh => ?_
    · simp only [hnew] at hi ⊢
      exact hslots i hi
    · exact hclean b hb (hnew ▸ hlh)
  · obtain ⟨hops, hcur, -, hc⟩ := hf'.alone halone
    refine ⟨⟨hops, hcur, rfl, hc⟩, ?_, fun b hb hpin _ => ?_, fun i hi => ?_⟩
    · rw [Sys.head, hf.log, hhead']
    · have hb' := hf'.home_iff.mp hb
      refine Eq.trans ?_ (congrFun (hf'.content_eq base).symm b)
      rw [hdisk, update_of_ne (h.home_ne hb').1]
      exact hclean b hb' (hf'.lh_eq ▸ hpin)
    · simp only [Sys.slot, hf.log] at hi ⊢
      refine Eq.trans ?_ (congrFun (hf'.content_eq base).symm _)
      rw [hdisk, update_of_ne (by omega)]
      exact hslots i hi

theorem Inv.install_some (hstage : s.stage = .install tail)
    (hb : s.log.lh[tail]? = some b) (hi : installBlock s false tail b = some s') : Inv base { s' with stage := .install (tail + 1) } := by
  have hst := h.stage
  simp only [StageOk, hstage] at hst
  obtain ⟨halone, hhead, hset, hslots⟩ := hst
  obtain ⟨htail, rfl⟩ := List.getElem?_eq_some_iff.mp hb
  have hpins : s.pins = s.log.lh[tail] :: s.log.lh.drop (tail + 1) := by
    rw [Sys.pins, hstage]
    exact List.drop_eq_getElem_cons htail
  have hnodup : (s.log.lh[tail] :: s.log.lh.drop (tail + 1)).Nodup := by
    rw [← List.drop_eq_getElem_cons htail]
    exact h.lh.nodup.sublist (List.drop_sublist ..)
  have hpinned : ∀ b ∈ s.log.lh[tail] :: s.log.lh.drop (tail + 1), b ∈ s.log.lh := by
    rw [← List.drop_eq_getElem_cons htail]
    exact fun b => List.mem_of_mem_drop
  have hcore := h.core
  rw [hpins] at hcore
  obtain ⟨hcore, hf, hdisk⟩ := hcore.installBlock (List.nodup_cons.mp hnodup).1
    (fun hb => (h.home_ne (h.lh.home _ (hpinned _ hb))).2 tail (htail.trans_le h.lh.slots) rfl)
    (hslots tail htail) hi
  have hf' : Frame (s.setLh s.log.lh) s' := hf
  have hmem : s.log.lh[tail] ∈ s.head := by
    rw [hhead]
    exact List.getElem_mem htail
  obtain ⟨hreplay, hhead', hslot⟩ := h.replay_install hmem (s.content base s.log.lh[tail])
  rw [← hdisk] at hreplay hhead' hslot
  have hpins' : Sys.pins { s' with stage := .install (tail + 1) } = s.log.lh.drop (tail + 1) :=
    congrArg (List.drop (tail + 1)) hf'.lh_eq
  refine h.of_same hf' (.install (tail + 1)) hcore hpins' h.lh (hhead'.symm ▸ h.head) (hreplay.symm ▸ h.replays)
    ⟨hf'.alone (k := 0) halone, ?_, fun b hb hpin _ => ?_, fun i hi => ?_⟩
  · rw [Sys.head, hf.log, hhead', hhead]
  · refine Eq.trans ?_ (congrFun (hf'.content_eq base).symm b)
    rw [hdisk]
    by_cases hbt : b = s.log.lh[tail]
    · rw [hbt, update_self]
    · rw [update_of_ne hbt]
      refine hset b (hf'.home_iff.mp hb) ?_ (h.core.not_dirty halone.1)
      rw [hpins, List.mem_cons, not_or]
      exact ⟨hbt, hpins' ▸ hpin⟩
  · simp only [Sys.slot, hf.log] at hi ⊢
    refine Eq.trans ?_ (congrFun (hf'.content_eq base).symm _)
    exact (hslot i (hi.trans_le h.lh.slots)).trans (hslots i hi)

theorem Inv.install_none (hstage : s.stage = .install tail) (hb : s.log.lh[tail]? = none) (hw : writeHead (s.setLh []) = some s') :
    Inv base { s' with stage := .done } := by
  have hpins : s.pins = [] := by
    rw [Sys.pins, hstage]
    exact List.drop_eq_nil_iff.mpr (List.getElem?_eq_none_iff.mp hb)
  have hst := h.stage
  simp only [StageOk, hstage] at hst
  obtain ⟨halone, -, hset, -⟩ := hst
  obtain ⟨hcore, hf, hdisk⟩ := ((hpins ▸ h.core).setLh []).writeHead List.not_mem_nil hw
  obtain ⟨hhead, hhome⟩ := h.clear_head hdisk fun b hb => by
    rw [durably_eq_content halone.2.1 halone.2.2.1]
    exact hset b hb (hpins ▸ List.not_mem_nil) (h.core.not_dirty halone.1)
  refine h.of_same hf .done hcore hf.lh_eq fits_nil (hhead ▸ fits_nil) (fun b hb => (hhome b hb).1)
    ⟨hf.alone (k := 0) halone, ?_, hf.lh_eq, fun b hb _ _ => ?_⟩
  · rw [Sys.head, hf.start_eq, hhead]
  · rw [(hhome b (hf.home_iff.mp hb)).2, durably_eq_content halone.2.1 halone.2.2.1]
    exact congrFun (hf.content_eq base).symm b

theorem Inv.finish (hstage : s.stage = .done) : Inv base { s with log := { s.log with committing := false }, stage := .idle } := by
  have hst := h.stage
  simp only [StageOk, hstage] at hst
  obtain ⟨⟨hops, hcur, hdur, hc⟩, hhead, hlh, hset⟩ := hst
  have hpins : s.pins = s.log.lh := by rw [Sys.pins, hstage]
  refine ⟨h.size, ?_, h.outstanding, h.lh.congr rfl rfl, h.head.congr rfl rfl, h.durable, h.replays, ?_⟩
  · have hcore := h.core
    rw [hpins] at hcore
    exact hcore.congr rfl rfl rfl rfl rfl
  · refine ⟨rfl, hdur, hhead, fun b hb hpin _ => ?_⟩
    exact hset b hb (hpins ▸ hpin) (h.core.not_dirty hops)

theorem Inv.logStep (hstep : logStep s = some s') : Inv base s' := by
  rw [Logging.logStep] at hstep
  split at hstep
  · next hstage =>
    obtain ⟨t, ht, rfl⟩ := Option.map_eq_some_iff.mp hstep
    exact h.readHead hstage ht
  · next tail hstage =>
    split at hstep <;> obtain ⟨t, ht, rfl⟩ := Option.map_eq_some_iff.mp hstep
    · next b hb => exact h.replay_some hstage hb ht
    · next hb => exact h.replay_none hstage hb ht
  · simp at hstep
  · next tail hstage =>
    split at hstep <;> obtain ⟨t, ht, rfl⟩ := Option.map_eq_some_iff.mp hstep
    · next b hb => exact h.writeLog_some hstage hb ht
    · next hb => exact h.writeLog_none hstage hb ht
  · next tail hstage =>
    split at hstep <;> obtain ⟨t, ht, rfl⟩ := Option.map_eq_some_iff.mp hstep
    · next b hb => exact h.install_some hstage hb ht
    · next hb => exact h.install_none hstage hb ht
  · next hstage =>
    obtain rfl := Option.some.inj hstep
    exact h.finish hstage

/-! ### The crash and the beginning -/

/-- **A crash finds a disk that recovers to the durable commits.** -/
theorem Inv.crash : Inv base (crash s) := by
  have hlen : (s.txns.take s.durable).length = s.durable := by
    rw [List.length_take, Nat.min_eq_left h.durable]
  refine ⟨h.size, (core_start (a := s.log.start) (n := s.log.size)).congr rfl rfl rfl rfl rfl, rfl, fits_nil, h.head.congr rfl rfl, hlen.ge,
    fun b hb => ?_, rfl, rfl, hlen.symm, rfl⟩
  refine (h.replays b hb).trans ?_
  rw [Sys.durably, Sys.durably, Logging.crash, List.take_take, Nat.min_self]

end

theorem inv_start {start size : ℕ} {disk : ℕ → Block} (hsize : 0 < size)
    (hhead : header (disk start) = []) : Inv disk (Logging.start start size disk) := by
  refine ⟨hsize, core_start, rfl, fits_nil, ?_, le_rfl, fun b hb => ?_, rfl, rfl, rfl, rfl⟩
  · rw [Sys.head, Logging.start, hhead]
    exact fits_nil
  · exact congrFun (replay_of_header_nil hhead) b

theorem Inv.of_step {e : Event} (h : Inv base s) (he : Harmless s e) (hstep : step s e = some s') : Inv base s' := by
  cases e with
  | begin p =>
    obtain ⟨hup, hstep⟩ := Option.ite_none_right_eq_some.mp hstep
    obtain ⟨l, hl, rfl⟩ := Option.map_eq_some_iff.mp hstep
    exact h.begin hup hl
  | bget p b =>
    obtain ⟨-, hstep⟩ := Option.ite_none_right_eq_some.mp hstep
    obtain ⟨⟨i, t⟩, hget, rfl⟩ := Option.map_eq_some_iff.mp hstep
    exact h.bget hget
  | lock p i => exact h.lock (Option.ite_none_right_eq_some.mp hstep).2
  | modify p i f =>
    obtain ⟨ho, ⟨⟩⟩ := Option.ite_none_right_eq_some.mp hstep
    exact h.modify ho f
  | logWrite p i =>
    obtain ⟨ho, hstep⟩ := Option.ite_none_right_eq_some.mp hstep
    split at hstep <;> cases hstep
    rename_i new l hl
    exact h.logWrite ho hl
  | brelse p i =>
    obtain ⟨hi, ⟨⟩⟩ := Option.ite_none_right_eq_some.mp hstep
    exact h.brelse (by simp [hi.1]) hi.2
  | copyin p i off user src len =>
    rw [Logging.step, ite_none_right_eq_some] at hstep
    obtain ⟨ho, hstep⟩ := hstep
    rcases hcopy : copyin user src len with ⟨bs, ok⟩
    simp only [Harmless, hcopy] at he hstep
    obtain rfl := Option.some.inj hstep
    cases ok with
    | true => exact h.modify ho.1 fun v => store v off bs
    | false => exact h.torn ho.1 ho.2.1 (he rfl)
  | leave p =>
    obtain ⟨hp, hstep⟩ := Option.ite_none_right_eq_some.mp hstep
    split at hstep <;> cases hstep
    rename_i commit l hl
    exact h.leave hp.1 hp.2 hl
  | log => exact h.logStep hstep
  | crash =>
    obtain rfl := Option.some.inj hstep
    exact h.crash

end Xv6.Logging
