import Xv6.Log.Invariant

/-!
# Operations keep the invariant

The steps of the processes: taking and releasing buffers, changing and logging blocks, and beginning and ending an
operation. Only the copy that fails in `writei` asks for something: what it leaves in the buffer must not be news
(`Xv6.Logging.Harmless`). It is none if nothing was changed, or if the block is in the log already.
-/

namespace Xv6.Logging

open Lib Function

variable {base : ℕ → Block} {s s' : Sys} {p : Pid} {i : BufId} {l : Log} {f : Block → Block}

/-! ### Taking and releasing buffers -/

theorem Inv.of_idle (h : Inv base s) (hidle : s.stage = .idle) (hdisk : s'.disk = s.disk)
    (hstage : s'.stage = s.stage) (htxns : s'.txns = s.txns) (hdurable : s'.durable = s.durable)
    (hstart : s'.log.start = s.log.start) (hsize : s'.log.size = s.log.size)
    (hc : s'.log.committing = s.log.committing) (hout : s'.log.outstanding = s'.ops.length)
    (hlh : Fits s.log s'.log.lh) (hcore : Core s'.log.lh (s'.content base) s')
    (hset : ∀ b, s.log.Home b → b ∉ s'.log.lh → ¬s'.Dirty b → s.disk b = s'.content base b) : Inv base s' := by
  have hst := h.stage
  simp only [StageOk, hidle] at hst
  obtain ⟨hc', hd, hhead, -⟩ := hst
  have hhome : ∀ b, s'.log.Home b ↔ s.log.Home b := fun b => Log.home_congr hstart hsize
  have hhead' : s'.head = [] := by
    rw [Sys.head, hdisk, hstart]
    exact hhead
  refine ⟨by rw [hsize]; exact h.size, ?_, hout, ?_, ?_, ?_, fun b hb => ?_, ?_⟩
  · rw [Sys.pins, hstage, hidle]
    exact hcore
  · exact hlh.congr hstart hsize
  · rw [hhead']
    exact fits_nil
  · rw [hdurable, htxns]
    exact h.durable
  · rw [hstart, hdisk, Sys.durably, hdurable, htxns]
    exact h.replays b ((hhome b).mp hb)
  · simp only [StageOk, hstage, hidle]
    refine ⟨hc.trans hc', by rw [hdurable, htxns, hd], hhead', fun b hb hpin hdirty => ?_⟩
    rw [Sys.pins, hstage, hidle] at hpin
    rw [hdisk]
    exact hset b ((hhome b).mp hb) hpin hdirty

theorem Fits.snoc {bs : List ℕ} {b : ℕ} (h : Fits l bs) (hb : l.Home b) (hnew : b ∉ bs)
    (hroom : bs.length < LOGSIZE) (hslots : bs.length < l.size - 1) : Fits l (bs ++ [b]) where
  home x hx := by
    rcases List.mem_append.mp hx with hx | hx
    · exact h.home x hx
    · exact List.mem_singleton.mp hx ▸ hb
  nodup := by
    refine List.nodup_append.mpr ⟨h.nodup, List.nodup_singleton _, ?_⟩
    rintro x hx y hy rfl
    exact hnew (List.mem_singleton.mp hy ▸ hx)
  room := by
    rw [List.length_append]
    exact hroom
  slots := by
    rw [List.length_append]
    exact hslots

section

variable (h : Inv base s)

include h

theorem Inv.settled_of_idle (hidle : s.stage = .idle) : Core s.log.lh (s.content base) s ∧
      ∀ b, s.log.Home b → b ∉ s.log.lh → ¬s.Dirty b → s.disk b = s.content base b := by
  have hpins : s.pins = s.log.lh := by rw [Sys.pins, hidle]
  have hst := h.stage
  simp only [StageOk, hidle] at hst
  exact ⟨hpins ▸ h.core, fun b hb hlh => hst.2.2.2 b hb (hpins ▸ hlh)⟩

theorem Inv.idle_of_up (hup : s.stage.Up) (hc : s.log.committing = false) : s.stage = .idle := by
  have hst := h.stage
  rw [StageOk] at hst
  split at hst
  · next heq =>
    rw [heq] at hup
    exact hup.elim
  · next heq =>
    rw [heq] at hup
    exact hup.elim
  · next heq => exact heq
  all_goals exact absurd (hc.symm.trans hst.1.2.2.2) (by simp)

theorem Inv.begin (hup : s.stage.Up) (hl : beginOp s.log = some l) : Inv base { s with log := l, ops := p :: s.ops } := by
  obtain ⟨hc, -, rfl⟩ := beginOp_some hl
  have hidle := h.idle_of_up hup hc
  obtain ⟨hcore, hset⟩ := h.settled_of_idle hidle
  refine h.of_idle hidle rfl rfl rfl rfl rfl rfl rfl ?_ h.lh ?_ hset
  · simp [h.outstanding]
  · exact (hcore.setOps fun _ _ _ _ hp => List.mem_cons_of_mem p hp).congr rfl rfl rfl rfl rfl

theorem Inv.bget {b : ℕ} (hget : bget s p b = some (i, s')) : Inv base s' := by
  obtain ⟨hcore, hf, hdisk, -⟩ := h.core.bget hget
  refine h.of_frame hf hdisk hcore ?_
  rintro b' ⟨j, hj, hjb⟩
  refine ⟨j, by rwa [hf.dirty], ?_⟩
  obtain ⟨q, rfl, -, ⟨-, rfl⟩ | ⟨-, h0, rfl⟩⟩ := bget_some hget
  · rw [Sys.put_buf]
    split
    · next hji => exact hji ▸ hjb
    · exact hjb
  · -- the buffer that is recycled is not marked
    have hne : j ≠ i := by
      rintro rfl
      have := ((h.core.bufs j).of_refcnt h0).2.2.2
      simp [hj] at this
    rw [Sys.put_buf, if_neg hne]
    exact hjb

theorem Inv.lock (hl : lock s p i = some s') : Inv base s' := by
  obtain ⟨hcore, hf, hdisk⟩ := h.core.lock hl
  refine h.of_frame hf hdisk hcore ?_
  rintro b ⟨j, hj, hjb⟩
  refine ⟨j, by rwa [hf.dirty], ?_⟩
  obtain ⟨-, -, rfl⟩ := lock_some hl
  rw [Sys.put_buf]
  split
  · next hji => exact hji ▸ hjb
  · exact hjb

theorem Inv.brelse (hp : (s.buf i).holder ≠ none) (hd : s.dirty i = false) : Inv base (brelse s i) := by
  obtain ⟨hcore, hf⟩ := h.core.brelse hp hd
  refine h.of_frame hf rfl hcore ?_
  rintro b ⟨j, hj, hjb⟩
  refine ⟨j, hj, ?_⟩
  rw [brelse_buf]
  split
  · next hji => exact hji ▸ hjb
  · exact hjb

end

/-! ### Changing and logging a block -/

theorem content_snoc (u : Update) : applyUpdates (s.txns.flatten ++ (s.cur ++ [u])) base =
      update (s.content base) u.block (u.f (s.content base u.block)) := by
  rw [← List.append_assoc, applyUpdates_append]
  rfl

theorem Inv.owns (h : Inv base s) (ho : Owns s p i) : (s.buf i).holder ≠ none ∧ (s.buf i).data = s.content base (s.buf i).blockno := by
  obtain ⟨hp, hops, hhome⟩ := ho
  have hne : (s.buf i).holder ≠ none := by simp [hp]
  have hst := h.stage
  simp only [StageOk, h.idle_of_ops hops] at hst
  exact ⟨hne, h.data_eq_content hst.2.2.2 ((h.core.bufs i).held hne) hhome⟩

theorem modify_content (f : Block → Block) (mark : Bool) : (modify s i f mark).content base =
    update (s.content base) (s.buf i).blockno (f (s.content base (s.buf i).blockno)) :=
  content_snoc (s := s) ⟨(s.buf i).blockno, f⟩

theorem modify_blockno (f : Block → Block) (mark : Bool) (j : BufId) : ((modify s i f mark).buf j).blockno = (s.buf j).blockno := by
  rw [modify_buf]
  split
  · next hji => rw [hji]
  · rfl

theorem Inv.modify (h : Inv base s) (ho : Owns s p i) (f : Block → Block) : Inv base (modify s i f true) := by
  obtain ⟨hne, hdata⟩ := h.owns ho
  obtain ⟨hp, hops, hhome⟩ := ho
  have hidle := h.idle_of_ops hops
  obtain ⟨hcore, hset⟩ := h.settled_of_idle hidle
  refine h.of_idle hidle rfl rfl rfl rfl rfl rfl rfl h.outstanding h.lh ?_ fun b hb hpin hd => ?_
  · rw [modify_content]
    exact hcore.modify hp hops hdata (Or.inl rfl)
  -- the block that was changed is marked now
  have hb' : b ≠ (s.buf i).blockno := by
    rintro rfl
    exact hd ⟨i, update_self .., modify_blockno ..⟩
  rw [modify_content, update_of_ne hb']
  refine hset b hb hpin ?_
  rintro ⟨j, hj, hjb⟩
  have hji : j ≠ i := by
    rintro rfl
    exact hb' hjb.symm
  exact hd ⟨j, (update_of_ne hji ..).trans hj, (modify_blockno ..).trans hjb⟩

theorem Inv.logWrite (h : Inv base s) (ho : Owns s p i) {new : Bool} (hl : logWrite s.log (s.buf i).blockno = .ok (new, l)) :
    Inv base { s with
      log := l
      cache := if new then s.cache.bpin i else s.cache
      dirty := update s.dirty i false } := by
  obtain ⟨hne, hdata⟩ := h.owns ho
  obtain ⟨hp, hops, hhome⟩ := ho
  have hidle := h.idle_of_ops hops
  obtain ⟨hcore, hset⟩ := h.settled_of_idle hidle
  obtain ⟨hroom, hslots, -, hnew, hlog⟩ := logWrite_ok hl
  -- the block is logged now, so that the mark of its buffer is no longer needed
  have hset' : ∀ lh, s.log.lh ⊆ lh → (s.buf i).blockno ∈ lh → ∀ b, s.log.Home b → b ∉ lh →
      (∀ j, update s.dirty i false j = true → (s.buf j).blockno ≠ b) → s.disk b = s.content base b := by
    intro lh hsub hi b hb hlh hd
    refine hset b hb (fun h => hlh (hsub h)) ?_
    rintro ⟨j, hj, rfl⟩
    have hji : j ≠ i := by
      rintro rfl
      exact hlh hi
    exact hd j ((update_of_ne hji ..).trans hj) rfl
  by_cases hb : (s.buf i).blockno ∈ s.log.lh
  · obtain ⟨rfl, hlh⟩ := Prod.mk.inj (hnew.trans (if_pos hb))
    rw [hlh] at hlog
    subst hlog
    refine h.of_idle hidle rfl rfl rfl rfl rfl rfl rfl h.outstanding h.lh ?_ fun b hbh hlh hd => ?_
    · exact (hcore.absorb hb).congr rfl rfl rfl rfl rfl
    · exact hset' _ (fun _ => id) hb b hbh hlh fun j hj hjb => hd ⟨j, hj, hjb⟩
  · obtain ⟨rfl, hlh⟩ := Prod.mk.inj (hnew.trans (if_neg hb))
    rw [hlh] at hlog
    subst hlog
    refine h.of_idle hidle rfl rfl rfl rfl rfl rfl rfl h.outstanding (h.lh.snoc hhome hb hroom hslots) ?_ fun b hbh hlh hd => ?_
    · exact (hcore.bpin hne hb hdata).congr rfl rfl rfl rfl rfl
    · refine hset' _ (List.subset_append_left ..) (by simp) b hbh hlh fun j hj hjb => hd ⟨j, hj, ?_⟩
      exact (Cache.bpin_blockno ..).trans hjb

/-! ### The copy that fails -/

def Harmless (s : Sys) : Event → Prop
  | .copyin _ i off user src len => (copyin user src len).2 = false →
      store (s.buf i).data off (copyin user src len).1 = (s.buf i).data ∨
        (s.buf i).blockno ∈ s.log.lh
  | _ => True

section

variable (h : Inv base s) (ho : Owns s p i) (hd : s.dirty i = false)

include h ho hd

theorem Inv.modify_same (hf : f (s.buf i).data = (s.buf i).data) :
    Inv base (Logging.modify s i f false) := by
  obtain ⟨hne, hdata⟩ := h.owns ho
  have hidle := h.idle_of_ops ho.2.1
  obtain ⟨hcore, hset⟩ := h.settled_of_idle hidle
  have hbuf : ∀ j, (Logging.modify s i f false).buf j = s.buf j := fun j => by
    rw [modify_buf]
    split
    · next hji => rw [hji, hf]
    · rfl
  have hdirty : (Logging.modify s i f false).dirty = s.dirty := by
    rw [← hd]
    exact update_eq_self i s.dirty
  have hcontent : (Logging.modify s i f false).content base = s.content base := by
    rw [modify_content, ← hdata, hf, hdata]
    exact update_eq_self ..
  refine h.of_idle hidle rfl rfl rfl rfl rfl rfl rfl h.outstanding h.lh ?_ fun b hb hpin hdb => ?_
  · rw [hcontent]
    refine hcore.of_same hcore.lru (fun j => hbuf j ▸ ⟨rfl, rfl, id⟩) (fun j => ?_) fun _ => id
    rw [hbuf, hdirty]
    exact hcore.bufs j
  · rw [hcontent]
    refine hset b hb hpin ?_
    rintro ⟨j, hj, hjb⟩
    exact hdb ⟨j, by rw [hdirty, hj], by rw [hbuf, hjb]⟩

theorem Inv.modify_logged (f : Block → Block) (hlh : (s.buf i).blockno ∈ s.log.lh) :
    Inv base (Logging.modify s i f false) := by
  obtain ⟨hne, hdata⟩ := h.owns ho
  have hidle := h.idle_of_ops ho.2.1
  obtain ⟨hcore, hset⟩ := h.settled_of_idle hidle
  refine h.of_idle hidle rfl rfl rfl rfl rfl rfl rfl h.outstanding h.lh ?_ fun b hb hpin hdb => ?_
  · rw [modify_content]
    exact hcore.modify ho.1 ho.2.1 hdata (Or.inr hlh)
  have hb' : b ≠ (s.buf i).blockno := by
    rintro rfl
    exact hpin hlh
  rw [modify_content, update_of_ne hb']
  refine hset b hb hpin ?_
  rintro ⟨j, hj, hjb⟩
  have hji : j ≠ i := by
    rintro rfl
    simp [hd] at hj
  exact hdb ⟨j, (update_of_ne hji ..).trans hj, (modify_blockno ..).trans hjb⟩

theorem Inv.torn
    (hf : f (s.buf i).data = (s.buf i).data ∨ (s.buf i).blockno ∈ s.log.lh) : Inv base (Logging.brelse (Logging.modify s i f false) i) := by
  have h' : Inv base (Logging.modify s i f false) := by
    rcases hf with hf | hlh
    · exact h.modify_same ho hd hf
    · exact h.modify_logged ho hd f hlh
  refine h'.brelse ?_ (update_self ..)
  rw [modify_buf, if_pos rfl]
  exact (h.owns ho).1

end

/-! ### The end of an operation -/

theorem Core.erase_op {pins : List ℕ} {c : ℕ → Block} (h : Core pins c s) (hd : ∀ i, (s.buf i).holder = some p → s.dirty i = false) :
    Core pins c { s with ops := s.ops.erase p } := by
  refine h.setOps fun i q hi hq hmem => (List.mem_erase_of_ne ?_).mpr hmem
  rintro rfl
  exact absurd ((hd i hq).symm.trans hi) (by simp)

/-- **The last operation leaves**, and the commit begins. If nothing was logged, it is
over at once, and the disk has all there is. -/
theorem Inv.startCommit (h : Inv base s) (hidle : s.stage = .idle) (hops : s.ops = []) :
    Inv base (Logging.startCommit { s with log := { s.log with committing := true } } p) := by
  obtain ⟨hcore, hset⟩ := h.settled_of_idle hidle
  have hst := h.stage
  simp only [StageOk, hidle] at hst
  obtain ⟨-, hdur, hhead, -⟩ := hst
  have hdisk : ∀ b, s.log.Home b → b ∉ s.log.lh → s.disk b = s.content base b :=
    fun b hb hlh => hset b hb hlh (hcore.not_dirty hops)
  -- the present contents are those after the transaction that is committed
  have hcontent : applyUpdates ((s.txns ++ [s.cur]).flatten ++ []) base = s.content base := by
    simp [Sys.content]
  rw [Logging.startCommit]
  by_cases hlh : s.log.lh = []
  · rw [if_pos hlh]
    refine ⟨h.size, ?_, h.outstanding, h.lh.congr rfl rfl, h.head.congr rfl rfl, le_rfl,
      fun b hb => ?_, ⟨hops, rfl, rfl, rfl⟩, hhead, hlh, fun b hb hpin _ => ?_⟩
    · exact (hcontent ▸ hcore).congr rfl rfl rfl rfl rfl
    · refine (congrFun (replay_of_header_nil hhead) b).trans ?_
      refine (hdisk b hb (by simp [hlh])).trans ?_
      rw [Sys.durably, List.take_length, ← hcontent, List.append_nil]
    · exact (hdisk b hb hpin).trans (congrFun hcontent.symm b)
  · rw [if_neg hlh]
    refine ⟨h.size, ?_, h.outstanding, h.lh.congr rfl rfl, h.head.congr rfl rfl, ?_,
      fun b hb => ?_, ⟨hops, rfl, ?_, rfl⟩, hhead, fun b hb hpin _ => ?_, fun i hi => ?_⟩
    · exact (hcontent ▸ hcore).congr rfl rfl rfl rfl rfl
    · exact h.durable.trans (by simp)
    · refine (h.replays b hb).trans ?_
      rw [Sys.durably, Sys.durably, List.take_append_of_le_length h.durable]
    · simp [hdur]
    · exact (hdisk b hb hpin).trans (congrFun hcontent.symm b)
    · exact absurd hi (Nat.not_lt_zero i)

theorem Inv.leave (h : Inv base s) (hp : p ∈ s.ops) (hd : ∀ i, (s.buf i).holder = some p → s.dirty i = false) {commit : Bool}
    (hl : endOp s.log = .ok (commit, l)) : Inv base (if commit then Logging.startCommit { s with log := l, ops := s.ops.erase p } p
      else { s with log := l, ops := s.ops.erase p }) := by
  have hidle := h.idle_of_ops hp
  obtain ⟨hcore, hset⟩ := h.settled_of_idle hidle
  have hlen := List.length_erase_of_mem hp
  have hout := h.outstanding
  have hleft : Inv base { s with
      log := { s.log with outstanding := s.log.outstanding - 1 }, ops := s.ops.erase p } := by
    refine h.of_idle hidle rfl rfl rfl rfl rfl rfl rfl ?_ h.lh ?_ hset
    · exact (congrArg (· - 1) hout).trans hlen.symm
    · exact (hcore.erase_op hd).congr rfl rfl rfl rfl rfl
  obtain ⟨hc, ⟨rfl, hz, rfl⟩ | ⟨rfl, hz, rfl⟩⟩ := endOp_ok hl
  · exact hleft.startCommit hidle (List.eq_nil_of_length_eq_zero (hlen.trans (hout ▸ hz)))
  · exact hleft

end Xv6.Logging
