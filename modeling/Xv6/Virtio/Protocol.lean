import Mathlib.Data.List.Perm.Lattice
import Xv6.Lib.Circular
import Xv6.Lib.Update
import Xv6.Virtio.Chains

/-!
# The protocol with the device

Descriptors belong to processes (`Xv6.Virtio.Chains`). A process waits for its own request, and its buffer says whether
that was found done (`Xv6.Virtio.Calls`). Requests move from the driver to the device and back through two rings
(`Xv6.Virtio.Flow`); there is room in both because there are no more requests under way than descriptors.
-/

namespace Xv6.Virtio

open Lib Function

open List (append_assoc getElem_map length_map map_append mem_append mem_append_left mem_cons
  mem_singleton nodup_append nodup_cons)

variable {B P : Type} {s t : Sys B P} {p q : P} {r r' : Req B} {new : List (Fin NUM)} {c : Pc B}
  {write : Bool}

/-- **Descriptors belong to the requests of processes.** -/
structure Chains (s : Sys B P) : Prop where
  owned : Exclusive (chain s.pc) fun i => s.disk.free i = false
  formatted : ∀ p r, (s.pc p).req = some r → Formatted s.disk r
  /-- The device has written the status of a request that is done. -/
  status : ∀ r ∈ s.hist.completed, r ∉ s.hist.consumed → (s.disk.info r.head).status = 0

/-- **Processes wait for their requests.** -/
structure Calls (s : Sys B P) : Prop where
  held : ∀ p b, (s.pc p).buf = some b → s.held b = some p
  locked : ∀ p r, s.pc p = .publish r → s.lock = some (.proc p)
  /-- A request that is about to be published is in the ring already. -/
  slot : ∀ p r, s.pc p = .publish r →
    s.disk.avail.ring (Fin.ofNat NUM s.disk.avail.idx) = r.head ∧ r.n = s.hist.reqs.length ∧
      s.bdisk r.b = true
  waits : ∀ r ∈ s.hist.reqs, r ∉ s.hist.consumed → ∃ p, s.pc p = .wait r
  waiting : ∀ p r, s.pc p = .wait r → r ∈ s.hist.reqs ∧ (s.bdisk r.b = true ↔ r ∉ s.hist.consumed)

/-- **Requests move through the rings.** -/
structure Flow (s : Sys B P) : Prop where
  avail : Circular NUM (2 ^ 16) s.disk.avail.ring s.lastAvail s.disk.avail.idx
    (s.hist.reqs.map Req.head) s.hist.taken
  used : Circular NUM (2 ^ 16) s.disk.used.ring s.disk.usedIdx s.disk.used.idx
    (s.hist.completed.map Req.head) s.hist.consumed.length
  busy : s.busy = s.hist.busy.map Req.head
  taken : (s.hist.reqs.take s.hist.taken).Perm (s.hist.busy ++ s.hist.completed)
  consumed : s.hist.consumed <+: s.hist.completed
  serial : ∀ r ∈ s.hist.reqs, r.n < s.hist.reqs.length
  nodup : s.hist.reqs.Nodup

structure Inv (s : Sys B P) : Prop where
  sound : s.panicked = none
  chains : Chains s
  calls : Calls s
  flow : Flow s

theorem dvd_ring : NUM ∣ 2 ^ 16 := by decide

theorem lt_ring : NUM < 2 ^ 16 := by decide

theorem inv_boot : Inv (boot : Sys B P) where
  sound := rfl
  chains :=
    { owned := ⟨fun _ => iff_of_false (fun h => (nomatch h)) fun ⟨_, h⟩ => (nomatch h), fun h => (nomatch h)⟩
      formatted := fun _ _ h => nomatch h
      status := fun _ h => nomatch h }
  calls :=
    { held := fun _ _ h => nomatch h
      locked := fun _ _ h => nomatch h
      slot := fun _ _ h => nomatch h
      waits := fun _ h => nomatch h
      waiting := fun _ _ h => nomatch h }
  flow :=
    { avail := .nil
      used := .nil
      busy := rfl
      taken := .refl _
      consumed := List.prefix_refl _
      serial := fun _ h => nomatch h
      nodup := List.nodup_nil }

/-! ### What follows -/

section

variable (h : Flow s)

include h

theorem Flow.nodup_taken : (s.hist.busy ++ s.hist.completed).Nodup :=
  h.taken.nodup_iff.mp (h.nodup.sublist (List.take_sublist _ _))

theorem Flow.mem_reqs_of_busy (hr : r ∈ s.hist.busy) : r ∈ s.hist.reqs :=
  List.mem_of_mem_take (h.taken.mem_iff.mpr (mem_append_left _ hr))

theorem Flow.mem_reqs_of_completed (hr : r ∈ s.hist.completed) : r ∈ s.hist.reqs :=
  List.mem_of_mem_take (h.taken.mem_iff.mpr (List.mem_append_right _ hr))

theorem Flow.mem_reqs_of_consumed (hr : r ∈ s.hist.consumed) : r ∈ s.hist.reqs :=
  h.mem_reqs_of_completed (h.consumed.subset hr)

theorem Flow.completed_nodup : s.hist.completed.Nodup :=
  (List.nodup_append.mp h.nodup_taken).2.1

theorem Flow.not_consumed_of_busy (hr : r ∈ s.hist.busy) : r ∉ s.hist.consumed :=
  fun hc => (List.nodup_append.mp h.nodup_taken).2.2 r hr r (h.consumed.subset hc) rfl

theorem Flow.not_consumed_of_drop (hr : r ∈ s.hist.completed.drop s.hist.consumed.length) : r ∉ s.hist.consumed := by
  obtain ⟨rest, hrest⟩ := h.consumed
  have hnodup := h.completed_nodup
  rw [← hrest] at hr hnodup
  rw [List.drop_left] at hr
  exact fun hc => (List.nodup_append.mp hnodup).2.2 r hc r hr rfl

theorem Flow.not_consumed_of_pending (hr : r ∈ s.hist.reqs.drop s.hist.taken) : r ∉ s.hist.consumed := by
  intro hc
  have hnodup := h.nodup
  rw [← List.take_append_drop s.hist.taken s.hist.reqs] at hnodup
  refine (List.nodup_append.mp hnodup).2.2 r ?_ r hr rfl
  exact h.taken.mem_iff.mpr (List.mem_append_right _ (h.consumed.subset hc))

end

theorem req_of_wait (h : s.pc p = .wait r) : (s.pc p).req = some r := by
  rw [h]
  rfl

theorem req_of_publish (h : s.pc p = .publish r) : (s.pc p).req = some r := by
  rw [h]
  rfl

theorem Calls.req (h : Calls s) (hr : r ∈ s.hist.reqs) (hc : r ∉ s.hist.consumed) : ∃ p, (s.pc p).req = some r := by
  obtain ⟨p, hp⟩ := h.waits r hr hc
  exact ⟨p, req_of_wait hp⟩

variable {pc : P → Pc B} {used : Fin NUM → Prop} {b : B}

/-- There is room in a ring for one more request, since each of those in it has its descriptors. -/
theorem ring_room {reqs : List (Req B)} {n : ℕ} (howned : Exclusive (chain pc) used)
    (hnodup : reqs.Nodup) (hle : n ≤ (reqs.map Req.head).length) (hr : r ∉ reqs) (hp : ∃ p, (pc p).req = some r)
    (hreq : ∀ r ∈ reqs.drop n, ∃ p, (pc p).req = some r) : (reqs.map Req.head).length ≠ n + NUM := by
  have hlen := length_le_of_owned howned
    (List.nodup_cons.mpr ⟨fun hmem => hr (List.mem_of_mem_drop hmem), hnodup.sublist (List.drop_sublist n _)⟩) (by
      intro r' hr'
      rcases List.mem_cons.mp hr' with rfl | hr'
      · exact hp
      · exact hreq r' hr')
  rw [List.length_cons, List.length_drop] at hlen
  rw [length_map] at hle ⊢
  omega

theorem Flow.avail_room (h : Flow s) (howned : Exclusive (chain pc) used)
    (hreq : ∀ r ∈ s.hist.reqs, r ∉ s.hist.consumed → ∃ p, (pc p).req = some r) (hp : (pc p).req = some r) (hr : r ∉ s.hist.reqs) :
    (s.hist.reqs.map Req.head).length ≠ s.hist.taken + NUM :=
  ring_room howned h.nodup h.avail.le hr ⟨p, hp⟩
    fun r' hr' => hreq r' (List.mem_of_mem_drop hr') (h.not_consumed_of_pending hr')

theorem Inv.used_room (h : Inv s) (hr : r ∈ s.hist.busy) : (s.hist.completed.map Req.head).length ≠ s.hist.consumed.length + NUM :=
  ring_room h.chains.owned h.flow.completed_nodup h.flow.used.le
    (fun hc => (List.nodup_append.mp h.flow.nodup_taken).2.2 r hr r hc rfl)
    (h.calls.req (h.flow.mem_reqs_of_busy hr) (h.flow.not_consumed_of_busy hr))
    fun _ hr' => h.calls.req (h.flow.mem_reqs_of_completed (List.mem_of_mem_drop hr')) (h.flow.not_consumed_of_drop hr')

theorem Calls.buf_inj (h : Calls s) (hp : (s.pc p).buf = some b) (hq : (s.pc q).buf = some b) : p = q :=
  Option.some.inj ((h.held p b hp).symm.trans (h.held q b hq))

theorem buf_of_req (h : (s.pc p).req = some r) : (s.pc p).buf = some r.b := by
  rcases hp : s.pc p with _ | _ | r' | r' <;> rw [hp] at h <;> cases h <;> rfl

/-! ### The driver -/

theorem Inv.submitFail (h : Inv s) (hnew : ∀ i ∈ new, s.disk.free i = true) :
    Inv { s with disk := (s.disk.mark new).clear new } := by
  refine ⟨h.sound, ⟨?_, fun p r hp => ?_, h.chains.status⟩, { h.calls with }, { h.flow with }⟩
  · rw [free_clear_mark hnew]
    exact h.chains.owned
  refine (h.chains.formatted p r hp).congr (fun k => ?_) rfl rfl
  have hused := h.chains.owned.used_of (chain_of_req (k := k) hp)
  have hnot : r.idx k ∉ new := fun hmem => by
    rw [hnew _ hmem] at hused
    cases hused
  simp [Disk.clear, Disk.mark, hnot]

theorem mem_idx (r : Req B) (i : Fin NUM) : i ∈ [r.idx 0, r.idx 1, r.idx 2] ↔ ∃ k, r.idx k = i := by
  simp only [mem_cons, List.not_mem_nil, or_false]
  constructor
  · rintro (rfl | rfl | rfl)
    · exact ⟨0, rfl⟩
    · exact ⟨1, rfl⟩
    · exact ⟨2, rfl⟩
  · rintro ⟨k, rfl⟩
    match k with
    | 0 => exact .inl rfl
    | 1 => exact .inr (.inl rfl)
    | 2 => exact .inr (.inr rfl)

theorem Calls.consumed_of_wait (h : Calls s) (hp : s.pc p = .wait r) (hb : s.bdisk r.b = false) : r ∈ s.hist.consumed := by
  by_contra hc
  rw [(h.waiting p r hp).2.mpr hc] at hb
  cases hb

section Steps

variable [DecidableEq P]

theorem of_update {β γ : Type} {f : P → β} {c : β} {x : γ} (g : β → γ) (h : g (update f p c q) = x) (hc : g c ≠ x) :
    q ≠ p ∧ g (f q) = x := by
  rcases eq_or_ne q p with rfl | hqp
  · rw [update_self] at h
    exact absurd h hc
  · rw [update_of_ne hqp] at h
    exact ⟨hqp, h⟩

theorem req_update (hc : c.req = (s.pc p).req) (q : P) : (update s.pc p c q).req = (s.pc q).req :=
  apply_update_of_eq Pc.req hc q

theorem chain_congr (hc : c.req = (s.pc p).req) : chain (update s.pc p c) = chain s.pc :=
  funext fun x => congrArg _ (req_update hc x.1)

theorem chain_update : chain (update pc p c) = fun x => if x.1 = p then c.req.map fun r => r.idx x.2 else chain pc x := by
  funext x
  by_cases hx : x.1 = p
  · simp [chain, hx]
  · simp [chain, hx]

theorem Inv.call (h : Inv s) (hp : s.pc p = .idle) (hb : s.held b = some p) :
    Inv { s with pc := update s.pc p (.alloc b write) } := by
  have hreq : (Pc.alloc b write).req = (s.pc p).req := by rw [hp]; rfl
  refine ⟨h.sound, ⟨?_, fun q r hq => ?_, h.chains.status⟩, ⟨fun q b' hq => ?_,
    fun q r hq => h.calls.locked q r (of_update id hq (by simp)).2, fun q r hq => h.calls.slot q r (of_update id hq (by simp)).2,
    fun r hr hc => ?_, fun q r hq => h.calls.waiting q r (of_update id hq (by simp)).2⟩, { h.flow with }⟩
  · dsimp only
    rw [chain_congr hreq]
    exact h.chains.owned
  · dsimp only at hq
    rw [req_update hreq] at hq
    exact h.chains.formatted q r hq
  · refine forall_update (P := fun q c => Pc.buf c = some b' → s.held b' = some q) (fun hc => ?_) (fun q _ => h.calls.held q b') q hq
    cases hc
    exact hb
  · obtain ⟨q, hq⟩ := h.calls.waits r hr hc
    have hqp : q ≠ p := by
      rintro rfl
      rw [hp] at hq
      cases hq
    exact ⟨q, (update_of_ne hqp ..).trans hq⟩

theorem Inv.submit [DecidableEq B] (h : Inv s) (hp : s.pc p = .alloc r.b write)
    (hlock : s.lock = none) (hinj : Injective r.idx) (hfree : ∀ k, s.disk.free (r.idx k) = true)
    (hn : r.n = s.hist.reqs.length) (hnew : ∀ i, i ∈ new ↔ ∃ k, r.idx k = i) : Inv { s with
      disk := enqueue (format (s.disk.mark new) r write) r
      bdisk := update s.bdisk r.b true
      lock := some (.proc p)
      pc := update s.pc p (.publish r) } := by
  have hnone : (s.pc p).req = none := by rw [hp]; rfl
  have hbuf : (s.pc p).buf = some r.b := by rw [hp]; rfl
  -- nobody else has these descriptors
  have hother : ∀ q r', (s.pc q).req = some r' → ∀ k k', r'.idx k ≠ r.idx k' := by
    intro q r' hq k k' heq
    have hused := h.chains.owned.used_of (chain_of_req (k := k) hq)
    rw [heq, hfree k'] at hused
    cases hused
  have hout : r ∉ s.hist.reqs := fun hr => absurd (h.flow.serial r hr) (by omega)
  have howned : Exclusive (chain (update s.pc p (.publish r))) fun i => (s.disk.mark new).free i = false := by
    have hclaims := h.chains.owned.claims (fun x => x.1 = p) (g := fun x => r.idx x.2) (by
        rintro ⟨q, k⟩ rfl
        simp [chain, hnone])
      (by
        rintro ⟨q, k⟩ -
        simp [hfree k])
      (by
        rintro ⟨q, k⟩ ⟨q', k'⟩ rfl rfl heq
        exact congrArg _ (hinj heq))
    rw [chain_update]
    refine hclaims.congr (fun x => rfl) fun i => ?_
    simp only [Disk.mark, Bool.and_eq_false_iff, decide_eq_false_iff_not, not_not, hnew]
    constructor
    · rintro (hi | ⟨k, hk⟩)
      · exact .inr hi
      · exact .inl ⟨(p, k), rfl, hk⟩
    · rintro (⟨⟨q, k⟩, -, hk⟩ | hi)
      · exact .inr ⟨k, hk⟩
      · exact .inl hi
  have hformatted : ∀ q r', (update s.pc p (.publish r) q).req = some r' → Formatted (enqueue (format (s.disk.mark new) r write) r) r' := by
    intro q r' hq
    rcases eq_or_ne q p with rfl | hqp
    · rw [update_self] at hq
      cases hq
      exact (formatted_format hinj).congr (fun _ => rfl) rfl rfl
    rw [update_of_ne hqp] at hq
    have hhead : r'.head ≠ r.head := hother q r' hq 0 0
    refine (h.chains.formatted q r' hq).congr (fun k => ?_) ?_ ?_
    · exact format_desc_of_ne fun k' => hother q r' hq k k'
    · exact congrArg Info.b (format_info_of_ne write hhead)
    · exact congrArg Info.req (format_info_of_ne write hhead)
  have hreq : ∀ r' ∈ s.hist.reqs, r' ∉ s.hist.consumed → ∃ q, q ≠ p ∧ s.pc q = .wait r' := by
    intro r' hr' hc
    obtain ⟨q, hq⟩ := h.calls.waits r' hr' hc
    refine ⟨q, ?_, hq⟩
    rintro rfl
    rw [hp] at hq
    cases hq
  -- the lock was free, so nobody else is about to publish
  have hpub : ∀ q r', update s.pc p (.publish r) q = .publish r' → q = p := by
    intro q r' hq
    by_contra hqp
    rw [update_of_ne hqp] at hq
    rw [h.calls.locked q r' hq] at hlock
    cases hlock
  have hroom := h.flow.avail_room howned (by
      intro r' hr' hc
      obtain ⟨q, hqp, hq⟩ := hreq r' hr' hc
      exact ⟨q, by rw [update_of_ne hqp, hq]; rfl⟩)
    (p := p) (r := r) (by rw [update_self]; rfl) hout
  refine ⟨h.sound, ⟨howned, hformatted, fun r' hr' hc => ?_⟩, ⟨fun q b hq => ?_, fun q r' hq => ?_,
    fun q r' hq => ?_, fun r' hr' hc => ?_, fun q r' hq => ?_⟩, { h.flow with avail := ?_ }⟩
  · obtain ⟨q, hqp, hq⟩ := hreq r' (h.flow.mem_reqs_of_completed hr') hc
    have hhead : r'.head ≠ r.head := hother q r' (req_of_wait hq) 0 0
    refine (congrArg Info.status (format_info_of_ne write hhead)).trans ?_
    exact h.chains.status r' hr' hc
  · rw [apply_update_of_eq Pc.buf (by exact hbuf.symm)] at hq
    exact h.calls.held q b hq
  · rw [hpub q r' hq]
  · obtain rfl := hpub q r' hq
    dsimp only at hq
    rw [update_self] at hq
    cases hq
    exact ⟨update_self .., hn, update_self ..⟩
  · obtain ⟨q, hqp, hq⟩ := hreq r' hr' hc
    exact ⟨q, (update_of_ne hqp ..).trans hq⟩
  · obtain ⟨hqp, hq⟩ := of_update id hq (by simp)
    have hne : r'.b ≠ r.b := fun heq =>
      hqp (h.calls.buf_inj (heq ▸ buf_of_req (req_of_wait hq)) hbuf)
    dsimp only
    rw [update_of_ne hne]
    exact h.calls.waiting q r' hq
  · exact h.flow.avail.prepare dvd_ring hroom r.head

theorem Inv.publish (h : Inv s) (hp : s.pc p = .publish r) : Inv { s with
      disk := { s.disk with avail := { s.disk.avail with idx := (s.disk.avail.idx + 1) % 2 ^ 16 } }
      lock := none
      pc := update s.pc p (.wait r)
      hist := { s.hist with reqs := s.hist.reqs ++ [r] } } := by
  obtain ⟨hslot, hn, hbdisk⟩ := h.calls.slot p r hp
  have hout : r ∉ s.hist.reqs := fun hr => absurd (h.flow.serial r hr) (by omega)
  have hreq : (Pc.wait r).req = (s.pc p).req := by rw [hp]; rfl
  -- the lock was with `p`, so nobody else is about to publish
  have hnone : ∀ q r', update s.pc p (.wait r) q ≠ .publish r' := by
    intro q r' hq
    obtain ⟨hqp, hq⟩ := of_update id hq (by simp)
    have hlock := (h.calls.locked p r hp).symm.trans (h.calls.locked q r' hq)
    cases hlock
    exact hqp rfl
  have hroom := h.flow.avail_room h.chains.owned (fun r' hr' hc => h.calls.req hr' hc) (req_of_publish hp) hout
  refine ⟨h.sound, ⟨?_, fun q r' hq => ?_, h.chains.status⟩, ⟨fun q b hq => ?_,
    fun q r' hq => absurd hq (hnone q r'), fun q r' hq => absurd hq (hnone q r'), fun r' hr' hc => ?_,
    fun q r' hq => ?_⟩, ⟨?_, h.flow.used, h.flow.busy, ?_, h.flow.consumed, fun r' hr' => ?_, ?_⟩⟩
  · dsimp only
    rw [chain_congr hreq]
    exact h.chains.owned
  · dsimp only at hq
    rw [req_update hreq] at hq
    exact (h.chains.formatted q r' hq).congr (fun _ => rfl) rfl rfl
  · rw [apply_update_of_eq Pc.buf (by exact (buf_of_req (req_of_publish hp)).symm)] at hq
    exact h.calls.held q b hq
  · dsimp only at hr'
    rcases List.mem_append.mp hr' with hr' | hr'
    · obtain ⟨q, hq⟩ := h.calls.waits r' hr' hc
      have hqp : q ≠ p := by
        rintro rfl
        rw [hp] at hq
        cases hq
      exact ⟨q, (update_of_ne hqp ..).trans hq⟩
    · rw [List.mem_singleton.mp hr']
      exact ⟨p, update_self ..⟩
  · dsimp only at hq
    rcases eq_or_ne q p with rfl | hqp
    · rw [update_self] at hq
      cases hq
      refine ⟨List.mem_append_right _ (List.mem_singleton_self r), iff_of_true hbdisk fun hc => ?_⟩
      exact hout (h.flow.mem_reqs_of_consumed hc)
    · rw [update_of_ne hqp] at hq
      obtain ⟨hmem, hiff⟩ := h.calls.waiting q r' hq
      exact ⟨mem_append_left _ hmem, hiff⟩
  · dsimp only
    rw [map_append]
    exact h.flow.avail.publish dvd_ring hroom hslot
  · dsimp only
    have hle := h.flow.avail.le
    rw [length_map] at hle
    rw [List.take_append_of_le_length hle]
    exact h.flow.taken
  · dsimp only at hr' ⊢
    rw [List.length_append, List.length_singleton]
    rcases List.mem_append.mp hr' with hr' | hr'
    · have := h.flow.serial r' hr'
      omega
    · rw [List.mem_singleton.mp hr']
      omega
  · refine List.nodup_append.mpr ⟨h.flow.nodup, List.nodup_singleton r, ?_⟩
    rintro a ha b hb rfl
    exact hout (List.mem_singleton.mp hb ▸ ha)

theorem Inv.finish (h : Inv s) (hp : s.pc p = .wait r) (hc : r ∈ s.hist.consumed) : Inv { s with
      disk := Disk.clear { s.disk with
        info := update s.disk.info r.head { s.disk.info r.head with b := none } }
        [r.idx 0, r.idx 1, r.idx 2]
      pc := update s.pc p .idle } := by
  have hreq := req_of_wait hp
  have hmem := mem_idx r
  have hother : ∀ q r', q ≠ p → (s.pc q).req = some r' → ∀ k k', r'.idx k ≠ r.idx k' :=
    fun q r' hqp hq k k' heq => hqp (disjoint_of_owned h.chains.owned hq hreq heq)
  have howned : Exclusive (chain (update s.pc p .idle)) fun i =>
      (Disk.clear { s.disk with
        info := update s.disk.info r.head { s.disk.info r.head with b := none } }
        [r.idx 0, r.idx 1, r.idx 2]).free i = false := by
    have hrelease := h.chains.owned.release fun x => x.1 = p
    rw [chain_update]
    refine hrelease.congr (fun x => rfl) fun i => ?_
    simp only [Disk.clear, Bool.or_eq_false_iff, decide_eq_false_iff_not, hmem]
    refine and_congr_right fun _ => ⟨fun hi => ?_, fun hi => ?_⟩
    · rintro ⟨q, k⟩ rfl heq
      exact hi ⟨k, Option.some.inj ((chain_of_req hreq).symm.trans heq)⟩
    · rintro ⟨k, rfl⟩
      exact hi (p, k) rfl (chain_of_req hreq)
  -- a process that still waits is another one
  have hwait : ∀ r', r' ∉ s.hist.consumed → ∀ q, s.pc q = .wait r' → q ≠ p := by
    rintro r' hc' q hq rfl
    rw [hp] at hq
    cases hq
    exact hc' hc
  refine ⟨h.sound, ⟨howned, fun q r' hq => ?_, fun r' hr' hc' => ?_⟩,
    ⟨fun q b hq => h.calls.held q b (of_update Pc.buf hq (by simp [Pc.buf])).2,
      fun q r' hq => h.calls.locked q r' (of_update id hq (by simp)).2,
      fun q r' hq => h.calls.slot q r' (of_update id hq (by simp)).2, fun r' hr' hc' => ?_,
      fun q r' hq => h.calls.waiting q r' (of_update id hq (by simp)).2⟩, { h.flow with }⟩
  · obtain ⟨hqp, hq⟩ := of_update Pc.req hq (by simp [Pc.req])
    have hhead : r'.head ≠ r.head := hother q r' hqp hq 0 0
    refine (h.chains.formatted q r' hq).congr (fun k => ?_) ?_ ?_
    · refine if_neg fun hin => ?_
      obtain ⟨k', hk'⟩ := (hmem _).mp hin
      exact hother q r' hqp hq k k' hk'.symm
    · exact congrArg Info.b (update_of_ne hhead _ _)
    · exact congrArg Info.req (update_of_ne hhead _ _)
  · obtain ⟨q, hq⟩ := h.calls.waits r' (h.flow.mem_reqs_of_completed hr') hc'
    have hhead : r'.head ≠ r.head := hother q r' (hwait r' hc' q hq) (req_of_wait hq) 0 0
    refine (congrArg Info.status (update_of_ne hhead _ _)).trans ?_
    exact h.chains.status r' hr' hc'
  · obtain ⟨q, hq⟩ := h.calls.waits r' hr' hc'
    exact ⟨q, (update_of_ne (hwait r' hc' q hq) ..).trans hq⟩

end Steps

/-! ### The interrupt handler and the device -/

section

variable (h : Inv s)

include h

theorem Inv.next_completion (hne : s.disk.usedIdx ≠ s.disk.used.idx) :
    ∃ r, s.hist.completed[s.hist.consumed.length]? = some r ∧ r ∉ s.hist.consumed ∧ s.disk.used.ring (Fin.ofNat NUM s.disk.usedIdx) = r.head ∧
      s.hist.consumed ++ [r] <+: s.hist.completed ∧ Circular NUM (2 ^ 16) s.disk.used.ring ((s.disk.usedIdx + 1) % 2 ^ 16) s.disk.used.idx
        (s.hist.completed.map Req.head) (s.hist.consumed.length + 1) := by
  have hempty : s.hist.consumed.length ≠ (s.hist.completed.map Req.head).length :=
    fun heq => hne ((h.flow.used.empty_iff lt_ring).mpr heq)
  obtain ⟨hlt, hcell, hcirc⟩ := h.flow.used.take dvd_ring hempty
  rw [length_map] at hlt
  rw [getElem_map] at hcell
  obtain ⟨rest, hrest⟩ := h.flow.consumed
  refine ⟨s.hist.completed[s.hist.consumed.length], List.getElem?_eq_getElem hlt, h.flow.not_consumed_of_drop ?_, hcell, ?_, hcirc⟩
  · rw [List.drop_eq_getElem_cons hlt]
    exact List.mem_cons_self
  rcases rest with _ | ⟨x, rest⟩
  · rw [← hrest, List.append_nil] at hlt
    omega
  · refine ⟨rest, ?_⟩
    have hx : s.hist.completed[s.hist.consumed.length] = x := by
      simp [← hrest]
    rw [hx, append_assoc, List.singleton_append, hrest]

theorem Inv.intrRound_eq [DecidableEq B] (hne : s.disk.usedIdx ≠ s.disk.used.idx) :
    ∃ p r, s.pc p = .wait r ∧ s.hist.completed[s.hist.consumed.length]? = some r ∧ intrRound s = { s with
        bdisk := update s.bdisk r.b false
        disk := { s.disk with usedIdx := (s.disk.usedIdx + 1) % 2 ^ 16 }
        hist := { s.hist with consumed := s.hist.consumed ++ [r] } } := by
  obtain ⟨r, hr, hc, hcell, -, -⟩ := h.next_completion hne
  have hmem := List.mem_of_getElem? hr
  obtain ⟨p, hp⟩ := h.calls.waits r (h.flow.mem_reqs_of_completed hmem) hc
  have hform := h.chains.formatted p r (req_of_wait hp)
  refine ⟨p, r, hp, hr, ?_⟩
  simp only [intrRound, hcell, h.chains.status r hmem hc, hform.buf, hform.req, ne_eq, not_true_eq_false, if_false, Option.toList_some]

theorem Inv.intrRound [DecidableEq B] (hlock : s.lock = some .intr) (hne : s.disk.usedIdx ≠ s.disk.used.idx) : Inv (intrRound s) := by
  obtain ⟨p, r, hp, hr, heq⟩ := h.intrRound_eq hne
  obtain ⟨r₁, hr₁, hc, -, hpre, hcirc⟩ := h.next_completion hne
  obtain rfl := Option.some.inj (hr₁.symm.trans hr)
  have hpub : ∀ q r', s.pc q ≠ .publish r' := fun q r' hq => by
    rw [h.calls.locked q r' hq] at hlock
    cases hlock
  rw [heq]
  refine ⟨h.sound, ⟨h.chains.owned, fun q r' hq => ?_, fun r' hr' hc' => ?_⟩,
    ⟨h.calls.held, h.calls.locked, fun q r' hq => absurd hq (hpub q r'), fun r' hr' hc' => ?_, fun q r' hq => ?_⟩,
    { h.flow with used := ?_, consumed := hpre }⟩
  · exact (h.chains.formatted q r' hq).congr (fun _ => rfl) rfl rfl
  · exact h.chains.status r' hr' fun hmem => hc' (mem_append_left _ hmem)
  · exact h.calls.waits r' hr' fun hmem => hc' (mem_append_left _ hmem)
  · obtain ⟨hmem, hiff⟩ := h.calls.waiting q r' hq
    refine ⟨hmem, ?_⟩
    dsimp only
    rw [mem_append, mem_singleton, not_or]
    by_cases hrr : r' = r₁
    · subst hrr
      rw [update_self]
      exact iff_of_false nofun fun hnot => hnot.2 rfl
    have hne' : r'.b ≠ r₁.b := fun hb => by
      have hqp := h.calls.buf_inj (hb ▸ buf_of_req (req_of_wait hq)) (buf_of_req (req_of_wait hp))
      subst hqp
      rw [hp] at hq
      cases hq
      exact hrr rfl
    rw [update_of_ne hne', hiff]
    exact ⟨fun hnot => ⟨hnot, hrr⟩, And.left⟩
  · dsimp only
    rw [List.length_append, List.length_singleton]
    exact hcirc

theorem Inv.setLock {lock : Option (Holder P)} (hpub : ∀ p r, s.pc p ≠ .publish r) : Inv { s with lock := lock } :=
  ⟨h.sound, { h.chains with }, { h.calls with locked := fun p r hp => absurd hp (hpub p r) },
    { h.flow with }⟩

theorem Inv.take (hne : s.lastAvail ≠ s.disk.avail.idx) : Inv { s with
      lastAvail := (s.lastAvail + 1) % 2 ^ 16
      busy := s.busy ++ [s.disk.avail.ring (Fin.ofNat NUM s.lastAvail)]
      hist := { s.hist with
        taken := s.hist.taken + 1
        busy := s.hist.busy ++ s.hist.reqs[s.hist.taken]?.toList } } := by
  have hempty : s.hist.taken ≠ (s.hist.reqs.map Req.head).length :=
    fun heq => hne ((h.flow.avail.empty_iff lt_ring).mpr heq)
  obtain ⟨hlt, hcell, hcirc⟩ := h.flow.avail.take dvd_ring hempty
  rw [length_map] at hlt
  rw [getElem_map] at hcell
  rw [List.getElem?_eq_getElem hlt, Option.toList_some]
  refine ⟨h.sound, { h.chains with }, { h.calls with }, { h.flow with avail := hcirc, busy := ?_, taken := ?_ }⟩
  · dsimp only
    rw [map_append, h.flow.busy, hcell]
    rfl
  · dsimp only
    rw [List.take_add_one, List.getElem?_eq_getElem hlt, Option.toList_some]
    refine (h.flow.taken.append_right _).trans ?_
    rw [append_assoc, append_assoc]
    exact List.perm_append_comm.append_left _

theorem Inv.complete {k : ℕ} {head : Fin NUM} (hk : s.busy[k]? = some head) : Inv { s with
      disk := { writeStatus s.disk head with
        used := ⟨((writeStatus s.disk head).used.idx + 1) % 2 ^ 16, update (writeStatus s.disk head).used.ring
            (Fin.ofNat NUM (writeStatus s.disk head).used.idx) head⟩ }
      busy := s.busy.eraseIdx k
      hist := { s.hist with
        busy := s.hist.busy.eraseIdx k
        completed := s.hist.completed ++ s.hist.busy[k]?.toList } } := by
  rw [h.flow.busy, List.getElem?_map, Option.map_eq_some_iff] at hk
  obtain ⟨r, hk, rfl⟩ := hk
  have hmem := List.mem_of_getElem? hk
  have hreqs := h.flow.mem_reqs_of_busy hmem
  have hc := h.flow.not_consumed_of_busy hmem
  obtain ⟨p, hp⟩ := h.calls.waits r hreqs hc
  rw [(h.chains.formatted p r (req_of_wait hp)).writeStatus, hk, Option.toList_some]
  have hroom := h.used_room hmem
  refine ⟨h.sound, ⟨h.chains.owned, fun q r' hq => ?_, fun r' hr' hc' => ?_⟩, { h.calls with }, ⟨h.flow.avail, ?_, ?_, ?_, ?_, h.flow.serial,
    h.flow.nodup⟩⟩
  · refine (h.chains.formatted q r' hq).congr (fun _ => rfl) ?_ ?_
    all_goals
      by_cases hhead : r'.head = r.head
      · simp [hhead]
      · simp [update_of_ne hhead]
  · dsimp only at hr' ⊢
    by_cases hhead : r'.head = r.head
    · simp [hhead]
    · rw [update_of_ne hhead]
      rcases List.mem_append.mp hr' with hr' | hr'
      · exact h.chains.status r' hr' hc'
      · exact absurd (congrArg Req.head (List.mem_singleton.mp hr')) hhead
  · dsimp only
    rw [map_append]
    exact h.flow.used.put dvd_ring hroom r.head
  · dsimp only
    rw [h.flow.busy, List.eraseIdx_map]
  · dsimp only
    refine h.flow.taken.trans ?_
    obtain ⟨hlt, rfl⟩ := List.getElem?_eq_some_iff.mp hk
    refine ((List.getElem_cons_eraseIdx_perm hlt).symm.append_right _).trans ?_
    rw [← append_assoc]
    exact (List.perm_append_singleton _ _).symm
  · exact h.flow.consumed.trans (List.prefix_append _ _)

end

/-! ### Runs -/

section Runs

variable [DecidableEq B] [DecidableEq P] {e : Event B P}

theorem Inv.trySubmit (h : Inv s) (he : step s (.submit p) = some t) : Inv t ∧ ∀ b, s.bdisk b = true → t.bdisk b = true := by
  rw [step, if_pos h.sound] at he
  simp only [act] at he
  split at he
  · rename_i b write hp
    split at he
    · rename_i hlock
      obtain ⟨new, hnodup, hfree, ⟨heq, hlen⟩ | heq⟩ := alloc3Desc_cases (d := s.disk)
      · obtain ⟨i₀, i₁, i₂, rfl⟩ := List.length_eq_three.mp hlen
        rw [heq] at he
        cases he
        refine ⟨h.submit (r := ⟨b, ![i₀, i₁, i₂], s.hist.reqs.length⟩) hp hlock ?_ ?_ rfl
          (mem_idx ⟨b, ![i₀, i₁, i₂], s.hist.reqs.length⟩), fun b' hb' => ?_⟩
        · rw [nodup_cons, nodup_cons] at hnodup
          obtain ⟨h0, h1, -⟩ := hnodup
          simp only [mem_cons, List.not_mem_nil, or_false, not_or] at h0 h1
          intro k k' hkk'
          match k, k' with
          | 0, 0 | 1, 1 | 2, 2 => rfl
          | 0, 1 => exact absurd hkk' h0.1
          | 0, 2 => exact absurd hkk' h0.2
          | 1, 2 => exact absurd hkk' h1
          | 1, 0 => exact absurd hkk'.symm h0.1
          | 2, 0 => exact absurd hkk'.symm h0.2
          | 2, 1 => exact absurd hkk'.symm h1
        · intro k
          exact hfree _ ((mem_idx ⟨b, ![i₀, i₁, i₂], s.hist.reqs.length⟩ _).mpr ⟨k, rfl⟩)
        · dsimp only
          rw [update_apply]
          split
          · rfl
          · exact hb'
      · rw [heq] at he
        cases he
        exact ⟨h.submitFail hfree, fun _ hb => hb⟩
    · cases he
  · cases he

theorem Inv.tryFinish (h : Inv s) (he : step s (.finish p) = some t) : Inv t ∧ t.bdisk = s.bdisk ∧ ∃ r, s.pc p = .wait r ∧ r ∈ s.hist.consumed := by
  rw [step, if_pos h.sound] at he
  simp only [act] at he
  split at he
  · rename_i r hp
    split at he
    · rename_i hguard
      have hc := h.calls.consumed_of_wait hp hguard.2
      have hreq := req_of_wait hp
      have hlinked : Linked { s.disk with
          info := update s.disk.info r.head { s.disk.info r.head with b := none } } r :=
        have hf := (h.chains.formatted p r hreq).toLinked
        { hf with }
      rw [hlinked.freeChain (injective_of_owned h.chains.owned hreq) fun k => h.chains.owned.used_of (chain_of_req hreq)] at he
      cases he
      exact ⟨h.finish hp hc, rfl, r, hp, hc⟩
    · cases he
  · cases he

omit [DecidableEq P] in
theorem Inv.relock (h : Inv s) {x : Option P} (hfree : ∀ q, (s.pc q).buf ≠ some b) :
    Inv { s with held := update s.held b x } := by
  refine ⟨h.sound, { h.chains with }, { h.calls with held := fun q b' hq => ?_ }, { h.flow with }⟩
  have hne : b' ≠ b := by
    rintro rfl
    exact hfree q hq
  exact (update_of_ne hne _ _).trans (h.calls.held q b' hq)

theorem inv_step (h : Inv s) (he : step s e = some t) : Inv t := by
  have hstep := he
  rw [step, if_pos h.sound] at he
  cases e
  case submit p => exact (h.trySubmit hstep).1
  case finish p => exact (h.tryFinish hstep).1
  all_goals simp only [act] at he
  case hold p b =>
    split at he <;> cases he
    rename_i hb
    refine h.relock fun q hq => ?_
    have hheld := h.calls.held q b hq
    rw [hb] at hheld
    cases hheld
  case drop p b =>
    split at he
    · rename_i hp
      split at he <;> cases he
      rename_i hb
      refine h.relock fun q hq => ?_
      obtain rfl := Option.some.inj (hb.symm.trans (h.calls.held q b hq))
      rw [hp] at hq
      cases hq
    · cases he
  case call p b write =>
    split at he
    · rename_i hp
      split at he <;> cases he
      rename_i hb
      exact h.call hp hb
    · cases he
  case publish p =>
    split at he <;> cases he
    rename_i r hp
    exact h.publish hp
  case intrEnter =>
    split at he <;> cases he
    rename_i hlock
    exact h.setLock fun q r hq => by
      rw [h.calls.locked q r hq] at hlock
      cases hlock
  case intrOne =>
    split at he <;> cases he
    rename_i hguard
    exact h.intrRound hguard.1 hguard.2
  case intrExit =>
    split at he <;> cases he
    rename_i hguard
    exact h.setLock fun q r hq => by
      rw [h.calls.locked q r hq] at hguard
      cases hguard.1
  case take =>
    split at he <;> cases he
    rename_i hne
    exact h.take hne
  case complete k =>
    split at he <;> cases he
    rename_i head hk
    exact h.complete hk

theorem inv_of_reach (h : Reach step boot s) : Inv s :=
  h.invariant (fun hs he => inv_step hs he) inv_boot

theorem Inv.eq_intrOne (h : Inv s) (he : step s e = some t) (hb : s.bdisk b = true) (hb' : t.bdisk b = false) : e = .intrOne := by
  have hsame : t.bdisk ≠ s.bdisk := fun heq => by
    rw [heq, hb] at hb'
    cases hb'
  have hstep := he
  rw [step, if_pos h.sound] at he
  cases e with
  | intrOne => rfl
  | submit p =>
    rw [(h.trySubmit hstep).2 b hb] at hb'
    cases hb'
  | finish p => exact absurd (h.tryFinish hstep).2.1 hsame
  | hold p b | intrEnter | intrExit | take | publish p | complete k =>
    simp only [act] at he
    split at he <;> cases he
    exact absurd rfl hsame
  | drop p b | call p b write =>
    simp only [act] at he
    split at he
    · split at he <;> cases he
      exact absurd rfl hsame
    · cases he

/-- **The driver and the device agree.** In every reachable state: the kernel has not panicked; descriptors that are not free belong to
one request each; `b->disk` is cleared only where the handler finds the request for `b` done, and the process returns only after that; the
handler finds requests done in the order in which the device was done with them, each once and none left out; and what was put in the ring
`avail` is there until the device takes it. -/
theorem disk_protocol (h : Reach step boot s) : s.panicked = none ∧ Exclusive (chain s.pc) (fun i => s.disk.free i = false) ∧
    (∀ e t b, step s e = some t → s.bdisk b = true → t.bdisk b = false → e = .intrOne ∧ ∃ p r, s.pc p = .wait r ∧ r.b = b ∧
        s.hist.completed[s.hist.consumed.length]? = some r ∧ t.hist.consumed = s.hist.consumed ++ [r]) ∧
    (∀ p t, step s (.finish p) = some t → ∃ r, s.pc p = .wait r ∧ r ∈ s.hist.consumed) ∧
    (s.hist.consumed <+: s.hist.completed ∧ s.hist.completed.Nodup ∧ ∀ t, step s .intrExit = some t → s.hist.consumed = s.hist.completed) ∧
    (∀ k r, s.hist.reqs[k]? = some r → s.hist.taken ≤ k → s.disk.avail.ring (Fin.ofNat NUM k) = r.head) ∧
    ∀ t, step s .take = some t → ∃ r, s.hist.reqs[s.hist.taken]? = some r ∧ t.busy = s.busy ++ [r.head] := by
  have hinv := inv_of_reach h
  refine ⟨hinv.sound, hinv.chains.owned, fun e t b he hb hb' => ?_, fun p t he => (hinv.tryFinish he).2.2,
    ⟨hinv.flow.consumed, hinv.flow.completed_nodup, fun t he => ?_⟩, fun k r hk htaken => ?_, fun t he => ?_⟩
  · obtain rfl := hinv.eq_intrOne he hb hb'
    refine ⟨rfl, ?_⟩
    rw [step, if_pos hinv.sound] at he
    simp only [act] at he
    split at he <;> cases he
    rename_i hguard
    obtain ⟨p, r, hp, hr, heq⟩ := hinv.intrRound_eq hguard.2
    rw [heq] at hb' ⊢
    refine ⟨p, r, hp, ?_, hr, rfl⟩
    by_contra hne
    dsimp only at hb'
    rw [update_of_ne fun heq => hne heq.symm, hb] at hb'
    cases hb'
  · rw [step, if_pos hinv.sound] at he
    simp only [act] at he
    split at he
    · rename_i hguard
      have hlen := (hinv.flow.used.empty_iff lt_ring).mp hguard.2
      rw [length_map] at hlen
      exact hinv.flow.consumed.eq_of_length hlen
    · cases he
  · obtain ⟨hlt, rfl⟩ := List.getElem?_eq_some_iff.mp hk
    have hcell := hinv.flow.avail.cell k (by rwa [length_map]) htaken
    rwa [getElem_map] at hcell
  · rw [step, if_pos hinv.sound] at he
    simp only [act] at he
    split at he <;> cases he
    rename_i hne
    obtain ⟨hlt, hcell, -⟩ := hinv.flow.avail.take dvd_ring fun heq =>
      hne ((hinv.flow.avail.empty_iff lt_ring).mpr heq)
    rw [length_map] at hlt
    rw [getElem_map] at hcell
    exact ⟨_, List.getElem?_eq_getElem hlt, by rw [hcell]⟩

end Runs

local instance three_processes : NeZero 3 := ⟨by decide⟩

/-- Three processes write. There are descriptors for two requests; the device does the second one first, and the third process gets its
descriptors when the second has returned. -/
def threeWrites : List (Event (Fin 3) (Fin 3)) :=
  [.hold 0 0, .hold 1 1, .hold 2 2, .call 0 0 true, .call 1 1 true, .call 2 2 true, .submit 0,
    .publish 0, .submit 1, .take, .publish 1, .submit 2, .take, .complete 1, .intrEnter, .intrOne,
    .intrExit, .finish 1, .submit 2, .publish 2, .complete 0, .intrEnter, .intrOne]

theorem disk_protocol_three : ∃ s, run step boot threeWrites = some s ∧ s.panicked = none ∧
      s.hist.consumed.map Req.b = [1, 0] ∧ s.hist.consumed <+: s.hist.completed := by
  have hr : run step boot threeWrites = some ((run step boot threeWrites).get (by decide +kernel)) :=
    (Option.some_get _).symm
  have h := disk_protocol ⟨_, hr⟩
  exact ⟨_, hr, h.1, by decide +kernel, h.2.2.2.2.1.1⟩

end Xv6.Virtio
