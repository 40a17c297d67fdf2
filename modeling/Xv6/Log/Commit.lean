import Xv6.Log.Core

/-!
# The iterations of recovery and commit

What one iteration of `read_head`, `write_head`, `write_log` and `install_trans` does to
the disk, and that each keeps the cache in order. They all take their buffers with
`bread`, so what they read is what the disk has, or, for a pinned block, its present
contents; and whatever they change in a buffer they write to the disk before they let
it go.
-/

namespace Xv6.Logging

open Lib Function

variable {pins : List ℕ} {c : ℕ → Block} {s s' : Sys} {tail b : ℕ}

theorem Core.data_eq_disk (h : Core pins c s) {i : BufId} (hi : (s.buf i).Caches ROOTDEV b)
    (hv : (s.buf i).valid = true) (hb : b ∉ pins) (hd : s.dirty i = false) : (s.buf i).data = s.disk b := by
  have := (h.bufs i).clean hv (hi.2 ▸ hb) hd
  rwa [hi.2] at this

theorem Core.data_eq_of_pinned (h : Core pins c s) {i : BufId} (hi : (s.buf i).Caches ROOTDEV b)
    (hv : (s.buf i).valid = true) (hb : b ∈ pins) : (s.buf i).data = c b := by
  have := (h.bufs i).hot hv (hi.2 ▸ hb)
  rwa [hi.2] at this

theorem readHead_some (h : readHead s = some s') : ∃ i s₁, bread s s.worker s.log.start = some (i, s₁) ∧
      s' = brelse (s₁.setLh (header (s₁.buf i).data)) i := by
  rw [readHead] at h
  obtain ⟨⟨i, s₁⟩, hbread, h'⟩ := Option.map_eq_some_iff.mp h
  exact ⟨i, s₁, hbread, h'.symm⟩

section

variable (h : Core pins c s)

include h

theorem Core.readHead (hstart : s.log.start ∉ pins) (hr : readHead s = some s') :
    ∃ lh, lh = header (s.disk s.log.start) ∧ Core pins c s' ∧ Frame (s.setLh lh) s' ∧ s'.disk = s.disk := by
  obtain ⟨i, s₁, hbread, hs'⟩ := readHead_some hr
  obtain ⟨h₁, hf, hdisk, hc, hd⟩ := h.bread hbread
  obtain ⟨-, -, hholder, hv⟩ := bread_buf hbread
  have hdata := h₁.data_eq_disk hc hv hstart hd
  rw [hdata, hdisk] at hs'
  -- the list is kept abstract, so that nothing unfolds the header
  obtain ⟨lh, hlh⟩ : ∃ lh, lh = header (s.disk s.log.start) := ⟨_, rfl⟩
  rw [← hlh] at hs'
  subst hs'
  obtain ⟨h₂, hf₂⟩ := (h₁.setLh lh).brelse (i := i) (by rw [Sys.setLh_buf, hholder]; simp) hd
  exact ⟨lh, hlh, h₂, (hf.setLh lh).trans hf₂, hdisk⟩

theorem Core.writeHead (hstart : s.log.start ∉ pins) (hw : writeHead s = some s') : Core pins c s' ∧ Frame s s' ∧
      s'.disk = update s.disk s.log.start (setHeader s.log.lh (s.disk s.log.start)) := by
  obtain ⟨⟨i, s₁⟩, hbread, rfl⟩ := Option.map_eq_some_iff.mp hw
  obtain ⟨h₁, hf, hdisk, hc, hd⟩ := h.bread hbread
  obtain ⟨-, -, hholder, hv⟩ := bread_buf hbread
  have hdata := h₁.data_eq_disk hc hv hstart hd
  have hheld : (s₁.buf i).holder ≠ none := by simp [hholder]
  obtain ⟨h₂, hf₂⟩ := h₁.bwrite (v := setHeader s₁.log.lh (s₁.buf i).data) hheld hd fun hb => absurd (hc.2 ▸ hb) hstart
  obtain ⟨h₃, hf₃⟩ := h₂.brelse (i := i) (by rw [bwrite_buf, if_pos rfl]; exact hheld) hd
  refine ⟨h₃, hf.trans (hf₂.trans hf₃), ?_⟩
  change update s₁.disk (s₁.buf i).blockno (setHeader s₁.log.lh (s₁.buf i).data) = _
  rw [hc.2, hdata, hdisk, hf.log]

theorem Core.bread_bread {p : Pid} {a : ℕ} {l d : BufId} {s₁ s₂ : Sys}
    (hl : Logging.bread s p a = some (l, s₁)) (hd : Logging.bread s₁ p b = some (d, s₂)) : Core pins c s₂ ∧ Frame s s₂ ∧ s₂.disk = s.disk ∧ l ≠ d ∧
      ((s₂.buf l).Caches ROOTDEV a ∧ (s₂.buf l).valid = true ∧ (s₂.buf l).holder ≠ none ∧ s₂.dirty l = false) ∧
      ((s₂.buf d).Caches ROOTDEV b ∧ (s₂.buf d).valid = true ∧ (s₂.buf d).holder ≠ none ∧ s₂.dirty d = false) := by
  obtain ⟨h₁, hf₁, hdisk₁, hcl, hdl⟩ := h.bread hl
  obtain ⟨h₂, hf₂, hdisk₂, hcd, hdd⟩ := h₁.bread hd
  obtain ⟨-, -, hholder, hvl⟩ := bread_buf hl
  obtain ⟨hfree, hother, hholder', hvd⟩ := bread_buf hd
  have hne : l ≠ d := by
    rintro rfl
    exact absurd (hfree.symm.trans hholder) (by simp)
  refine ⟨h₂, hf₁.trans hf₂, hdisk₂.trans hdisk₁, hne, ?_, hcd, hvd, by simp [hholder'], hdd⟩
  rw [hother l hne]
  exact ⟨hcl, hvl, by simp [hholder], by rw [hf₂.dirty]; exact hdl⟩

theorem Core.writeLogBlock (hb : b ∈ pins) (hslot : s.log.start + tail + 1 ∉ pins) (hw : writeLogBlock s tail b = some s') :
    Core pins c s' ∧ Frame s s' ∧ s'.disk = update s.disk (s.log.start + tail + 1) (c b) := by
  obtain ⟨⟨l, s₁⟩, hl, hw⟩ := Option.bind_eq_some_iff.mp hw
  obtain ⟨⟨d, s₂⟩, hd, rfl⟩ := Option.map_eq_some_iff.mp hw
  obtain ⟨h₂, hf, hdisk, hne, ⟨hcl, hvl, hhl, hdl⟩, ⟨hcd, hvd, hhd, hdd⟩⟩ := h.bread_bread hl hd
  have hdata := h₂.data_eq_of_pinned hcd hvd hb
  obtain ⟨h₃, hf₃⟩ := h₂.bwrite (v := (s₂.buf d).data) hhl hdl fun hb' => absurd (hcl.2 ▸ hb') hslot
  obtain ⟨h₄, hf₄⟩ := h₃.brelse (i := d) (by rw [bwrite_buf, if_neg hne.symm]; exact hhd) hdd
  obtain ⟨h₅, hf₅⟩ := h₄.brelse (i := l) (by rw [brelse_buf, if_neg hne, bwrite_buf, if_pos rfl]; exact hhl) hdl
  refine ⟨h₅, hf.trans (hf₃.trans (hf₄.trans hf₅)), ?_⟩
  change update s₂.disk (s₂.buf l).blockno (s₂.buf d).data = _
  rw [hcl.2, hdata, hdisk]

end

theorem Core.installBlock_recovering (h : Core [] c s) (hi : installBlock s true tail b = some s') :
    Core [] c s' ∧ Frame s s' ∧ s'.disk = update s.disk b (s.disk (s.log.start + tail + 1)) := by
  obtain ⟨⟨l, s₁⟩, hl, hi⟩ := Option.bind_eq_some_iff.mp hi
  obtain ⟨⟨d, s₂⟩, hd, rfl⟩ := Option.map_eq_some_iff.mp hi
  obtain ⟨h₂, hf, hdisk, hne, ⟨hcl, hvl, hhl, hdl⟩, ⟨hcd, hvd, hhd, hdd⟩⟩ := h.bread_bread hl hd
  have hdata := h₂.data_eq_disk hcl hvl (List.not_mem_nil) hdl
  obtain ⟨h₃, hf₃⟩ := h₂.bwrite (v := (s₂.buf l).data) hhd hdd fun hb => absurd hb List.not_mem_nil
  obtain ⟨h₄, hf₄⟩ := h₃.brelse (i := l) (by rw [bwrite_buf, if_neg hne]; exact hhl) hdl
  obtain ⟨h₅, hf₅⟩ := h₄.brelse (i := d) (by rw [brelse_buf, if_neg hne.symm, bwrite_buf, if_pos rfl]; exact hhd) hdd
  refine ⟨h₅, hf.trans (hf₃.trans (hf₄.trans hf₅)), ?_⟩
  change update s₂.disk (s₂.buf d).blockno (s₂.buf l).data = _
  rw [hcd.2, hdata, hdisk]

theorem Core.installBlock (h : Core (b :: pins) c s) (hb : b ∉ pins)
    (hslot : s.log.start + tail + 1 ∉ b :: pins) (hc : s.disk (s.log.start + tail + 1) = c b) (hi : installBlock s false tail b = some s') :
    Core pins c s' ∧ Frame s s' ∧ s'.disk = update s.disk b (c b) := by
  obtain ⟨⟨l, s₁⟩, hl, hi⟩ := Option.bind_eq_some_iff.mp hi
  obtain ⟨⟨d, s₂⟩, hd, rfl⟩ := Option.map_eq_some_iff.mp hi
  obtain ⟨h₂, hf, hdisk, hne, ⟨hcl, hvl, hhl, hdl⟩, ⟨hcd, hvd, hhd, hdd⟩⟩ := h.bread_bread hl hd
  have hdata : (s₂.buf l).data = c b := by
    rw [h₂.data_eq_disk hcl hvl hslot hdl, hdisk, hc]
  obtain ⟨h₃, hf₃⟩ := h₂.bwrite (v := (s₂.buf l).data) hhd hdd fun _ => by rw [hcd.2, hdata]
  have hbuf : (Logging.bwrite s₂ d (s₂.buf l).data).buf d = { s₂.buf d with data := (s₂.buf l).data } := by rw [bwrite_buf, if_pos rfl]
  obtain ⟨h₄, hf₄⟩ := h₃.bunpin (i := d) hb (by rw [hbuf]; exact hcd) (by rw [hbuf, bwrite_disk, hcd.2, update_self])
  obtain ⟨h₅, hf₅⟩ := h₄.brelse (i := l) (by rw [bunpin_buf, if_neg hne, bwrite_buf, if_neg hne]; exact hhl) hdl
  obtain ⟨h₆, hf₆⟩ := h₅.brelse (i := d) (by rw [brelse_buf, if_neg hne.symm, bunpin_buf, if_pos rfl, hbuf]; exact hhd) hdd
  refine ⟨h₆, hf.trans (hf₃.trans (hf₄.trans (hf₅.trans hf₆))), ?_⟩
  change update s₂.disk (s₂.buf d).blockno (s₂.buf l).data = _
  rw [hcd.2, hdata, hdisk]

end Xv6.Logging
