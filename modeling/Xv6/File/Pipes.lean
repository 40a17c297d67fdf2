import Xv6.File.Refs
import Xv6.Lib.Exclusive
import Xv6.Lib.Outcome

/-!
# The lifetime of a pipe

Each end of a pipe that is open belongs to exactly one entry of the table of files, or, between the two locks of
`fileclose`, to the process that is closing it. So an end is closed once, by the last reference to its file, and the page
is freed once, by the one who closes the second end.
-/

namespace Xv6.Descriptors

open Lib Function

variable {o c : Table}

variable {Page : Type} {s s' : Files Page} {w : Pid → View Page} {p q : Pid}
  {v : View Page} {f g : FileId} {pi : Page} {b : Bool}

/-! ### Ends of pipes -/

def owner (s : Files Page) (w : Pid → View Page) : FileId ⊕ Pid → Option (Page × Bool)
  | .inl f => (s.ftable f).tip
  | .inr p => (w p).closing

def Files.IsOpen (s : Files Page) (e : Page × Bool) : Prop :=
  (s.pages e.1).any (·.isOpen e.2) = true

/-- **The ends of pipes that are open are those that belong to somebody.** -/
structure Ends (s : Files Page) (w : Pid → View Page) : Prop where
  sides : ∀ f, (s.ftable f).type = .pipe →
    (s.ftable f).pipe.isSome ∧ (s.ftable f).readable = !(s.ftable f).writable
  ends : Exclusive (owner s w) s.IsOpen
  /-- A page without open ends is free. -/
  pages : ∀ pi P, s.pages pi = some P → P.readopen = true ∨ P.writeopen = true

namespace Ends

variable (h : Ends s w)

include h

theorem congr {w' : Pid → View Page} (hfile : ∀ f, (s'.ftable f).tip = (s.ftable f).tip)
    (hsides : ∀ f, (s'.ftable f).type = .pipe → (s'.ftable f).pipe = (s.ftable f).pipe ∧
      (s.ftable f).type = .pipe ∧ (s'.ftable f).readable = (s.ftable f).readable ∧ (s'.ftable f).writable = (s.ftable f).writable)
    (hpages : s'.pages = s.pages) (hw : ∀ p, (w' p).closing = (w p).closing) : Ends s' w' where
  sides f hf := by
    obtain ⟨hpipe, htype, hr, hw⟩ := hsides f hf
    rw [hpipe, hr, hw]
    exact h.sides f htype
  ends := by
    refine h.ends.congr ?_ fun e => by rw [Files.IsOpen, hpages, Files.IsOpen]
    rintro (f | p)
    · exact hfile f
    · exact hw p
  pages := hpages ▸ h.pages

theorem of_view (hfile : s'.ftable = s.ftable) (hpages : s'.pages = s.pages) (hv : v.closing = (w p).closing) : Ends s' (update w p v) := by
  refine h.congr (fun f => by rw [hfile]) (fun f hf => ?_) hpages (apply_update_of_eq View.closing hv)
  rw [hfile] at hf ⊢
  exact ⟨rfl, hf, rfl, rfl⟩

theorem of_file {e : File Page} (hv : v.closing = (w p).closing)
    (he : e = { s.ftable f with ref := e.ref } ∨ e.type ≠ .pipe ∧ (s.ftable f).type ≠ .pipe) : Ends (s.setFile f e) (update w p v) := by
  have hf : (s.setFile f e).ftable f = e := update_self ..
  have hne : ∀ g, g ≠ f → (s.setFile f e).ftable g = s.ftable g := fun g hg => update_of_ne hg ..
  refine h.congr (fun g => ?_) (fun g hg => ?_) rfl (apply_update_of_eq View.closing hv)
  · by_cases hgf : g = f
    · rw [hgf, hf]
      rcases he with he | ⟨he, he'⟩
      · rw [he]
        rfl
      · rw [File.tip, File.tip, if_neg he, if_neg he']
    · rw [hne g hgf]
  · by_cases hgf : g = f
    · rw [hgf, hf] at hg ⊢
      rcases he with he | ⟨he, -⟩
      · rw [he] at hg ⊢
        exact ⟨rfl, hg, rfl, rfl⟩
      · exact absurd hg he
    · rw [hne g hgf] at hg ⊢
      exact ⟨rfl, hg, rfl, rfl⟩

theorem filefree (hp : (w p).closing = none) : Ends (s.setFile f { s.ftable f with ref := 0, type := .none })
      (update w p (((w p).release f).setClosing (s.ftable f).tip)) := by
  have hne : ∀ g, g ≠ f → (s.setFile f { s.ftable f with ref := 0, type := .none }).ftable g = s.ftable g := fun g hg => update_of_ne hg ..
  have hf : (s.setFile f { s.ftable f with ref := 0, type := .none }).ftable f = { s.ftable f with ref := 0, type := .none } := update_self ..
  refine ⟨fun g hg => ?_, ?_, h.pages⟩
  · have hgf : g ≠ f := by
      rintro rfl
      rw [hf] at hg
      cases hg
    rw [hne g hgf] at hg ⊢
    exact h.sides g hg
  refine (h.ends.handover (.inl f) (.inr p) hp).congr ?_ fun _ => Iff.rfl
  rintro (g | q)
  · rw [update_of_ne (by simp)]
    change File.tip _ = _
    by_cases hgf : g = f
    · rw [hgf, update_self, hf]
      rfl
    · rw [update_of_ne (by simpa using hgf), hne g hgf]
      rfl
  · by_cases hq : q = p
    · rw [hq, update_self]
      change (update w p _ p).closing = _
      rw [update_self]
      rfl
    · rw [update_of_ne (by simpa using hq), update_of_ne (by simp)]
      change (update w p _ q).closing = _
      rw [update_of_ne hq]
      rfl

theorem page_of_owner {r : FileId ⊕ Pid} (hr : owner s w r = some (pi, b)) : ∃ P, s.pages pi = some P ∧ P.isOpen b = true := by
  simpa [Files.IsOpen, Option.any_eq_true] using h.ends.used_of hr

variable [DecidableEq Page]

theorem pipeclose (hp : (w p).closing = some (pi, b)) (hs : s.pipeclose pi b = .ok s') : Ends s' (update w p ((w p).setClosing none)) := by
  obtain ⟨P, hP, hb⟩ := h.page_of_owner (r := .inr p) hp
  obtain ⟨P', hs', hopen, hopen'⟩ : ∃ P' : Pipe, s' = s.setPage pi (if P'.readopen = false ∧ P'.writeopen = false then none else some P') ∧
      P'.isOpen b = false ∧ P'.isOpen (!b) = P.isOpen (!b) := by
    rw [Files.pipeclose, hP] at hs
    refine ⟨_, (Except.ok.inj hs).symm, ?_, ?_⟩ <;> cases b <;> rfl
  have hother : ∀ x, x ≠ pi → s'.pages x = s.pages x := fun x hx => by
    rw [hs']
    exact update_of_ne hx ..
  have hself : ∀ c, (s'.pages pi).any (·.isOpen c) = P'.isOpen c := fun c => by
    rw [hs']
    change (update s.pages pi _ pi).any _ = _
    rw [update_self]
    split
    · rename_i hboth
      cases c
      · exact hboth.1.symm
      · exact hboth.2.symm
    · rfl
  refine ⟨hs' ▸ h.sides, ?_, fun x Q hQ => ?_⟩
  · refine (h.ends.release (fun r => r = .inr p)).congr ?_ ?_
    · rintro (g | q)
      · rw [if_neg (by simp), hs']
        rfl
      change (update w p _ q).closing = _
      by_cases hq : q = p
      · rw [hq, update_self, if_pos rfl]
        rfl
      · rw [update_of_ne hq, if_neg (by simpa using hq)]
        rfl
    rintro ⟨x, c⟩
    have hrel : (∀ r, r = .inr p → owner s w r ≠ some (x, c)) ↔ (x, c) ≠ (pi, b) := by
      rw [forall_eq]
      change (w p).closing ≠ _ ↔ _
      rw [hp]
      exact ⟨fun hne heq => hne (congrArg some heq.symm), fun hne heq => hne (Option.some.inj heq).symm⟩
    rw [hrel]
    change (s'.pages x).any (·.isOpen c) = true ↔ (s.pages x).any (·.isOpen c) = true ∧ _
    by_cases hx : x = pi
    · rw [hx, hself, hP]
      change _ ↔ P.isOpen c = true ∧ _
      by_cases hc : c = b
      · rw [hc, hopen]
        simp
      · obtain rfl : c = !b := by
          revert hc
          cases c <;> cases b <;> simp
        rw [hopen']
        simp
    · rw [hother x hx]
      simp [hx]
  · by_cases hx : x = pi
    · rw [hx, hs'] at hQ
      change update s.pages pi _ pi = _ at hQ
      rw [update_self] at hQ
      split at hQ <;> cases hQ
      rename_i hboth
      by_contra hnone
      exact hboth (by simpa using hnone)
    · rw [hother x hx] at hQ
      exact h.pages x Q hQ

theorem makePipe (hpi : s.pages pi = none) (hf : (s.ftable f).type = .none)
    (hg : (s.ftable g).type = .none) (hfg : f ≠ g) (hv : v.closing = (w p).closing) : Ends (s.makePipe pi f g) (update w p v) := by
  have hpages : ∀ x, (s.makePipe pi f g).pages x = if x = pi then some ⟨true, true⟩ else s.pages x := by
    intro x
    change update s.pages pi _ x = _
    by_cases hx : x = pi
    · rw [hx, update_self, if_pos rfl]
    · rw [update_of_ne hx, if_neg hx]
  have hgf : (s.makePipe pi f g).ftable g = { s.ftable g with
      type := .pipe, readable := false, writable := true, pipe := some pi } := by
    simp [Files.makePipe, Files.setFile, Files.setPage, update_of_ne hfg.symm]
  have hff : (s.makePipe pi f g).ftable f = { s.ftable f with
      type := .pipe, readable := true, writable := false, pipe := some pi } := by
    change update (update s.ftable f _) g _ f = _
    rw [update_of_ne hfg, update_self]
    rfl
  have hne : ∀ x, x ≠ f → x ≠ g → (s.makePipe pi f g).ftable x = s.ftable x := by
    intro x hxf hxg
    change update (update s.ftable f _) g _ x = _
    rw [update_of_ne hxg, update_of_ne hxf]
  have hnotype : ∀ x, (s.ftable x).type = .none → owner s w (.inl x) = none := fun x hx => by
    change File.tip _ = none
    rw [File.tip, if_neg (by rw [hx]; simp)]
  have hunused : ∀ c, ¬s.IsOpen (pi, c) := fun c hc => by
    rw [Files.IsOpen, hpi] at hc
    cases hc
  refine ⟨fun x hx => ?_, ?_, fun x P hP => ?_⟩
  · by_cases hxf : x = f
    · rw [hxf, hff]
      exact ⟨rfl, rfl⟩
    · by_cases hxg : x = g
      · rw [hxg, hgf]
        exact ⟨rfl, rfl⟩
      · rw [hne x hxf hxg] at hx ⊢
        exact h.sides x hx
  · have h₀ := h.ends.claim (hnotype f hf) (hunused false)
    have h₁ := h₀.claim (r := .inl g) (b := (pi, true)) (by rw [update_of_ne (by simpa using hfg.symm), hnotype g hg]) (by
        rintro (heq | hopen)
        · simp at heq
        · exact hunused true hopen)
    refine h₁.congr ?_ ?_
    · rintro (x | q)
      · change File.tip _ = _
        by_cases hxg : x = g
        · rw [hxg, update_self, hgf]
          rfl
        rw [update_of_ne (by simpa using hxg)]
        by_cases hxf : x = f
        · rw [hxf, update_self, hff]
          rfl
        · rw [update_of_ne (by simpa using hxf), hne x hxf hxg]
          rfl
      · rw [update_of_ne (by simp), update_of_ne (by simp)]
        exact apply_update_of_eq View.closing hv q
    · rintro ⟨x, c⟩
      rw [Files.IsOpen, hpages]
      by_cases hx : x = pi
      · subst hx
        cases c <;> simp [Pipe.isOpen]
      · simp [hx, Files.IsOpen]
  · rw [hpages] at hP
    split at hP
    · cases hP
      exact .inl rfl
    · exact h.pages x P hP

end Ends

/-! ### The actions -/

theorem Files.of_filealloc {r : Option FileId} (h : s.filealloc = (r, s')) :
    (∃ f, r = some f ∧ (s.ftable f).ref = 0 ∧ s' = s.setFile f { s.ftable f with ref := 1 }) ∨ r = none ∧ s' = s := by
  unfold Files.filealloc at h
  split at h
  · rename_i f hfind
    cases h
    exact .inl ⟨f, rfl, of_decide_eq_true (List.find?_some hfind :), rfl⟩
  · cases h
    exact .inr ⟨rfl, rfl⟩

variable {r : Option (Page × Bool)} {fd : Fd}

theorem Files.of_fileclose (h : s.fileclose f = .ok (r, s')) : 1 < (s.ftable f).ref ∧ r = none ∧
      s' = s.setFile f { s.ftable f with ref := (s.ftable f).ref - 1 } ∨ (s.ftable f).ref = 1 ∧ r = (s.ftable f).tip ∧
      s' = s.setFile f { s.ftable f with ref := 0, type := .none } := by
  unfold Files.fileclose at h
  split at h
  · cases h
  · split at h
    · cases h
      exact .inl ⟨by omega, rfl, rfl⟩
    · cases h
      exact .inr ⟨by omega, rfl, rfl⟩

theorem Files.of_filedup (h : s.filedup f = .ok s') : s' = s.setFile f { s.ftable f with ref := (s.ftable f).ref + 1 } := by
  unfold Files.filedup at h
  split at h
  · cases h
  · exact (Except.ok.inj h).symm

theorem Files.of_freeFd (h : s.freeFd p = some fd) : s.ofile p fd = none :=
  of_decide_eq_true (List.find?_some h :)

structure Exact (s : Files Page) (w : Pid → View Page) : Prop where
  refs : Refs s w
  ends : Ends s w

namespace Exact

variable (h : Exact s w)

include h

theorem fileclose (hp : 0 < (w p).files f) (hc : (w p).closing = none)
    (hs : s.fileclose f = .ok (r, s')) : Exact s' (update w p (((w p).release f).setClosing r)) := by
  rcases Files.of_fileclose hs with ⟨hf, rfl, rfl⟩ | ⟨hf, rfl, rfl⟩
  · have hv : ((w p).release f).setClosing none = (w p).release f := by
      rw [← hc]
      rfl
    rw [hv]
    exact ⟨h.refs.fileclose hp hf, h.ends.of_file rfl (.inl rfl)⟩
  · exact ⟨h.refs.filefree hp hf, h.ends.filefree hc⟩

section

variable (ho : (w p).proc = some o)

include ho

theorem clearFd (hfd : o fd = some f) (hs : ∀ o', (w p).saved = some o' → o' fd = none) :
    Exact (s.setFd p fd none) (update w p (((w p).addFile f).setTable (update o fd none))) := by
  have hpr := ((h.refs.each p).proc o ho).1
  rw [Files.setFd, hpr]
  exact ⟨h.refs.clearFd ho hfd hs, h.ends.of_view rfl rfl rfl⟩

theorem fdalloc (hfd : o fd = none) (hf : 0 < (w p).files f) : Exact (s.setFd p fd (some f))
      (update w p (((w p).dropFile f).setTable (update o fd (some f)))) := by
  have hpr := ((h.refs.each p).proc o ho).1
  rw [Files.setFd, hpr]
  exact ⟨h.refs.fdalloc ho hfd hf, h.ends.of_view rfl rfl rfl⟩

section

variable (hfd : o fd = some f)

include hfd

theorem filedup (hp : (w p).fresh f = false) (hs : s.filedup f = .ok s') :
    Exact s' (update w p ((w p).addFile f)) := by
  rw [Files.of_filedup hs]
  refine ⟨h.refs.filedup ?_ hp, h.ends.of_file rfl (.inl rfl)⟩
  rw [((h.refs.each p).proc o ho).1]
  exact Table.fds_pos hfd

theorem closeFd (hs : (w p).saved = none) (hp : (w p).fresh f = false) (hc : (w p).closing = none) (ht : s.fileclose f = .ok (r, s')) :
    Exact (s'.setFd p fd none) (update w p (((w p).setTable (update o fd none)).setClosing r)) := by
  have hclear := h.clearFd ho hfd fun o' ho' => by
    rw [hs] at ho'
    cases ho'
  -- clearing the slot first comes to the same
  have ht' : (s.setFd p fd none).fileclose f = .ok (r, s'.setFd p fd none) := by
    rcases Files.of_fileclose ht with ⟨hf, rfl, rfl⟩ | ⟨hf, rfl, rfl⟩
    · change (if (s.ftable f).ref < 1 then _ else if 0 < (s.ftable f).ref - 1 then _ else _) = _
      rw [if_neg (by omega), if_pos (by omega)]
      rfl
    · change (if (s.ftable f).ref < 1 then _ else if 0 < (s.ftable f).ref - 1 then _ else _) = _
      rw [if_neg (by omega), if_neg (by omega)]
      rfl
  have := hclear.fileclose (p := p) (f := f) (by rw [update_self]; exact View.addFile_pos) (by rw [update_self]; exact hc) ht'
  rw [update_self, update_idem] at this
  convert this using 2
  change _ = ((((w p).addFile f).release f).setTable _).setClosing _
  rw [View.release_addFile hp]

theorem dup {fd' : Fd}
    (hfd' : o fd' = none) (hp : (w p).fresh f = false) (ht : s.filedup f = .ok s') :
    Exact (s'.setFd p fd' (some f)) (update w p ((w p).setTable (update o fd' (some f)))) := by
  have := (h.filedup ho hfd hp ht).fdalloc (p := p) (f := f) (o := o)
    (by rw [update_self]; exact ho) hfd' (by rw [update_self]; exact View.addFile_pos)
  rwa [update_self, update_idem, View.dropFile_addFile] at this

theorem copyFd
    (hc : (w p).child = some (q, c)) (hcfd : c fd = none) (hfresh : ∀ g, (w p).fresh g = false) (ht : s.filedup f = .ok s') :
    Exact (s'.setFd q fd (some f)) (update w p ((w p).setChild (some (q, update c fd (some f))))) := by
  have hdup := h.filedup ho hfd (hfresh f) ht
  have hc' : (update w p ((w p).addFile f) p).child = some (q, c) := by
    rw [update_self]
    exact hc
  have hgive := hdup.refs.giveFd (f := f) hc' (h.refs.child_ne ho hc) hcfd
    (by rw [update_self]; exact View.addFile_pos) (by rw [update_self]; exact hfresh)
  rw [update_self, update_idem, View.dropFile_addFile] at hgive
  have hpr := (hdup.refs.each p).child q c hc'
  rw [Files.setFd, hpr]
  refine ⟨hgive, ?_⟩
  have hends : Ends (s'.setProc q (some ⟨update c fd (some f), false⟩))
      (update (update w p ((w p).addFile f)) p ((w p).setChild (some (q, update c fd (some f))))) :=
    hdup.ends.of_view rfl rfl (by rw [update_self]; rfl)
  rwa [update_idem] at hends

end

theorem ofile (fd : Fd) : s.ofile p fd = o fd := by
  rw [Files.ofile, ((h.refs.each p).proc o ho).1]
  rfl

end

end Exact

variable [DecidableEq Page]

theorem rights_sound : rights.Sound exec (@Exact Page) := by
  intro β r p s w b s' h hpre hexec
  have hsame : Exact s (update w p (w p)) := by rwa [update_eq_self]
  cases r with
  | filealloc =>
    rcases Files.of_filealloc (Option.some.inj (Except.ok.inj hexec)) with
      ⟨f, rfl, hf, rfl⟩ | ⟨rfl, rfl⟩
    · refine ⟨_, ⟨?_, rfl⟩, h.refs.filealloc hf, h.ends.of_file rfl (.inl rfl)⟩
      by_contra hfr
      have := (h.refs.each p).fresh f (by simpa using hfr)
      omega
    · exact ⟨_, rfl, hsame⟩
  | fdalloc f =>
    obtain ⟨hf, o, ho⟩ := hpre
    have heq := Option.some.inj (Except.ok.inj hexec)
    split at heq
    · rename_i fd hfd
      cases heq
      have hfd := Files.of_freeFd hfd
      rw [h.ofile ho] at hfd
      exact ⟨_, ⟨o, ho, hfd, rfl⟩, h.fdalloc ho hfd hf⟩
    · cases heq
      exact ⟨_, rfl, hsame⟩
  | openFile f device readable writable =>
    cases hexec
    have htype := ((h.refs.each p).fresh f hpre).1
    refine ⟨_, rfl, h.refs.fill hpre rfl ?_, h.ends.of_file rfl (.inr ⟨?_, ?_⟩)⟩
    · cases device <;> simp
    · cases device <;> simp
    · rw [htype]
      simp
  | kalloc page f₀ f₁ =>
    obtain ⟨h₀, h₁, hne⟩ := hpre
    have heq := Option.some.inj (Except.ok.inj hexec)
    rcases page with _ | pi
    · cases heq
      exact ⟨_, rfl, hsame⟩
    dsimp only at heq
    split at heq
    · rename_i hpi
      cases heq
      have ht₀ := ((h.refs.each p).fresh f₀ h₀).1
      have ht₁ := ((h.refs.each p).fresh f₁ h₁).1
      exact ⟨_, rfl, h.refs.makePipe h₀ h₁ hne, h.ends.makePipe hpi ht₀ ht₁ hne rfl⟩
    · cases heq
      exact ⟨_, rfl, hsame⟩
  | fileclose f =>
    exact ⟨_, rfl, h.fileclose hpre.1 hpre.2 (ok_of_map_some hexec)⟩
  | pipeclose pi writable =>
    have ha := ok_of_map_unit hexec
    refine ⟨_, rfl, ?_, h.ends.pipeclose hpre ha⟩
    rw [Files.pipeclose] at ha
    split at ha <;> cases ha
    exact (h.refs.setClosing none).pages _
  | clearFd fd =>
    obtain ⟨⟨o, f, ho, hfd⟩, hs⟩ := hpre
    cases hexec
    exact ⟨_, ⟨o, f, ho, hfd, rfl⟩, h.clearFd ho hfd hs⟩
  | closeFd fd =>
    obtain ⟨⟨o, ho⟩, hfresh, hc, hs⟩ := hpre
    dsimp only [exec] at hexec
    rw [h.ofile ho] at hexec
    refine ⟨_, ⟨o, ho, rfl⟩, ?_⟩
    cases hfd : o fd with
    | none =>
      rw [hfd] at hexec
      cases hexec
      convert hsame using 2
      rw [← hfd, update_eq_self]
      ext <;> simp [View.setTable, View.setClosing, ho, hc]
    | some f =>
      rw [hfd] at hexec
      obtain ⟨⟨r, t⟩, ht, heq⟩ := of_map_eq_ok hexec
      cases heq
      exact h.closeFd ho hfd hs (hfresh f) hc ht
  | dup fd =>
    obtain ⟨⟨o, ho⟩, hfresh⟩ := hpre
    dsimp only [exec] at hexec
    split at hexec
    · rename_i f fd' hfd hfd'
      obtain ⟨t, ht, heq⟩ := of_map_eq_ok hexec
      cases heq
      have hfd' := Files.of_freeFd hfd'
      rw [h.ofile ho] at hfd hfd'
      refine ⟨_, ⟨o, ho, rfl⟩, ?_⟩
      rw [hfd]
      exact h.dup ho hfd hfd' (hfresh f) ht
    · cases hexec
      exact ⟨_, rfl, hsame⟩
  | access fd =>
    refine ⟨_, rfl, ?_⟩
    dsimp only [exec] at hexec
    split at hexec
    · split at hexec <;> cases hexec
      exact hsame
    · cases hexec
      exact hsame
  | allocproc np =>
    obtain ⟨⟨o, ho⟩, -, -⟩ := hpre
    change (if s.procs np = none then _ else _) = _ at hexec
    split at hexec
    · rename_i hnp
      cases hexec
      exact ⟨_, rfl, h.refs.allocproc ho hnp, h.ends.of_view rfl rfl rfl⟩
    · cases hexec
      exact ⟨_, rfl, hsame⟩
  | freeproc np =>
    obtain ⟨⟨o, ho⟩, hc, -⟩ := hpre
    cases hexec
    exact ⟨_, rfl, h.refs.freeproc hc (h.refs.child_ne ho hc) rfl, h.ends.of_view rfl rfl rfl⟩
  | copyFd np fd =>
    obtain ⟨⟨o, c, ho, hc, hfd⟩, hfresh, -⟩ := hpre
    refine ⟨_, ⟨o, c, ho, hc, rfl⟩, ?_⟩
    dsimp only [exec] at hexec
    rw [h.ofile ho] at hexec
    cases hof : o fd with
    | none =>
      rw [hof] at hexec
      cases hexec
      convert hsame using 2
      rw [← hfd, update_eq_self]
      ext <;> simp [View.setChild, hc]
    | some f =>
      rw [hof] at hexec
      obtain ⟨t, ht, heq⟩ := of_map_eq_ok hexec
      cases heq
      exact h.copyFd ho hof hc hfd hfresh ht
  | spawn np =>
    obtain ⟨⟨o, ho⟩, ⟨c, hc⟩, -⟩ := hpre
    cases hexec
    refine ⟨_, rfl, ?_, h.ends.of_view rfl rfl rfl⟩
    rw [(h.refs.each p).child np c hc]
    exact h.refs.spawn hc (h.refs.child_ne ho hc)
  | zombie =>
    obtain ⟨ho, hfresh, hs⟩ := hpre
    cases hexec
    exact ⟨_, rfl, h.refs.zombie ho hfresh hs, h.ends.of_view rfl rfl rfl⟩
  | leave failed =>
    obtain ⟨⟨o, hs, ho⟩, hfresh⟩ := hpre
    cases hexec
    exact ⟨_, rfl, h.refs.leave hs ho hfresh, h.ends.of_view rfl rfl rfl⟩

end Xv6.Descriptors
