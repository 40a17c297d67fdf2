import Xv6.File.Machine
import Mathlib.Data.Fintype.BigOperators
import Mathlib.Data.List.Nodup

/-!
# What a system call is in the middle of

Inside a system call a process has references to files that no descriptor stands for, files it has not filled in, the
end of a pipe it is about to close, a child that does not run yet: this is its `Xv6.Descriptors.View`. The discipline
`Xv6.Descriptors.rights` says for each action what it needs of that and what it leaves. Every call keeps to it, and
leaves nothing (`Xv6.Descriptors.Prog.call_ok`).
-/

namespace Xv6.Descriptors

open Lib Function

/-- What a process inside a system call is in the middle of. -/
@[ext] structure View (Page : Type) where
  /-- References to files that no descriptor stands for. -/
  files : FileId → ℕ
  /-- Files it has allocated and not filled in. -/
  fresh : FileId → Bool
  /-- The end of a pipe that nobody refers to any more, and that is still to be closed. -/
  closing : Option (Page × Bool)
  /-- Its own descriptor table. -/
  proc : Option Table
  /-- A child that does not run yet, and its descriptor table. -/
  child : Option (Pid × Table)
  /-- The table that a call which opens something began with. -/
  saved : Option Table

variable {Page : Type}

def bare : Table := fun _ => none

def Table.fds (f : FileId) (o : Table) : ℕ := ∑ fd, if o fd = some f then 1 else 0

namespace View

variable (v : View Page) (f : FileId)

def idle (proc saved : Option Table) : View Page where
  files _ := 0
  fresh _ := false
  closing := none
  proc := proc
  child := none
  saved := saved

def addFile : View Page := { v with files := update v.files f (v.files f + 1) }

def dropFile : View Page := { v with files := update v.files f (v.files f - 1) }

def setFresh (b : Bool) : View Page := { v with fresh := update v.fresh f b }

def setTable (o : Table) : View Page := { v with proc := some o }

def setClosing (e : Option (Page × Bool)) : View Page := { v with closing := e }

def setChild (c : Option (Pid × Table)) : View Page := { v with child := c }

def away : View Page := { v with proc := none }

/-- How many references to a file the process knows to be its own. -/
def uses : ℕ := v.files f + (v.proc.map (Table.fds f)).getD 0

def alloc : View Page := (v.addFile f).setFresh f true

def release : View Page := (v.dropFile f).setFresh f false

def Pre : {β : Type} → Act Page β → View Page → Prop
  | _, .filealloc, _ => True
  | _, .fdalloc f, v => 0 < v.files f ∧ ∃ o, v.proc = some o
  | _, .openFile f _ _ _, v => v.fresh f = true
  | _, .kalloc _ f₀ f₁, v => v.fresh f₀ = true ∧ v.fresh f₁ = true ∧ f₀ ≠ f₁
  | _, .fileclose f, v => 0 < v.files f ∧ v.closing = none
  | _, .pipeclose pi writable, v => v.closing = some (pi, writable)
  | _, .clearFd fd, v => (∃ o f, v.proc = some o ∧ o fd = some f) ∧ ∀ o, v.saved = some o → o fd = none
  | _, .closeFd _, v =>
    (∃ o, v.proc = some o) ∧ (∀ f, v.fresh f = false) ∧ v.closing = none ∧ v.saved = none
  | _, .dup _, v => (∃ o, v.proc = some o) ∧ ∀ f, v.fresh f = false
  | _, .access _, _ => True
  | _, .allocproc _, v => (∃ o, v.proc = some o) ∧ v.child = none ∧ v.saved = none
  | _, .freeproc np, v => (∃ o, v.proc = some o) ∧ v.child = some (np, bare) ∧ v.saved = none
  | _, .copyFd np fd, v =>
    (∃ o c, v.proc = some o ∧ v.child = some (np, c) ∧ c fd = none) ∧ (∀ f, v.fresh f = false) ∧
      v.saved = none
  | _, .spawn np, v => (∃ o, v.proc = some o) ∧ (∃ c, v.child = some (np, c)) ∧ v.saved = none
  | _, .zombie, v => v.proc = some bare ∧ (∀ f, v.fresh f = false) ∧ v.saved = none
  | _, .leave failed, v =>
    (∃ o, v.saved = some o ∧ (failed = true → v.proc = some o)) ∧ ∀ f, v.fresh f = false

def Post : {β : Type} → Act Page β → View Page → β → View Page → Prop
  | _, .filealloc, v, some f, w => v.fresh f = false ∧ w = v.alloc f
  | _, .filealloc, v, none, w => w = v
  | _, .fdalloc f, v, some fd, w => ∃ o, v.proc = some o ∧ o fd = none ∧
      w = (v.dropFile f).setTable (update o fd (some f))
  | _, .fdalloc _, v, none, w => w = v
  | _, .openFile f _ _ _, v, _, w => w = v.setFresh f false
  | _, .kalloc _ f₀ f₁, v, b, w => w = if b then (v.setFresh f₀ false).setFresh f₁ false else v
  | _, .fileclose f, v, e, w => w = (v.release f).setClosing e
  | _, .pipeclose _ _, v, _, w => w = v.setClosing none
  | _, .clearFd fd, v, _, w => ∃ o f, v.proc = some o ∧ o fd = some f ∧
      w = (v.addFile f).setTable (update o fd none)
  | _, .closeFd fd, v, e, w => ∃ o, v.proc = some o ∧
      w = (v.setTable (update o fd none)).setClosing e
  | _, .dup fd, v, some fd', w => ∃ o, v.proc = some o ∧
      w = v.setTable (update o fd' (o fd))
  | _, .dup _, v, none, w => w = v
  | _, .access _, v, _, w => w = v
  | _, .allocproc np, v, b, w => w = if b then v.setChild (some (np, bare)) else v
  | _, .freeproc _, v, _, w => w = v.setChild none
  | _, .copyFd np fd, v, _, w => ∃ o c, v.proc = some o ∧ v.child = some (np, c) ∧
      w = v.setChild (some (np, update c fd (o fd)))
  | _, .spawn _, v, _, w => w = v.setChild none
  | _, .zombie, v, _, w => w = v.away
  | _, .leave _, v, _, w => w = v.away

def Settled (v : View Page) : Prop :=
  (∀ f, v.files f = 0) ∧ (∀ f, v.fresh f = false) ∧ v.closing = none ∧ v.child = none

end View

/-- The discipline of the system calls, which never panic by themselves. -/
def rights : Discipline (Act Page) Err (View Page) where
  pre := View.Pre
  post := View.Post
  stop _ _ := False

/-! ### The calls keep to it -/

namespace View

variable {v : View Page} {f g : FileId}

@[simp] theorem release_alloc (h : v.fresh f = false) : (v.alloc f).release f = v := by
  ext <;> simp [alloc, release, addFile, dropFile, setFresh, ← h]

theorem release_alloc_alloc (hf : v.fresh f = false) (hg : v.fresh g = false) (hfg : f ≠ g) : (((v.alloc f).alloc g).release f).release g = v := by
  have hcomm : (v.alloc f).alloc g = (v.alloc g).alloc f := by
    ext <;> simp [alloc, addFile, setFresh, update_of_ne hfg, update_of_ne (Ne.symm hfg), update_comm hfg]
  have hf' : (v.alloc g).fresh f = false := (update_of_ne hfg ..).trans hf
  rw [hcomm, release_alloc hf', release_alloc hg]

theorem setFresh_alloc (h : v.fresh f = false) : (v.alloc f).setFresh f false = v.addFile f := by
  ext <;> simp [alloc, addFile, setFresh, ← h]

theorem setFresh_alloc_alloc (hf : v.fresh f = false) (hg : v.fresh g = false) (hfg : f ≠ g) :
    (((v.alloc f).alloc g).setFresh f false).setFresh g false = (v.addFile f).addFile g := by
  have hcomm : ((v.alloc f).alloc g).setFresh f false = ((v.alloc f).setFresh f false).alloc g := by
    ext <;> simp [alloc, addFile, setFresh, update_comm hfg]
  rw [hcomm, setFresh_alloc hf, setFresh_alloc (v := v.addFile f) hg]

theorem release_addFile (h : v.fresh f = false) : (v.addFile f).release f = v := by
  ext <;> simp [release, addFile, dropFile, setFresh, ← h]

theorem dropFile_addFile : (v.addFile f).dropFile f = v := by
  ext <;> simp [addFile, dropFile]

theorem addFile_comm : (v.addFile f).addFile g = (v.addFile g).addFile f := by
  by_cases h : f = g
  · rw [h]
  · ext <;> simp [addFile, update_of_ne h, update_of_ne (Ne.symm h), update_comm h]

theorem addFile_pos : 0 < (v.addFile f).files f := by
  simp [addFile]

theorem addFile_files_pos (h : 0 < v.files g) : 0 < (v.addFile f).files g := by
  by_cases hgf : g = f
  · rw [hgf]
    exact addFile_pos
  · change 0 < update v.files f (v.files f + 1) g
    rwa [update_of_ne hgf]

theorem release_addFile_addFile (h : v.fresh f = false) : ((v.addFile f).addFile g).release f = v.addFile g := by
  rw [addFile_comm, release_addFile (v := v.addFile g) h]

theorem dropFile_addFile_addFile : ((v.addFile f).addFile g).dropFile f = v.addFile g := by
  rw [addFile_comm, dropFile_addFile]

end View

namespace Prog

open View Program

variable {v : View Page} {f : FileId} {Q : Unit → View Page → Prop}

theorem closeTip_ok {e : Option (Page × Bool)} (h : v.closing = e) : (closeTip e).Ok rights v fun _ u => u = v.setClosing none := by
  rcases e with _ | ⟨pi, writable⟩
  · refine .ret ?_
    rw [setClosing, ← h]
  · exact .perform h fun _ _ hw => hw

theorem fileclose_ok (hf : 0 < v.files f) (hv : v.closing = none) : (fileclose f).Ok rights v fun _ u => u = v.release f := by
  refine .act ⟨hf, hv⟩ ?_
  rintro e _ rfl
  refine (closeTip_ok (v := (v.release f).setClosing e) rfl).mono ?_
  rintro _ _ rfl
  ext <;> simp [setClosing, release, dropFile, setFresh, hv]

/-- **`pipealloc`** has two files filled in, or has given back what it got. -/
theorem pipealloc_ok (page : Option Page) (hv : v.closing = none) (hfresh : ∀ f, v.fresh f = false) :
    (pipealloc page).Ok rights v fun o u => match o with
      | some (f₀, f₁) => u = (v.addFile f₀).addFile f₁
      | none => u = v := by
  refine .act trivial ?_
  rintro (_ | f₀) _ h₀
  · exact .ret h₀
  obtain ⟨-, rfl⟩ := h₀
  refine .act trivial ?_
  rintro (_ | f₁) _ h₁
  · -- the second file cannot be had
    obtain rfl := h₁
    refine .seq (fileclose_ok addFile_pos hv) fun _ => .ret ?_
    exact release_alloc (hfresh f₀)
  obtain ⟨hne, rfl⟩ := h₁
  have h₀₁ : f₀ ≠ f₁ := by
    rintro rfl
    simp [alloc, setFresh] at hne
  refine .act ⟨?_, ?_, h₀₁⟩ ?_
  · change update (update v.fresh f₀ true) f₁ true f₀ = true
    rw [update_of_ne h₀₁, update_self]
  · exact update_self ..
  rintro (_ | _) _ rfl
  · -- there is no page
    refine .seq (fileclose_ok (addFile_files_pos addFile_pos) hv) fun _ => ?_
    refine .seq (fileclose_ok ?_ hv) fun _ => .ret ?_
    · change 0 < update (update (update v.files f₀ _) f₁ _) f₀ _ f₁
      rw [update_of_ne h₀₁.symm, update_self]
      omega
    · exact release_alloc_alloc (hfresh f₀) (hfresh f₁) h₀₁
  · exact .ret (setFresh_alloc_alloc (hfresh f₀) (hfresh f₁) h₀₁)

theorem close_both_ok {rf wf : FileId} (hv : v.closing = none) (hfresh : ∀ f, v.fresh f = false) {k : Prog Page Unit} (hk : k.Ok rights v Q) :
    (do fileclose rf; fileclose wf; k : Prog Page Unit).Ok rights ((v.addFile rf).addFile wf) Q := by
  refine .seq (fileclose_ok (addFile_files_pos addFile_pos) hv) fun _ => ?_
  rw [release_addFile_addFile (hfresh rf)]
  refine .seq (fileclose_ok addFile_pos hv) fun _ => ?_
  rwa [release_addFile (hfresh wf)]

theorem leave_ok {o : Table} {b : Bool} {r : Option Table} (hb : b = true → r = some o) :
    (perform (.leave b) : Prog Page Unit).Ok rights (idle r (some o)) fun _ => Settled := by
  refine .perform ⟨⟨o, rfl, hb⟩, fun _ => rfl⟩ ?_
  rintro _ _ rfl
  exact ⟨fun _ => rfl, fun _ => rfl, rfl, rfl⟩

theorem clearFd_ok {o : Table} {fd : Fd} {α : Type} {k : Unit → Prog Page α} {R : α → View Page → Prop}
    (hproc : v.proc = some (update o fd (some f))) (hfd : o fd = none) (hsaved : ∀ o', v.saved = some o' → o' fd = none)
    (hk : (k ()).Ok rights ((v.addFile f).setTable o) R) : (perform (.clearFd fd) >>= k).Ok rights v R := by
  refine .act ⟨⟨_, f, hproc, update_self ..⟩, hsaved⟩ ?_
  rintro _ _ ⟨o', g, ho', hg, rfl⟩
  obtain rfl : update o fd (some f) = o' := Option.some.inj (hproc.symm.trans ho')
  obtain rfl : f = g := by simpa using hg
  rwa [update_idem, ← hfd, update_eq_self]

/-- **`sys_pipe`** has two descriptors, or has given back all it got. -/
theorem sysPipe_ok (o : Table) (page : Option Page) (copied : Bool) : (sysPipe page copied).Ok rights (idle (some o) (some o)) fun _ => Settled := by
  have hclose : ∀ rf wf, (do fileclose rf; fileclose wf; perform (.leave true) : Prog Page Unit).Ok
      rights (((idle (some o) (some o)).addFile rf).addFile wf) fun _ => Settled :=
    fun rf wf => close_both_ok rfl (fun _ => rfl) (leave_ok fun _ => rfl)
  refine (pipealloc_ok page rfl fun _ => rfl).bind ?_
  rintro (_ | ⟨rf, wf⟩) _ rfl
  · exact leave_ok fun _ => rfl
  refine .act ⟨addFile_files_pos addFile_pos, o, rfl⟩ ?_
  rintro (_ | fd₀) _ h₀
  · -- there is no descriptor
    obtain rfl := h₀
    exact hclose rf wf
  obtain ⟨_, ⟨⟩, hfd₀, rfl⟩ := h₀
  rw [dropFile_addFile_addFile]
  have hsaved₀ : ∀ o', some o = some o' → o' fd₀ = none := by
    rintro _ ⟨⟩
    exact hfd₀
  refine .act ⟨addFile_pos, _, rfl⟩ ?_
  rintro (_ | fd₁) _ h₁
  · -- there is one descriptor, but not two
    obtain rfl := h₁
    refine clearFd_ok rfl hfd₀ hsaved₀ ?_
    have := hclose rf wf
    rwa [addFile_comm] at this
  obtain ⟨_, ⟨⟩, hfd₁, rfl⟩ := h₁
  have hne : fd₁ ≠ fd₀ := by
    rintro rfl
    simp at hfd₁
  rw [update_of_ne hne] at hfd₁
  change (if copied then _ else _ : Prog Page Unit).Ok rights (((idle (some o) (some o)).addFile wf).dropFile wf |>.setTable _) _
  rw [dropFile_addFile]
  split
  · refine leave_ok (r := some _) ?_
    rintro ⟨⟩
  -- the address is bad
  rw [update_comm hne.symm]
  refine clearFd_ok rfl ((update_of_ne hne.symm ..).trans hfd₀) hsaved₀ ?_
  refine clearFd_ok rfl hfd₁ ?_ ?_
  · rintro _ ⟨⟩
    exact hfd₁
  · exact hclose rf wf

/-- **`sys_open`** has a descriptor, or has given the file back. -/
theorem sysOpen_ok (o : Table) (found device readable writable : Bool) :
    (sysOpen found device readable writable : Prog Page Unit).Ok rights (idle (some o) (some o)) fun _ => Settled := by
  unfold sysOpen
  split
  · refine .act trivial ?_
    rintro (_ | f) _ h₀
    · obtain rfl := h₀
      exact leave_ok fun _ => rfl
    obtain ⟨-, rfl⟩ := h₀
    refine .act ⟨addFile_pos, o, rfl⟩ ?_
    rintro (_ | fd) _ h₁
    · obtain rfl := h₁
      refine .seq (fileclose_ok addFile_pos rfl) fun _ => ?_
      rw [release_alloc rfl]
      exact leave_ok fun _ => rfl
    obtain ⟨_, ⟨⟩, hfd, rfl⟩ := h₁
    refine .act (update_self ..) ?_
    rintro _ _ rfl
    change (perform (.leave false) : Prog Page Unit).Ok rights ((((idle (some o) (some o)).alloc f).release f).setTable _) _
    rw [release_alloc rfl]
    refine leave_ok (r := some _) ?_
    rintro ⟨⟩
  · exact leave_ok fun _ => rfl

theorem sysClose_ok (o : Table) (fd : Fd) : (sysClose fd : Prog Page Unit).Ok rights (idle (some o) none)
      fun _ u => u = idle (some (update o fd none)) none := by
  refine .act ⟨⟨o, rfl⟩, fun _ => rfl, rfl, rfl⟩ ?_
  rintro e _ ⟨_, ⟨⟩, rfl⟩
  exact closeTip_ok rfl

theorem idle_settled (o r : Option Table) : (idle o r : View Page).Settled :=
  ⟨fun _ => rfl, fun _ => rfl, rfl, rfl⟩

theorem sysDup_ok (o : Table) (fd : Fd) : (sysDup fd : Prog Page Unit).Ok rights (idle (some o) none) fun _ => Settled := by
  refine .act ⟨⟨o, rfl⟩, fun _ => rfl⟩ ?_
  rintro (_ | fd') _ h
  · obtain rfl := h
    exact .ret (idle_settled ..)
  · obtain ⟨_, ⟨⟩, rfl⟩ := h
    exact .ret (idle_settled (some _) none)

theorem sysAccess_ok (o : Table) (fd : Fd) (n : ℕ) : (sysAccess fd n : Prog Page Unit).Ok rights (idle (some o) none) fun _ => Settled := by
  induction n with
  | zero => exact .ret (idle_settled ..)
  | succ n ih =>
    refine .act trivial ?_
    rintro _ _ rfl
    exact ih

theorem fork_ok (o : Table) (np : Pid) (copied : Bool) : (fork np copied : Prog Page Unit).Ok rights (idle (some o) none) fun _ => Settled := by
  refine .act ⟨⟨o, rfl⟩, rfl, rfl⟩ ?_
  rintro (_ | _) _ rfl
  · exact .ret (idle_settled ..)
  change (if copied then _ else _ : Prog Page Unit).Ok rights _ _
  split
  · -- the slots of the child that are still to be filled are free
    refine Ok.bind (Q := fun _ u => ∃ c, u = (idle (some o) none).setChild (some (np, c))) ?_ ?_
    · refine (Ok.forM (I := fun l u => l.Nodup ∧ ∃ c, (∀ fd ∈ l, c fd = none) ∧
        u = (idle (some o) none).setChild (some (np, c))) ?_ ?_).mono fun _ u hu => ?_
      · rintro fd l _ ⟨hnd, c, hc, rfl⟩
        refine .perform ⟨⟨o, c, rfl, rfl, hc fd List.mem_cons_self⟩, fun _ => rfl, rfl⟩ ?_
        rintro _ _ ⟨_, _, ⟨⟩, ⟨⟩, rfl⟩
        refine ⟨hnd.of_cons, _, fun fd' hfd' => ?_, rfl⟩
        have hne : fd' ≠ fd := by
          rintro rfl
          exact (List.nodup_cons.mp hnd).1 hfd'
        rw [update_of_ne hne]
        exact hc fd' (List.mem_cons_of_mem _ hfd')
      · exact ⟨List.nodup_finRange _, bare, fun _ _ => rfl, rfl⟩
      · obtain ⟨-, c, -, rfl⟩ := hu
        exact ⟨c, rfl⟩
    · rintro _ _ ⟨c, rfl⟩
      refine .perform ⟨⟨o, rfl⟩, ⟨c, rfl⟩, rfl⟩ ?_
      rintro _ _ rfl
      exact idle_settled (some o) none
  · refine .perform ⟨⟨o, rfl⟩, rfl, rfl⟩ ?_
    rintro _ _ rfl
    exact idle_settled (some o) none

/-- **`exit`** has closed everything when the process ends. -/
theorem exit_ok (o : Table) : (exit : Prog Page Unit).Ok rights (idle (some o) none) fun _ => Settled := by
  -- the slots that are not left to close are free
  refine (Ok.forM (I := fun l u => ∃ o', (∀ fd, fd ∉ l → o' fd = none) ∧ u = (idle (some o') none : View Page)) ?_ ?_).bind fun _ u hu => ?_
  · rintro fd l _ ⟨o', ho', rfl⟩
    refine (sysClose_ok o' fd).mono ?_
    rintro _ _ rfl
    refine ⟨_, fun fd' hfd' => ?_, rfl⟩
    by_cases hne : fd' = fd
    · rw [hne, update_self]
    · rw [update_of_ne hne]
      refine ho' fd' fun hmem => ?_
      rcases List.mem_cons.mp hmem with h | h
      · exact hne h
      · exact hfd' h
  · exact ⟨o, fun fd hfd => absurd (List.mem_finRange fd) hfd, rfl⟩
  · obtain ⟨o', ho', rfl⟩ := hu
    obtain rfl : o' = bare := funext fun fd => ho' fd List.not_mem_nil
    refine .perform ⟨rfl, fun _ => rfl, rfl⟩ ?_
    rintro _ _ rfl
    exact idle_settled none none

theorem call_ok (c : Call Page) (o : Table) : c.prog.Ok rights (idle (some o) (if c.opens then some o else none)) fun _ => Settled := by
  cases c with
  | «open» found device readable writable => exact sysOpen_ok o found device readable writable
  | pipe page copied => exact sysPipe_ok o page copied
  | dup fd => exact sysDup_ok o fd
  | close fd =>
    refine (sysClose_ok o fd).mono ?_
    rintro _ _ rfl
    exact idle_settled _ none
  | access fd times => exact sysAccess_ok o fd times
  | fork np copied => exact fork_ok o np copied
  | exec => exact idle_settled (some o) none
  | exit => exact exit_ok o

end Prog

end Xv6.Descriptors
