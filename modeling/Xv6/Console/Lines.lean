import Xv6.Lib.Circular
import Xv6.Lib.Run
import Xv6.Param
import Mathlib.Data.List.Count

/-!
# The line discipline of the console

`consoleintr` and `consoleread` of `kernel/console.c`, with any number of processes that read. The turns of the loop of
`consoleread` may be interleaved with everything else. The log records what was taken out of the
buffer, and by whom: a byte that was delivered, or a `^D`. What the reads of a process return is its
share of the log. An editor of lines without a buffer says what should have come in.
-/

namespace Xv6.Console

open Function Lib

open List (append_assoc append_nil length_append length_singleton map_nil)

def INPUT_BUF : ℕ := 128

instance : NeZero INPUT_BUF := ⟨by decide⟩

/-- `cons`. The indices are of type `uint`. -/
structure Cons where
  buf : Fin INPUT_BUF → UInt8
  r : ℕ
  w : ℕ
  e : ℕ

def Cons.last (s : Cons) : ℕ := (s.e + UINT - 1) % UINT

def killLoop : ℕ → Cons → Cons
  | 0, s => s
  | fuel + 1, s =>
    if s.e ≠ s.w ∧ s.buf (Fin.ofNat INPUT_BUF s.last) ≠ 10 then killLoop fuel { s with e := s.last } else s

def consoleintr (c : UInt8) (s : Cons) : Cons :=
  if c = 16 then s -- `C('P')`
  else if c = 21 then killLoop INPUT_BUF s -- `C('U')`
  else if c = 8 ∨ c = 127 then if s.e ≠ s.w then { s with e := s.last } else s
  else if c ≠ 0 ∧ (s.e + UINT - s.r) % UINT < INPUT_BUF then
    let c := if c = 13 then 10 else c
    let s := { s with buf := update s.buf (Fin.ofNat INPUT_BUF s.e) c, e := (s.e + 1) % UINT }
    if c = 10 ∨ c = 4 ∨ s.e = (s.r + INPUT_BUF) % UINT then { s with w := s.e } else s
  else s

/-! ### The editor -/

structure Editor where
  lines : List (List UInt8)
  line : List UInt8

def Editor.committed (d : Editor) : List UInt8 := d.lines.flatten

/-- **The reference line editor**, when so many of the committed bytes were not taken yet. -/
def Editor.edit (unread : ℕ) (c : UInt8) (d : Editor) : Editor :=
  if c = 16 ∨ c = 0 then d
  else if c = 21 then { d with line := [] }
  else if c = 8 ∨ c = 127 then { d with line := d.line.dropLast }
  else if unread + d.line.length < INPUT_BUF then
    let c := if c = 13 then 10 else c
    if c = 10 ∨ c = 4 ∨ unread + d.line.length + 1 = INPUT_BUF then ⟨d.lines ++ [d.line ++ [c]], []⟩ else { d with line := d.line ++ [c] }
  else d

/-! ### The machine -/

/-- A process in `consoleread`, with the bytes that it has got. -/
structure Reader where
  target : ℕ
  got : List UInt8

/-- The console, the processes in `consoleread`, and what is not in the source: the editor, what
was taken out of the buffer, and what reads have returned. -/
structure Sys (ι : Type) where
  cons : Cons
  editor : Editor
  reader : ι → Option Reader
  log : List (ι × Option UInt8)
  done : List (ι × List UInt8)

variable {ι : Type} [DecidableEq ι]

/-- The part of a list that is about process `i`. -/
def share {α : Type} (i : ι) (l : List (ι × α)) : List α := (l.filter fun x => x.1 = i).map Prod.snd

/-- What process `i` has got of the bytes it reads at present. -/
def Sys.got (s : Sys ι) (i : ι) : List UInt8 := (s.reader i).elim [] Reader.got

/-- A read returns. -/
def Sys.finish (s : Sys ι) (i : ι) (got : List UInt8) : Sys ι :=
  { s with reader := update s.reader i none, done := s.done ++ [(i, got)] }

/-- A turn of the loop of `consoleread`, unless there is nothing to read. -/
def turn (i : ι) (s : Sys ι) : Option (Sys ι) :=
  (s.reader i).bind fun rd =>
    let n := rd.target - rd.got.length
    if s.cons.r = s.cons.w then none
    else
      let c := s.cons.buf (Fin.ofNat INPUT_BUF s.cons.r)
      let cons := { s.cons with r := (s.cons.r + 1) % UINT }
      if c = 4 then -- `C('D')`
        if n < rd.target then
          some ({ s with cons := { cons with r := (cons.r + UINT - 1) % UINT } }.finish i rd.got)
        else some ({ s with cons, log := s.log ++ [(i, none)] }.finish i rd.got)
      else
        let s := { s with cons, log := s.log ++ [(i, some c)] }
        if c = 10 ∨ n = 1 then some (s.finish i (rd.got ++ [c]))
        else some { s with reader := update s.reader i (some { rd with got := rd.got ++ [c] }) }

/-- What can happen: a character comes in, a process begins to read or goes on. -/
inductive Event (ι : Type)
  | intr (c : UInt8)
  | read (i : ι) (n : ℕ)
  | turn (i : ι)

def step (s : Sys ι) : Event ι → Option (Sys ι)
  | .intr c => some { s with cons := consoleintr c s.cons, editor := s.editor.edit (s.editor.committed.length - s.log.length) c }
  | .read i n => if 0 < n ∧ (s.reader i).isNone then some { s with reader := update s.reader i (some ⟨n, []⟩) } else none
  | .turn i => turn i s

def start (ι : Type) (buf : Fin INPUT_BUF → UInt8) : Sys ι := ⟨⟨buf, 0, 0, 0⟩, ⟨[], []⟩, fun _ => none, [], []⟩

/-- What a byte of a line is in the log. -/
def item (c : UInt8) : Option UInt8 := if c = 4 then none else some c

/-- What a read has taken: the bytes it returns, or a `^D` if there are none. -/
def items (got : List UInt8) : List (Option UInt8) := if got = [] then [none] else got.map some

/-! ### The invariant -/

structure Holds (s : Cons) (d : Editor) (taken : ℕ) : Prop where
  ring : Circular INPUT_BUF UINT s.buf s.r s.e (d.committed ++ d.line) taken
  write : s.w = d.committed.length % UINT
  le : taken ≤ d.committed.length
  plain : 10 ∉ d.line

/-- What a process has got is a part of a line. -/
structure Reading (rd : Reader) : Prop where
  lt : rd.got.length < rd.target
  eof : 4 ∉ rd.got
  plain : 10 ∉ rd.got

structure Inv (s : Sys ι) : Prop where
  holds : Holds s.cons s.editor s.log.length
  log : s.log.map Prod.snd = (s.editor.committed.take s.log.length).map item
  reading : ∀ i rd, s.reader i = some rd → Reading rd
  done : ∀ x ∈ s.done, 4 ∉ x.2 ∧ 10 ∉ x.2.dropLast
  shares : ∀ i, share i s.log = (share i s.done).flatMap items ++ (s.got i).map some

variable {s s' : Sys ι} {k : Cons} {d : Editor} {taken : ℕ} {c : UInt8} {i : ι}

namespace Holds

section

variable (h : Holds k d taken)

include h

theorem room : d.committed.length + d.line.length ≤ taken + INPUT_BUF := by
  rw [← length_append]
  exact h.ring.fits

theorem edge_iff : k.e = k.w ↔ d.line = [] := by
  have hroom := h.room
  have hle := h.le
  have hU : INPUT_BUF < UINT := by decide
  have hlen : (d.committed ++ d.line).length = d.committed.length + d.line.length := length_append
  rw [h.ring.write, h.write, hlen, eq_comm, Circular.mod_eq_iff (by omega) (by omega), ← List.length_eq_zero_iff]
  omega

theorem empty_iff : k.r = k.w ↔ taken = d.committed.length := by
  have hroom := h.room
  have hU : INPUT_BUF < UINT := by decide
  rw [h.ring.read, h.write]
  exact Circular.mod_eq_iff h.le (by omega)

theorem back {l : List UInt8} {x : UInt8} (hl : d.line = l ++ [x]) :
    k.buf (Fin.ofNat INPUT_BUF k.last) = x ∧ Holds { k with e := k.last } { d with line := l } taken := by
  have hring := h.ring
  have hle := h.le
  have hitems : d.committed ++ d.line = d.committed ++ l ++ [x] := by rw [hl, append_assoc]
  rw [hitems] at hring
  have hlen : (d.committed ++ l ++ [x]).length = (d.committed ++ l).length + 1 := length_append
  have hlen' : (d.committed ++ l).length = d.committed.length + l.length := length_append
  have hlast : k.last = (d.committed ++ l).length % UINT := by
    have hU : UINT = 2 ^ 32 := rfl
    rw [Cons.last, hring.write, hlen, hU]
    omega
  refine ⟨?_, ⟨hring.read, hlast, ?_, ?_, fun i hi hti => ?_⟩, h.write, hle, fun hmem => h.plain ?_⟩
  · rw [hlast, Circular.ofNat_mod (by decide), hring.cell (d.committed ++ l).length (by omega) (by omega), List.getElem_concat_length rfl]
  · dsimp only
    change taken ≤ (d.committed ++ l).length
    omega
  · change (d.committed ++ l).length ≤ _
    have := hring.fits
    omega
  · change i < (d.committed ++ l).length at hi
    change _ = (d.committed ++ l)[i]
    rw [hring.cell i (by omega) hti, List.getElem_append_left hi]
  · rw [hl]
    exact List.mem_append_left _ hmem

end

section

variable (h : Holds k d taken)

include h

theorem kill {fuel : ℕ} (hfuel : d.line.length ≤ fuel) : Holds (killLoop fuel k) { d with line := [] } taken := by
  induction fuel generalizing k d with
  | zero =>
    obtain ⟨lines, line⟩ := d
    obtain rfl : line = [] := List.length_eq_zero_iff.mp (Nat.le_zero.mp hfuel)
    exact h
  | succ fuel ih =>
    rw [killLoop]
    rcases List.eq_nil_or_concat' d.line with hnil | ⟨l, x, hl⟩
    · rw [if_neg fun hne => hne.1 (h.edge_iff.mpr hnil), ← hnil]
      exact h
    obtain ⟨hx, hback⟩ := h.back hl
    have hmem : x ∈ d.line := by
      rw [hl]
      simp
    have hne : k.e ≠ k.w := fun he => by
      rw [h.edge_iff.mp he] at hmem
      cases hmem
    rw [hl, length_append, length_singleton] at hfuel
    have hkill := @ih { k with e := k.last } { d with line := l } hback (by dsimp only; omega)
    rw [if_pos ⟨hne, fun h10 => h.plain (h10 ▸ hx ▸ hmem)⟩]
    exact hkill

theorem store (hroom : d.committed.length - taken + d.line.length < INPUT_BUF) (x : UInt8) :
    Circular INPUT_BUF UINT (update k.buf (Fin.ofNat INPUT_BUF k.e) x) k.r ((k.e + 1) % UINT) (d.committed ++ (d.line ++ [x])) taken := by
  have hle := h.le
  rw [← append_assoc]
  refine h.ring.put (by decide) ?_ x
  rw [length_append]
  omega

theorem intr (c : UInt8) : Holds (consoleintr c k) (d.edit (d.committed.length - taken) c) taken := by
  have hle := h.le
  have hroom := h.room
  rw [consoleintr, Editor.edit]
  by_cases hp : c = 16
  · rw [if_pos hp, if_pos (.inl hp)]
    exact h
  by_cases hz : c = 0
  · rw [hz, if_neg (by decide), if_neg (by decide), if_neg (by decide), if_neg (by simp), if_pos (.inr rfl)]
    exact h
  rw [if_neg hp, if_neg (not_or.mpr ⟨hp, hz⟩)]
  by_cases hu : c = 21
  · rw [if_pos hu, if_pos hu]
    exact h.kill (by omega)
  rw [if_neg hu, if_neg hu]
  by_cases hb : c = 8 ∨ c = 127
  · rw [if_pos hb, if_pos hb]
    rcases List.eq_nil_or_concat' d.line with hnil | ⟨l, x, hl⟩
    · rw [if_neg fun hne => hne (h.edge_iff.mpr hnil), hnil, List.dropLast_nil, ← hnil]
      exact h
    · rw [if_pos fun he => ?_, hl, List.dropLast_concat]
      · exact (h.back hl).2
      · rw [h.edge_iff.mp he] at hl
        exact absurd hl (by simp)
  rw [if_neg hb, if_neg hb]
  have hcount : (k.e + UINT - k.r) % UINT = d.committed.length - taken + d.line.length := by
    rw [h.ring.count (by decide), length_append]
    omega
  rw [hcount]
  by_cases hlt : d.committed.length - taken + d.line.length < INPUT_BUF
  · rw [if_pos ⟨hz, hlt⟩, if_pos hlt]
    dsimp only
    generalize (if c = 13 then (10 : UInt8) else c) = x
    have hring := h.store hlt x
    have hfull : (k.e + 1) % UINT = (k.r + INPUT_BUF) % UINT ↔ d.committed.length - taken + d.line.length + 1 = INPUT_BUF := by
      rw [hring.full_iff (by decide), length_append, length_append, length_singleton]
      omega
    by_cases hcommit : x = 10 ∨ x = 4 ∨ d.committed.length - taken + d.line.length + 1 = INPUT_BUF
    · have hcommitted : (⟨d.lines ++ [d.line ++ [x]], []⟩ : Editor).committed = d.committed ++ (d.line ++ [x]) := by
        rw [Editor.committed, List.flatten_append, List.flatten_singleton]
        rfl
      rw [if_pos (by rwa [hfull]), if_pos hcommit]
      refine ⟨?_, ?_, ?_, by simp⟩
      · rw [hcommitted, append_nil]
        exact hring
      · rw [hcommitted]
        exact hring.write
      · rw [hcommitted, length_append]
        omega
    · rw [if_neg (by rwa [hfull]), if_neg hcommit]
      refine ⟨hring, h.write, hle, fun hmem => ?_⟩
      rcases List.mem_append.mp hmem with hmem | hmem
      · exact h.plain hmem
      · exact hcommit (.inl (List.mem_singleton.mp hmem).symm)
  · rw [if_neg fun hh => hlt hh.2, if_neg hlt]
    exact h

theorem take (hne : k.r ≠ k.w) : ∃ hlt : taken < d.committed.length, k.buf (Fin.ofNat INPUT_BUF k.r) = d.committed[taken] ∧
    Holds { k with r := (k.r + 1) % UINT } d (taken + 1) := by
  have hle := h.le
  have hlt : taken < d.committed.length := Nat.lt_of_le_of_ne hle fun heq => hne (h.empty_iff.mpr heq)
  obtain ⟨_, hbyte, hring⟩ := h.ring.take (by decide) (by rw [length_append]; omega)
  refine ⟨hlt, ?_, hring, h.write, hlt, h.plain⟩
  rw [hbyte, List.getElem_append_left hlt]

end

end Holds

/-! ### Every run -/

theorem Editor.committed_edit (unread : ℕ) (c : UInt8) (d : Editor) : d.committed <+: (d.edit unread c).committed := by
  rw [Editor.edit]
  dsimp only
  split_ifs
  all_goals first
    | exact List.prefix_rfl
    | rw [Editor.committed, Editor.committed, List.flatten_append]
      exact List.prefix_append ..

theorem items_ne {got : List UInt8} (h : got ≠ []) : items got = got.map some := if_neg h

namespace Inv

omit [DecidableEq ι] in
theorem start_holds (buf : Fin INPUT_BUF → UInt8) :
    Holds (start ι buf).cons (start ι buf).editor (start ι buf).log.length :=
  ⟨Circular.nil, rfl, le_rfl, by simp [Console.start]⟩

theorem start (buf : Fin INPUT_BUF → UInt8) : Inv (start ι buf) :=
  ⟨start_holds buf, rfl, fun _ _ h => absurd h (by simp [Console.start]), by simp [Console.start],
    fun _ => rfl⟩

theorem reading_update (h : Inv s) {rd : Option Reader} (hrd : ∀ r, rd = some r → Reading r) :
    ∀ j r, update s.reader i rd j = some r → Reading r := by
  intro j r hj
  by_cases heq : j = i
  · rw [heq, update_self] at hj
    exact hrd r hj
  · rw [update_of_ne heq] at hj
    exact h.reading j r hj

/-- **The shares after a turn** of process `i`, which had got the bytes of `rd`: what it takes out
of the buffer is what its reads have returned more, or what it has got more. -/
theorem shares_turn (h : Inv s) {rd : Reader} (hrd : s.reader i = some rd)
    (taken : List (Option UInt8)) (back : List (List UInt8)) (now : Option Reader)
    (hi : rd.got.map some ++ taken = back.flatMap items ++ (now.elim [] Reader.got).map some) (j : ι) :
    share j (s.log ++ taken.map (i, ·)) =
      (share j (s.done ++ back.map (i, ·))).flatMap items ++
        ((update s.reader i now j).elim [] Reader.got).map some := by
  have happ : ∀ {α : Type} (l : List (ι × α)) (m : List α), share j (l ++ m.map (i, ·)) =
      share j l ++ if i = j then m else [] := by
    intro α l m
    by_cases hij : i = j <;> simp [share, hij, List.filter_map, Function.comp_def]
  rw [happ, happ, h.shares j]
  by_cases hij : i = j
  · subst hij
    rw [if_pos rfl, if_pos rfl, update_self, List.flatMap_append, append_assoc,
      append_assoc, ← hi, Sys.got, hrd]
    rfl
  · rw [if_neg hij, if_neg hij, update_of_ne (Ne.symm hij), append_nil, append_nil]
    rfl

theorem turn (h : Inv s) (hrun : turn i s = some s') : Inv s' := by
  obtain ⟨rd, hrd, hrun⟩ := Option.bind_eq_some_iff.mp hrun
  obtain ⟨hgot, heof, hplain⟩ := h.reading i rd hrd
  have hquit := @reading_update _ _ _ i h none (by simp)
  dsimp only at hrun
  by_cases hne : s.cons.r = s.cons.w
  · rw [if_pos hne] at hrun
    cases hrun
  obtain ⟨hlt, hbyte, htaken⟩ := h.holds.take hne
  rw [if_neg hne, hbyte] at hrun
  generalize hc : s.editor.committed[s.log.length] = c at hrun
  have hlog : (s.log ++ [(i, item c)]).map Prod.snd =
      (s.editor.committed.take (s.log ++ [(i, item c)]).length).map item := by
    rw [length_append, length_singleton, List.take_add_one, List.getElem?_eq_getElem hlt,
      hc, Option.toList_some, List.map_append, List.map_append, ← h.log]
    rfl
  have hholds : Holds { s.cons with r := (s.cons.r + 1) % UINT } s.editor
      (s.log ++ [(i, item c)]).length := by
    rw [length_append]
    exact htaken
  by_cases h4 : c = 4
  · rw [if_pos h4] at hrun
    rw [show item c = none from if_pos h4] at hlog hholds
    by_cases hn : rd.target - rd.got.length < rd.target
    · -- the end of file is put back
      have hback : ((s.cons.r + 1) % UINT + UINT - 1) % UINT = s.cons.r := by
        have hU : UINT = 2 ^ 32 := rfl
        have hr := h.holds.ring.read
        rw [hU] at hr ⊢
        omega
      have hne' : rd.got ≠ [] := by
        rw [← List.length_pos_iff]
        omega
      rw [if_pos hn, hback] at hrun
      obtain rfl := Option.some.inj hrun
      refine ⟨h.holds, h.log, hquit, List.forall_mem_append.mpr ⟨h.done, ?_⟩, fun j => ?_⟩
      · simpa using ⟨heof, fun hm => hplain (List.dropLast_subset _ hm)⟩
      · have := h.shares_turn hrd [] [rd.got] none (by simp [items_ne hne']) j
        rwa [map_nil, append_nil] at this
    · rw [if_neg hn] at hrun
      obtain rfl := Option.some.inj hrun
      have hnil : rd.got = [] := by
        rw [← List.length_eq_zero_iff]
        omega
      refine ⟨hholds, hlog, hquit, List.forall_mem_append.mpr ⟨h.done, by simp [hnil]⟩, fun j => ?_⟩
      exact h.shares_turn hrd [none] [rd.got] none (by simp [hnil, items]) j
  · rw [if_neg h4] at hrun
    rw [show item c = some c from if_neg h4] at hlog hholds
    by_cases hend : c = 10 ∨ rd.target - rd.got.length = 1
    · rw [if_pos hend] at hrun
      obtain rfl := Option.some.inj hrun
      refine ⟨hholds, hlog, hquit, List.forall_mem_append.mpr ⟨h.done, ?_⟩, fun j => ?_⟩
      · simp only [List.mem_singleton, forall_eq, List.dropLast_concat, List.mem_append, not_or]
        exact ⟨⟨heof, fun he => h4 he.symm⟩, hplain⟩
      · exact h.shares_turn hrd [some c] [rd.got ++ [c]] none (by simp [items]) j
    rw [if_neg hend] at hrun
    rw [not_or] at hend
    obtain rfl := Option.some.inj hrun
    refine ⟨hholds, hlog, h.reading_update fun r hr => ?_, h.done, fun j => ?_⟩
    · obtain rfl := Option.some.inj hr
      refine ⟨?_, by simpa using ⟨heof, fun he => h4 he.symm⟩,
        by simpa using ⟨hplain, fun he => hend.1 he.symm⟩⟩
      change (rd.got ++ [c]).length < rd.target
      rw [length_append, length_singleton]
      omega
    · have := h.shares_turn hrd [some c] [] (some { rd with got := rd.got ++ [c] })
        (by simp) j
      rwa [map_nil, append_nil] at this

theorem step {ev : Event ι} (h : Inv s) (hrun : step s ev = some s') : Inv s' := by
  cases ev with
  | intr c =>
    obtain rfl := Option.some.inj hrun
    refine { h with holds := h.holds.intr c, log := ?_ }
    obtain ⟨more, hmore⟩ :=
      Editor.committed_edit (s.editor.committed.length - s.log.length) c s.editor
    dsimp only
    rw [← hmore, List.take_append_of_le_length h.holds.le]
    exact h.log
  | read i n =>
    rw [Console.step] at hrun
    split_ifs at hrun with hn
    obtain rfl := Option.some.inj hrun
    refine { h with reading := h.reading_update fun r hr => ?_, shares := fun j => ?_ }
    · obtain rfl := Option.some.inj hr
      exact ⟨hn.1, by simp, by simp⟩
    rw [h.shares j, Sys.got, Sys.got]
    dsimp only
    by_cases hj : j = i
    · rw [hj, update_self, Option.isNone_iff_eq_none.mp hn.2]
      rfl
    · rw [update_of_ne hj]
  | turn i => exact h.turn hrun

end Inv

end Xv6.Console
