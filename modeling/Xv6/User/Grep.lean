import Xv6.User.Match

/-!
# The lines that `grep` prints

`grep` reads its input piece by piece into a buffer of 1024 bytes, prints those complete lines in it that match, and
moves what is left of the last line to the front. But the buffer has to hold a line: if there are 1023 bytes in it and
no end of a line, the next `read` is for no bytes at all, and `grep` takes this for the end of its input. The buffer is
given by its bytes from `p` to `buf + m`.
-/

namespace Xv6.User

open List (append_assoc append_nil cons_append length_append length_cons mem_cons mem_cons_self)

def BUFSIZE : ℕ := 1024

def newline : UInt8 := 10

/-- `strchr`, in a string of these bytes and a NUL. -/
def strchr (c : UInt8) : List UInt8 → Option ℕ
  | [] => none
  | x :: s => if x = 0 then none else if x = c then some 0 else (strchr c s).map (· + 1)

/-- The inner loop of `grep`, over the lines that are in the buffer: what is left there, and what has been written. The string that is
matched ends at a NUL stored at the end of the line. -/
def lineLoop (pattern : List UInt8) : ℕ → List UInt8 → List (List UInt8) → List UInt8 × List (List UInt8)
  | 0, s, out => (s, out)
  | fuel + 1, s, out =>
    match strchr newline s with
    | none => (s, out)
    | some q =>
      lineLoop pattern fuel (s.drop (q + 1)) (if matchText pattern (s.take q) then out ++ [s.take q ++ [newline]] else out)

/-- The outer loop of `grep`, with the part of a line that is in the buffer: what has been written, and what has not been read. The `k`-th
`read` delivers `picks k + 1` bytes, if so many were asked for and are there. -/
def grepLoop (pattern : List UInt8) (picks : ℕ → ℕ) : ℕ → ℕ → List UInt8 → List UInt8 → List (List UInt8) → List (List UInt8) × List UInt8
  | 0, _, inp, _, out => (out, inp)
  | fuel + 1, k, inp, part, out =>
    let n := min (min (picks k + 1) (BUFSIZE - part.length - 1)) inp.length
    if n = 0 then (out, inp)
    else
      let r := lineLoop pattern BUFSIZE (part ++ inp.take n) out
      grepLoop pattern picks fuel (k + 1) (inp.drop n) r.1 r.2

/-- **`grep`.** Every round reads something. -/
def grep (pattern : List UInt8) (picks : ℕ → ℕ) (inp : List UInt8) : List (List UInt8) × List UInt8 :=
  grepLoop pattern picks (inp.length + 1) 0 inp [] []

/-! ### The lines -/

def textOf (ls : List (List UInt8)) : List UInt8 := ls.flatMap fun l => l ++ [newline]

def selected (pattern : List UInt8) (ls : List (List UInt8)) : List (List UInt8) :=
  (ls.filter fun l => matchText pattern l).map fun l => l ++ [newline]

def Plain (l : List UInt8) : Prop := newline ∉ l ∧ 0 ∉ l

variable {k fuel : ℕ} {l rest part inp pattern : List UInt8} {ls out : List (List UInt8)} {picks : ℕ → ℕ}

theorem textOf_cons : textOf (l :: ls) = l ++ newline :: textOf ls := by
  rw [textOf, textOf, List.flatMap_cons, append_assoc, List.singleton_append]

theorem textOf_append (ls ls' : List (List UInt8)) : textOf (ls ++ ls') = textOf ls ++ textOf ls' := List.flatMap_append ..

theorem selected_append (ls ls' : List (List UInt8)) : selected pattern (ls ++ ls') = selected pattern ls ++ selected pattern ls' := by
  rw [selected, List.filter_append, List.map_append]
  rfl

theorem length_lt_of_mem (hl : l ∈ ls) : l.length + 1 ≤ (textOf ls).length := by
  obtain ⟨before, after, rfl⟩ := List.append_of_mem hl
  rw [textOf_append, textOf_cons, length_append, length_append, length_cons]
  omega

theorem length_part (hshort : ∀ l ∈ ls, l.length + 1 < BUFSIZE) (htext : part ++ inp = textOf ls) (hnl : newline ∉ part)
    (hinp : inp ≠ []) : part.length + 1 < BUFSIZE := by
  cases ls with
  | nil => exact absurd (List.append_eq_nil_iff.mp htext).2 hinp
  | cons l ls =>
    have hl := hshort l mem_cons_self
    rw [textOf_cons] at htext
    rcases List.append_eq_append_iff.mp htext with ⟨e, he, -⟩ | ⟨e, he, hr⟩
    · rw [he, length_append] at hl
      omega
    cases e with
    | nil =>
      rw [he, append_nil]
      exact hl
    | cons x e =>
      rw [cons_append, List.cons.injEq] at hr
      refine absurd ?_ hnl
      rw [he, hr.1]
      simp

theorem length_le_textOf (ls : List (List UInt8)) : ls.length ≤ (textOf ls).length := by
  induction ls with
  | nil => exact le_rfl
  | cons l ls ih =>
    rw [textOf_cons, length_append, length_cons, length_cons]
    omega

/-- **A part of the text has some complete lines, and the beginning of the next.** -/
theorem lines_of_append {d r : List UInt8} (h : d ++ r = textOf ls) (hls : ∀ l ∈ ls, Plain l) :
    ∃ ls₁ ls₂ rest, ls = ls₁ ++ ls₂ ∧ d = textOf ls₁ ++ rest ∧ newline ∉ rest ∧ rest ++ r = textOf ls₂ := by
  induction ls generalizing d with
  | nil =>
    obtain ⟨rfl, rfl⟩ := List.append_eq_nil_iff.mp h
    exact ⟨[], [], [], rfl, rfl, by simp, rfl⟩
  | cons l ls ih =>
    have hfirst : ∀ {e}, l = d ++ e → ∃ ls₁ ls₂ rest, l :: ls = ls₁ ++ ls₂ ∧ d = textOf ls₁ ++ rest ∧ newline ∉ rest ∧ rest ++ r = textOf ls₂ := by
      intro e he
      refine ⟨[], l :: ls, d, rfl, rfl, fun hd => (hls l mem_cons_self).1 ?_, h⟩
      rw [he]
      exact List.mem_append_left _ hd
    have h' := h
    rw [textOf_cons] at h'
    rcases List.append_eq_append_iff.mp h' with ⟨e, he, -⟩ | ⟨e, he, hr⟩
    · exact hfirst he
    cases e with
    | nil =>
      rw [append_nil] at he
      exact @hfirst [] (by rw [he, append_nil])
    | cons x e =>
      rw [cons_append, List.cons.injEq] at hr
      obtain ⟨rfl, hr⟩ := hr
      obtain ⟨ls₁, ls₂, rest, rfl, rfl, hrest, htext⟩ := ih hr.symm fun l hl => hls l (List.mem_cons_of_mem _ hl)
      refine ⟨l :: ls₁, ls₂, rest, rfl, ?_, hrest, htext⟩
      rw [he, textOf_cons, append_assoc, cons_append]

/-! ### The lines in the buffer -/

theorem strchr_some (hl : Plain l) : strchr newline (l ++ newline :: rest) = some l.length := by
  induction l with
  | nil => rfl
  | cons x l ih =>
    obtain ⟨hnl, h0⟩ := hl
    rw [mem_cons, not_or] at hnl h0
    rw [cons_append, strchr, if_neg (Ne.symm h0.1), if_neg (Ne.symm hnl.1), ih ⟨hnl.2, h0.2⟩]
    rfl

theorem strchr_none (h : newline ∉ l) : strchr newline l = none := by
  induction l with
  | nil => rfl
  | cons x l ih =>
    rw [mem_cons, not_or] at h
    rw [strchr, if_neg (Ne.symm h.1), ih h.2]
    exact ite_self _

/-- **The inner loop** writes the complete lines that match, and comes to the rest. -/
theorem lineLoop_spec (hls : ∀ l ∈ ls, Plain l) (hrest : newline ∉ rest) (hfuel : ls.length ≤ fuel) :
    lineLoop pattern fuel (textOf ls ++ rest) out = (rest, out ++ selected pattern ls) := by
  induction ls generalizing out fuel with
  | nil =>
    rw [show selected pattern [] = [] from rfl, append_nil, show textOf [] ++ rest = rest from rfl]
    cases fuel with
    | zero => rfl
    | succ fuel => rw [lineLoop, strchr_none hrest]
  | cons l ls ih =>
    rw [length_cons] at hfuel
    obtain ⟨fuel, rfl⟩ : ∃ f, fuel = f + 1 := ⟨fuel - 1, by omega⟩
    have hsel : selected pattern (l :: ls) = selected pattern [l] ++ selected pattern ls := selected_append [l] ls
    rw [textOf_cons, append_assoc, cons_append, lineLoop, strchr_some (hls l mem_cons_self)]
    dsimp only
    rw [List.take_left, List.drop_length_add_append, List.drop_one, List.tail_cons,
      ih (fun l hl => hls l (List.mem_cons_of_mem _ hl)) (by omega), hsel, ← append_assoc]
    by_cases hmatch : matchText pattern l = true
    · have hone : selected pattern [l] = [l ++ [newline]] := by
        rw [selected, List.filter_cons_of_pos hmatch]
        rfl
      rw [if_pos hmatch, hone]
    · have hone : selected pattern [l] = [] := by
        rw [selected, List.filter_cons_of_neg hmatch]
        rfl
      rw [if_neg hmatch, hone, append_nil]

/-- **One round of `grep`** on a text of lines of which a part, without an end of line, is in the buffer: it goes through the lines that
are complete now, and what is left in the buffer is a part again. -/
theorem grepLoop_succ (htext : part ++ inp = textOf ls) (hls : ∀ l ∈ ls, Plain l) (hroom : part.length + 1 < BUFSIZE) (hinp : inp ≠ []) :
    ∃ ls₁ ls₂ part' inp', ls = ls₁ ++ ls₂ ∧ part' ++ inp' = textOf ls₂ ∧ newline ∉ part' ∧ part'.length < BUFSIZE ∧
      inp'.length < inp.length ∧ (∀ l ∈ ls₁, l.length + 1 < BUFSIZE) ∧
      grepLoop pattern picks (fuel + 1) k inp part out = grepLoop pattern picks fuel (k + 1) inp' part' (out ++ selected pattern ls₁) := by
  obtain ⟨n, hn⟩ : ∃ n, n = min (min (picks k + 1) (BUFSIZE - part.length - 1)) inp.length := ⟨_, rfl⟩
  have hlen : 0 < inp.length := List.length_pos_iff.mpr hinp
  have hd : part ++ inp.take n ++ inp.drop n = textOf ls := by rw [append_assoc, List.take_append_drop, htext]
  have htake : (inp.take n).length = n := List.length_take_of_le (by omega)
  obtain ⟨ls₁, ls₂, part', rfl, hpart, hnl, htext'⟩ := lines_of_append hd hls
  have hsum : part.length + n = (textOf ls₁).length + part'.length := by
    rw [← length_append, ← hpart, length_append, htake]
  refine ⟨ls₁, ls₂, part', inp.drop n, rfl, htext', hnl, by omega, ?_, fun l hl => ?_, ?_⟩
  · rw [List.length_drop]
    omega
  · have := length_lt_of_mem hl
    omega
  · have hcount := length_le_textOf ls₁
    rw [grepLoop, ← hn, if_neg (by omega)]
    dsimp only
    rw [hpart, lineLoop_spec (fun l hl => hls l (List.mem_append_left _ hl)) hnl (by omega)]

/-! ### The whole input -/

/-- **If all lines fit, `grep` gets to the end.** -/
theorem grepLoop_spec (hls : ∀ l ∈ ls, Plain l) (hshort : ∀ l ∈ ls, l.length + 1 < BUFSIZE) (htext : part ++ inp = textOf ls)
    (hnl : newline ∉ part) (hfuel : inp.length < fuel) : grepLoop pattern picks fuel k inp part out = (out ++ selected pattern ls, []) := by
  induction fuel generalizing k inp part out ls with
  | zero => omega
  | succ fuel ih =>
    by_cases hinp : inp = []
    · -- a text without an end of line is empty
      obtain rfl : ls = [] := by
        cases ls with
        | nil => rfl
        | cons l ls =>
          refine absurd ?_ hnl
          rw [hinp, append_nil, textOf_cons] at htext
          rw [htext]
          simp
      rw [hinp, grepLoop, List.length_nil, Nat.min_zero, if_pos rfl, show selected pattern [] = [] from rfl, append_nil]
    · have hroom : part.length + 1 < BUFSIZE := length_part hshort htext hnl hinp
      obtain ⟨ls₁, ls₂, part', inp', rfl, htext', hnl', -, hlt, -, hloop⟩ :=
        @grepLoop_succ k fuel part inp pattern ls out picks htext hls hroom hinp
      rw [hloop, ih (fun l hl => hls l (List.mem_append_right _ hl)) (fun l hl => hshort l (List.mem_append_right _ hl)) htext' hnl'
        (by omega), selected_append, append_assoc]

/-- **If a line does not fit, some of the input is not read.** -/
theorem grepLoop_stuck (hls : ∀ l ∈ ls, Plain l) (hlong : ∃ l ∈ ls, BUFSIZE ≤ l.length + 1) (htext : part ++ inp = textOf ls)
    (hnl : newline ∉ part) (hpart : part.length < BUFSIZE) (hfuel : inp.length < fuel) : (grepLoop pattern picks fuel k inp part out).2 ≠ [] := by
  induction fuel generalizing k inp part out ls with
  | zero => omega
  | succ fuel ih =>
    have hinp : inp ≠ [] := by
      rintro rfl
      obtain ⟨l, hl, hlen⟩ := hlong
      have := length_lt_of_mem hl
      rw [← htext, append_nil] at this
      omega
    by_cases hroom : part.length + 1 < BUFSIZE
    · obtain ⟨ls₁, ls₂, part', inp', rfl, htext', hnl', hpart', hlt, hfit, hloop⟩ :=
        @grepLoop_succ k fuel part inp pattern ls out picks htext hls hroom hinp
      rw [hloop]
      obtain ⟨l, hl, hlen⟩ := hlong
      have hl₂ : l ∈ ls₂ := (List.mem_append.mp hl).resolve_left fun hl₁ => absurd (hfit l hl₁) (by omega)
      exact ih (fun l hl => hls l (List.mem_append_right _ hl)) ⟨l, hl₂, hlen⟩ htext' hnl' hpart' (by omega)
    · rw [grepLoop, show BUFSIZE - part.length - 1 = 0 by omega, Nat.min_zero, Nat.zero_min, if_pos rfl]
      exact hinp

/-- **`grep` writes the matching lines and reads its input to the end if and only if each line, its end and a NUL fit in the buffer**, for
every pattern and however the input is divided. -/
theorem grep_iff (pattern : List UInt8) (picks : ℕ → ℕ) (ls : List (List UInt8)) (hls : ∀ l ∈ ls, Plain l) :
    grep pattern picks (textOf ls) = (selected pattern ls, []) ↔ ∀ l ∈ ls, l.length + 1 < BUFSIZE := by
  constructor
  · intro hgrep l hl
    by_contra hlong
    refine @grepLoop_stuck 0 ((textOf ls).length + 1) [] (textOf ls) pattern ls [] picks hls ⟨l, hl, by omega⟩ rfl (by simp) (by decide) (by omega) ?_
    exact congrArg Prod.snd hgrep
  · intro hshort
    exact @grepLoop_spec 0 ((textOf ls).length + 1) [] (textOf ls) pattern ls [] picks hls hshort rfl (by simp) (by omega)

/-- One line, of one letter. -/
theorem grep_iff_letter : grep [97] (fun _ => 0) (textOf [[97]]) = (selected [97] [[97]], []) :=
  (grep_iff [97] (fun _ => 0) [[97]] (by unfold Plain; decide)).mpr (by decide)

/-- A line of 1023 letters is not printed, though the pattern is one of them. -/
theorem grep_long_line : grep [97] (fun _ => 1023) (textOf [List.replicate 1023 97]) ≠ (selected [97] [List.replicate 1023 97], []) := by
  intro hgrep
  refine @grepLoop_stuck 0 ((textOf [List.replicate 1023 97]).length + 1) [] (textOf [List.replicate 1023 97]) [97]
    [List.replicate 1023 97] [] (fun _ => 1023) ?_ ⟨_, List.mem_singleton_self _, ?_⟩ rfl (by simp) (by decide) (by omega) ?_
  · intro l hl
    rw [List.mem_singleton.mp hl]
    exact ⟨fun h => absurd (List.eq_of_mem_replicate h) (by decide), fun h => absurd (List.eq_of_mem_replicate h) (by decide)⟩
  · rw [List.length_replicate]
    decide
  · exact congrArg Prod.snd hgrep

end Xv6.User
