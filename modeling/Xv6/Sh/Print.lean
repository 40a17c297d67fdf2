import Xv6.Sh.Chars

/-!
# Printing and parsing a command

A command is printed as the grammar has it, with parentheses where a command of a looser kind stands in the
place of a tighter one. Any text with the tokens in this order, and a blank at least between two words, is
parsed to the command again.
-/

namespace Xv6.Sh

open Lib

/-! ### Printing -/

/-- The places in which a command can stand, the tightest first: before or after a `|` or a redirection,
at the end of a pipe, before `&`, and as a line. -/
inductive Level
  | exec
  | pipe
  | back
  | line
  deriving DecidableEq, Repr

def arrowOf (mode fd : ℕ) : Arrow :=
  if fd = 0 then .read else if mode = Arrow.write.mode then .write else .append

def paren (need : Bool) (ts : List Tok) : List Tok := if need then .lparen :: ts ++ [.rparen] else ts

/-- **The tokens of a command**, in a place of the given level. -/
def print : Level → Cmd (List UInt8) → List Tok
  | _, .exec argv => argv.map .word
  | _, .redir cmd file mode fd => print .exec cmd ++ [(arrowOf mode fd).tok, .word file]
  | lvl, .pipe left right => paren (lvl = .exec) (print .exec left ++ .bar :: print .pipe right)
  | lvl, .back cmd => paren (lvl = .exec ∨ lvl = .pipe) (print .back cmd ++ [.amp])
  | lvl, .list left right => paren (lvl ≠ .line) (print .back left ++ .semi :: print .line right)

def IsName (w : List UInt8) : Prop := w ≠ [] ∧ ∀ c ∈ w, isWord c = true

/-- **The commands that can be written.** -/
def Printable : Cmd (List UInt8) → Prop
  | .exec argv => argv.length ≤ MAXARGS - 1 ∧ ∀ w ∈ argv, IsName w
  | .redir cmd file mode fd => Printable cmd ∧ IsName file ∧ ∃ a : Arrow, mode = a.mode ∧ fd = a.fd
  | .pipe left right => Printable left ∧ Printable right
  | .list left right => Printable left ∧ Printable right
  | .back cmd => Printable cmd

namespace Tok

def chars : Tok → List UInt8
  | word w => w
  | gtgt => [62, 62]
  | t => [t.first]

def isName : Tok → Bool
  | word _ => true
  | _ => false

end Tok

/-- **A text with these tokens.** There may be blanks before each of them and at the end, and between two
words there are. -/
inductive Spaced : List Tok → List UInt8 → Prop
  | nil {ws} : (∀ c ∈ ws, isWhite c = true) → Spaced [] ws
  | cons {t ts ws rest} : (∀ c ∈ ws, isWhite c = true) → Spaced ts rest →
      (t.isName = true → ts.head?.any Tok.isName = true → ∃ c cs, rest = c :: cs ∧ isWhite c = true) →
      Spaced (t :: ts) (ws ++ (t.chars ++ rest))

variable {c : Cmd (List UInt8)} {ts us : List Tok} {l ws rest w : List UInt8} {t : Tok} {a : Arrow}

/-! ### What is printed is derived -/

theorem arrowOf_eq (a : Arrow) : arrowOf a.mode a.fd = a := by cases a <;> decide

theorem Derives.redir (h : Derives .exec ts c) (a : Arrow) (w : List UInt8) : Derives .exec (ts ++ [a.tok, .word w]) (.redir c w a.mode a.fd) := by
  cases h with
  | @block ts c rs h =>
    have hd := Derives.block (rs ++ [(a, w)]) h
    have htoks : (.lparen :: ts ++ .rparen :: redirToks rs) ++ [a.tok, .word w] =
        .lparen :: ts ++ .rparen :: redirToks (rs ++ [(a, w)]) := by simp [redirToks]
    rw [wrap_append] at hd
    rw [htoks]
    exact hd
  | simple items h =>
    have hwords : itemWords (items ++ [.inr (a, w)]) = itemWords items := by
      simp [itemWords, List.filterMap_append]
    have hredirs : itemRedirs (items ++ [.inr (a, w)]) = itemRedirs items ++ [(a, w)] := by
      simp [itemRedirs, List.filterMap_append]
    have hd := Derives.simple (items ++ [.inr (a, w)]) (by rwa [hwords])
    rw [hwords, hredirs, wrap_append, itemToks, List.flatMap_append] at hd
    exact hd

theorem derives_exec {argv : List (List UInt8)} (h : argv.length ≤ MAXARGS - 1) : Derives .exec (argv.map .word) (.exec argv) := by
  have htoks : itemToks (argv.map .inl) = argv.map .word := by
    induction argv with
    | nil => rfl
    | cons w ws ih =>
      rw [List.map_cons, itemToks_word, List.map_cons]
      exact congrArg _ (ih ((Nat.le_succ _).trans h))
  have hwords : itemWords (argv.map .inl) = argv := by
    simp [itemWords, List.filterMap_map, Function.comp_def]
  have hredirs : itemRedirs (argv.map .inl) = [] := by
    simp [itemRedirs, List.filterMap_map, Function.comp_def]
  have hd := Derives.simple (argv.map .inl) (by rwa [hwords])
  rwa [htoks, hwords, hredirs] at hd

theorem Derives.paren (h : Derives .line ts c) : Derives .exec (.lparen :: ts ++ [.rparen]) c :=
  .block [] h

theorem Derives.line_of_pipe (h : Derives .pipe ts c) : Derives .line ts c := by
  have := Derives.line 0 h
  rwa [List.replicate_zero, List.append_nil] at this

def Backs (ts : List Tok) (c : Cmd (List UInt8)) : Prop :=
  ∃ us c' n, Derives .pipe us c' ∧ ts = us ++ List.replicate n .amp ∧ c = Cmd.back^[n] c'

theorem Backs.line (h : Backs ts c) : Derives .line ts c := by
  obtain ⟨us, c', n, hd, rfl, rfl⟩ := h
  exact .line n hd

theorem Backs.of_exec (h : Derives .exec ts c) : Backs ts c := ⟨ts, c, 0, .exec h, by simp, rfl⟩

theorem print_derives (h : Printable c) : Derives .exec (print .exec c) c ∧ Derives .pipe (print .pipe c) c ∧
    Backs (print .back c) c ∧ Derives .line (print .line c) c := by
  have hall : ∀ {ts c}, Derives .exec ts c → Derives .exec ts c ∧ Derives .pipe ts c ∧ Backs ts c ∧ Derives .line ts c :=
    fun h => ⟨h, .exec h, .of_exec h, (Backs.of_exec h).line⟩
  induction c with
  | exec argv => exact hall (derives_exec h.1)
  | redir cmd file mode fd ih =>
    obtain ⟨hcmd, -, a, rfl, rfl⟩ := h
    have hd := (ih hcmd).1.redir a file
    have hprint : ∀ lvl, print lvl (.redir cmd file a.mode a.fd) = print .exec cmd ++ [a.tok, .word file] := by
      intro lvl
      rw [print, arrowOf_eq]
    simp only [hprint]
    exact hall hd
  | pipe left right ih ih' =>
    have hd := Derives.pipe (ih h.1).1 (ih' h.2).2.1
    exact ⟨hd.line_of_pipe.paren, hd, ⟨_, _, 0, hd, (List.append_nil _).symm, rfl⟩, hd.line_of_pipe⟩
  | back cmd ih =>
    have hb : Backs (print .back cmd ++ [.amp]) (.back cmd) := by
      obtain ⟨us, c', n, hd, hts, hc⟩ := (ih h).2.2.1
      refine ⟨us, c', n + 1, hd, ?_, ?_⟩
      · rw [hts, List.append_assoc, List.replicate_succ']
      · rw [Function.iterate_succ_apply', ← hc]
    exact ⟨hb.line.paren, .exec hb.line.paren, hb, hb.line⟩
  | list left right ih ih' =>
    have hl : Derives .line (print .back left ++ .semi :: print .line right) (.list left right) := by
      obtain ⟨us, c', n, hd, hts, hc⟩ := (ih h.1).2.2.1
      rw [hts, hc]
      exact .list n hd (ih' h.2).2.2.2
    exact ⟨hl.paren, .exec hl.paren, .of_exec hl.paren, hl⟩

/-! ### The tokens of a spaced text -/

def Lexable : List Tok → Prop
  | [] => True
  | .word w :: ts => IsName w ∧ Lexable ts
  | .gt :: ts => ts.head?.any Tok.isName = true ∧ Lexable ts
  | _ :: ts => Lexable ts

theorem Lexable.append (h : Lexable ts) (h' : Lexable us) : Lexable (ts ++ us) := by
  induction ts with
  | nil => exact h'
  | cons t ts ih =>
    cases t with
    | word w => exact ⟨h.1, ih h.2⟩
    | gt =>
      refine ⟨?_, ih h.2⟩
      rcases ts with _ | ⟨t', ts⟩
      · exact absurd h.1 (by simp)
      · exact h.1
    | _ => exact ih h

theorem lexable_print (h : Printable c) (lvl : Level) : Lexable (print lvl c) := by
  have hparen : ∀ (b : Bool) {ts}, Lexable ts → Lexable (Sh.paren b ts) := by
    intro b ts hts
    rw [Sh.paren]
    split
    · exact Lexable.append (show Lexable (.lparen :: ts) from hts) trivial
    · exact hts
  induction c generalizing lvl with
  | exec argv =>
    rw [print]
    have hnames := h.2
    clear h
    induction argv with
    | nil => trivial
    | cons w ws ih =>
      exact ⟨hnames w List.mem_cons_self, ih fun w' hw' => hnames w' (List.mem_cons_of_mem _ hw')⟩
  | redir cmd file mode fd ih =>
    obtain ⟨hcmd, hfile, a, rfl, rfl⟩ := h
    rw [print, arrowOf_eq]
    refine (ih hcmd _).append ?_
    cases a
    · exact ⟨hfile, trivial⟩
    · exact ⟨rfl, hfile, trivial⟩
    · exact ⟨hfile, trivial⟩
  | pipe left right ih ih' =>
    rw [print]
    exact hparen _ ((ih h.1 _).append (show Lexable (.bar :: print .pipe right) from ih' h.2 _))
  | back cmd ih =>
    rw [print]
    exact hparen _ ((ih h _).append (show Lexable [.amp] from trivial))
  | list left right ih ih' =>
    rw [print]
    exact hparen _ ((ih h.1 _).append (show Lexable (.semi :: print .line right) from ih' h.2 _))

theorem tokens_white (h : ∀ c ∈ ws, isWhite c = true) : tokens (ws ++ l) = tokens l := by
  induction ws with
  | nil => rfl
  | cons c ws ih =>
    rw [List.cons_append, tokens, if_pos (h c List.mem_cons_self), ih fun c' hc' => h c' (List.mem_cons_of_mem _ hc')]

theorem isWord_white {c : UInt8} (h : isWhite c = true) : isWord c = false := by
  rw [isWord, show whitespace.contains c = true from h]
  rfl

theorem Spaced.head_not_word (h : Spaced ts rest) (hsep : ts.head?.any Tok.isName = true → ∃ c cs, rest = c :: cs ∧ isWhite c = true) :
    ∀ c, rest.head? = some c → isWord c = false := by
  intro c hc
  cases h with
  | nil hws =>
    refine isWord_white (hws c ?_)
    exact List.mem_of_mem_head? hc
  | @cons t ts ws rest hws hrest _ =>
    rcases ws with _ | ⟨b, ws⟩
    · cases t with
      | word w =>
        obtain ⟨c', cs, heq, hwhite⟩ := hsep rfl
        rw [heq] at hc
        obtain rfl := Option.some.inj hc
        exact isWord_white hwhite
      | _ =>
        obtain rfl := Option.some.inj hc
        decide
    · obtain rfl := Option.some.inj hc
      exact isWord_white (hws _ List.mem_cons_self)

theorem Spaced.head_ne_gt (h : Spaced ts rest) (hlex : Lexable ts) (hw : ts.head?.any Tok.isName = true) : rest.head? ≠ some 62 := by
  intro h62
  cases h with
  | nil hws => cases hw
  | @cons t ts ws rest hws hrest _ =>
    rcases ws with _ | ⟨b, ws⟩
    · cases t with
      | word w =>
        obtain ⟨⟨hne, hword⟩, -⟩ := hlex
        rcases w with _ | ⟨c, cs⟩
        · exact hne rfl
        · obtain rfl := Option.some.inj h62
          exact absurd (hword 62 List.mem_cons_self) (by decide)
      | _ => exact absurd hw (by simp [Tok.isName])
    · obtain rfl := Option.some.inj h62
      exact absurd (hws 62 List.mem_cons_self) (by decide)

theorem Spaced.tokens_eq (h : Spaced ts l) (hlex : Lexable ts) : tokens l = ts := by
  induction h with
  | @nil ws hws =>
    have := tokens_white (l := []) hws
    rwa [List.append_nil, tokens_nil] at this
  | @cons t ts ws rest hws hrest hsep ih =>
    rw [tokens_white hws]
    cases t with
    | word w =>
      obtain ⟨⟨hne, hword⟩, hlex⟩ := hlex
      rcases w with _ | ⟨c, cs⟩
      · exact absurd rfl hne
      have hstop := hrest.head_not_word (hsep rfl)
      have hcs : ∀ b ∈ cs, isWord b = true := fun b hb => hword b (List.mem_cons_of_mem _ hb)
      have htake : rest.takeWhile isWord = [] ∧ rest.dropWhile isWord = rest := by
        rcases rest with _ | ⟨b, bs⟩
        · exact ⟨rfl, rfl⟩
        · have hb : ¬isWord b = true := by rw [hstop b rfl]; decide
          exact ⟨List.takeWhile_cons_of_neg hb, List.dropWhile_cons_of_neg hb⟩
      change tokens (c :: (cs ++ rest)) = _
      rw [tokens_word (hword c List.mem_cons_self), List.takeWhile_append_of_pos hcs,
        List.dropWhile_append_of_pos hcs, htake.1, htake.2, List.append_nil, ih hlex]
    | gt =>
      change tokens (62 :: rest) = _
      rw [tokens_gt (hrest.head_ne_gt hlex.2 hlex.1), ih hlex.2]
    | gtgt =>
      change tokens (62 :: 62 :: rest) = _
      rw [tokens_gtgt, ih hlex]
    | bar => exact (tokens_symbol (t := .bar) rfl).trans (congrArg _ (ih hlex))
    | lparen => exact (tokens_symbol (t := .lparen) rfl).trans (congrArg _ (ih hlex))
    | rparen => exact (tokens_symbol (t := .rparen) rfl).trans (congrArg _ (ih hlex))
    | semi => exact (tokens_symbol (t := .semi) rfl).trans (congrArg _ (ih hlex))
    | amp => exact (tokens_symbol (t := .amp) rfl).trans (congrArg _ (ih hlex))
    | lt => exact (tokens_symbol (t := .lt) rfl).trans (congrArg _ (ih hlex))

/-- **The shell reads what is printed.** -/
theorem parsecmd_print (h : Printable c) (line : Line) (hline : Spaced (print .line c) line.chars) : parsecmd line = .ok c := by
  have htoks := hline.tokens_eq (lexable_print h .line)
  have hfuel : 4 * (tokens line.chars).length + 4 ≤ 4 * line.chars.length + 4 := by
    have := length_tokens_le line.chars
    omega
  have hparse := (parseline_iff hfuel).mpr (htoks ▸ (print_derives h).2.2.2)
  rw [parsecmd_spec, hparse]

/-- `(a;b)>>c|d`. -/
theorem parsecmd_print_block : parsecmd ⟨[40, 97, 59, 98, 41, 62, 62, 99, 124, 100], by decide⟩ =
    .ok (.pipe (.redir (.list (.exec [[97]]) (.exec [[98]])) [99] Arrow.append.mode Arrow.append.fd) (.exec [[100]])) := by
  have hname : ∀ c : UInt8, isWord c = true → IsName [c] := fun c hc => ⟨by simp, by simpa using hc⟩
  have hexec : ∀ c : UInt8, isWord c = true → Printable (.exec [[c]]) :=
    fun c hc => ⟨by simp [MAXARGS], by simpa using hname c hc⟩
  have hnil : ∀ c ∈ ([] : List UInt8), isWhite c = true := by simp
  have hprint : Printable (.pipe (.redir (.list (.exec [[97]]) (.exec [[98]])) [99] Arrow.append.mode Arrow.append.fd) (.exec [[100]])) :=
    ⟨⟨⟨hexec 97 rfl, hexec 98 rfl⟩, hname 99 rfl, .append, rfl, rfl⟩, hexec 100 rfl⟩
  refine parsecmd_print hprint _ ?_
  refine .cons (t := .lparen) hnil ?_ fun h => absurd h (by decide)
  refine .cons (t := .word [97]) hnil ?_ fun _ h => absurd h (by decide)
  refine .cons (t := .semi) hnil ?_ fun h => absurd h (by decide)
  refine .cons (t := .word [98]) hnil ?_ fun _ h => absurd h (by decide)
  refine .cons (t := .rparen) hnil ?_ fun h => absurd h (by decide)
  refine .cons (t := .gtgt) hnil ?_ fun h => absurd h (by decide)
  refine .cons (t := .word [99]) hnil ?_ fun _ h => absurd h (by decide)
  refine .cons (t := .bar) hnil ?_ fun h => absurd h (by decide)
  exact .cons (t := .word [100]) hnil (.nil hnil) fun _ h => absurd h (by decide)

end Xv6.Sh
