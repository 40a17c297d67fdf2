import Xv6.Lib.Outcome
import Xv6.Sh.Parse
import Mathlib.Data.List.Basic
import Mathlib.Logic.Function.Iterate
import Mathlib.Tactic.Common

/-!
# The language of the shell

The tokens of a line, and the grammar of the command lines with the command that each of them stands for:

    line  ::= pipe '&'* [';' line]
    pipe  ::= exec ['|' pipe]
    exec  ::= '(' line ')' redir* | (word | redir)*      with at most `MAXARGS - 1` words
    redir ::= ('<' | '>' | '>>') word

The parser runs on lists of tokens as well, `Xv6.Sh.toks`.
-/

namespace Xv6.Sh

/-! ### Tokens -/

inductive Tok
  | word (w : List UInt8)
  | bar
  | lparen
  | rparen
  | semi
  | amp
  | lt
  | gt
  | gtgt
  deriving DecidableEq, Repr

/-- The tokens that are one character, but for `>`. -/
def symbolTok (c : UInt8) : Option Tok :=
  if c = 124 then some .bar
  else if c = 40 then some .lparen
  else if c = 41 then some .rparen
  else if c = 59 then some .semi
  else if c = 38 then some .amp
  else if c = 60 then some .lt
  else none

/-- **The tokens of a text.** A word goes on to the next blank or symbol. -/
def tokens : List UInt8 → List Tok
  | [] => []
  | c :: cs =>
    if isWhite c then tokens cs
    else if c = 62 then
      if cs.head? = some 62 then .gtgt :: tokens cs.tail else .gt :: tokens cs
    else
      match symbolTok c with
      | some t => t :: tokens cs
      | none => .word (c :: cs.takeWhile isWord) :: tokens (cs.dropWhile isWord)
termination_by cs => cs.length
decreasing_by
  all_goals simp only [List.length_cons, List.length_tail]
  all_goals try have := (List.dropWhile_suffix isWord (l := cs)).length_le
  all_goals omega

namespace Tok

def first : Tok → UInt8
  | word _ => 97
  | bar => 124
  | lparen => 40
  | rparen => 41
  | semi => 59
  | amp => 38
  | lt => 60
  | gt => 62
  | gtgt => 62

def ret : Tok → UInt8
  | gtgt => 43
  | t => t.first

def text : Tok → List UInt8
  | word w => w
  | _ => []

end Tok

def within (set : List UInt8) : List Tok → Bool
  | [] => false
  | .word _ :: _ => false
  | t :: _ => set.contains t.first

def toks : Lexer (List Tok) (List UInt8) where
  peek ts set := .ok (within set ts, ts)
  gettoken ts := .ok (match ts with
    | [] => (0, [], [])
    | t :: ts => (t.ret, t.text, ts))

/-! ### The grammar -/

/-- `<`, `>` and `>>`. -/
inductive Arrow
  | read
  | write
  | append
  deriving DecidableEq, Repr

namespace Arrow

def tok : Arrow → Tok
  | read => .lt
  | write => .gt
  | append => .gtgt

def mode : Arrow → ℕ
  | read => O_RDONLY
  | write => O_WRONLY ||| O_CREATE ||| O_TRUNC
  | append => O_WRONLY ||| O_CREATE

def fd : Arrow → ℕ
  | read => 0
  | write => 1
  | append => 1

end Arrow

abbrev Redir := Arrow × List UInt8

def redirToks (rs : List Redir) : List Tok := rs.flatMap fun r => [r.1.tok, .word r.2]

def wrap (c : Cmd (List UInt8)) (rs : List Redir) : Cmd (List UInt8) :=
  rs.foldl (fun c r => .redir c r.2 r.1.mode r.1.fd) c

abbrev Item := List UInt8 ⊕ Redir

def itemToks (items : List Item) : List Tok :=
  items.flatMap fun
    | .inl w => [.word w]
    | .inr r => [r.1.tok, .word r.2]

def itemWords (items : List Item) : List (List UInt8) := items.filterMap Sum.getLeft?

def itemRedirs (items : List Item) : List Redir := items.filterMap Sum.getRight?

/-- The symbols of the grammar with a rule. -/
inductive Nonterminal
  | line
  | pipe
  | exec

/-- **The grammar**: a symbol derives a list of tokens, which stand for a command. -/
inductive Derives : Nonterminal → List Tok → Cmd (List UInt8) → Prop
  | line {ts c} (n : ℕ) : Derives .pipe ts c → Derives .line (ts ++ List.replicate n .amp) (Cmd.back^[n] c)
  | list {ts us c c'} (n : ℕ) : Derives .pipe ts c → Derives .line us c' →
      Derives .line (ts ++ List.replicate n .amp ++ .semi :: us) (.list (Cmd.back^[n] c) c')
  | exec {ts c} : Derives .exec ts c → Derives .pipe ts c
  | pipe {ts us c c'} : Derives .exec ts c → Derives .pipe us c' →
      Derives .pipe (ts ++ .bar :: us) (.pipe c c')
  | block {ts c} (rs : List Redir) : Derives .line ts c →
      Derives .exec (.lparen :: ts ++ .rparen :: redirToks rs) (wrap c rs)
  | simple (items : List Item) : (itemWords items).length ≤ MAXARGS - 1 →
      Derives .exec (itemToks items) (wrap (.exec (itemWords items)) (itemRedirs items))

end Xv6.Sh
