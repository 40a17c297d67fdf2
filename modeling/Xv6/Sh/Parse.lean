import Mathlib.Data.Nat.Notation
import Mathlib.Logic.Basic

/-!
# The parser of the shell

`parsecmd` and the functions below it, from `user/sh.c`. A pointer into the command line is a position in
it. The line ends with a NUL; to read or to write behind this is a `fault`, and so is to write past the end of
`argv`.

The functions of the parser look at the line through `peek` and `gettoken` only, and are written here for
any two such functions: `Xv6.Sh.chars` are those of the source.
-/

namespace Xv6.Sh

/-! ### Commands -/

def MAXARGS : ℕ := 10

def O_RDONLY : ℕ := 0x000
def O_WRONLY : ℕ := 0x001
def O_CREATE : ℕ := 0x200
def O_TRUNC : ℕ := 0x400

/-- A parsed command. A `W` stands for a string, that is for two pointers into the line, or for one once the
strings are terminated. -/
inductive Cmd (W : Type)
  | exec (argv : List W)
  | redir (cmd : Cmd W) (file : W) (mode fd : ℕ)
  | pipe (left right : Cmd W)
  | list (left right : Cmd W)
  | back (cmd : Cmd W)
  deriving DecidableEq, Repr

namespace Cmd

variable {W V : Type}

def map (f : W → V) : Cmd W → Cmd V
  | exec argv => exec (argv.map f)
  | redir cmd file mode fd => redir (cmd.map f) (f file) mode fd
  | pipe left right => pipe (left.map f) (right.map f)
  | list left right => list (left.map f) (right.map f)
  | back cmd => back (cmd.map f)

def words : Cmd W → List W
  | exec argv => argv
  | redir cmd file _ _ => cmd.words ++ [file]
  | pipe left right => left.words ++ right.words
  | list left right => left.words ++ right.words
  | back cmd => cmd.words

/-- The arguments of the `execcmd` that redirections are wrapped around are stored. -/
def setArgv (argv : List W) : Cmd W → Cmd W
  | exec _ => exec argv
  | redir cmd file mode fd => redir (cmd.setArgv argv) file mode fd
  | cmd => cmd

end Cmd

inductive Panic
  /-- `syntax`, after the leftovers were printed. -/
  | leftovers
  /-- `syntax`, for a token that is no argument. -/
  | unexpected
  | missingFile
  | parseblock
  /-- `syntax - missing )`. -/
  | missingParen
  | tooManyArgs
  deriving DecidableEq, Repr

/-- The ways in which the parser does not return. -/
inductive Stop
  | panic (p : Panic)
  /-- An access out of bounds. -/
  | fault
  /-- The rounds and calls that were allowed for are used up. -/
  | fuel
  deriving DecidableEq, Repr

/-! ### The parser, over any tokens -/

/-- `peek` and `gettoken`, for positions `P` of the line and strings `W`. -/
structure Lexer (P W : Type) where
  peek : P → List UInt8 → Except Stop (Bool × P)
  gettoken : P → Except Stop (UInt8 × W × P)

namespace Lexer

variable {P W : Type} (lex : Lexer P W)

def parseredirs : ℕ → Cmd W → P → Except Stop (Cmd W × P)
  | 0, _, _ => .error .fuel
  | fuel + 1, cmd, ps => do
    let (more, ps) ← lex.peek ps [60, 62] -- `<>`
    if more then do
      let (tok, _, ps) ← lex.gettoken ps
      let (ret, file, ps) ← lex.gettoken ps
      if ret ≠ 97 then .error (.panic .missingFile)
      else if tok = 60 then parseredirs fuel (.redir cmd file O_RDONLY 0) ps
      else if tok = 62 then parseredirs fuel (.redir cmd file (O_WRONLY ||| O_CREATE ||| O_TRUNC) 1) ps
      else if tok = 43 then parseredirs fuel (.redir cmd file (O_WRONLY ||| O_CREATE) 1) ps
      else parseredirs fuel cmd ps
    else .ok (cmd, ps)

/-- `argv` is terminated, at the end of `parseexec`. -/
def endargs (argv : List W) (ret : Cmd W) (ps : P) : Except Stop (Cmd W × P) :=
  if argv.length < MAXARGS then .ok (ret, ps) else .error .fault

/-- The loop of `parseexec`. The node of the command is inside `ret`. -/
def parseargs : ℕ → List W → Cmd W → P → Except Stop (Cmd W × P)
  | 0, _, _, _ => .error .fuel
  | fuel + 1, argv, ret, ps => do
    let (stop, ps) ← lex.peek ps [124, 41, 38, 59] -- `|)&;`
    if stop then endargs argv ret ps
    else do
      let (tok, q, ps) ← lex.gettoken ps
      if tok = 0 then endargs argv ret ps
      else if tok ≠ 97 then .error (.panic .unexpected)
      else if argv.length < MAXARGS then
        let argv := argv ++ [q]
        let ret := ret.setArgv argv
        if MAXARGS ≤ argv.length then .error (.panic .tooManyArgs)
        else do
          let (ret, ps) ← parseredirs lex fuel ret ps
          parseargs fuel argv ret ps
      else .error .fault

/-- The loop of `parseline`. -/
def parsebacks : ℕ → Cmd W → P → Except Stop (Cmd W × P)
  | 0, _, _ => .error .fuel
  | fuel + 1, cmd, ps => do
    let (more, ps) ← lex.peek ps [38] -- `&`
    if more then do
      let (_, _, ps) ← lex.gettoken ps
      parsebacks fuel (.back cmd) ps
    else .ok (cmd, ps)

mutual

def parseline : ℕ → P → Except Stop (Cmd W × P)
  | 0, _ => .error .fuel
  | fuel + 1, ps => do
    let (cmd, ps) ← parsepipe fuel ps
    let (cmd, ps) ← parsebacks lex fuel cmd ps
    let (more, ps) ← lex.peek ps [59] -- `;`
    if more then do
      let (_, _, ps) ← lex.gettoken ps
      let (right, ps) ← parseline fuel ps
      .ok (.list cmd right, ps)
    else .ok (cmd, ps)

def parsepipe : ℕ → P → Except Stop (Cmd W × P)
  | 0, _ => .error .fuel
  | fuel + 1, ps => do
    let (cmd, ps) ← parseexec fuel ps
    let (more, ps) ← lex.peek ps [124] -- `|`
    if more then do
      let (_, _, ps) ← lex.gettoken ps
      let (right, ps) ← parsepipe fuel ps
      .ok (.pipe cmd right, ps)
    else .ok (cmd, ps)

def parseblock : ℕ → P → Except Stop (Cmd W × P)
  | 0, _ => .error .fuel
  | fuel + 1, ps => do
    let (isOpen, ps) ← lex.peek ps [40] -- `(`
    if isOpen then do
      let (_, _, ps) ← lex.gettoken ps
      let (cmd, ps) ← parseline fuel ps
      let (isClosed, ps) ← lex.peek ps [41] -- `)`
      if isClosed then do
        let (_, _, ps) ← lex.gettoken ps
        parseredirs lex fuel cmd ps
      else .error (.panic .missingParen)
    else .error (.panic .parseblock)

def parseexec : ℕ → P → Except Stop (Cmd W × P)
  | 0, _ => .error .fuel
  | fuel + 1, ps => do
    let (isBlock, ps) ← lex.peek ps [40] -- `(`
    if isBlock then parseblock fuel ps
    else do
      let (ret, ps) ← parseredirs lex fuel (.exec []) ps
      parseargs lex fuel [] ret ps

end

end Lexer

/-! ### Characters -/

def whitespace : List UInt8 := [32, 9, 13, 10, 11]

/-- `<|>&;()`. -/
def symbols : List UInt8 := [60, 124, 62, 38, 59, 40, 41]

def isWhite (c : UInt8) : Bool := whitespace.contains c

def isWord (c : UInt8) : Bool := !whitespace.contains c && !symbols.contains c

def deref (buf : List UInt8) (s : ℕ) : Except Stop UInt8 :=
  match buf[s]? with
  | some c => .ok c
  | none => .error .fault

/-- `while(s < es && p(*s)) s++;`, in at most `n` rounds. -/
def skipLoop (buf : List UInt8) (es : ℕ) (p : UInt8 → Bool) : ℕ → ℕ → Except Stop ℕ
  | 0, s => .ok s
  | n + 1, s =>
    if s < es then do
      let c ← deref buf s
      if p c then skipLoop buf es p n (s + 1) else .ok s
    else .ok s

def skip (buf : List UInt8) (es : ℕ) (p : UInt8 → Bool) (s : ℕ) : Except Stop ℕ :=
  skipLoop buf es p (es - s) s

/-- The two pointers for a string, `q` and `eq`. -/
structure Span where
  q : ℕ
  eq : ℕ
  deriving DecidableEq, Repr

def gettoken (buf : List UInt8) (es s : ℕ) : Except Stop (UInt8 × Span × ℕ) := do
  let q ← skip buf es isWhite s
  let c ← deref buf q
  let (ret, eq) ←
    if c = 0 then .ok (0, q)
    else if c = 124 ∨ c = 40 ∨ c = 41 ∨ c = 59 ∨ c = 38 ∨ c = 60 then .ok (c, q + 1)
    else if c = 62 then do
      let c' ← deref buf (q + 1)
      if c' = 62 then .ok (43, q + 2) else .ok (62, q + 1)
    else do
      let eq ← skip buf es isWord q
      .ok (97, eq)
  let s ← skip buf es isWhite eq
  .ok (ret, ⟨q, eq⟩, s)

def peek (buf : List UInt8) (es s : ℕ) (toks : List UInt8) : Except Stop (Bool × ℕ) := do
  let s ← skip buf es isWhite s
  let c ← deref buf s
  .ok (c ≠ 0 ∧ c ∈ toks, s)

/-- `peek` and `gettoken` of the source, for the line in `buf`. -/
def chars (buf : List UInt8) (es : ℕ) : Lexer ℕ Span where
  peek := peek buf es
  gettoken := gettoken buf es

/-! ### `parsecmd` -/

def terminate (buf : List UInt8) (s : ℕ) : Except Stop (List UInt8) :=
  if s < buf.length then .ok (buf.set s 0) else .error .fault

def nulterminate : Cmd Span → List UInt8 → Except Stop (List UInt8)
  | .exec argv, buf => argv.foldlM (fun buf w => terminate buf w.eq) buf
  | .redir cmd file _ _, buf => do
    let buf ← nulterminate cmd buf
    terminate buf file.eq
  | .pipe left right, buf => do
    let buf ← nulterminate left buf
    nulterminate right buf
  | .list left right, buf => do
    let buf ← nulterminate left buf
    nulterminate right buf
  | .back cmd, buf => nulterminate cmd buf

def cstrAt (buf : List UInt8) (s : ℕ) : List UInt8 := (buf.drop s).takeWhile (· ≠ 0)

structure Line where
  chars : List UInt8
  no_nul : 0 ∉ chars

def Line.buf (line : Line) : List UInt8 := line.chars ++ [0]

def strlen (buf : List UInt8) : ℕ := (cstrAt buf 0).length

/-- **`parsecmd`**: the command, with the strings that its pointers point to. The calls and rounds that are
allowed for are enough, see `Xv6.Sh.parsecmd_spec`. -/
def parsecmd (line : Line) : Except Stop (Cmd (List UInt8)) := do
  let es := strlen line.buf
  let (cmd, s) ← (chars line.buf es).parseline (4 * es + 4) 0
  let (_, s) ← peek line.buf es s []
  if s = es then do
    let buf ← nulterminate cmd line.buf
    .ok (cmd.map fun w => cstrAt buf w.q)
  else .error (.panic .leftovers)

end Xv6.Sh
