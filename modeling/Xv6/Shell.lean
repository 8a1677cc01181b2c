import Xv6.Param
import Mathlib.Data.List.Basic

/-!
# The parser of the shell

The functions of `sh.c` from `gettoken` to `nulterminate`. A pointer into the command line
is the part of the line from there to its end, and where that is empty it points to the
terminating 0. A word is two pointers, to its first character and past its last (`Span`);
`parsecmd` puts a 0 after every word and returns the tree with the strings that the
pointers then address.

The functions that recurse have a bound on their calls. `Stop.fuel` stands for a bound that
is too low.
-/

namespace Xv6.Shell

def MAXARGS : ℕ := 10

def whitespace : List Char := [' ', '\t', '\r', '\n', '\x0b']

def symbols : List Char := ['<', '|', '>', '&', ';', '(', ')']

/-- `strchr`, as a condition. -/
def strchr (s : List Char) (c : Char) : Bool := decide (c ∈ s)

/-- `*s`. -/
def char (s : List Char) : Char := s.headD '\x00'

/-- A word of the command line, from `q` to `eq`. -/
structure Span where
  q : List Char
  eq : List Char
deriving DecidableEq

/-- Parsed command representation. -/
inductive Cmd (α : Type) where
  | exec (argv : List α)
  | redir (cmd : Cmd α) (file : α) (mode fd : ℕ)
  | pipe (left right : Cmd α)
  | list (left right : Cmd α)
  | back (cmd : Cmd α)
deriving DecidableEq

namespace Cmd

variable {α β : Type}

def map (f : α → β) : Cmd α → Cmd β
  | exec argv => exec (argv.map f)
  | redir cmd file mode fd => redir (cmd.map f) (f file) mode fd
  | pipe left right => pipe (left.map f) (right.map f)
  | list left right => list (left.map f) (right.map f)
  | back cmd => back (cmd.map f)

/-- The words of a command. -/
def words : Cmd α → List α
  | exec argv => argv
  | redir cmd file _ _ => cmd.words ++ [file]
  | pipe left right => left.words ++ right.words
  | list left right => left.words ++ right.words
  | back cmd => cmd.words

/-- Store a word in `argv` of the simple command that has the redirections around it. -/
def addArg (w : α) : Cmd α → Cmd α
  | exec argv => exec (argv ++ [w])
  | redir cmd file mode fd => redir (cmd.addArg w) file mode fd
  | cmd => cmd

end Cmd

/-- How the parser stops without a command. -/
inductive Stop where
  | panic (msg : String)
  | fuel
deriving DecidableEq

/-- Skip whitespace. -/
def skip (s : List Char) : List Char := s.dropWhile (strchr whitespace)

/-- The next token, the word it is in the line, and the line after it. -/
def gettoken (s : List Char) : Char × Span × List Char :=
  let s := skip s
  let q := s
  let (ret, s) : Char × List Char :=
    if char s = '\x00' then ('\x00', s)
    else if strchr ['|', '(', ')', ';', '&', '<'] (char s) then (char s, s.tail)
    else if char s = '>' then
      if char s.tail = '>' then ('+', s.tail.tail) else ('>', s.tail)
    else ('a', s.dropWhile fun c => !strchr whitespace c && !strchr symbols c)
  (ret, ⟨q, s⟩, skip s)

/-- Is the next character one of `toks` ? -/
def peek (s toks : List Char) : Bool × List Char :=
  let s := skip s
  (char s ≠ '\x00' && strchr toks (char s), s)

def parseredirs : ℕ → Cmd Span → List Char → Except Stop (Cmd Span × List Char)
  | 0, _, _ => throw .fuel
  | n + 1, cmd, s =>
    match peek s ['<', '>'] with
    | (false, s) => return (cmd, s)
    | (true, s) =>
      let (tok, _, s) := gettoken s
      let (ret, file, s) := gettoken s
      if ret ≠ 'a' then throw (.panic "missing file for redirection")
      else
        match tok with
        | '<' => parseredirs n (.redir cmd file O_RDONLY 0) s
        | '>' => parseredirs n (.redir cmd file (O_WRONLY ||| O_CREATE) 1) s
        | '+' => parseredirs n (.redir cmd file (O_WRONLY ||| O_CREATE) 1) s
        | _ => parseredirs n cmd s

/-- The loop of `parseexec` over the arguments. -/
def parseargs : ℕ → ℕ → Cmd Span → List Char → Except Stop (Cmd Span × List Char)
  | 0, _, _, _ => throw .fuel
  | n + 1, argc, ret, s =>
    match peek s ['|', ')', '&', ';'] with
    | (true, s) => return (ret, s)
    | (false, s) =>
      let (tok, w, s) := gettoken s
      if tok = '\x00' then return (ret, s)
      else if tok ≠ 'a' then throw (.panic "syntax")
      else if argc + 1 ≥ MAXARGS then throw (.panic "too many args")
      else do
        let (ret, s) ← parseredirs n (ret.addArg w) s
        parseargs n (argc + 1) ret s

/-- The loop of `parseline` over `&`. -/
def parseback : ℕ → Cmd Span → List Char → Except Stop (Cmd Span × List Char)
  | 0, _, _ => throw .fuel
  | n + 1, cmd, s =>
    match peek s ['&'] with
    | (false, s) => return (cmd, s)
    | (true, s) => parseback n (.back cmd) (gettoken s).2.2

mutual

def parseline : ℕ → List Char → Except Stop (Cmd Span × List Char)
  | 0, _ => throw .fuel
  | n + 1, s => do
    let (cmd, s) ← parsepipe n s
    let (cmd, s) ← parseback n cmd s
    match peek s [';'] with
    | (false, s) => return (cmd, s)
    | (true, s) =>
      let (right, s) ← parseline n (gettoken s).2.2
      return (.list cmd right, s)

def parsepipe : ℕ → List Char → Except Stop (Cmd Span × List Char)
  | 0, _ => throw .fuel
  | n + 1, s => do
    let (cmd, s) ← parseexec n s
    match peek s ['|'] with
    | (false, s) => return (cmd, s)
    | (true, s) =>
      let (right, s) ← parsepipe n (gettoken s).2.2
      return (.pipe cmd right, s)

def parseblock : ℕ → List Char → Except Stop (Cmd Span × List Char)
  | 0, _ => throw .fuel
  | n + 1, s =>
    match peek s ['('] with
    | (false, _) => throw (.panic "parseblock")
    | (true, s) => do
      let (cmd, s) ← parseline n (gettoken s).2.2
      match peek s [')'] with
      | (false, _) => throw (.panic "syntax - missing )")
      | (true, s) => parseredirs n cmd (gettoken s).2.2

def parseexec : ℕ → List Char → Except Stop (Cmd Span × List Char)
  | 0, _ => throw .fuel
  | n + 1, s =>
    match peek s ['('] with
    | (true, s) => parseblock n s
    | (false, s) => do
      let (ret, s) ← parseredirs n (.exec []) s
      parseargs n 0 ret s

end

/-- Store a 0 at a pointer into the line `s`. -/
def terminate (s : List Char) (buf eq : List Char) : List Char :=
  buf.set (s.length - eq.length) '\x00'

/-- NUL-terminate all the counted strings. -/
def nulterminate (s : List Char) : Cmd Span → List Char → List Char
  | .exec argv, buf => argv.foldl (fun buf w => terminate s buf w.eq) buf
  | .redir cmd file _ _, buf => terminate s (nulterminate s cmd buf) file.eq
  | .pipe left right, buf => nulterminate s right (nulterminate s left buf)
  | .list left right, buf => nulterminate s right (nulterminate s left buf)
  | .back cmd, buf => nulterminate s cmd buf

/-- The string at a pointer into the line `s`, when the buffer has become `buf`. -/
def string (s buf q : List Char) : List Char :=
  (buf.drop (s.length - q.length)).takeWhile (· ≠ '\x00')

/-- Parse a command line. -/
def parsecmd (s : List Char) : Except Stop (Cmd (List Char)) := do
  let (cmd, rest) ← parseline (4 * s.length + 4) s
  if (peek rest []).2 ≠ [] then throw (.panic "syntax")
  else
    let buf := nulterminate s cmd s
    return cmd.map fun w => string s buf w.q

example : parsecmd "ls -l | wc >out; (sleep 9 &)".toList =
    .ok (.list
      (.pipe (.exec ["ls".toList, "-l".toList])
        (.redir (.exec ["wc".toList]) "out".toList (O_WRONLY ||| O_CREATE) 1))
      (.back (.exec ["sleep".toList, "9".toList]))) := by
  decide +kernel

end Xv6.Shell
