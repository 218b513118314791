import Xv6.Shell.Grammar

/-!
# The parser of the shell

`parsecmd` of `sh.c` and the functions it calls. A pointer into the line is the part of the line
from there on. The tree has pointers to words and to their ends, as offsets; `nulterminate` writes
zeros into the line at the ends. Calls and loops are given fuel. Memory for the tree is always
available.
-/
namespace Xv6.Shell

/-- A word in the line: from `q` up to `eq`. -/
structure Span where
  q : ℕ
  eq : ℕ
  deriving DecidableEq, Repr

inductive Stop
  | fuel
  | panic (message : String)
  deriving DecidableEq, Repr

def skip (s : List UInt8) : List UInt8 := s.dropWhile (· ∈ whitespace)

def skipWord (s : List UInt8) : List UInt8 := s.dropWhile fun c => c ∉ whitespace ∧ c ∉ symbols

/-- The switch of `gettoken`: the result, and the end of the token. -/
def scan : List UInt8 → UInt8 × List UInt8
  | [] => (0, [])
  | c :: s =>
    if c = 124 ∨ c = 40 ∨ c = 41 ∨ c = 59 ∨ c = 38 ∨ c = 60 then (c, s)
    else if c = 62 then
      match s with
      | [] => (62, [])
      | d :: s => if d = 62 then (43, s) else (62, d :: s)
    else (97, skipWord (c :: s))

/-- The result of `gettoken`, `q`, `eq`, and the new `ps`. -/
def gettoken (ps : List UInt8) : UInt8 × List UInt8 × List UInt8 × List UInt8 :=
  let q := skip ps
  let (ret, eq) := scan q
  (ret, q, eq, skip eq)

def peek (ps toks : List UInt8) : Bool × List UInt8 :=
  let s := skip ps
  match s with
  | [] => (false, s)
  | c :: _ => (c ∈ toks, s)

/-- Append a word to the `EXEC` node inside redirections: `cmd->argv[argc] = q`. -/
def Cmd.addArg {α : Type} (a : α) : Cmd α → Cmd α
  | .exec argv => .exec (argv ++ [a])
  | .redir cmd file mode fd => .redir (cmd.addArg a) file mode fd
  | c => c

section Parse

variable (es : ℕ)

/-- The offset of a pointer in a line of length `es`. -/
def ptr (s : List UInt8) : ℕ := es - s.length

def parseredirs : ℕ → Cmd Span → List UInt8 → Except Stop (Cmd Span × List UInt8)
  | 0, _, _ => .error .fuel
  | fuel + 1, cmd, ps =>
    let (found, ps) := peek ps [60, 62]
    if found then
      let (tok, _, _, ps) := gettoken ps
      let (ret, q, eq, ps) := gettoken ps
      if ret ≠ 97 then .error (.panic "missing file for redirection")
      else if tok = 60 then
        parseredirs fuel (.redir cmd ⟨ptr es q, ptr es eq⟩ 0 0) ps
      else if tok = 62 then
        parseredirs fuel (.redir cmd ⟨ptr es q, ptr es eq⟩ (0x001 ||| 0x200 ||| 0x400) 1) ps
      else if tok = 43 then
        parseredirs fuel (.redir cmd ⟨ptr es q, ptr es eq⟩ (0x001 ||| 0x200) 1) ps
      else parseredirs fuel cmd ps
    else .ok (cmd, ps)

/-- The loop of `parseexec`. -/
def parseargs : ℕ → ℕ → Cmd Span → List UInt8 → Except Stop (Cmd Span × List UInt8)
  | 0, _, _, _ => .error .fuel
  | fuel + 1, argc, ret, ps =>
    let (found, ps) := peek ps [124, 41, 38, 59]
    if found then .ok (ret, ps)
    else
      let (tok, q, eq, ps) := gettoken ps
      if tok = 0 then .ok (ret, ps)
      else if tok ≠ 97 then .error (.panic "syntax")
      else if argc + 1 ≥ maxArgs then .error (.panic "too many args")
      else do
        let (ret, ps) ← parseredirs es fuel (ret.addArg ⟨ptr es q, ptr es eq⟩) ps
        parseargs fuel (argc + 1) ret ps

/-- The loop of `parseline`. -/
def parsebacks : ℕ → Cmd Span → List UInt8 → Except Stop (Cmd Span × List UInt8)
  | 0, _, _ => .error .fuel
  | fuel + 1, cmd, ps =>
    let (found, ps) := peek ps [38]
    if found then
      let (_, _, _, ps) := gettoken ps
      parsebacks fuel (.back cmd) ps
    else .ok (cmd, ps)

mutual

def parseline : ℕ → List UInt8 → Except Stop (Cmd Span × List UInt8)
  | 0, _ => .error .fuel
  | fuel + 1, ps => do
    let (cmd, ps) ← parsepipe fuel ps
    let (cmd, ps) ← parsebacks fuel cmd ps
    let (found, ps) := peek ps [59]
    if found then
      let (_, _, _, ps) := gettoken ps
      let (right, ps) ← parseline fuel ps
      return (.list cmd right, ps)
    else return (cmd, ps)

def parsepipe : ℕ → List UInt8 → Except Stop (Cmd Span × List UInt8)
  | 0, _ => .error .fuel
  | fuel + 1, ps => do
    let (cmd, ps) ← parseexec fuel ps
    let (found, ps) := peek ps [124]
    if found then
      let (_, _, _, ps) := gettoken ps
      let (right, ps) ← parsepipe fuel ps
      return (.pipe cmd right, ps)
    else return (cmd, ps)

def parseexec : ℕ → List UInt8 → Except Stop (Cmd Span × List UInt8)
  | 0, _ => .error .fuel
  | fuel + 1, ps => do
    let (found, ps) := peek ps [40]
    if found then parseblock fuel ps
    else
      let (ret, ps) ← parseredirs es fuel (.exec []) ps
      parseargs es fuel 0 ret ps

def parseblock : ℕ → List UInt8 → Except Stop (Cmd Span × List UInt8)
  | 0, _ => .error .fuel
  | fuel + 1, ps => do
    let (found, ps) := peek ps [40]
    if found = false then throw (.panic "parseblock")
    let (_, _, _, ps) := gettoken ps
    let (cmd, ps) ← parseline fuel ps
    let (found, ps) := peek ps [41]
    if found = false then throw (.panic "syntax - missing )")
    let (_, _, _, ps) := gettoken ps
    parseredirs es fuel cmd ps

end

end Parse

/-- `nulterminate`: the line, with zeros after all words of the tree. -/
def nulterminate (buf : ℕ → UInt8) : Cmd Span → ℕ → UInt8
  | .exec argv => argv.foldl (fun buf w => Function.update buf w.eq 0) buf
  | .redir cmd file _ _ => Function.update (nulterminate buf cmd) file.eq 0
  | .pipe left right => nulterminate (nulterminate buf left) right
  | .list left right => nulterminate (nulterminate buf left) right
  | .back cmd => nulterminate buf cmd

/-- The tree, and the line that its pointers point into. -/
def parsecmd (fuel : ℕ) (line : List UInt8) : Except Stop (Cmd Span × (ℕ → UInt8)) := do
  let (cmd, s) ← parseline line.length fuel line
  let (_, s) := peek s []
  if s ≠ [] then throw (.panic "syntax")
  return (cmd, nulterminate (fun i => line.getD i 0) cmd)

/-- The string at a pointer, in a line of length `es`. -/
def cstr (es : ℕ) (buf : ℕ → UInt8) (w : Span) : List UInt8 :=
  ((List.range (es - w.q)).map fun i => buf (w.q + i)).takeWhile (· ≠ 0)

end Xv6.Shell
