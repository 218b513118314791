import Mathlib.Tactic

/-!
# The language of the shell

What a line of the shell is, without a parser: the tokens of a line, and which sequences of
tokens are derived from the grammar

    line  ::= pipe '&'* [';' line]
    pipe  ::= exec ['|' pipe]
    exec  ::= '(' line ')' redir* | redir* (word redir*)*
    redir ::= ('<' | '>' | '>>') word

with the tree of each derivation.
-/
namespace Xv6.Shell

/-- `struct cmd`; words and file names are of type `α`. -/
inductive Cmd (α : Type)
  | exec (argv : List α)
  | redir (cmd : Cmd α) (file : α) (mode fd : ℕ)
  | pipe (left right : Cmd α)
  | list (left right : Cmd α)
  | back (cmd : Cmd α)
  deriving DecidableEq, Repr

namespace Cmd

variable {α β : Type}

def map (f : α → β) : Cmd α → Cmd β
  | .exec argv => .exec (argv.map f)
  | .redir cmd file mode fd => .redir (cmd.map f) (f file) mode fd
  | .pipe left right => .pipe (left.map f) (right.map f)
  | .list left right => .list (left.map f) (right.map f)
  | .back cmd => .back (cmd.map f)

def names : Cmd α → List α
  | .exec argv => argv
  | .redir cmd file _ _ => cmd.names ++ [file]
  | .pipe left right => left.names ++ right.names
  | .list left right => left.names ++ right.names
  | .back cmd => cmd.names

theorem map_congr {f g : α → β} {c : Cmd α} (h : ∀ a ∈ c.names, f a = g a) :
    c.map f = c.map g := by
  induction c with
  | exec argv => exact congrArg exec (List.map_congr_left h)
  | redir cmd file mode fd ih =>
    simp only [names, List.mem_append, List.mem_singleton] at h
    rw [map, map, ih fun a ha => h a (.inl ha), h file (.inr rfl)]
  | pipe left right ihl ihr =>
    simp only [names, List.mem_append] at h
    rw [map, map, ihl fun a ha => h a (.inl ha), ihr fun a ha => h a (.inr ha)]
  | list left right ihl ihr =>
    simp only [names, List.mem_append] at h
    rw [map, map, ihl fun a ha => h a (.inl ha), ihr fun a ha => h a (.inr ha)]
  | back cmd ih => rw [map, map, ih h]

end Cmd

/-- `whitespace`: blank, tab, carriage return, newline and vertical tab. -/
def whitespace : List UInt8 := [32, 9, 13, 10, 11]

/-- `symbols`: the characters `<|>&;()`. -/
def symbols : List UInt8 := [60, 124, 62, 38, 59, 40, 41]

def maxArgs : ℕ := 10

inductive Token
  | bar
  | lparen
  | rparen
  | semi
  | amp
  | lt
  | gt
  | append
  | word (w : List UInt8)
  deriving DecidableEq, Repr

/-- Symbols other than `>`, which may be doubled. -/
def symbolOf (c : UInt8) : Option Token :=
  if c = 124 then some .bar
  else if c = 40 then some .lparen
  else if c = 41 then some .rparen
  else if c = 59 then some .semi
  else if c = 38 then some .amp
  else if c = 60 then some .lt
  else none

def flush (w : List UInt8) : List Token := if w = [] then [] else [.word w]

/-- The tokens of the rest of a line, after a part `w` of a word. -/
def lexFrom (w : List UInt8) : List UInt8 → List Token
  | [] => flush w
  | [c] =>
    if c ∈ whitespace then flush w
    else if c = 62 then flush w ++ [.gt]
    else match symbolOf c with
      | some t => flush w ++ [t]
      | none => [.word (w ++ [c])]
  | c :: d :: s =>
    if c ∈ whitespace then flush w ++ lexFrom [] (d :: s)
    else if c = 62 then
      if d = 62 then flush w ++ .append :: lexFrom [] s else flush w ++ .gt :: lexFrom [] (d :: s)
    else match symbolOf c with
      | some t => flush w ++ t :: lexFrom [] (d :: s)
      | none => lexFrom (w ++ [c]) (d :: s)

def lex (line : List UInt8) : List Token := lexFrom [] line

/-- `O_RDONLY`, `O_WRONLY | O_CREATE | O_TRUNC`, and `O_WRONLY | O_CREATE`. -/
inductive Direction
  | input
  | output
  | append
  deriving DecidableEq, Repr

namespace Direction

def token : Direction → Token
  | .input => .lt
  | .output => .gt
  | .append => .append

def mode : Direction → ℕ
  | .input => 0
  | .output => 0x001 ||| 0x200 ||| 0x400
  | .append => 0x001 ||| 0x200

def fd : Direction → ℕ
  | .input => 0
  | .output => 1
  | .append => 1

end Direction

/-- Redirections around a command, the first one innermost. -/
def wrap {α : Type} (c : Cmd α) (rs : List (Direction × α)) : Cmd α :=
  rs.foldl (fun c r => .redir c r.2 r.1.mode r.1.fd) c

inductive Redirs : List Token → List (Direction × List UInt8) → Prop
  | nil : Redirs [] []
  | cons (d : Direction) (w : List UInt8) {ts : List Token} {rs : List (Direction × List UInt8)} :
      Redirs ts rs → Redirs (d.token :: .word w :: ts) ((d, w) :: rs)

/-- `(word redir*)*`: the words, and the redirections among them. -/
inductive Args : List Token → List (List UInt8) → List (Direction × List UInt8) → Prop
  | nil : Args [] [] []
  | cons (w : List UInt8) {ts us : List Token} {ws : List (List UInt8)}
      {rs qs : List (Direction × List UInt8)} :
      Redirs ts rs → Args us ws qs → Args (.word w :: (ts ++ us)) (w :: ws) (rs ++ qs)

inductive Symbol
  | line
  | pipe
  | exec
  deriving DecidableEq, Repr

/-- `c` is the tree of a derivation of the tokens from the symbol. -/
inductive Derives : Symbol → List Token → Cmd (List UInt8) → Prop
  | line {ts : List Token} {c : Cmd (List UInt8)} (n : ℕ) :
      Derives .pipe ts c → Derives .line (ts ++ List.replicate n .amp) (Cmd.back^[n] c)
  | seq {ts us : List Token} {c d : Cmd (List UInt8)} (n : ℕ) :
      Derives .pipe ts c → Derives .line us d →
      Derives .line (ts ++ List.replicate n .amp ++ .semi :: us) (.list (Cmd.back^[n] c) d)
  | pipe {ts : List Token} {c : Cmd (List UInt8)} : Derives .exec ts c → Derives .pipe ts c
  | bar {ts us : List Token} {c d : Cmd (List UInt8)} :
      Derives .exec ts c → Derives .pipe us d → Derives .pipe (ts ++ .bar :: us) (.pipe c d)
  | block {ts us : List Token} {c : Cmd (List UInt8)} {rs : List (Direction × List UInt8)} :
      Derives .line ts c → Redirs us rs →
      Derives .exec (.lparen :: (ts ++ .rparen :: us)) (wrap c rs)
  | simple {ts us : List Token} {ws : List (List UInt8)} {rs qs : List (Direction × List UInt8)} :
      Redirs ts rs → Args us ws qs → ws.length ≤ maxArgs - 1 →
      Derives .exec (ts ++ us) (wrap (.exec ws) (rs ++ qs))

end Xv6.Shell
