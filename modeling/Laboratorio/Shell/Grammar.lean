import Mathlib

/-!
The command lines of the xv6 shell: their tokens, and the grammar these follow.
-/

namespace Laboratorio.Shell

def maxargs : ℕ := 10

/-- `struct cmd` with strings of type `σ`; `argv` ends before the null pointer. -/
inductive Cmd (σ : Type)
  | exec (argv : List σ)
  | redir (cmd : Cmd σ) (file : σ) (mode fd : ℕ)
  | pipe (left right : Cmd σ)
  | list (left right : Cmd σ)
  | back (cmd : Cmd σ)
  deriving DecidableEq

namespace Cmd

variable {σ τ : Type}

def map (f : σ → τ) : Cmd σ → Cmd τ
  | exec argv => exec (argv.map f)
  | redir cmd file mode fd => redir (cmd.map f) (f file) mode fd
  | pipe left right => pipe (left.map f) (right.map f)
  | list left right => list (left.map f) (right.map f)
  | back cmd => back (cmd.map f)

def strings : Cmd σ → List σ
  | exec argv => argv
  | redir cmd file _ _ => cmd.strings ++ [file]
  | pipe left right => left.strings ++ right.strings
  | list left right => left.strings ++ right.strings
  | back cmd => cmd.strings

end Cmd

def whitespace : List UInt8 := [' ', '\t', '\r', '\n', '\x0b'].map Char.toUInt8

def symbols : List UInt8 := ['<', '|', '>', '&', ';', '(', ')'].map Char.toUInt8

def isWord (c : UInt8) : Bool := c ∉ whitespace ∧ c ∉ symbols

inductive Token
  | word (text : List UInt8)
  | less
  | greater
  | append
  | bar
  | amp
  | semi
  | lparen
  | rparen
  deriving DecidableEq

def Token.ofSymbol (c : UInt8) : Option Token :=
  if c = '<'.toUInt8 then some less
  else if c = '>'.toUInt8 then some greater
  else if c = '|'.toUInt8 then some bar
  else if c = '&'.toUInt8 then some amp
  else if c = ';'.toUInt8 then some semi
  else if c = '('.toUInt8 then some lparen
  else if c = ')'.toUInt8 then some rparen
  else none

def tokens : List UInt8 → List Token
  | [] => []
  | c :: cs =>
    if c ∈ whitespace then tokens cs
    else if c = '>'.toUInt8 ∧ cs.head? = some '>'.toUInt8 then .append :: tokens cs.tail
    else
      match Token.ofSymbol c with
      | some t => t :: tokens cs
      | none => .word (c :: cs.takeWhile isWord) :: tokens (cs.dropWhile isWord)
termination_by cs => cs.length
decreasing_by
  · simp
  · rw [List.length_tail, List.length_cons]
    omega
  · simp
  · have := (List.dropWhile_sublist (p := isWord) (l := cs)).length_le
    rw [List.length_cons]
    omega

def oRdonly : ℕ := 0x000

def oWronly : ℕ := 0x001

def oCreate : ℕ := 0x200

inductive RedirOp
  | less
  | greater
  | append
  deriving DecidableEq

namespace RedirOp

def token : RedirOp → Token
  | less => .less
  | greater => .greater
  | append => .append

def mode : RedirOp → ℕ
  | less => oRdonly
  | greater => oWronly ||| oCreate
  | append => oWronly ||| oCreate

def fd : RedirOp → ℕ
  | less => 0
  | greater => 1
  | append => 1

end RedirOp

abbrev Redir := RedirOp × List UInt8

def redirTokens (rs : List Redir) : List Token := rs.flatMap fun r => [r.1.token, .word r.2]

def wrap (rs : List Redir) (t : Cmd (List UInt8)) : Cmd (List UInt8) := rs.foldl (fun t r => .redir t r.2 r.1.mode r.1.fd) t

abbrev Item := List UInt8 × List Redir

def itemTokens (items : List Item) : List Token := items.flatMap fun i => .word i.1 :: redirTokens i.2

inductive Nonterminal
  | line
  | pipe
  | exec

inductive Derives : Nonterminal → List Token → Cmd (List UInt8) → Prop
  | line {ts t} (k : ℕ) (h : Derives .pipe ts t) : Derives .line (ts ++ List.replicate k .amp) (Cmd.back^[k] t)
  | list {ts t ts' t'} (k : ℕ) (h : Derives .pipe ts t) (h' : Derives .line ts' t') :
    Derives .line (ts ++ (List.replicate k .amp ++ .semi :: ts')) (.list (Cmd.back^[k] t) t')
  | exec {ts t} (h : Derives .exec ts t) : Derives .pipe ts t
  | pipe {ts t ts' t'} (h : Derives .exec ts t) (h' : Derives .pipe ts' t') : Derives .pipe (ts ++ .bar :: ts') (.pipe t t')
  | block {ts t} (rs : List Redir) (h : Derives .line ts t) :
      Derives .exec (.lparen :: (ts ++ .rparen :: redirTokens rs)) (wrap rs t)
  | simple (rs : List Redir) (items : List Item) (h : items.length ≤ maxargs - 1) :
    Derives .exec (redirTokens rs ++ itemTokens items) (wrap (rs ++ items.flatMap Prod.snd) (.exec (items.map Prod.fst)))

end Laboratorio.Shell
