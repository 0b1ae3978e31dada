import Laboratorio.Lib.Bytes
import Laboratorio.Shell.Grammar

/-!
The parser of `xv6/sh.c`. The line is a string in memory and `s` is the
cursor `*ps`; loops and recursion get a number of rounds.
-/

namespace Laboratorio.Shell

/-- A text is printed and the shell exits, or there are not enough rounds. -/
inductive Stop
  | panic (text : String)
  | rounds
  deriving DecidableEq

/-- `strchr(t, c) != 0`: the terminator of `t` does not count. -/
def strchr (t : List UInt8) (c : UInt8) : Bool := t.contains c

def strlen (m : Bytes) : ℕ → ℕ → Except Stop ℕ
  | 0, _ => .error .rounds
  | n + 1, s => if m s = 0 then .ok 0 else do
    let k ← strlen m n (s + 1)
    return k + 1

/-- `while(s < es && p(*s)) s++;` -/
def scan (m : Bytes) (es : ℕ) (p : UInt8 → Bool) (s : ℕ) : ℕ :=
  loop (es - s) s
where
  loop : ℕ → ℕ → ℕ
    | 0, s => s
    | n + 1, s => if p (m s) then loop n (s + 1) else s

structure Got where
  ret : UInt8
  q : ℕ
  eq : ℕ
  s : ℕ
  deriving DecidableEq

def gettoken (m : Bytes) (es s : ℕ) : Got :=
  let q := scan m es (strchr whitespace) s
  let c := m q
  let (ret, eq) := if c = 0 then (c, q) else if c = '|'.toUInt8 ∨ c = '('.toUInt8 ∨ c = ')'.toUInt8 ∨ c = ';'.toUInt8 ∨
    c = '&'.toUInt8 ∨ c = '<'.toUInt8 then (c, q + 1) else if c = '>'.toUInt8 then
      if m (q + 1) = '>'.toUInt8 then ('+'.toUInt8, q + 2) else (c, q + 1)
    else ('a'.toUInt8, scan m es (fun c => !strchr whitespace c && !strchr symbols c) q)
  ⟨ret, q, eq, scan m es (strchr whitespace) eq⟩

def peek (m : Bytes) (es s : ℕ) (toks : List UInt8) : Bool × ℕ :=
  let s := scan m es (strchr whitespace) s
  (m s ≠ 0 && strchr toks (m s), s)

abbrev Span := ℕ × ℕ

def Cmd.push {σ : Type} (a : σ) : Cmd σ → Cmd σ
  | .exec argv => .exec (argv ++ [a])
  | .redir cmd file mode fd => .redir (cmd.push a) file mode fd
  | cmd => cmd

section parse

variable (m : Bytes) (es : ℕ)

def parseredirs : ℕ → Cmd Span → ℕ → Except Stop (Cmd Span × ℕ)
  | 0, _, _ => .error .rounds
  | n + 1, cmd, s =>
    match peek m es s ['<'.toUInt8, '>'.toUInt8] with
    | (false, s) => .ok (cmd, s)
    | (true, s) =>
      let tok := gettoken m es s
      let file := gettoken m es tok.s
      if file.ret ≠ 'a'.toUInt8 then .error (.panic "missing file for redirection")
      else
        let cmd :=
          if tok.ret = '<'.toUInt8 then .redir cmd (file.q, file.eq) oRdonly 0
          else if tok.ret = '>'.toUInt8 then .redir cmd (file.q, file.eq) (oWronly ||| oCreate) 1
          else if tok.ret = '+'.toUInt8 then .redir cmd (file.q, file.eq) (oWronly ||| oCreate) 1
          else cmd
        parseredirs n cmd file.s

def parseargs : ℕ → Cmd Span → ℕ → ℕ → Except Stop (Cmd Span × ℕ)
  | 0, _, _, _ => .error .rounds
  | n + 1, ret, argc, s =>
    match peek m es s ['|'.toUInt8, ')'.toUInt8, '&'.toUInt8, ';'.toUInt8] with
    | (true, s) => .ok (ret, s)
    | (false, s) =>
      let tok := gettoken m es s
      if tok.ret = 0 then .ok (ret, tok.s)
      else if tok.ret ≠ 'a'.toUInt8 then .error (.panic "syntax")
      else if argc + 1 ≥ maxargs then .error (.panic "too many args")
      else do
        let (ret, s) ← parseredirs m es n (ret.push (tok.q, tok.eq)) tok.s
        parseargs n ret (argc + 1) s

def parsebacks : ℕ → Cmd Span → ℕ → Except Stop (Cmd Span × ℕ)
  | 0, _, _ => .error .rounds
  | n + 1, cmd, s =>
    match peek m es s ['&'.toUInt8] with
    | (false, s) => .ok (cmd, s)
    | (true, s) => parsebacks n (.back cmd) (gettoken m es s).s

mutual

def parseline : ℕ → ℕ → Except Stop (Cmd Span × ℕ)
  | 0, _ => .error .rounds
  | n + 1, s => do
    let (cmd, s) ← parsepipe n s
    let (cmd, s) ← parsebacks m es n cmd s
    match peek m es s [';'.toUInt8] with
    | (false, s) => .ok (cmd, s)
    | (true, s) => do
      let (right, s) ← parseline n (gettoken m es s).s
      .ok (.list cmd right, s)

def parsepipe : ℕ → ℕ → Except Stop (Cmd Span × ℕ)
  | 0, _ => .error .rounds
  | n + 1, s => do
    let (cmd, s) ← parseexec n s
    match peek m es s ['|'.toUInt8] with
    | (false, s) => .ok (cmd, s)
    | (true, s) => do
      let (right, s) ← parsepipe n (gettoken m es s).s
      .ok (.pipe cmd right, s)

def parseblock : ℕ → ℕ → Except Stop (Cmd Span × ℕ)
  | 0, _ => .error .rounds
  | n + 1, s =>
    match peek m es s ['('.toUInt8] with
    | (false, _) => .error (.panic "parseblock")
    | (true, s) => do
      let (cmd, s) ← parseline n (gettoken m es s).s
      match peek m es s [')'.toUInt8] with
      | (false, _) => .error (.panic "syntax - missing )")
      | (true, s) => parseredirs m es n cmd (gettoken m es s).s

def parseexec : ℕ → ℕ → Except Stop (Cmd Span × ℕ)
  | 0, _ => .error .rounds
  | n + 1, s =>
    match peek m es s ['('.toUInt8] with
    | (true, s) => parseblock n s
    | (false, s) => do
      let (ret, s) ← parseredirs m es n (.exec []) s
      parseargs m es n ret 0 s

end

end parse

def setNul (m : Bytes) (p : ℕ) : Bytes := Function.update m p 0

def nulterminate : Cmd Span → Bytes → Bytes
  | .exec argv, m => argv.foldl (fun m a => setNul m a.2) m
  | .redir cmd file _ _, m => setNul (nulterminate cmd m) file.2
  | .pipe left right, m => nulterminate right (nulterminate left m)
  | .list left right, m => nulterminate right (nulterminate left m)
  | .back cmd, m => nulterminate cmd m

def parsecmd (m : Bytes) (n s : ℕ) : Except Stop (Cmd Span × Bytes) := do
  let k ← strlen m n s
  let es := s + k
  let (cmd, s) ← parseline m es n s
  let (_, s) := peek m es s []
  if s ≠ es then .error (.panic "syntax") else .ok (cmd, nulterminate cmd m)

end Laboratorio.Shell
