import Laboratorio.Shell.Commands

/-!
The parser of `lab-02/sh.c`, which copies the words it finds. It agrees with that of xv6 on lines without `&;()` and `>>`.
-/

namespace Laboratorio.Shell

namespace Simplified

/-- `strchr(t, c) != 0` of the C library: the terminator of `t` counts. -/
def strchr (t : List UInt8) (c : UInt8) : Bool := t.contains c || c = 0

def symbols : List UInt8 := ['<', '|', '>'].map Char.toUInt8

def gettoken (m : Bytes) (es s : ℕ) : Got :=
  let q := scan m es (strchr whitespace) s
  let c := m q
  let (ret, eq) :=
    if c = 0 then (c, q)
    else if c = '|'.toUInt8 ∨ c = '<'.toUInt8 then (c, q + 1)
    else if c = '>'.toUInt8 then (c, q + 1)
    else ('a'.toUInt8, scan m es (fun c => !strchr whitespace c && !strchr symbols c) q)
  ⟨ret, q, eq, scan m es (strchr whitespace) eq⟩

def peek (m : Bytes) (es s : ℕ) (toks : List UInt8) : Bool × ℕ :=
  let s := scan m es (strchr whitespace) s
  (m s ≠ 0 && strchr toks (m s), s)

def strncpy (m : Bytes) : ℕ → ℕ → List UInt8
  | _, 0 => []
  | s, n + 1 => if m s = 0 then List.replicate (n + 1) 0 else m s :: strncpy m (s + 1) n

def mkcopy (m : Bytes) (s es : ℕ) : List UInt8 := strncpy m s (es - s) ++ [0]

def oCreat : ℕ := 0x40

def oTrunc : ℕ := 0x200

def redircmd (subcmd : Cmd (List UInt8)) (file : List UInt8) (type : UInt8) : Cmd (List UInt8) :=
  .redir subcmd file (if type = '<'.toUInt8 then oRdonly else oWronly ||| oCreat ||| oTrunc)
    (if type = '<'.toUInt8 then 0 else 1)

section parse

variable (m : Bytes) (es : ℕ)

def parseredirs : ℕ → Cmd (List UInt8) → ℕ → Except Stop (Cmd (List UInt8) × ℕ)
  | 0, _, _ => .error .rounds
  | n + 1, cmd, s =>
    match peek m es s ['<'.toUInt8, '>'.toUInt8] with
    | (false, s) => .ok (cmd, s)
    | (true, s) =>
      let tok := gettoken m es s
      let file := gettoken m es tok.s
      if file.ret ≠ 'a'.toUInt8 then .error (.panic "missing file for redirection\n")
      else
        let cmd :=
          if tok.ret = '<'.toUInt8 then redircmd cmd (mkcopy m file.q file.eq) '<'.toUInt8
          else if tok.ret = '>'.toUInt8 then redircmd cmd (mkcopy m file.q file.eq) '>'.toUInt8
          else cmd
        parseredirs n cmd file.s

def parseargs : ℕ → Cmd (List UInt8) → ℕ → ℕ → Except Stop (Cmd (List UInt8) × ℕ)
  | 0, _, _, _ => .error .rounds
  | n + 1, ret, argc, s =>
    match peek m es s ['|'.toUInt8] with
    | (true, s) => .ok (ret, s)
    | (false, s) =>
      let tok := gettoken m es s
      if tok.ret = 0 then .ok (ret, tok.s)
      else if tok.ret ≠ 'a'.toUInt8 then .error (.panic "syntax error\n")
      else if argc + 1 ≥ maxargs then .error (.panic "too many args\n")
      else do
        let (ret, s) ← parseredirs m es n (ret.push (mkcopy m tok.q tok.eq)) tok.s
        parseargs n ret (argc + 1) s

def parseexec : ℕ → ℕ → Except Stop (Cmd (List UInt8) × ℕ)
  | 0, _ => .error .rounds
  | n + 1, s => do
    let (ret, s) ← parseredirs m es n (.exec []) s
    parseargs m es n ret 0 s

def parsepipe : ℕ → ℕ → Except Stop (Cmd (List UInt8) × ℕ)
  | 0, _ => .error .rounds
  | n + 1, s => do
    let (cmd, s) ← parseexec m es n s
    match peek m es s ['|'.toUInt8] with
    | (false, s) => .ok (cmd, s)
    | (true, s) => do
      let (right, s) ← parsepipe n (gettoken m es s).s
      .ok (.pipe cmd right, s)

def parseline : ℕ → ℕ → Except Stop (Cmd (List UInt8) × ℕ)
  | 0, _ => .error .rounds
  | n + 1, s => parsepipe m es n s

end parse

def parsecmd (m : Bytes) (n s : ℕ) : Except Stop (Cmd (List UInt8)) := do
  let k ← strlen m n s
  let es := s + k
  let (cmd, s) ← parseline m es n s
  let (_, s) := peek m es s []
  if s ≠ es then .error (.panic "leftovers: %s\n") else .ok cmd

end Simplified

end Laboratorio.Shell
