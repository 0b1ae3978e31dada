import Laboratorio.Lib.Runs

/-!
The input side of `xv6/console.c`: `consoleintr` and any number of processes in `consoleread`. A call of `consoleintr` is one
step; a step of `consoleread` is one round of its loop, with `cons.lock` held.
-/

namespace Laboratorio.Console

open Function

def inputBuf : ℕ := 128

def ctrl (x : Char) : UInt8 := x.toUInt8 - '@'.toUInt8

def newline : UInt8 := '\n'.toUInt8

/-- Where a process is in `consoleread`: waiting for `cons.lock`, at the head of the loop with the lock, or asleep. `n` bytes
are still to be read, and `got` is what has been stored at `dst`. -/
inductive Pc
  | idle
  | acquire (target : UInt32) (n : Int32) (got : List UInt8)
  | loop (target : UInt32) (n : Int32) (got : List UInt8)
  | asleep (target : UInt32) (n : Int32) (got : List UInt8)
  | returned (target : UInt32) (value : Int32) (got : List UInt8)
  deriving DecidableEq

/-- `committed` records the characters that `input.w` has been moved past,
`stored` the bytes that the calls of `consoleread` have stored. -/
structure State (P : Type) where
  buf : ℕ → UInt8
  r : UInt32
  w : UInt32
  e : UInt32
  lock : Option P
  pc : P → Pc
  killed : P → Bool
  committed : List UInt8
  stored : List UInt8

inductive Act (P : Type)
  | consoleintr (keys : List UInt8)
  | consoleread (p : P) (n : Int32)
  | kill (p : P)
  | step (p : P)

namespace State

variable {P : Type} [DecidableEq P] (s : State P)

def index (x : UInt32) : ℕ := (x % 128).toNat

def window (a b : UInt32) : List UInt8 := (List.range (b - a).toNat).map fun i => s.buf (index (a + UInt32.ofNat i))

def wakeup : State P :=
  { s with pc := fun p =>
      match s.pc p with
      | .asleep target n got => .acquire target n got
      | l => l }

def commit : State P := { s.wakeup with w := s.e, committed := s.committed ++ s.window s.w s.e }

def killLine : ℕ → State P → State P
  | 0, s => s
  | k + 1, s => if s.e ≠ s.w ∧ s.buf (index (s.e - 1)) ≠ newline then killLine k { s with e := s.e - 1 } else s

def key (c : UInt8) : State P :=
  if c = ctrl 'P' then s
  else if c = ctrl 'U' then s.killLine (s.e - s.w).toNat
  else if c = ctrl 'H' ∨ c = 0x7f then if s.e ≠ s.w then { s with e := s.e - 1 } else s
  else if c ≠ 0 ∧ s.e - s.r < 128 then
    let c := if c = '\r'.toUInt8 then newline else c
    let s := { s with buf := update s.buf (index s.e) c, e := s.e + 1 }
    if c = newline ∨ c = ctrl 'D' ∨ s.e = s.r + 128 then s.commit else s
  else s

def goto (p : P) (l : Pc) : State P := { s with pc := update s.pc p l }

def finish (p : P) (target : UInt32) (n : Int32) (got : List UInt8) : State P :=
  { s.goto p (.returned target (target - n.toUInt32).toInt32 got) with lock := none }

def round (p : P) (target : UInt32) (n : Int32) (got : List UInt8) : State P :=
  if n ≤ 0 then s.finish p target n got
  else if s.r = s.w then
    if s.killed p then { s.goto p (.returned target (-1) got) with lock := none }
    else { s.goto p (.asleep target n got) with lock := none }
  else
    let c := s.buf (index s.r)
    let s := { s with r := s.r + 1 }
    if c = ctrl 'D' then
      let s := if n.toUInt32 < target then { s with r := s.r - 1 } else s
      s.finish p target n got
    else
      let s := { s with stored := s.stored ++ [c] }
      if c = newline then s.finish p target (n - 1) (got ++ [c])
      else s.goto p (.loop target (n - 1) (got ++ [c]))

def next (p : P) : Pc → Option (State P)
  | .acquire target n got => if s.lock = none then some { s.goto p (.loop target n got) with lock := some p } else none
  | .loop target n got => some (s.round p target n got)
  | _ => none

def step : Act P → Option (State P)
  | .consoleintr keys => if s.lock = none then some (keys.foldl key s) else none
  | .consoleread p n =>
    match s.pc p with
    | .idle | .returned _ _ _ => some (s.goto p (.acquire n.toUInt32 n []))
    | _ => none
  | .kill p =>
    some { s with
      killed := update s.killed p true
      pc := match s.pc p with
        | .asleep target n got => update s.pc p (.acquire target n got)
        | _ => s.pc }
  | .step p => s.next p (s.pc p)

end State

def boot {P : Type} (buf : ℕ → UInt8) : State P := ⟨buf, 0, 0, 0, none, fun _ => .idle, fun _ => false, [], []⟩

end Laboratorio.Console
