import Laboratorio.Lib.Runs
import Laboratorio.Param

/-!
The log of `xv6/log.c`, with the buffer cache it goes through and the disk under it, driven by any
number of processes. Every action makes at most one disk write, so a crash between two actions is a
crash after any single disk write.
-/

namespace Laboratorio.Log

open Function

abbrev Block := ℕ → ℕ

def getHeader (b : Block) : List ℕ := (List.range (b 0)).map (fun i => b (i + 1))

def putHeader (lh : List ℕ) (b : Block) : Block
  | 0 => lh.length
  | i + 1 => (lh[i]?).getD (b (i + 1))

structure Buf where
  data : Block
  dirty : Bool
  holder : Option ℕ

/-- Where a process stands: outside any operation, between `begin_op` and `end_op`, or inside
`log_write` of a buffer it has changed, past the size test and before the critical section. -/
inductive Pc
  | out
  | inOp
  | logging (b : ℕ) (v : Block)

/-- Where the log code stands: `writing`, `installing` and `finishing` are the steps of `commit`,
`booting` and `installing true` those of `recover_from_log`. -/
inductive Ctl
  | idle
  | writing (tail : ℕ)
  | installing (recovering : Bool) (tail : ℕ)
  | finishing
  | booting
  | panicked
  deriving DecidableEq

/-- `bufs` are the blocks that the `NBUF` buffers hold, `readers` those whose buffer is held to be
read, and `noBuffers` tells that `bget` has panicked. -/
structure Sys where
  start : ℕ
  size : ℕ
  disk : ℕ → Block
  cache : ℕ → Option Buf
  bufs : Finset ℕ
  readers : List ℕ
  lh : List ℕ
  outstanding : ℕ
  ctl : Ctl
  pc : ℕ → Pc
  noBuffers : Bool

inductive Act
  | beginOp (p : ℕ)
  | logWrite (p b : ℕ) (v : Block)
  | logAppend (p : ℕ)
  | endOp (p : ℕ)
  | writeLog
  | writeHead
  | install
  | clear
  | finish
  | readHead
  | read (b : ℕ)
  | brelse (b : ℕ)
  | evict (b : ℕ)
  | crash

namespace Sys

def view (s : Sys) (b : ℕ) : Block :=
  match s.cache b with
  | some buf => buf.data
  | none => s.disk b

def bread (s : Sys) (b : ℕ) : Sys :=
  match s.cache b with
  | some _ => s
  | none => { s with cache := update s.cache b (some ⟨s.disk b, false, none⟩), bufs := insert b s.bufs }

def bwrite (s : Sys) (b : ℕ) (v : Block) : Sys :=
  { s with disk := update s.disk b v, cache := update s.cache b (some ⟨v, false, none⟩) }

def committing (s : Sys) : Bool :=
  match s.ctl with
  | .writing _ | .installing false _ | .finishing => true
  | _ => false

def panic (s : Sys) : Sys := { s with ctl := .panicked }

def beginOp (s : Sys) (p : ℕ) : Option Sys :=
  match s.ctl, s.pc p with
  | .idle, .out =>
    if s.lh.length + (s.outstanding + 1) * maxopblocks > logsize then none
    else some { s with outstanding := s.outstanding + 1, pc := update s.pc p .inOp }
  | _, _ => none

/-- The caller holds buffer `b`, has changed its contents to `v` and enters `log_write`, which makes
its two tests before it takes `log.lock`. -/
def logWrite (s : Sys) (p b : ℕ) (v : Block) : Option Sys :=
  let buf := (s.cache b).getD ⟨s.disk b, false, none⟩
  match s.pc p, buf.holder with
  | .inOp, none =>
    if s.lh.length ≥ logsize ∨ s.lh.length ≥ s.size - 1 then some s.panic
    else if s.outstanding < 1 then some s.panic
    else some { s with
      cache := update s.cache b (some ⟨v, buf.dirty, some p⟩)
      bufs := insert b s.bufs
      pc := update s.pc p (.logging b v) }
  | _, _ => none

def logAppend (s : Sys) (p : ℕ) : Option Sys :=
  match s.pc p with
  | .logging b v =>
    some { s with
      lh := if b ∈ s.lh then s.lh else s.lh ++ [b]
      cache := update s.cache b (some ⟨v, true, none⟩)
      pc := update s.pc p .inOp }
  | _ => none

def endOp (s : Sys) (p : ℕ) : Option Sys :=
  match s.pc p with
  | .inOp =>
    let s := { s with outstanding := s.outstanding - 1, pc := update s.pc p .out }
    if s.committing then some s.panic
    else if s.outstanding = 0 then some { s with ctl := if s.lh = [] then .finishing else .writing 0 }
    else some s
  | _ => none

def writeHead (s : Sys) : Sys :=
  let s := s.bread s.start
  s.bwrite s.start (putHeader s.lh (s.view s.start))

def writeLog (s : Sys) (tail b : ℕ) : Sys :=
  let s := (s.bread (s.start + tail + 1)).bread b
  s.bwrite (s.start + tail + 1) (s.view b)

def install (s : Sys) (tail b : ℕ) : Sys :=
  let s := (s.bread (s.start + tail + 1)).bread b
  s.bwrite b (s.view (s.start + tail + 1))

def crash (s : Sys) : Sys :=
  ⟨s.start, s.size, s.disk, fun _ => none, ∅, [], [], 0, .booting, fun _ => .out, false⟩

def evict (s : Sys) (b : ℕ) : Option Sys :=
  match s.cache b with
  | some ⟨_, false, none⟩ =>
    if b ∈ s.readers then none else some { s with cache := update s.cache b none, bufs := s.bufs.erase b }
  | _ => none

/-- `bget` for the buffers that an action takes from `s` to `s'`. When there are none left, it
recycles one that is clean and not held, which is an `evict` before the action, or panics. -/
def bget (s s' : Sys) : Option Sys :=
  if s'.bufs.card ≤ nbuf then some s'
  else if ∃ b ∈ s.bufs, (s.evict b).isSome then none
  else some { s with noBuffers := true }

def act (s : Sys) : Act → Option Sys
  | .beginOp p => s.beginOp p
  | .logWrite p b v => s.logWrite p b v
  | .logAppend p => s.logAppend p
  | .endOp p => s.endOp p
  | .writeLog =>
    match s.ctl with
    | .writing tail => (s.lh[tail]?).map (fun b => { s.writeLog tail b with ctl := .writing (tail + 1) })
    | _ => none
  | .writeHead =>
    match s.ctl with
    | .writing tail => if tail = s.lh.length then some { s.writeHead with ctl := .installing false 0 } else none
    | _ => none
  | .install =>
    match s.ctl with
    | .installing r tail => (s.lh[tail]?).map (fun b => { s.install tail b with ctl := .installing r (tail + 1) })
    | _ => none
  | .clear =>
    match s.ctl with
    | .installing r tail =>
      if tail = s.lh.length then
        some { ({ s with lh := [] } : Sys).writeHead with ctl := if r then .idle else .finishing }
      else none
    | _ => none
  | .finish => if s.ctl = .finishing then some { s with ctl := .idle } else none
  | .readHead =>
    if s.ctl = .booting then
      some { s.bread s.start with lh := getHeader (s.view s.start), ctl := .installing true 0 }
    else none
  | .read b => some { s.bread b with readers := b :: s.readers }
  | .brelse b => if b ∈ s.readers then some { s with readers := s.readers.erase b } else none
  | .evict b => s.evict b
  | .crash => none

def step (s : Sys) (a : Act) : Option Sys :=
  match a with
  | .crash => some s.crash
  | a => if s.ctl = .panicked ∨ s.noBuffers then none else (s.act a).bind s.bget

end Sys

def boot (start size : ℕ) (disk : ℕ → Block) : Sys :=
  ⟨start, size, disk, fun _ => none, ∅, [], [], 0, .booting, fun _ => .out, false⟩

end Laboratorio.Log
