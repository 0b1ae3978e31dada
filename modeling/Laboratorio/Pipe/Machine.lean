import Laboratorio.Lib.Runs

/-!
Processes in `pipewrite`, `piperead` and `pipeclose` of `xv6/pipe.c` on one pipe, and in `kill`. A step is what is done between
two operations on `p->lock` or `ptable.lock`, or one round of a loop.
-/

namespace Laboratorio.Pipe

open Function

def pipesize : ℕ := 512

inductive Chan
  | nread | nwrite
  deriving DecidableEq, Repr

/-- Where a process is. In `pipewrite`, `i` bytes of `src` are stored and `fresh` says that some are stored since the last
`wakeup(&p->nread)`; in `piperead`, `i` of `n` bytes are read. The last step of a call returns its value, `none` for -1. -/
inductive Pc
  | idle
  | writeAcquire (src : List UInt8)
  | writeLoop (src : List UInt8) (i : ℕ) (fresh : Bool)
  | writeFull (src : List UInt8) (i : ℕ) (fresh : Bool)
  | writeWakeup (src : List UInt8) (i : ℕ) (fresh : Bool)
  | writeSleep (src : List UInt8) (i : ℕ)
  | writeDrop (src : List UInt8) (i : ℕ)
  | writeDoze (src : List UInt8) (i : ℕ)
  | writeBack (src : List UInt8) (i : ℕ)
  | writeLast (src : List UInt8) (fresh : Bool)
  | writeRelease (r : Option ℕ)
  | readAcquire (n : ℕ)
  | readTest (n : ℕ)
  | readSleep (n : ℕ)
  | readDrop (n : ℕ)
  | readDoze (n : ℕ)
  | readBack (n : ℕ)
  | readCopy (n i : ℕ)
  | readLast (n i : ℕ)
  | readRelease (n : ℕ) (r : Option ℕ)
  | closeAcquire (writable : Bool)
  | closeSet (writable : Bool)
  | closeWakeup (writable : Bool)
  | closeRelease
  deriving DecidableEq, Repr

/-- `lock` is the process that holds `p->lock`, `ptable` the one that holds
`ptable.lock`. `sent` and `got` are the bytes stored and delivered so far. -/
structure State where
  data : ℕ → UInt8
  nread : UInt32
  nwrite : UInt32
  readopen : Bool
  writeopen : Bool
  lock : Option ℕ
  ptable : Option ℕ
  pc : ℕ → Pc
  asleep : ℕ → Option Chan
  killed : ℕ → Bool
  sent : List UInt8
  got : List UInt8

inductive Act
  | write (p : ℕ) (src : List UInt8)
  | read (p : ℕ) (n : ℕ)
  | close (p : ℕ) (writable : Bool)
  | kill (p : ℕ)
  | step (p : ℕ)

namespace State

def goto (s : State) (p : ℕ) (l : Pc) : State := { s with pc := update s.pc p l }

def acquire (s : State) (p : ℕ) (l : Pc) : Option State :=
  if s.lock = none then some { s.goto p l with lock := some p } else none

def release (s : State) (p : ℕ) (l : Pc) : State := { s.goto p l with lock := none }

def wakeup (s : State) (p : ℕ) (ch : Chan) (l : Pc) : Option State :=
  if s.ptable = none then
    some { s.goto p l with asleep := fun q => if s.asleep q = some ch then none else s.asleep q }
  else none

def sleepAcquire (s : State) (p : ℕ) (l : Pc) : Option State :=
  if s.ptable = none then some { s.goto p l with ptable := some p } else none

def doze (s : State) (p : ℕ) (ch : Chan) (l : Pc) :
    State := { s.goto p l with asleep := update s.asleep p (some ch), ptable := none }

def store (s : State) (b : UInt8) : State :=
  { s with data := update s.data (s.nwrite.toNat % pipesize) b, nwrite := s.nwrite + 1, sent := s.sent ++ [b] }

def deliver (s : State) : State :=
  { s with nread := s.nread + 1, got := s.got ++ [s.data (s.nread.toNat % pipesize)] }

def full (s : State) : Prop := s.nwrite = s.nread + UInt32.ofNat pipesize

instance (s : State) : Decidable s.full := inferInstanceAs (Decidable (_ = _))

def next (s : State) (p : ℕ) : Pc → Option State
  | .idle => none
  | .writeAcquire src => s.acquire p (.writeLoop src 0 false)
  | .writeLoop src i fresh =>
    match src[i]? with
    | none => some (s.goto p (.writeLast src fresh))
    | some b => if s.full then some (s.goto p (.writeFull src i fresh)) else some
      ((s.store b).goto p (.writeLoop src (i + 1) true))
  | .writeFull src i fresh =>
    if s.readopen = false ∨ s.killed p then some (s.goto p (.writeRelease none)) else some (s.goto p (.writeWakeup src i fresh))
  | .writeWakeup src i _ => s.wakeup p .nread (.writeSleep src i)
  | .writeSleep src i => s.sleepAcquire p (.writeDrop src i)
  | .writeDrop src i => some (s.release p (.writeDoze src i))
  | .writeDoze src i => some (s.doze p .nwrite (.writeBack src i))
  | .writeBack src i => if s.asleep p = none then s.acquire p (.writeLoop src i false) else none
  | .writeLast src _ => s.wakeup p .nread (.writeRelease (some src.length))
  | .writeRelease _ => some (s.release p .idle)
  | .readAcquire n => s.acquire p (.readTest n)
  | .readTest n =>
    if s.nread = s.nwrite ∧ s.writeopen then
      if s.killed p then some (s.goto p (.readRelease n none)) else some (s.goto p (.readSleep n))
    else some (s.goto p (.readCopy n 0))
  | .readSleep n => s.sleepAcquire p (.readDrop n)
  | .readDrop n => some (s.release p (.readDoze n))
  | .readDoze n => some (s.doze p .nread (.readBack n))
  | .readBack n => if s.asleep p = none then s.acquire p (.readTest n) else none
  | .readCopy n i =>
    if i < n ∧ s.nread ≠ s.nwrite then some (s.deliver.goto p (.readCopy n (i + 1))) else some (s.goto p (.readLast n i))
  | .readLast n i => s.wakeup p .nwrite (.readRelease n (some i))
  | .readRelease _ _ => some (s.release p .idle)
  | .closeAcquire writable => s.acquire p (.closeSet writable)
  | .closeSet writable =>
    some ((if writable then { s with writeopen := false } else { s with readopen := false }).goto p (.closeWakeup writable))
  | .closeWakeup writable => s.wakeup p (if writable then .nread else .nwrite) .closeRelease
  | .closeRelease => some (s.release p .idle)

def call (s : State) (p : ℕ) (l : Pc) : Option State := if s.pc p = .idle then some (s.goto p l) else none

def step (s : State) : Act → Option State
  | .write p src => s.call p (.writeAcquire src)
  | .read p n => s.call p (.readAcquire n)
  | .close p writable => s.call p (.closeAcquire writable)
  | .kill p =>
    if s.ptable = none then some { s with killed := update s.killed p true, asleep := update s.asleep p none } else none
  | .step p => s.next p (s.pc p)

end State

def start (data : ℕ → UInt8) : State :=
  ⟨data, 0, 0, true, true, none, none, fun _ => .idle, fun _ => none, fun _ => false, [], []⟩

end Laboratorio.Pipe
