import Laboratorio.Bio.Cache
import Laboratorio.Lib.Queue

/-!
The disk driver of `xv6/ide.c`. A step is one section of code under `idelock`, or what a process does before it takes that lock.
-/

namespace Laboratorio.Ide

open Bio Function

def fssize : ℕ := 1000

structure Command (D : Type) where
  drive : UInt32
  sector : UInt32
  write : Option D

/-- Where a process is: before `iderw` takes `idelock`, in its `sleep(b, &idelock)`, or back from that `sleep`. A request is
numbered by its place among all requests. -/
inductive Pc
  | run
  | enter (b : Buf)
  | asleep (b : Buf) (k : ℕ)
  | awake (b : Buf) (k : ℕ)
  deriving DecidableEq

/-- `device` holds the commands issued whose interrupt has not been taken. The last three fields record the buffers that were
appended to `idequeue`, handed to `idestart` and finished by `ideintr`. -/
structure State (P D : Type) where
  queue : Queue Buf
  ident : Buf → Ident
  valid : Buf → Bool
  dirty : Buf → Bool
  lock : Buf → Option P
  data : Buf → D
  havedisk1 : Bool
  device : List (Command D)
  disk : UInt32 × UInt32 → D
  pc : P → Pc
  requests : List Buf
  issued : List Buf
  finished : List Buf

/-- `acquire` and `release` are those of the buffer's sleep lock; the
holder may change the buffer, and anyone may while it is free. -/
inductive Act (P D : Type)
  | acquire (p : P) (b : Buf)
  | change (p : P) (b : Buf) (id : Ident) (valid dirty : Bool) (x : D)
  | release (p : P) (b : Buf)
  | iderw (p : P) (b : Buf)
  | step (p : P)
  | kill (p : P)
  | ideintr (ok : Bool)

namespace State

variable {P D : Type} [DecidableEq P] (s : State P D)

def synced (b : Buf) : Prop := s.valid b = true ∧ s.dirty b = false

instance (b : Buf) : Decidable (s.synced b) := inferInstanceAs (Decidable (_ ∧ _))

def command (b : Buf) : Command D :=
  ⟨(s.ident b).1 &&& 1, (s.ident b).2, if s.dirty b then some (s.data b) else none⟩

/-- A block is one sector long. There is no step from a panic. -/
def idestart (b : Buf) : Option (State P D) :=
  if fssize ≤ (s.ident b).2.toNat then none
  else some { s with device := s.device ++ [s.command b], issued := s.issued ++ [b] }

def await (p : P) (b : Buf) (k : ℕ) : State P D :=
  { s with pc := update s.pc p (if s.synced b then .run else .asleep b k) }

def enter (p : P) (b : Buf) : Option (State P D) :=
  match s.queue.push (nbuf + 1) b with
  | none => none
  | some q =>
    let k := s.requests.length
    let t : State P D := { s with queue := q, requests := s.requests ++ [b] }
    if q.head = some b then (t.idestart b).map fun u => u.await p b k else some (t.await p b k)

def wakeup (b : Buf) : State P D :=
  { s with pc := fun p =>
      match s.pc p with
      | .asleep b' k => if b' = b then .awake b' k else .asleep b' k
      | l => l }

/-- The body of `ideintr` for the first buffer of the queue, when the
controller has just carried out `c`; `ok` is what `idewait(1)` finds. -/
def finish (c : Command D) (ok : Bool) (b : Buf) : State P D :=
  let s : State P D := { s with
    queue := { s.queue with head := s.queue.next b }
    data := if s.dirty b = false ∧ ok then update s.data b (s.disk (c.drive, c.sector)) else s.data
    valid := update s.valid b true
    dirty := update s.dirty b false
    finished := s.finished ++ [b] }
  s.wakeup b

def perform (c : Command D) (cs : List (Command D)) : State P D :=
  { s with device := cs, disk := c.write.elim s.disk (update s.disk (c.drive, c.sector)) }

def ideintr (ok : Bool) : Option (State P D) :=
  match s.device with
  | [] => none
  | c :: cs =>
    let s := s.perform c cs
    match s.queue.head with
    | none => some s
    | some b =>
      let s := s.finish c ok b
      match s.queue.head with
      | none => some s
      | some b' => s.idestart b'

def next (p : P) : Pc → Option (State P D)
  | .enter b => s.enter p b
  | .awake b k => some (s.await p b k)
  | _ => none

def step : Act P D → Option (State P D)
  | .acquire p b => if s.pc p = .run ∧ s.lock b = none then some { s with lock := update s.lock b (some p) } else none
  | .change p b id v d x =>
    if s.pc p = .run ∧ (s.lock b = some p ∨ s.lock b = none) then
      some { s with
        ident := update s.ident b id, valid := update s.valid b v, dirty := update s.dirty b d, data := update s.data b x }
    else none
  | .release p b => if s.pc p = .run ∧ s.lock b = some p then some { s with lock := update s.lock b none } else none
  | .iderw p b =>
    if s.pc p = .run ∧ s.lock b = some p ∧ ¬ s.synced b ∧ ((s.ident b).1 = 0 ∨ s.havedisk1 = true) then
      some { s with pc := update s.pc p (.enter b) }
    else none
  | .step p => s.next p (s.pc p)
  | .kill p =>
    match s.pc p with
    | .asleep b k => some { s with pc := update s.pc p (.awake b k) }
    | _ => none
  | .ideintr ok => s.ideintr ok

end State

def ideinit {P D : Type} (next : Buf → Option Buf) (ident : Buf → Ident) (valid dirty : Buf → Bool) (lock : Buf → Option P)
    (data : Buf → D) (havedisk1 : Bool) (disk : UInt32 × UInt32 → D) : State P D :=
  ⟨⟨none, next⟩, ident, valid, dirty, lock, data, havedisk1, [], disk, fun _ => .run, [], [], []⟩

end Laboratorio.Ide
