import Laboratorio.Procs.Calls

/-!
Any number of CPUs running `scheduler` and the processes it picks, interleaved at the granularity
of `ptable.lock`: what is done between `acquire` and `release` or `sched` is one action, and so is
each write to the table that `fork` makes without the lock.
-/

namespace Laboratorio.Procs

open Runs Function

/-- `scan i` is the scheduler's loop at slot `i`, holding the lock; `thread p` is a CPU whose
`proc` is `p`. -/
inductive Cpu
  | idle
  | scan (i : ℕ)
  | thread (p : Slot)
  deriving DecidableEq

def Cpu.proc : Cpu → Option Slot
  | .thread p => some p
  | _ => none

inductive Loc
  | user
  | forkKstack (np : Slot)
  | forkCopy (np : Slot)
  | forkRun (np : Slot)
  | dead
  deriving DecidableEq

inductive Resume
  | forkret | yield | sleep | wait
  deriving DecidableEq

structure Machine where
  ptable : Ptable
  initproc : Slot
  lock : Option ℕ
  cpu : ℕ → Cpu
  loc : Slot → Loc
  resume : Slot → Option Resume

inductive Act
  | alloc (c : ℕ)
  | kstack (c : ℕ) (ok : Bool)
  | copy (c : ℕ) (ok : Bool)
  | forkRun (c : ℕ)
  | exit (c : ℕ)
  | wait (c : ℕ)
  | kill (c : ℕ) (pid : Int32)
  | yield (c : ℕ)
  | sleep (c : ℕ) (addr : ℕ)
  | wakeup (addr : ℕ)
  | resume (c : ℕ)
  | schedule (c : ℕ)
  | scan (c : ℕ)

namespace Machine

def current (m : Machine) (c : ℕ) : Option Slot :=
  match m.cpu c with
  | .thread p => if m.resume p = none then some p else none
  | _ => none

/-- `sched()` called by `p` with the lock held: the scheduler of `c` goes on after slot `p`. -/
def sched (m : Machine) (c : ℕ) (p : Slot) (t : Ptable) (r : Option Resume) : Machine :=
  { m with ptable := t, lock := some c, cpu := update m.cpu c (.scan (p + 1)), resume := update m.resume p r }

def waitLoop (m : Machine) (c : ℕ) (p : Slot) : Machine :=
  match wait m.ptable p with
  | .reaped _ _ t => { m with ptable := t, lock := none, resume := update m.resume p none }
  | .failed => { m with lock := none, resume := update m.resume p none }
  | .sleep => m.sched c p (waitSleep m.ptable p) (some .wait)

def resumed (m : Machine) (c : ℕ) (p : Slot) : Resume → Machine
  | .forkret => { m with lock := none, resume := update m.resume p none }
  | .yield => { m with lock := none, resume := update m.resume p none }
  | .sleep => { m with ptable := m.ptable.setChan p none, lock := none, resume := update m.resume p none }
  | .wait => waitLoop { m with ptable := m.ptable.setChan p none } c p

def processStep (m : Machine) (c : ℕ) (p : Slot) : Act → Option Machine
  | .alloc _ =>
    if m.lock = none ∧ m.loc p = .user then
      match allocproc m.ptable with
      | none => some m
      | some (np, t) => some { m with ptable := t, loc := update m.loc p (.forkKstack np) }
    else none
  | .kstack _ ok =>
    match m.loc p with
    | .forkKstack np =>
      if ok then some { m with loc := update m.loc p (.forkCopy np) }
      else some { m with ptable := m.ptable.setState np .unused, loc := update m.loc p .user }
    | _ => none
  | .copy _ ok =>
    match m.loc p with
    | .forkCopy np =>
      if ok then some { m with ptable := m.ptable.setParent np (some p), loc := update m.loc p (.forkRun np) }
      else some { m with ptable := m.ptable.setState np .unused, loc := update m.loc p .user }
    | _ => none
  | .forkRun _ =>
    match m.loc p with
    | .forkRun np =>
      if m.lock = none then
        some { m with ptable := m.ptable.setState np .runnable
                      loc := update (update m.loc p .user) np .user
                      resume := update m.resume np (some .forkret) }
      else none
    | _ => none
  | .exit _ =>
    if m.lock = none ∧ m.loc p = .user ∧ p ≠ m.initproc then
      some { m.sched c p (exit m.ptable p m.initproc) none with loc := update m.loc p .dead }
    else none
  | .wait _ => if m.lock = none ∧ m.loc p = .user then some (m.waitLoop c p) else none
  | .kill _ pid =>
    if m.lock = none ∧ m.loc p = .user then some { m with ptable := (kill m.ptable pid).1 } else none
  | .yield _ =>
    if m.lock = none then some (m.sched c p (m.ptable.setState p .runnable) (some .yield)) else none
  | .sleep _ addr =>
    if m.lock = none ∧ m.loc p = .user then
      some (m.sched c p ((m.ptable.setChan p (some (.other addr))).setState p .sleeping) (some .sleep))
    else none
  | _ => none

def scanStep (m : Machine) (c : ℕ) (i : ℕ) : Machine :=
  if h : i < nproc then
    if (m.ptable.proc ⟨i, h⟩).state = .runnable then
      { m with ptable := m.ptable.setState ⟨i, h⟩ .running, cpu := update m.cpu c (.thread ⟨i, h⟩) }
    else { m with cpu := update m.cpu c (.scan (i + 1)) }
  else { m with cpu := update m.cpu c .idle, lock := none }

def step (m : Machine) (a : Act) : Option Machine :=
  match a with
  | .wakeup addr =>
    if m.lock = none then some { m with ptable := wakeup1 m.ptable (some (.other addr)) } else none
  | .schedule c =>
    if m.cpu c = .idle ∧ m.lock = none then some { m with cpu := update m.cpu c (.scan 0), lock := some c } else none
  | .scan c =>
    match m.cpu c with
    | .scan i => some (m.scanStep c i)
    | _ => none
  | .resume c =>
    match m.cpu c with
    | .thread p => (m.resume p).map (m.resumed c p)
    | _ => none
  | .alloc c | .kstack c _ | .copy c _ | .forkRun c | .exit c | .wait c | .kill c _ | .yield c | .sleep c _ =>
    match m.current c with
    | some p => m.processStep c p a
    | none => none

end Machine

def bootMachine : Machine :=
  ⟨bootTable, 0, none, fun _ => .idle, update (fun _ => .dead) 0 .user, update (fun _ => none) 0 (some .forkret)⟩

end Laboratorio.Procs
