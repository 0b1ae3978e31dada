import Laboratorio.Procs.Calls

/-!
CPUs running `scheduler` and the kernel threads it switches to, one `acquire`, `release`,
`swtch` or write to the process table at a time. Next to the functions of `xv6/proc.c` run
processes that wait for a condition under a lock `lk`, and processes that make it true.
-/

namespace Laboratorio.Procs

open Function

inductive Lock
  | ptable | other
  deriving DecidableEq

/-- What a kernel thread does in one step; `np` is the process that a `fork` is making. -/
inductive Instr
  | acquire (l : Lock)
  | release (l : Lock)
  | setChan (ch : Option Chan)
  | setState (st : Procstate)
  | swtch
  | wakeup1 (ch : Chan)
  | kill (pid : Int32)
  | allocproc
  | kstack (np : Slot)
  | copyuvm (np : Slot)
  | setRunnable (np : Slot)
  | reparent
  | waitScan
  | await
  | setCond (b : Bool)
  deriving DecidableEq

/-- What a CPU is doing: `scan i` is the scheduler's loop at slot `i`, `picked`,
`entering` and `back` are its steps around the `swtch` to a thread. -/
inductive Ctx
  | idle
  | scan (i : ℕ)
  | picked (p : Slot)
  | entering (p : Slot)
  | thread (p : Slot)
  | back (p : Slot)
  deriving DecidableEq

/-- `lock` is the CPU that holds `ptable.lock`, `proc` the `proc` of each CPU and `code` what is left of the function that a
thread is in. `epoch` counts how often the condition was made true, `tested` is the count when a thread last found it false, and
`owed` says who has made it true and not yet called `wakeup1`. -/
structure Threads where
  ptable : Ptable
  initproc : Slot
  lock : Option ℕ
  other : Option Slot
  ctx : ℕ → Ctx
  proc : ℕ → Option Slot
  code : Slot → List Instr
  cond : Bool
  epoch : ℕ
  tested : Slot → ℕ
  owed : Slot → Bool

def sleepCode (lk : Lock) (ch : Chan) : List Instr :=
  (if lk = .ptable then [] else [.acquire .ptable, .release lk]) ++
    [.setChan (some ch), .setState .sleeping, .swtch, .setChan none] ++
    (if lk = .ptable then [] else [.release .ptable, .acquire lk])

def yieldCode : List Instr := [.acquire .ptable, .setState .runnable, .swtch, .release .ptable]

def wakeupCode (ch : Chan) : List Instr := [.acquire .ptable, .wakeup1 ch, .release .ptable]

/-- The functions that a thread can call. `await` takes the lock, waits for the condition and may then make it false; `signal`
makes it true and calls `wakeup` before or after it gives up the lock. -/
inductive Func
  | yield
  | sleep (addr : ℕ)
  | wakeup (ch : Chan)
  | kill (pid : Int32)
  | fork
  | exit
  | wait
  | await (consume : Bool)
  | signal (early : Bool)
  | reset
  deriving DecidableEq

def Func.code (lk : Lock) (ch : Chan) : Func → List Instr
  | .yield => yieldCode
  | .sleep addr => [.acquire .ptable, .setChan (some (.other addr)), .setState .sleeping, .swtch, .setChan none,
    .release .ptable]
  | .wakeup ch => wakeupCode ch
  | .kill pid => [.acquire .ptable, .kill pid, .release .ptable]
  | .fork => [.acquire .ptable, .allocproc]
  | .exit => [.acquire .ptable, .reparent, .setState .zombie, .swtch]
  | .wait => [.acquire .ptable, .waitScan]
  | .await consume => [.acquire lk, .await] ++ (if consume then [.setCond false] else []) ++ [.release lk]
  | .signal early =>
    if early then [.acquire lk, .setCond true] ++ (if lk = .ptable then [.wakeup1 ch] else wakeupCode ch) ++ [.release lk]
    else [.acquire lk, .setCond true, .release lk] ++ wakeupCode ch
  | .reset => [.acquire lk, .setCond false, .release lk]

/-- `run c ok` is the next step of the code on CPU `c`; `ok` says whether `kalloc` and `copyuvm`
succeed, and whether a process that finds the condition false gives up. `timer c` is an interrupt
that makes a thread yield, `intr ch` a device's interrupt that wakes `ch` up. -/
inductive Move
  | start (c : ℕ) (f : Func)
  | timer (c : ℕ)
  | intr (ch : Chan)
  | run (c : ℕ) (ok : Bool)

namespace Threads

def next (m : Threads) (p : Slot) (k : List Instr) : Threads := { m with code := update m.code p k }

def instr (lk : Lock) (ch : Chan) (m : Threads) (c : ℕ) (p : Slot) (ok : Bool) (k : List Instr) : Instr → Option Threads
  | .acquire .ptable => if m.lock = none then some { m.next p k with lock := some c } else none
  | .acquire .other => if m.other = none then some { m.next p k with other := some p } else none
  | .release .ptable => if m.lock = some c then some { m.next p k with lock := none } else none
  | .release .other => if m.other = some p then some { m.next p k with other := none } else none
  | .setChan ch => some { m.next p k with ptable := m.ptable.setChan p ch }
  | .setState st => some { m.next p k with ptable := m.ptable.setState p st }
  | .swtch =>
    -- the panics of `sched`
    if m.lock = some c ∧ m.other ≠ some p ∧ m.ptable.states p ≠ .running then some { m.next p k with
      ctx := update m.ctx c (.back p) }
    else none
  | .wakeup1 ch' =>
    some { m.next p k with ptable := wakeup1 m.ptable (some ch'), owed := if ch' = ch then update m.owed p false else m.owed }
  | .kill pid => some { m.next p k with ptable := (Procs.kill m.ptable pid).1 }
  | .allocproc =>
    match Procs.allocproc m.ptable with
    | none => some (m.next p (.release .ptable :: k))
    | some (np, t) => some { m.next p (.release .ptable :: .kstack np :: k) with ptable := t }
  | .kstack np =>
    if ok then some (m.next p (.copyuvm np :: k)) else some { m.next p k with ptable := m.ptable.setState np .unused }
  | .copyuvm np =>
    if ok then
      some { m.next p (.acquire .ptable :: .setRunnable np :: .release .ptable :: k) with
        ptable := m.ptable.setParent np (some p) }
    else some { m.next p k with ptable := m.ptable.setState np .unused }
  | .setRunnable np => some { (m.next p k).next np [.release .ptable] with ptable := m.ptable.setState np .runnable }
  | .reparent =>
    some { m.next p k with ptable := reparentAll (Procs.wakeup1 m.ptable ((m.ptable.proc p).parent.map .proc)) p m.initproc }
  | .waitScan =>
    match Procs.wait m.ptable p with
    | .reaped _ _ t => some { m.next p (.release .ptable :: k) with ptable := t }
    | .failed => some (m.next p (.release .ptable :: k))
    | .sleep => some (m.next p (sleepCode .ptable (.proc p) ++ .waitScan :: k))
  | .await =>
    if m.cond ∨ ok then some (m.next p k)
    else some { m.next p (sleepCode lk ch ++ .await :: k) with tested := update m.tested p m.epoch }
  | .setCond b =>
    some { m.next p k with
      cond := b, epoch := if b then m.epoch + 1 else m.epoch, owed := if b then update m.owed p true else m.owed }

def scheduler (m : Threads) (c : ℕ) : Ctx → Option Threads
  | .idle => if m.lock = none then some { m with lock := some c, ctx := update m.ctx c (.scan 0) } else none
  | .scan i =>
    if h : i < nproc then
      if m.ptable.states ⟨i, h⟩ = .runnable then
        some { m with proc := update m.proc c (some ⟨i, h⟩), ctx := update m.ctx c (.picked ⟨i, h⟩) }
      else some { m with ctx := update m.ctx c (.scan (i + 1)) }
    else some { m with lock := none, ctx := update m.ctx c .idle }
  | .picked p => some { m with ptable := m.ptable.setState p .running, ctx := update m.ctx c (.entering p) }
  | .entering p => some { m with ctx := update m.ctx c (.thread p) }
  | .back p => some { m with proc := update m.proc c none, ctx := update m.ctx c (.scan (p + 1)) }
  | .thread _ => none

def step (lk : Lock) (ch : Chan) (m : Threads) : Move → Option Threads
  | .start c f =>
    match m.ctx c with
    | .thread p =>
      if m.code p = [] ∧ ¬ (p = m.initproc ∧ f = .exit) then some (m.next p (f.code lk ch))
      else none
    | _ => none
  | .timer c =>
    match m.ctx c with
    | .thread p => if m.lock ≠ some c ∧ m.other ≠ some p then some (m.next p (yieldCode ++ m.code p)) else none
    | _ => none
  | .intr ch' => if m.lock = none then some { m with ptable := wakeup1 m.ptable (some ch') } else none
  | .run c ok =>
    match m.ctx c with
    | .thread p =>
      match m.code p with
      | [] => none
      | i :: k => instr lk ch m c p ok k i
    | x => m.scheduler c x

end Threads

def bootThreads : Threads :=
  ⟨bootTable, 0, none, none, fun _ => .idle, fun _ => none, update (fun _ => []) 0 [.release .ptable], false, 0,
    fun _ => 0, fun _ => false⟩

end Laboratorio.Procs
