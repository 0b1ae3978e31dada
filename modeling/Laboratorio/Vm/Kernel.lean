import Laboratorio.Procs.Calls
import Laboratorio.Vm.Exec

/-!
The calls that allocate and free pages: `fork`, `exit`, `wait` and `growproc` of `xv6/proc.c`,
`exec`, and the pipes of `xv6/pipe.c`, with the way `main` gets to the first process.
-/

namespace Laboratorio.Vm

open Bytes
open Procs (Slot Ptable)

structure Pipe where
  readopen : Bool
  writeopen : Bool

structure Kernel where
  vm : Kmem
  ptable : Ptable
  kstack : Slot → Option ℕ
  pgdir : Slot → Option ℕ
  sz : Slot → ℕ
  pipes : ℕ → Option Pipe
  kpgdir : Option ℕ
  initproc : Slot

abbrev KernelM := StateT Kernel (Except Fault)

namespace Kernel

def setKstack (k : Kernel) (i : Slot) (p : Option ℕ) : Kernel := { k with kstack := Function.update k.kstack i p }

def setPgdir (k : Kernel) (i : Slot) (pd : Option ℕ) : Kernel := { k with pgdir := Function.update k.pgdir i pd }

def setSz (k : Kernel) (i : Slot) (n : ℕ) : Kernel := { k with sz := Function.update k.sz i n }

def setPipe (k : Kernel) (p : ℕ) (q : Option Pipe) : Kernel := { k with pipes := Function.update k.pipes p q }

def setState (k : Kernel) (i : Slot) (st : Procs.Procstate) : Kernel := { k with ptable := k.ptable.setState i st }

end Kernel

def onVm {α : Type} : VmM α → KernelM α := within Kernel.vm (fun k s => { k with vm := s })

def allocproc : KernelM (Option Slot) := do
  let k ← get
  match Procs.allocproc k.ptable with
  | none => return none
  | some (np, t) =>
    set { k with ptable := t }
    match ← onVm kalloc with
    | none =>
      modify fun k => (k.setKstack np none).setState np .unused
      return none
    | some p =>
      modify fun k => k.setKstack np (some p)
      return some np

def Kernel.start (mem : Bytes) (low : List ℕ) : Kernel :=
  ⟨⟨mem, low, []⟩, ⟨fun _ => Procs.bssProc, 1⟩, fun _ => none, fun _ => none, fun _ => 0, fun _ => none, none, 0⟩

variable [Layout]

def fork (cur : Slot) : KernelM (Option Slot) := do
  match ← allocproc with
  | none => return none
  | some np =>
    let k ← get
    match k.pgdir cur with
    | none => throw .nullDeref
    | some pd =>
      match ← onVm (copyuvm pd (k.sz cur)) with
      | none =>
        match k.kstack np with
        | none => throw .kfree
        | some p => onVm (kfree p)
        modify fun k => ((k.setPgdir np none).setKstack np none).setState np .unused
        return none
      | some d =>
        modify fun k => ((k.setPgdir np (some d)).setSz np (k.sz cur))
        modify fun k => { k with ptable := (k.ptable.setParent np (some cur)).setState np .runnable }
        return some np

def switchuvm (p : Slot) : KernelM Unit := do
  let k ← get
  if k.kstack p = none ∨ k.pgdir p = none then throw .switchuvm

def growproc (cur : Slot) (n : Int32) : KernelM Bool := do
  let k ← get
  let sz := k.sz cur
  match k.pgdir cur with
  | none => throw .nullDeref
  | some pd =>
    let newsz := u32 (sz + n.toUInt32.toNat)
    let sz ← if n > 0 then onVm (allocuvm pd sz newsz)
      else if n < 0 then onVm (deallocuvm pd sz newsz)
      else pure sz
    if n ≠ 0 ∧ sz = 0 then return false
    else
      modify fun k => k.setSz cur sz
      switchuvm cur
      return true

/-- `none` for `src` is a path that `namei` does not find. -/
def exec (cur : Slot) (src : Option Source) (argv : List (List UInt8)) : KernelM Bool := do
  match src with
  | none => return false
  | some src =>
    match ← onVm (execImage src argv) with
    | none => return false
    | some (pgdir, sz) =>
      let k ← get
      let oldpgdir := k.pgdir cur
      modify fun k => (k.setPgdir cur (some pgdir)).setSz cur sz
      switchuvm cur
      onVm (freevm oldpgdir)
      return true

/-- `exit` after it has closed the files of `cur`; the pipes among them are closed by calls of
`pipeclose` that come before. -/
def exit (cur : Slot) : KernelM Unit := do
  let k ← get
  if cur = k.initproc then throw .initExiting
  else set { k with ptable := Procs.exit k.ptable cur k.initproc }

def wait (cur : Slot) : KernelM Unit := do
  let k ← get
  match Procs.wait k.ptable cur with
  | .failed => return ()
  | .sleep => set { k with ptable := Procs.waitSleep k.ptable cur }
  | .reaped p _ t =>
    match k.kstack p with
    | none => throw .kfree
    | some kstack => onVm (kfree kstack)
    modify fun k => k.setKstack p none
    onVm (freevm (k.pgdir p))
    modify fun k => { k with ptable := t }

/-- The flag says whether the two calls of `filealloc` succeed. -/
def pipealloc (filesOk : Bool) : KernelM (Option ℕ) := do
  if filesOk = false then return none
  else
    match ← onVm kalloc with
    | none => return none
    | some p =>
      modify fun k => k.setPipe p (some ⟨true, true⟩)
      return some p

def pipeclose (p : ℕ) (writable : Bool) : KernelM Unit := do
  let k ← get
  match k.pipes p with
  | none => throw .nullDeref
  | some q =>
    let q := if writable then { q with writeopen := false } else { q with readopen := false }
    if q.readopen = false ∧ q.writeopen = false then
      onVm (kfree p)
      modify fun k => k.setPipe p none
    else modify fun k => k.setPipe p (some q)

/-- The second flag says whether both calls of `fdalloc` succeed. -/
def sysPipe (filesOk fdsOk : Bool) : KernelM Bool := do
  match ← pipealloc filesOk with
  | none => return false
  | some p =>
    if fdsOk then return true
    else
      pipeclose p false
      pipeclose p true
      return false

def freerange : List ℕ → VmM Unit
  | [] => return ()
  | p :: ps => do
    kfree p
    freerange ps

def kvmalloc : KernelM Unit := do
  match ← onVm setupkvm with
  | none => throw .nullDeref
  | some pd => modify fun k => { k with kpgdir := some pd }

def userinit (init : Bytes) (n : ℕ) : KernelM Unit := do
  match ← allocproc with
  | none => throw .nullDeref
  | some p =>
    modify fun k => { k with initproc := p }
    match ← onVm setupkvm with
    | none => throw .userinit
    | some pd =>
      modify fun k => k.setPgdir p (some pd)
      onVm (inituvm pd init n)
      modify fun k => (k.setSz p pgsize).setState p .runnable

/-- `main` from `kvmalloc` on; `high` are the pages of `kinit2`. The stacks that `startothers` takes
for the other processors are not counted among the pages. -/
def main (high : List ℕ) (init : Bytes) (n : ℕ) : KernelM Unit := do
  kvmalloc
  onVm (freerange high)
  userinit init n

inductive Call
  | fork (cur : Slot)
  | exec (cur : Slot) (src : Option Source) (argv : List (List UInt8))
  | sbrk (cur : Slot) (n : Int32)
  | exit (cur : Slot)
  | wait (cur : Slot)
  | pipe (filesOk fdsOk : Bool)
  | pipeclose (p : ℕ) (writable : Bool)

def runCall : Call → KernelM Unit
  | .fork cur => do let _ ← fork cur
  | .exec cur src argv => do let _ ← exec cur src argv
  | .sbrk cur n => do let _ ← growproc cur n
  | .exit cur => exit cur
  | .wait cur => wait cur
  | .pipe filesOk fdsOk => do let _ ← sysPipe filesOk fdsOk
  | .pipeclose p writable => pipeclose p writable

/-- A call is made by a process that can run, and a pipe is closed while it exists. -/
def Kernel.allows (k : Kernel) : Call → Bool
  | .fork cur => (k.ptable.proc cur).canRun
  | .exec cur _ _ => (k.ptable.proc cur).canRun
  | .sbrk cur _ => (k.ptable.proc cur).canRun
  | .exit cur => (k.ptable.proc cur).canRun
  | .wait cur => (k.ptable.proc cur).canRun
  | .pipe _ _ => true
  | .pipeclose p _ => (k.pipes p).isSome

def Kernel.step (k : Kernel) (c : Call) : Option Kernel :=
  if k.allows c then
    match runCall c k with
    | .ok (_, k') => some k'
    | .error _ => none
  else none

end Laboratorio.Vm
