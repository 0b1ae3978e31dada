import Laboratorio.Lib.Wp

/-!
The paging simulator of `lab-07/sim.c`. An index outside its array stops a run, as `exit(1)` does.
-/

namespace Laboratorio.Paging

open Function

def numPages : ℕ := 16

def numFrames : ℕ := 8

def numStoragePages : ℕ := 16

def maxProcesses : ℕ := 256

structure PageTableEntry where
  frameNumber : ℤ
  inMemory : ℤ
  inStorage : ℤ
  deriving DecidableEq, Repr

@[ext] structure Frame where
  pid : ℤ
  pageNumber : ℤ
  deriving DecidableEq, Repr

inductive Algorithm
  | fifo | lru
  deriving DecidableEq, Repr

inductive Stop
  | exit | bounds
  deriving DecidableEq, Repr

structure State where
  processes : ℤ → ℤ → PageTableEntry
  physicalMemory : ℤ → Frame
  secondaryStorage : ℤ → Frame
  fifoQueue : ℤ → ℤ
  fifoFront : ℤ
  fifoRear : ℤ
  lruStack : ℤ → ℤ
  lruTop : ℤ

abbrev SimM := StateT State (Except Stop)

def Frame.empty : Frame := ⟨-1, -1⟩

def initialized : State where
  processes := fun _ _ => ⟨-1, 0, -1⟩
  physicalMemory := fun _ => Frame.empty
  secondaryStorage := fun _ => Frame.empty
  fifoQueue := fun _ => -1
  fifoFront := 0
  fifoRear := 0
  lruStack := fun _ => -1
  lruTop := -1

def index (n : ℕ) (i : ℤ) : SimM Unit := if 0 ≤ i ∧ i < n then return () else throw .bounds

def entry (x : Frame) : SimM PageTableEntry := do
  index maxProcesses x.pid
  index numPages x.pageNumber
  return (← get).processes x.pid x.pageNumber

def setEntry (x : Frame) (e : PageTableEntry) : SimM Unit := do
  index maxProcesses x.pid
  index numPages x.pageNumber
  modify fun s => { s with processes := update s.processes x.pid (update (s.processes x.pid) x.pageNumber e) }

def frame (i : ℤ) : SimM Frame := do
  index numFrames i
  return (← get).physicalMemory i

def setFrame (i : ℤ) (x : Frame) : SimM Unit := do
  index numFrames i
  modify fun s => { s with physicalMemory := update s.physicalMemory i x }

def setStorage (i : ℤ) (x : Frame) : SimM Unit := do
  index numStoragePages i
  modify fun s => { s with secondaryStorage := update s.secondaryStorage i x }

def queue (i : ℤ) : SimM ℤ := do
  index numFrames i
  return (← get).fifoQueue i

def setQueue (i v : ℤ) : SimM Unit := do
  index numFrames i
  modify fun s => { s with fifoQueue := update s.fifoQueue i v }

def stack (i : ℤ) : SimM ℤ := do
  index numFrames i
  return (← get).lruStack i

def setStack (i v : ℤ) : SimM Unit := do
  index numFrames i
  modify fun s => { s with lruStack := update s.lruStack i v }

def findFree (n : ℕ) (memory : ℤ → Frame) : ℤ := ((List.range n).find? fun i : ℕ => (memory i).pid = -1).elim (-1)
    fun i => (i : ℤ)

def findFreeFrame (s : State) : ℤ := findFree numFrames s.physicalMemory

def findFreeStorage (s : State) : ℤ := findFree numStoragePages s.secondaryStorage

def replace (frameToReplace : ℤ) (x : Frame) : SimM Unit := do
  let storageIndex := findFreeStorage (← get)
  if storageIndex = -1 then throw .exit
  else
    let old ← frame frameToReplace
    setStorage storageIndex old
    setEntry old ⟨-1, 0, storageIndex⟩
    setFrame frameToReplace x
    setEntry x ⟨frameToReplace, 1, -1⟩

def enqueue (v : ℤ) : SimM Unit := do
  setQueue (← get).fifoRear v
  modify fun s => { s with fifoRear := (s.fifoRear + 1).tmod numFrames }

def push (v : ℤ) : SimM Unit := do
  modify fun s => { s with lruTop := s.lruTop + 1 }
  setStack (← get).lruTop v

def fifoReplace (x : Frame) : SimM Unit := do
  let frameToReplace ← queue (← get).fifoFront
  modify fun s => { s with fifoFront := (s.fifoFront + 1).tmod numFrames }
  replace frameToReplace x
  enqueue frameToReplace

def shift (i : ℤ) : ℕ → SimM Unit
  | 0 => return ()
  | n + 1 => do
    setStack (i - 1) (← stack i)
    shift (i + 1) n

def lruReplace (x : Frame) : SimM Unit := do
  let frameToReplace ← stack 0
  shift 1 (← get).lruTop.toNat
  modify fun s => { s with lruTop := s.lruTop - 1 }
  replace frameToReplace x
  push frameToReplace

def allocatePage (algorithm : Algorithm) (x : Frame) : SimM Unit := do
  if (← entry x).inMemory ≠ 0 then return ()
  else
    let freeFrame := findFreeFrame (← get)
    if freeFrame ≠ -1 then
      setFrame freeFrame x
      setEntry x ⟨freeFrame, 1, -1⟩
      match algorithm with
      | .fifo => enqueue freeFrame
      | .lru => push freeFrame
    else
      match algorithm with
      | .fifo => fifoReplace x
      | .lru => lruReplace x

def run (algorithm : Algorithm) : List Frame → SimM Unit
  | [] => return ()
  | x :: xs => do
    allocatePage algorithm x
    run algorithm xs

def Frame.InRange (x : Frame) : Prop := 0 ≤ x.pid ∧ x.pid < maxProcesses ∧ 0 ≤ x.pageNumber ∧ x.pageNumber < numPages

instance (x : Frame) : Decidable x.InRange := inferInstanceAs (Decidable (_ ∧ _))

def pages (n : ℕ) : List Frame := (List.range n).map fun i : ℕ => ⟨0, i⟩

end Laboratorio.Paging
