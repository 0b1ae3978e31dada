import Laboratorio.Lib.Runs

/-!
The stack of words in shared memory of `lab-05/wordheap.c`. Its
semaphore `full` counts the free places, `empty` the stored words.
-/

namespace Laboratorio.WordStack

open Function

def maxItems : ℕ := 15

def maxWord : ℕ := 50

abbrev CString := { w : List UInt8 // (0 : UInt8) ∉ w }

def row (i : ℤ) : ℤ := maxWord * i

def strcpy (heap : ℤ → UInt8) (a : ℤ) (w : CString) : ℤ → UInt8 := fun i =>
  if a ≤ i ∧ i ≤ a + w.1.length then w.1.getD (i - a).toNat 0 else heap i

def cstring (heap : ℤ → UInt8) (a : ℤ) : CString :=
  ⟨((List.range (row maxItems - a).toNat).map fun k : ℕ => heap (a + k)).takeWhile (· ≠ 0), by
    intro h
    simpa using List.mem_takeWhile_imp h⟩

variable {P : Type}

/-- The shared memory, without `max_word`, which nothing reads. -/
structure Memory (P : Type) where
  free : ℤ
  items : ℤ
  mutex : Option P
  full : ℕ
  empty : ℕ
  heap : ℤ → UInt8

namespace Memory

def zeroed : Memory P := ⟨0, 0, none, 0, 0, fun _ => 0⟩

def lock (m : Memory P) (p : P) : Option (Memory P) := if m.mutex.isNone then some { m with mutex := some p } else none

def unlock (m : Memory P) : Memory P := { m with mutex := none }

def waitFull (m : Memory P) : Option (Memory P) := if 0 < m.full then some { m with full := m.full - 1 } else none

def waitEmpty (m : Memory P) : Option (Memory P) := if 0 < m.empty then some { m with empty := m.empty - 1 } else none

def postFull (m : Memory P) : Memory P := { m with full := m.full + 1 }

def postEmpty (m : Memory P) : Memory P := { m with empty := m.empty + 1 }

def push (m : Memory P) (palabra : CString) : Memory P :=
  { m with heap := strcpy m.heap (row m.free) palabra, free := (m.free + 1).tmod maxItems, items := m.items + 1 }

def index (m : Memory P) (i : ℤ) : ℤ := (m.free + maxItems - m.items + i).tmod maxItems

def listed (m : Memory P) : List CString := (List.range m.items.toNat).map fun i : ℕ => cstring m.heap (row (m.index i))

def taken (m : Memory P) : CString := cstring m.heap (row ((m.free + maxItems - m.items).tmod maxItems))

def pop (m : Memory P) : Memory P := { m with items := m.items - 1 }

def crearPila (m : Memory P) : Memory P := { m with mutex := none, full := maxItems, empty := 0 }

def agregarPalabra (m : Memory P) (p : P) (palabra : CString) : Option (Memory P) := do
  let m ← m.lock p
  let m ← m.waitFull
  return (m.push palabra).unlock.postEmpty

def recuperarPalabra (m : Memory P) (p : P) : Option (CString × Memory P) := do
  let m ← m.lock p
  let m ← m.waitEmpty
  return (m.taken, m.pop.unlock.postFull)

def imprimirPila (m : Memory P) (p : P) : Option (List CString × Memory P) := do
  let m ← m.lock p
  return (m.listed, m.unlock)

end Memory

inductive Task
  | agregar (palabra : CString)
  | recuperar
  deriving DecidableEq

inductive Pc
  | idle
  | lock (c : Task)
  | wait (c : Task)
  | body (c : Task)
  | unlock (c : Task)
  | post (c : Task)
  deriving DecidableEq

def Pc.task : Pc → Option Task
  | .idle => none
  | .lock c | .wait c | .body c | .unlock c | .post c => some c

structure State (P : Type) where
  memory : Memory P
  pc : P → Pc

inductive Action (P : Type)
  | start (p : P) (c : Task)
  | step (p : P)

namespace State

def initial : State P := ⟨Memory.zeroed.crearPila, fun _ => .idle⟩

variable [DecidableEq P]

def goto (s : State P) (p : P) (pc : Pc) (m : Memory P) : State P := ⟨m, update s.pc p pc⟩

def step (s : State P) : Action P → Option (State P)
  | .start p c =>
    match s.pc p with
    | .idle => some (s.goto p (.lock c) s.memory)
    | _ => none
  | .step p =>
    match s.pc p with
    | .idle => none
    | .lock c => (s.memory.lock p).map (s.goto p (.wait c))
    | .wait (.agregar palabra) => s.memory.waitFull.map (s.goto p (.body (.agregar palabra)))
    | .wait .recuperar => s.memory.waitEmpty.map (s.goto p (.body .recuperar))
    | .body (.agregar palabra) => some (s.goto p (.unlock (.agregar palabra)) (s.memory.push palabra))
    | .body .recuperar => some (s.goto p (.unlock .recuperar) s.memory.pop)
    | .unlock c => some (s.goto p (.post c) s.memory.unlock)
    | .post (.agregar _) => some (s.goto p .idle s.memory.postEmpty)
    | .post .recuperar => some (s.goto p .idle s.memory.postFull)

end State

variable [DecidableEq P] {s : State P} {p : P} {m : Memory P} {palabra : CString}

theorem run_agregarPalabra (hp : s.pc p = .idle) (h : s.memory.agregarPalabra p palabra = some m) :
    Runs.run State.step s (.start p (.agregar palabra) :: List.replicate 5 (.step p)) = some ⟨m, s.pc⟩ := by
  obtain ⟨m₁, hlock, h⟩ := Option.bind_eq_some_iff.mp h
  obtain ⟨m₂, hwait, h⟩ := Option.bind_eq_some_iff.mp h
  cases h
  have hpc : update s.pc p .idle = s.pc := by rw [← hp, update_eq_self]
  simp [Runs.run_cons, State.step, State.goto, List.replicate_succ, hp, hlock, hwait, hpc]

theorem run_recuperarPalabra (hp : s.pc p = .idle) (h : s.memory.recuperarPalabra p = some (palabra, m)) :
    Runs.run State.step s (.start p .recuperar :: List.replicate 5 (.step p)) = some ⟨m, s.pc⟩ := by
  obtain ⟨m₁, hlock, h⟩ := Option.bind_eq_some_iff.mp h
  obtain ⟨m₂, hwait, h⟩ := Option.bind_eq_some_iff.mp h
  obtain ⟨-, rfl⟩ := Prod.mk.inj (Option.some.inj h)
  have hpc : update s.pc p .idle = s.pc := by rw [← hp, update_eq_self]
  simp [Runs.run_cons, State.step, State.goto, List.replicate_succ, hp, hlock, hwait, hpc]

end Laboratorio.WordStack
