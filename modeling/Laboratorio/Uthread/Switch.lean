import Laboratorio.Lib.Bytes
import Laboratorio.Uthread.Create

/-!
`thread_switch` of `xv6/uthread_switch.S` on the registers and the
stacks, and the frames that it and `thread_create` leave there.
-/

namespace Laboratorio.Uthread

open Function Runs Bytes

inductive Reg
  | eax | ecx | edx | ebx | ebp | esi | edi
  deriving DecidableEq

structure Cpu where
  reg : Reg → UInt32
  esp : ℕ
  eip : UInt32
  mem : Bytes

namespace Cpu

def push (c : Cpu) (v : ℕ) : Cpu :=
  { c with esp := (c.esp + (2 ^ 32 - 4)) % 2 ^ 32, mem := wr32 c.mem ((c.esp + (2 ^ 32 - 4)) % 2 ^ 32) v }

def pusha (c : Cpu) : Cpu :=
  [(c.reg .eax).toNat, (c.reg .ecx).toNat, (c.reg .edx).toNat, (c.reg .ebx).toNat, c.esp, (c.reg .ebp).toNat,
    (c.reg .esi).toNat, (c.reg .edi).toNat].foldl push c

def drop (c : Cpu) : Cpu := { c with esp := (c.esp + 4) % 2 ^ 32 }

def pop (c : Cpu) (r : Reg) : Cpu := { c.drop with reg := update c.reg r (.ofNat (rd32 c.mem c.esp)) }

def popa (c : Cpu) : Cpu := (((((((c.pop .edi).pop .esi).pop .ebp).drop.pop .ebx).pop .edx).pop .ecx).pop .eax)

def ret (c : Cpu) : Cpu := { c.drop with eip := .ofNat (rd32 c.mem c.esp) }

end Cpu

structure Machine where
  cpu : Cpu
  threads : Threads
  nextThread : Option (Fin maxThread)
  sp : Fin maxThread → ℕ

/-- The places that the linker and `exec` give to `all_thread` and to the stack of the process, on which `main` runs. -/
class Layout where
  allThread : ℕ
  processStack : ℕ × ℕ
  table_fits : allThread + threadSize * maxThread ≤ 2 ^ 32
  process_fits : processStack.2 < 2 ^ 32
  apart : processStack.2 ≤ allThread ∨ allThread + threadSize * maxThread ≤ processStack.1

variable [Layout]

def thread (t : Fin maxThread) : ℕ := Layout.allThread + threadSize * t

def stack (t : Fin maxThread) : ℕ × ℕ := (thread t + 4, thread t + 4 + stackSize)

namespace Machine

/-- `eax` holds the pointers; `sp` is the first field of a thread. -/
def threadSwitch (m : Machine) : Option Machine :=
  m.nextThread.map fun next =>
    let c := m.cpu.pusha
    let sp := update m.sp m.threads.current c.esp
    let c := { c with reg := update c.reg .eax (.ofNat (thread next)), esp := sp next }
    { cpu := c.popa.ret, threads := { m.threads with current := next }, nextThread := none, sp }

def threadCreate (m : Machine) (func : UInt32) (t : Fin maxThread) : Machine :=
  { m with
    sp := update m.sp t ((stack t).2 - 4 - 32)
    cpu := { m.cpu with mem := wr32 m.cpu.mem ((stack t).2 - 4) func.toNat }
    threads := { m.threads with state := update m.threads.state t .runnable } }

end Machine

/-- What a thread continues with: its function, or what it had at its last call of `thread_switch`. -/
inductive Saved
  | start (func : UInt32)
  | paused (c : Cpu)

/-- A machine with the history that a run is judged by: the stack that
each thread runs on, what it was left with, and the creations. -/
structure World extends Machine where
  area : Fin maxThread → ℕ × ℕ
  last : Fin maxThread → Option Saved
  created : ℕ

def Cpu.within (old : Cpu) (area : ℕ × ℕ) (c : Cpu) : Cpu :=
  { c with mem := fun x => if area.1 ≤ x ∧ x < area.2 then c.mem x else old.mem x }

namespace World

def init (c : Cpu) (sp : Fin maxThread → ℕ) : World where
  cpu := c
  threads := .threadInit
  nextThread := none
  sp := sp
  area := update stack main Layout.processStack
  last := fun _ => none
  created := 0

/-- `thread_schedule` in the states `s`; `c` is what the caller has made of its registers and stack where the function calls
`thread_switch`, or where it returns without. -/
def threadSchedule (w : World) (s : Threads) (c : Cpu) : Option World :=
  let c := w.cpu.within (w.area w.threads.current) c
  let t := s.threadSchedule
  if t.current = w.threads.current then some { w with cpu := c, threads := t, nextThread := none }
  else if (w.area w.threads.current).1 + 36 ≤ c.esp ∧ c.esp ≤ (w.area w.threads.current).2 then
    -- the state of the next thread is already `RUNNING`
    let m : Machine := ⟨c.push c.eip.toNat, { t with current := w.threads.current }, some t.current, w.sp⟩
    m.threadSwitch.map fun m => ⟨m, w.area, update w.last w.threads.current (some (.paused c)), w.created⟩
  else none

end World

inductive Act
  | work (c : Cpu)
  | create (func : UInt32)
  | schedule (c : Cpu)
  | yield (c : Cpu)
  | exit (c : Cpu)

def Act.call : Act → Option Call
  | .work _ => none
  | .create _ => some .create
  | .schedule _ => some .schedule
  | .yield _ => some .yield
  | .exit _ => some .exit

def World.step (w : World) : Act → Option World
  | .work c => some { w with cpu := w.cpu.within (w.area w.threads.current) c }
  | .create func =>
    ((List.finRange maxThread).find? fun t => w.threads.state t = .free).map fun t =>
      ⟨w.threadCreate func t, update w.area t (stack t), update w.last t (some (.start func)), w.created + 1⟩
  | .schedule c => w.threadSchedule w.threads c
  | .yield c => w.threadSchedule (w.threads.mark .runnable) c
  | .exit c => w.threadSchedule (w.threads.mark .free) c

def offset : Reg → ℕ
  | .edi => 0
  | .esi => 4
  | .ebp => 8
  | .ebx => 16
  | .edx => 20
  | .ecx => 24
  | .eax => 28

namespace Cpu

omit [Layout]

variable {c : Cpu} {a v : ℕ}

theorem push_eq (h : c.esp = a + 4) (ha : a + 4 < 2 ^ 32) : c.push v = { c with esp := a, mem := wr32 c.mem a v } := by
  have hesp : (c.esp + (2 ^ 32 - 4)) % 2 ^ 32 = a := by omega
  simp only [push, hesp]

theorem pusha_spec (h : c.esp = a + 32) (ha : a + 32 < 2 ^ 32) :
    c.pusha.esp = a ∧ (∀ r, rd32 c.pusha.mem (a + offset r) = (c.reg r).toNat) ∧
    ∀ x, x < a ∨ a + 32 ≤ x → c.pusha.mem x = c.mem x := by
  have hpush : c.pusha = { c with
      esp := a
      mem := wr32 (wr32 (wr32 (wr32 (wr32 (wr32 (wr32 (wr32 c.mem (a + 28) (c.reg .eax).toNat) (a + 24) (c.reg .ecx).toNat)
        (a + 20) (c.reg .edx).toNat) (a + 16) (c.reg .ebx).toNat) (a + 12) c.esp) (a + 8) (c.reg .ebp).toNat) (a + 4)
        (c.reg .esi).toNat) a (c.reg .edi).toNat } := by
    rw [pusha, List.foldl_cons, push_eq (a := a + 28) (by omega) (by omega), List.foldl_cons,
      push_eq (a := a + 24) rfl (by omega), List.foldl_cons, push_eq (a := a + 20) rfl (by omega), List.foldl_cons,
      push_eq (a := a + 16) rfl (by omega), List.foldl_cons, push_eq (a := a + 12) rfl (by omega), List.foldl_cons,
      push_eq (a := a + 8) rfl (by omega), List.foldl_cons, push_eq (a := a + 4) rfl (by omega), List.foldl_cons,
      push_eq (a := a) rfl (by omega), List.foldl_nil]
  rw [hpush]
  refine ⟨rfl, fun r => ?_, fun x hx => ?_⟩
  · have hr : (c.reg r).toNat < 256 ^ 4 := (c.reg r).toNat_lt
    cases r <;> simp (disch := omega) only [offset, rd_wr_of_disjoint, rd_wr, Nat.add_zero]
  · simp (disch := omega) only [wr, store_of_notMem]

theorem popa_ret (h : c.esp + 36 < 2 ^ 32) : c.popa.ret =
    ⟨fun r => .ofNat (rd32 c.mem (c.esp + offset r)), c.esp + 36, .ofNat (rd32 c.mem (c.esp + 32)), c.mem⟩ := by
  simp (disch := omega) only [popa, ret, pop, drop, Nat.mod_eq_of_lt, Nat.add_assoc, Nat.reduceAdd]
  congr 1
  funext r
  cases r <;> simp [offset, update]

end Cpu

end Laboratorio.Uthread
