import Laboratorio.Lib.Runs
import Laboratorio.Procs.Table

/-!
Whole calls of `fork`, `exit`, `wait` and `kill`, one after another, by any processes.
-/

namespace Laboratorio.Procs

open Runs

structure Kernel where
  ptable : Ptable
  initproc : Slot

inductive Call
  | fork (cur : Slot) (kstackOk copyOk : Bool)
  | exit (cur : Slot)
  | wait (cur : Slot)
  | kill (pid : Int32)

def Proc.canRun (p : Proc) : Bool := p.state = .runnable ∨ p.state = .running

/-- The table after a call. A `wait` that finds nothing leaves its caller asleep; it makes the
call again once woken. The exit of init panics, so nothing follows it. -/
def Kernel.call (k : Kernel) : Call → Option Kernel
  | .fork cur kstackOk copyOk =>
    if (k.ptable.proc cur).canRun then some { k with ptable := (fork k.ptable cur kstackOk copyOk).1 } else none
  | .exit cur =>
    if (k.ptable.proc cur).canRun ∧ cur ≠ k.initproc then
      some { k with ptable := exit k.ptable cur k.initproc }
    else none
  | .wait cur =>
    if (k.ptable.proc cur).canRun then
      match wait k.ptable cur with
      | .reaped _ _ t => some { k with ptable := t }
      | .failed => some k
      | .sleep => some { k with ptable := waitSleep k.ptable cur }
    else none
  | .kill pid => some { k with ptable := (kill k.ptable pid).1 }

def bssProc : Proc := ⟨.unused, 0, none, none, false⟩

/-- The table as `userinit` leaves it: `allocproc` gives init the first slot and pid 1. -/
def bootTable : Ptable := ⟨Function.update (fun _ => bssProc) 0 ⟨.runnable, 1, none, none, false⟩, 2⟩

def bootKernel : Kernel := ⟨bootTable, 0⟩

def Call.sparesFree (k : Kernel) : Call → Prop
  | .kill pid => ∀ i, (k.ptable.proc i).pid = pid → (k.ptable.proc i).state ≠ .unused
  | _ => True

def FreeUnkilled (t : Ptable) : Prop := ∀ i, (t.proc i).state = .unused → (t.proc i).killed = false

variable {t : Ptable}

theorem kill_hit {pid : Int32} (h : (kill t pid).2 = true) :
    ∃ i, t.find (fun p => p.pid = pid) = some i ∧ (t.proc i).pid = pid := by
  unfold kill at h
  split at h
  · simp at h
  · next i hi => exact ⟨i, hi, by simpa using Ptable.find_some hi⟩

namespace FreeUnkilled

variable {u : Ptable} (h : FreeUnkilled t)

include h

theorem set (i : Slot) (p : Proc) (hp : p.state = .unused → p.killed = false) : FreeUnkilled (t.set i p) := by
  intro j hj
  rw [Ptable.set_proc] at hj ⊢
  split_ifs at hj ⊢ with hji
  · exact hp hj
  · exact h j hj

theorem woken (hw : ∀ i, (u.proc i).killed = (t.proc i).killed ∧ ((u.proc i).state = .unused → (t.proc i).state = .unused)) :
    FreeUnkilled u := by
  intro i hi
  rw [(hw i).1]
  exact h i ((hw i).2 hi)

theorem wakeup1 (c : Option Chan) : FreeUnkilled (wakeup1 t c) := by
  apply h.woken
  intro i
  exact ⟨wakeup1_killed t c i, ((states_wakeup1 t c i).eq_iff (by simp) (by simp)).mp⟩

theorem reparent (cur ip p : Slot) : FreeUnkilled (reparent cur ip t p) := by
  have hset : FreeUnkilled (t.setParent p (some ip)) := h.set p _ (h p)
  simp only [Procs.reparent]
  split_ifs
  · exact hset.wakeup1 _
  · exact hset
  · exact h

theorem reparentAll (cur ip : Slot) : FreeUnkilled (reparentAll t cur ip) := by
  unfold Procs.reparentAll
  induction List.finRange nproc generalizing t with
  | nil => exact h
  | cons p ps ih => exact ih (h.reparent cur ip p)

theorem allocproc_killed {i : Slot} (ha : allocproc t = some (i, u)) : FreeUnkilled u ∧ (u.proc i).killed = false := by
  obtain ⟨hs, rfl⟩ := allocproc_eq ha
  refine ⟨?_, by simpa using h i hs⟩
  intro j hj
  exact h.set i { t.proc i with state := .embryo, pid := t.nextpid } (by simp) j hj

theorem fork_child_unkilled {cur child : Slot} {kstackOk copyOk : Bool}
    (hf : (fork t cur kstackOk copyOk).2 = some child) : ((fork t cur kstackOk copyOk).1.proc child).killed = false := by
  unfold fork at hf ⊢
  split at hf
  · simp at hf
  · next np u ha =>
    have hk := (h.allocproc_killed ha).2
    split_ifs at hf ⊢
    obtain rfl : np = child := by simpa using hf
    simpa [Ptable.setState, Ptable.setParent] using hk

theorem fork (cur : Slot) (kstackOk copyOk : Bool) : FreeUnkilled (fork t cur kstackOk copyOk).1 := by
  unfold Procs.fork
  split
  · exact h
  · next np u ha =>
    obtain ⟨hu, hk⟩ := h.allocproc_killed ha
    split_ifs
    · exact hu.set np _ (fun _ => hk)
    · exact hu.set np _ (fun _ => hk)
    · have hp : FreeUnkilled (u.setParent np (some cur)) := hu.set np _ (fun _ => hk)
      exact hp.set np _ (by simp)

theorem exit (cur ip : Slot) : FreeUnkilled (exit t cur ip) :=
  ((h.wakeup1 _).reparentAll cur ip).set cur _ (by simp)

theorem wait {cur child : Slot} {pid : Int32} (hw : wait t cur = .reaped child pid u) : FreeUnkilled u := by
  unfold Procs.wait at hw
  split at hw
  · next i hi =>
    injection hw with _ _ hu
    subst hu
    exact h.set i _ (fun _ => rfl)
  · split_ifs at hw

theorem kill (pid : Int32) (hs : ∀ i, (t.proc i).pid = pid → (t.proc i).state ≠ .unused) : FreeUnkilled (kill t pid).1 := by
  unfold Procs.kill
  split
  · exact h
  · next i hi =>
    have hne := hs i (by simpa using Ptable.find_some hi)
    apply h.set i
    intro hu
    split_ifs at hu
    exact absurd hu hne

end FreeUnkilled

theorem FreeUnkilled.call {k l : Kernel} {c : Call} (h : FreeUnkilled k.ptable) (hc : c.sparesFree k)
    (hs : k.call c = some l) : FreeUnkilled l.ptable := by
  cases c with
  | fork cur kstackOk copyOk =>
    simp only [Kernel.call, guard_some] at hs
    obtain ⟨_, rfl⟩ := hs
    exact h.fork cur kstackOk copyOk
  | exit cur =>
    simp only [Kernel.call, guard_some] at hs
    obtain ⟨_, rfl⟩ := hs
    exact h.exit cur k.initproc
  | wait cur =>
    simp only [Kernel.call, Option.ite_none_right_eq_some] at hs
    obtain ⟨_, hs⟩ := hs
    split at hs
    · next hw =>
      cases hs
      exact h.wait hw
    · cases hs
      exact h
    · cases hs
      have hset : FreeUnkilled (k.ptable.setChan cur (some (.proc cur))) := h.set cur _ (h cur)
      exact hset.set cur _ (by simp)
  | kill pid =>
    cases hs
    exact h.kill pid hc

theorem bootTable_freeUnkilled : FreeUnkilled bootTable := by
  intro i hi
  by_cases h0 : i = 0
  · subst h0; simp [bootTable] at hi
  · simp [bootTable, h0, bssProc]

/-- After calls of which no `kill` could hit a free slot, such a `kill` succeeds only on a process
in use, and a child `fork` returns is not yet killed. -/
theorem slot_hygiene {cs : List Call} {k : Kernel} (hr : run Kernel.call bootKernel cs = some k)
    (hc : Along Kernel.call (fun k c => c.sparesFree k) bootKernel cs) :
    (∀ pid, Call.sparesFree k (.kill pid) → (kill k.ptable pid).2 = true →
      ∃ i, (k.ptable.proc i).state ≠ .unused ∧ (k.ptable.proc i).pid = pid) ∧
    (∀ cur kstackOk copyOk child, (fork k.ptable cur kstackOk copyOk).2 = some child →
      ((fork k.ptable cur kstackOk copyOk).1.proc child).killed = false) := by
  constructor
  · intro pid hspare hkill
    obtain ⟨i, _, hpid⟩ := kill_hit hkill
    exact ⟨i, hspare i hpid, hpid⟩
  · intro cur kstackOk copyOk child hf
    have hinv : FreeUnkilled k.ptable :=
      invariant_along (I := fun k => FreeUnkilled k.ptable) (fun _ _ _ h hc hs => h.call hc hs)
        bootTable_freeUnkilled hc hr
    exact hinv.fork_child_unkilled hf

def forkedTable : Ptable := (fork bootTable 0 true true).1

theorem slot_hygiene_forked : (kill forkedTable 2).2 = true ∧
      (∃ i, (forkedTable.proc i).state ≠ .unused ∧ (forkedTable.proc i).pid = 2) ∧
      ((fork forkedTable 0 true true).1.proc 2).killed = false := by
  have h := @slot_hygiene [.fork 0 true true] ⟨forkedTable, 0⟩ rfl ⟨trivial, fun _ _ => trivial⟩
  have hk : (kill forkedTable 2).2 = true := by decide
  exact ⟨hk, h.1 2 (by unfold Call.sparesFree; decide) hk, h.2 0 true true 2 (by decide)⟩

theorem kill_zero_hits_free : run Kernel.call bootKernel [.kill 0] = some ⟨(kill bootTable 0).1, 0⟩ ∧
      (kill bootTable 0).2 = true ∧ (∀ i, (bootTable.proc i).pid = 0 → (bootTable.proc i).state = .unused) ∧
      (fork (kill bootTable 0).1 0 true true).2 = some 1 ∧ ((fork (kill bootTable 0).1 0 true true).1.proc 1).killed = true :=
  ⟨rfl, by decide, by decide, by decide, by decide⟩

end Laboratorio.Procs
