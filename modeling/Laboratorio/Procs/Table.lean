import Mathlib

/-!
The process table of `xv6/proc.c` and the parts of `allocproc`, `fork`, `exit`, `wait`, `wakeup1`
and `kill` that read or write it.
-/

namespace Laboratorio.Procs

inductive Procstate
  | unused | embryo | sleeping | runnable | running | zombie
  deriving DecidableEq, Repr

def nproc : ℕ := 64

abbrev Slot := Fin nproc

instance : NeZero nproc := ⟨by decide⟩

/-- `wait` sleeps on the caller's own `struct proc`; every other sleeper uses some other address. -/
inductive Chan
  | proc (p : Slot)
  | other (addr : ℕ)
  deriving DecidableEq, Repr

structure Proc where
  state : Procstate
  pid : Int32
  parent : Option Slot
  chan : Option Chan
  killed : Bool
  deriving DecidableEq, Repr

structure Ptable where
  proc : Slot → Proc
  nextpid : Int32

namespace Ptable

def find (t : Ptable) (f : Proc → Bool) : Option Slot :=
  (List.finRange nproc).find? (fun i => f (t.proc i))

def set (t : Ptable) (i : Slot) (p : Proc) : Ptable :=
  { t with proc := Function.update t.proc i p }

def setState (t : Ptable) (i : Slot) (st : Procstate) : Ptable :=
  t.set i { t.proc i with state := st }

def setParent (t : Ptable) (i : Slot) (p : Option Slot) : Ptable :=
  t.set i { t.proc i with parent := p }

def setChan (t : Ptable) (i : Slot) (c : Option Chan) : Ptable :=
  t.set i { t.proc i with chan := c }

@[simp] theorem set_proc_self (t : Ptable) (i : Slot) (p : Proc) : (t.set i p).proc i = p := by
  simp [set]

theorem set_proc_ne (t : Ptable) {i j : Slot} (p : Proc) (h : j ≠ i) : (t.set i p).proc j = t.proc j := by
  simp [set, h]

theorem set_proc (t : Ptable) (i j : Slot) (p : Proc) : (t.set i p).proc j = if j = i then p else t.proc j := by
  by_cases h : j = i
  · subst h; simp
  · simp [set_proc_ne t p h, h]

@[simp] theorem set_nextpid (t : Ptable) (i : Slot) (p : Proc) : (t.set i p).nextpid = t.nextpid := rfl

def states (t : Ptable) (i : Slot) : Procstate := (t.proc i).state

def parents (t : Ptable) (i : Slot) : Option Slot := (t.proc i).parent

def chans (t : Ptable) (i : Slot) : Option Chan := (t.proc i).chan

def pids (t : Ptable) (i : Slot) : Int32 := (t.proc i).pid

section

variable (t : Ptable) (i : Slot)

include t i

theorem states_set (p : Proc) : (t.set i p).states = Function.update t.states i p.state := by
  funext j
  by_cases h : j = i <;> simp [states, set_proc, h]

theorem parents_set (p : Proc) : (t.set i p).parents = Function.update t.parents i p.parent := by
  funext j
  by_cases h : j = i <;> simp [parents, set_proc, h]

theorem chans_set (p : Proc) : (t.set i p).chans = Function.update t.chans i p.chan := by
  funext j
  by_cases h : j = i <;> simp [chans, set_proc, h]

theorem pids_set (p : Proc) : (t.set i p).pids = Function.update t.pids i p.pid := by
  funext j
  by_cases h : j = i <;> simp [pids, set_proc, h]

@[simp] theorem states_setState (st : Procstate) : (t.setState i st).states = Function.update t.states i st := states_set t i _

@[simp] theorem parents_setState (st : Procstate) : (t.setState i st).parents = t.parents :=
  (parents_set t i _).trans (Function.update_eq_self i t.parents)

@[simp] theorem chans_setState (st : Procstate) : (t.setState i st).chans = t.chans :=
  (chans_set t i _).trans (Function.update_eq_self i t.chans)

@[simp] theorem pids_setState (st : Procstate) : (t.setState i st).pids = t.pids :=
  (pids_set t i _).trans (Function.update_eq_self i t.pids)

@[simp] theorem states_setParent (p : Option Slot) : (t.setParent i p).states = t.states :=
  (states_set t i _).trans (Function.update_eq_self i t.states)

@[simp] theorem parents_setParent (p : Option Slot) :
    (t.setParent i p).parents = Function.update t.parents i p := parents_set t i _

@[simp] theorem chans_setParent (p : Option Slot) : (t.setParent i p).chans = t.chans :=
  (chans_set t i _).trans (Function.update_eq_self i t.chans)

@[simp] theorem pids_setParent (p : Option Slot) : (t.setParent i p).pids = t.pids :=
  (pids_set t i _).trans (Function.update_eq_self i t.pids)

@[simp] theorem states_setChan (c : Option Chan) : (t.setChan i c).states = t.states :=
  (states_set t i _).trans (Function.update_eq_self i t.states)

@[simp] theorem parents_setChan (c : Option Chan) : (t.setChan i c).parents = t.parents :=
  (parents_set t i _).trans (Function.update_eq_self i t.parents)

@[simp] theorem chans_setChan (c : Option Chan) : (t.setChan i c).chans = Function.update t.chans i c := chans_set t i _

@[simp] theorem pids_setChan (c : Option Chan) : (t.setChan i c).pids = t.pids :=
  (pids_set t i _).trans (Function.update_eq_self i t.pids)

end

theorem find_some {t : Ptable} {f : Proc → Bool} {i : Slot} (h : t.find f = some i) : f (t.proc i) = true := by
  simpa using List.find?_some h

theorem find_none {t : Ptable} {f : Proc → Bool} (h : t.find f = none) (i : Slot) : f (t.proc i) = false := by
  simpa using List.find?_eq_none.mp h i (List.mem_finRange i)

end Ptable

def allocproc (t : Ptable) : Option (Slot × Ptable) :=
  match t.find (fun p => p.state = .unused) with
  | none => none
  | some i =>
    some (i, { t.set i { t.proc i with state := .embryo, pid := t.nextpid } with nextpid := t.nextpid + 1 })

theorem allocproc_eq {t u : Ptable} {i : Slot} (h : allocproc t = some (i, u)) : (t.proc i).state = .unused ∧
      u = { t.set i { t.proc i with state := .embryo, pid := t.nextpid } with nextpid := t.nextpid + 1 } := by
  unfold allocproc at h
  split at h
  · simp at h
  · next j hj =>
    cases h
    exact ⟨by simpa using Ptable.find_some hj, rfl⟩

theorem allocproc_states {t u : Ptable} {i : Slot} (h : allocproc t = some (i, u)) :
    t.states i = .unused ∧ u.states = Function.update t.states i .embryo := by
  obtain ⟨hs, rfl⟩ := allocproc_eq h
  exact ⟨hs, Ptable.states_set t i _⟩

theorem allocproc_none {t : Ptable} (h : allocproc t = none) (i : Slot) : t.states i ≠ .unused := by
  unfold allocproc at h
  split at h
  · next hf => simpa [Ptable.states] using Ptable.find_none hf i
  · simp at h

/-- What `fork` does to the table; the two flags say whether `kalloc` found a kernel stack and
whether `copyuvm` succeeded. The value returned is the child's slot, or `none` for -1. -/
def fork (t : Ptable) (cur : Slot) (kstackOk copyOk : Bool) : Ptable × Option Slot :=
  match allocproc t with
  | none => (t, none)
  | some (np, t) =>
    if kstackOk = false then (t.setState np .unused, none)
    else if copyOk = false then (t.setState np .unused, none)
    else ((t.setParent np (some cur)).setState np .runnable, some np)

def wakeup1 (t : Ptable) (chan : Option Chan) : Ptable :=
  { t with proc := fun i =>
      if (t.proc i).state = .sleeping ∧ (t.proc i).chan = chan then { t.proc i with state := .runnable }
      else t.proc i }

def reparent (cur initproc : Slot) (t : Ptable) (p : Slot) : Ptable :=
  if (t.proc p).parent = some cur then
    let t := t.setParent p (some initproc)
    if (t.proc p).state = .zombie then wakeup1 t (some (.proc initproc)) else t
  else t

def reparentAll (t : Ptable) (cur initproc : Slot) : Ptable :=
  (List.finRange nproc).foldl (reparent cur initproc) t

def exit (t : Ptable) (cur initproc : Slot) : Ptable :=
  let t := wakeup1 t ((t.proc cur).parent.map .proc)
  let t := reparentAll t cur initproc
  t.setState cur .zombie

inductive WaitResult
  | reaped (child : Slot) (pid : Int32) (t : Ptable)
  | failed
  | sleep

def wait (t : Ptable) (cur : Slot) : WaitResult :=
  match t.find (fun p => p.parent = some cur ∧ p.state = .zombie) with
  | some i =>
    .reaped i (t.proc i).pid
      (t.set i { t.proc i with pid := 0, parent := none, killed := false, state := .unused })
  | none =>
    if t.find (fun p => p.parent = some cur) = none ∨ (t.proc cur).killed then .failed else .sleep

def waitSleep (t : Ptable) (cur : Slot) : Ptable :=
  (t.setChan cur (some (.proc cur))).setState cur .sleeping

def kill (t : Ptable) (pid : Int32) : Ptable × Bool :=
  match t.find (fun p => p.pid = pid) with
  | none => (t, false)
  | some i =>
    let p := { t.proc i with killed := true }
    (t.set i (if p.state = .sleeping then { p with state := .runnable } else p), true)

def Procstate.wokenTo (s s' : Procstate) : Prop := s' = s ∨ s = .sleeping ∧ s' = .runnable

theorem Procstate.wokenTo.trans {a b c : Procstate} (h : a.wokenTo b) (h' : b.wokenTo c) : a.wokenTo c := by
  rcases h with rfl | ⟨ha, rfl⟩
  · exact h'
  · rcases h' with rfl | ⟨hb, _⟩
    · exact Or.inr ⟨ha, rfl⟩
    · simp at hb

theorem Procstate.wokenTo.eq_iff {a b x : Procstate} (h : a.wokenTo b) (h1 : x ≠ .sleeping) (h2 : x ≠ .runnable) :
    b = x ↔ a = x := by
  rcases h with rfl | ⟨rfl, rfl⟩
  · rfl
  · simp [h1.symm, h2.symm]

theorem Procstate.wokenTo.sleeping {a b : Procstate} (h : a.wokenTo b) (hb : b = .sleeping) : a = .sleeping := by
  rcases h with rfl | ⟨ha, _⟩
  · exact hb
  · exact ha

variable (t : Ptable) (c : Option Chan)

theorem wakeup1_proc (i : Slot) : (wakeup1 t c).proc i =
      if (t.proc i).state = .sleeping ∧ (t.proc i).chan = c then { t.proc i with state := .runnable }
      else t.proc i := rfl

@[simp] theorem parents_wakeup1 : (wakeup1 t c).parents = t.parents := by
  funext i
  simp only [Ptable.parents, wakeup1_proc]
  split_ifs <;> rfl

@[simp] theorem chans_wakeup1 : (wakeup1 t c).chans = t.chans := by
  funext i
  simp only [Ptable.chans, wakeup1_proc]
  split_ifs <;> rfl

@[simp] theorem pids_wakeup1 : (wakeup1 t c).pids = t.pids := by
  funext i
  simp only [Ptable.pids, wakeup1_proc]
  split_ifs <;> rfl

theorem wakeup1_killed (i : Slot) : ((wakeup1 t c).proc i).killed = (t.proc i).killed := by
  rw [wakeup1_proc]
  split_ifs <;> rfl

theorem states_wakeup1 (i : Slot) : (t.states i).wokenTo ((wakeup1 t c).states i) := by
  simp only [Ptable.states, wakeup1_proc]
  split_ifs with h
  · exact Or.inr ⟨h.1, rfl⟩
  · exact Or.inl rfl

theorem wakeup1_awake (i : Slot) (h : (wakeup1 t c).states i = .sleeping) : t.chans i ≠ c := by
  simp only [Ptable.states, wakeup1_proc] at h
  split_ifs at h with hc
  intro heq
  exact hc ⟨h, heq⟩

end Laboratorio.Procs
