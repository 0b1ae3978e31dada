import Laboratorio.Procs.ExitWait

namespace Laboratorio.Procs

open Runs Function

namespace Machine

def waitReturns (m : Machine) : Act → Option (Slot × Slot × Int32)
  | .wait c =>
    match m.current c with
    | some p => reapedBy p (wait m.ptable p)
    | none => none
  | .resume c =>
    match m.cpu c with
    | .thread p => if m.resume p = some .wait then reapedBy p (wait (m.ptable.setChan p none) p) else none
    | _ => none
  | _ => none
where
  reapedBy (p : Slot) : WaitResult → Option (Slot × Slot × Int32)
    | .reaped i pid _ => some (p, i, pid)
    | _ => none

def exitsAs (i : Slot) (x : Int32) (m : Machine) : Act → Bool
  | .exit c => m.current c = some i ∧ m.ptable.pids i = x
  | _ => false

def reapsAs (i : Slot) (x : Int32) (m : Machine) (a : Act) : Bool :=
  (m.waitReturns a).any (fun r => r.2.1 = i ∧ r.2.2 = x)

end Machine

def Ptable.zombieAs (t : Ptable) (i : Slot) (x : Int32) : Prop := t.states i = .zombie ∧ t.pids i = x

instance (t : Ptable) (i : Slot) (x : Int32) : Decidable (t.zombieAs i x) := by
  unfold Ptable.zombieAs
  infer_instance

def Quiet (t u : Ptable) : Prop :=
  ∀ i, (u.states i = .zombie ↔ t.states i = .zombie) ∧ (t.states i = .zombie → u.pids i = t.pids i)

variable {t u : Ptable}

theorem Quiet.zombieAs (h : Quiet t u) (i : Slot) (x : Int32) : u.zombieAs i x ↔ t.zombieAs i x := by
  have := h i
  unfold Ptable.zombieAs
  grind

theorem Quiet.woken (hs : ∀ i, (t.states i).wokenTo (u.states i)) (hp : u.pids = t.pids) :
    Quiet t u := fun i => ⟨(hs i).eq_iff (by simp) (by simp), fun _ => congrFun hp i⟩

theorem Quiet.setState {p : Slot} {x : Procstate} (hs : u.states = update t.states p x)
    (hx : x ≠ .zombie) (hp : t.states p ≠ .zombie) (hpid : ∀ i, i ≠ p → u.pids i = t.pids i) : Quiet t u := by
  intro i
  by_cases hi : i = p
  · subst hi
    simp [hs, hx, hp]
  · simp [hs, hi, hpid i hi]

namespace Machine

variable {m : Machine} {c : ℕ} {p : Slot}

theorem waitLoop_zombies (hrun : m.ptable.states p = .running) :
    (∃ i pid, waitReturns.reapedBy p (wait m.ptable p) = some (p, i, pid) ∧ m.ptable.zombieAs i pid ∧
      (m.waitLoop c p).ptable.states = update m.ptable.states i .unused ∧
      (m.waitLoop c p).ptable.pids = update m.ptable.pids i 0) ∨
    waitReturns.reapedBy p (wait m.ptable p) = none ∧ Quiet m.ptable (m.waitLoop c p).ptable := by
  unfold waitLoop
  split
  · next i pid t hw =>
    obtain ⟨_, hz, hpid, hs, _, _, hpids⟩ := wait_reaped hw
    exact Or.inl ⟨i, pid, by rw [hw]; rfl, ⟨hz, hpid.symm⟩, hs, hpids⟩
  · next hw => exact Or.inr ⟨by rw [hw]; rfl, Quiet.woken (fun _ => Or.inl rfl) rfl⟩
  · next hw =>
    refine Or.inr ⟨by rw [hw]; rfl, Quiet.setState (p := p) (x := .sleeping) ?_ (by simp) (by simp [hrun]) ?_⟩
    · simp [sched, waitSleep]
    · simp [sched, waitSleep]

inductive Effect (m n : Machine) (a : Act) : Prop
  | exits (c : ℕ) (p : Slot) (ha : a = .exit c) (hp : m.current c = some p) (hrun : m.ptable.states p = .running)
      (he : Exited p m.initproc m.ptable n.ptable)
  | reaps (p i : Slot) (pid : Int32) (ha : ∀ c, a ≠ .exit c) (hw : m.waitReturns a = some (p, i, pid))
      (hz : m.ptable.zombieAs i pid) (hs : n.ptable.states = update m.ptable.states i .unused)
      (hpid : n.ptable.pids = update m.ptable.pids i 0)
  | quiet (ha : ∀ c, a ≠ .exit c) (hw : m.waitReturns a = none) (hq : Quiet m.ptable n.ptable)

theorem resume_effect (h : Inv m) {r : Resume} (hc : m.cpu c = .thread p)
    (hr : m.resume p = some r) : Effect m (m.resumed c p r) (.resume c) := by
  have hrun : m.ptable.states p = .running := h.cpus.running c p hc
  by_cases hw : r = .wait
  · subst hw
    have hret : m.waitReturns (.resume c) = waitReturns.reapedBy p (wait (m.ptable.setChan p none) p) := by
      simp [waitReturns, hc, hr]
    rcases waitLoop_zombies (m := { m with ptable := m.ptable.setChan p none })
      (by simpa using hrun) with ⟨i, pid, hi, hz, hs, hp⟩ | ⟨hn, hq⟩
    · exact .reaps p i pid (by simp) (hret.trans hi) (by simpa [Ptable.zombieAs] using hz)
        (by simpa [resumed] using hs) (by simpa [resumed] using hp)
    · exact .quiet (by simp) (hret.trans hn) (by simpa [Quiet, resumed] using hq)
  · have hret : m.waitReturns (.resume c) = none := by simp [waitReturns, hc, hr, hw]
    refine .quiet (by simp) hret (Quiet.woken (fun i => Or.inl ?_) ?_) <;> cases r <;> simp [resumed] at hw ⊢

theorem scan_effect {i : ℕ} : Effect m (m.scanStep c i) (.scan c) := by
  refine .quiet (by simp) rfl ?_
  unfold scanStep
  split_ifs with hi hr
  · have hr' : m.ptable.states ⟨i, hi⟩ = .runnable := hr
    exact Quiet.setState (p := ⟨i, hi⟩) (x := .running) (by simp) (by simp) (by simp [hr']) (by simp)
  · exact Quiet.woken (fun _ => Or.inl rfl) rfl
  · exact Quiet.woken (fun _ => Or.inl rfl) rfl

theorem alloc_quiet {np : Slot} (ha : allocproc t = some (np, u)) : Quiet t u := by
  obtain ⟨hu, rfl⟩ := allocproc_eq ha
  have hu' : t.states np = .unused := hu
  refine Quiet.setState (Ptable.states_set _ _ _) (by simp) (by simp [hu']) ?_
  intro i hi
  exact congrArg Proc.pid (Ptable.set_proc_ne t _ hi)

variable {n : Machine} {a : Act}

theorem process_effect (h : Inv m) (hcur : m.current c = some p)
    (hac : ∀ d, a = .exit d ∨ a = .wait d → d = c) (hs : m.processStep c p a = some n) : Effect m n a := by
  have hrun : m.ptable.states p = .running := h.cpus.running c p (current_eq hcur).1
  have hfail : ∀ np, (m.loc p).child = some np →
      Quiet m.ptable (m.ptable.setState np .unused) ∧ Quiet m.ptable (m.ptable.setState np .runnable) := by
    intro np hl
    have hemb : m.ptable.states np = .embryo := h.forks.embryo p np hl
    exact ⟨Quiet.setState (Ptable.states_setState _ _ _) (by simp) (by simp [hemb]) (by simp),
      Quiet.setState (Ptable.states_setState _ _ _) (by simp) (by simp [hemb]) (by simp)⟩
  unfold processStep at hs
  split at hs
  case h_1 =>
    split_ifs at hs
    split at hs
    · cases hs
      exact .quiet (by simp) rfl (Quiet.woken (fun _ => Or.inl rfl) rfl)
    · next ha =>
      cases hs
      exact .quiet (by simp) rfl (alloc_quiet ha)
  case h_2 ok =>
    split at hs
    · next np hl =>
      split_ifs at hs
      · cases hs
        exact .quiet (by simp) rfl (Quiet.woken (fun _ => Or.inl rfl) rfl)
      · cases hs
        exact .quiet (by simp) rfl (hfail np (by simp [hl, Loc.child])).1
    · simp at hs
  case h_3 ok =>
    split at hs
    · next np hl =>
      split_ifs at hs
      · cases hs
        exact .quiet (by simp) rfl (Quiet.woken (fun _ => Or.inl (by simp)) (by simp))
      · cases hs
        exact .quiet (by simp) rfl (hfail np (by simp [hl, Loc.child])).1
    · simp at hs
  case h_4 =>
    split at hs
    · next np hl =>
      split_ifs at hs
      cases hs
      exact .quiet (by simp) rfl (hfail np (by simp [hl, Loc.child])).2
    · simp at hs
  case h_5 d =>
    split_ifs at hs
    cases hs
    obtain rfl := hac d (Or.inl rfl)
    exact .exits d p rfl hcur hrun (exit_exited _ _ _)
  case h_6 d =>
    split_ifs at hs
    cases hs
    obtain rfl := hac d (Or.inr rfl)
    have hret : m.waitReturns (.wait d) = waitReturns.reapedBy p (wait m.ptable p) := by simp [waitReturns, hcur]
    rcases waitLoop_zombies hrun with ⟨i, pid, hi, hz, hst, hpid⟩ | ⟨hn, hq⟩
    · exact .reaps p i pid (by simp) (hret.trans hi) hz hst hpid
    · exact .quiet (by simp) (hret.trans hn) hq
  case h_7 pid =>
    split_ifs at hs
    cases hs
    obtain ⟨hst, _, _, hpid⟩ := kill_columns m.ptable pid
    exact .quiet (by simp) rfl (Quiet.woken hst hpid)
  case h_8 =>
    split_ifs at hs
    cases hs
    refine .quiet (by simp) rfl (Quiet.setState (p := p) (x := .runnable) ?_ (by simp) (by simp [hrun]) ?_) <;>
      simp [sched]
  case h_9 addr =>
    split_ifs at hs
    cases hs
    refine .quiet (by simp) rfl (Quiet.setState (p := p) (x := .sleeping) ?_ (by simp) (by simp [hrun]) ?_) <;>
      simp [sched]
  case h_10 => simp at hs

theorem step_effect (h : Inv m) (hs : m.step a = some n) : Effect m n a := by
  unfold step at hs
  split at hs
  case h_1 addr =>
    split_ifs at hs
    cases hs
    exact .quiet (by simp) rfl (Quiet.woken (states_wakeup1 _ _) (pids_wakeup1 _ _))
  case h_2 c =>
    split_ifs at hs
    cases hs
    exact .quiet (by simp) rfl (Quiet.woken (fun _ => Or.inl rfl) rfl)
  case h_3 c =>
    split at hs
    · cases hs
      exact scan_effect
    · simp at hs
  case h_4 c =>
    split at hs
    · next p hp =>
      obtain ⟨r, hr, rfl⟩ := Option.map_eq_some_iff.mp hs
      exact resume_effect h hp hr
    · simp at hs
  all_goals
    split at hs
    · next p hp => exact process_effect h hp (by simp) hs
    · simp at hs

theorem step_count (h : Inv m) (hs : m.step a = some n) (i : Slot) (x : Int32) :
    (if n.ptable.zombieAs i x then 1 else 0) + (if m.reapsAs i x a then 1 else 0) =
      (if m.ptable.zombieAs i x then 1 else 0) + (if m.exitsAs i x a then 1 else 0) := by
  cases step_effect h hs with
  | exits c p ha hp hrun he =>
    subst ha
    have hr : m.reapsAs i x (.exit c) = false := rfl
    by_cases hi : i = p
    · subst hi
      simp [hr, hrun, exitsAs, hp, Ptable.zombieAs, he.zombie, he.pids]
    · have hz : n.ptable.zombieAs i x ↔ m.ptable.zombieAs i x := by
        unfold Ptable.zombieAs
        rw [(he.state i hi).eq_iff (by simp) (by simp), he.pids]
      have hx : m.exitsAs i x (.exit c) = false := by simp [exitsAs, hp, Ne.symm hi]
      simp [hr, hx, hz]
  | reaps p j pid ha hw hz hst hpid =>
    have hx : m.exitsAs i x a = false := by
      cases a <;> simp [exitsAs] at ha ⊢
    by_cases hij : i = j
    · subst hij
      simp [hx, hst, reapsAs, hw, Ptable.zombieAs, hz.1, hz.2]
    · have hzi : n.ptable.zombieAs i x ↔ m.ptable.zombieAs i x := by simp [Ptable.zombieAs, hst, hpid, hij]
      have hr : m.reapsAs i x a = false := by simp [reapsAs, hw, Ne.symm hij]
      simp [hx, hr, hzi]
  | quiet ha hw hq =>
    have hx : m.exitsAs i x a = false := by
      cases a <;> simp [exitsAs] at ha ⊢
    have hr : m.reapsAs i x a = false := by simp [reapsAs, hw]
    simp [hx, hr, hq.zombieAs i x]

theorem run_count {as : List Act} (h : Inv m) (hr : run step m as = some n) (i : Slot) (x : Int32) :
    tally step (exitsAs i x) m as + (if m.ptable.zombieAs i x then 1 else 0) =
      tally step (reapsAs i x) m as + (if n.ptable.zombieAs i x then 1 else 0) := by
  induction as generalizing m with
  | nil =>
    obtain rfl : m = n := by simpa using hr
    rfl
  | cons a as ih =>
    obtain ⟨u, hu, hr⟩ := run_cons_eq.mp hr
    rw [tally_cons hu, tally_cons hu]
    have hstep := step_count h hu i x
    have htail := ih (h.step hu) hr
    omega

theorem waitReturns_parent {i : Slot} {pid : Int32} (h : m.waitReturns a = some (p, i, pid)) :
    m.ptable.parents i = some p ∧ m.ptable.states i = .zombie ∧ m.ptable.pids i = pid := by
  have hreap : ∀ t q, waitReturns.reapedBy q (wait t q) = some (p, i, pid) →
      t.parents i = some p ∧ t.states i = .zombie ∧ t.pids i = pid := by
    intro t q hq
    cases hw : wait t q with
    | reaped j x u =>
      obtain ⟨hp, hz, hpid, _⟩ := wait_reaped hw
      simp only [hw, waitReturns.reapedBy, Option.some.injEq, Prod.mk.injEq] at hq
      obtain ⟨rfl, rfl, rfl⟩ := hq
      exact ⟨hp, hz, hpid.symm⟩
    | failed | sleep => simp [hw, waitReturns.reapedBy] at hq
  cases a with
  | wait c =>
    simp only [waitReturns] at h
    split at h
    · exact hreap _ _ h
    · simp at h
  | resume c =>
    simp only [waitReturns] at h
    split at h
    · split_ifs at h
      simpa using hreap _ _ h
    · simp at h
  | _ => simp [waitReturns] at h

def AsleepInWait (m : Machine) (p : Slot) : Prop := m.ptable.states p = .sleeping ∧ m.resume p = some .wait

/-- The exit/wait protocol, over any interleaving from boot on: parents are in use, the exits of
each process are matched one to one by waits of its parent or leave a zombie, and nobody sleeps
in `wait` over a zombie child. -/
theorem exit_wait_protocol {as : List Act} {m : Machine} (hr : run step bootMachine as = some m) :
    (∀ i, (m.ptable.states i).forked → i ≠ m.initproc →
      ∃ q, m.ptable.parents i = some q ∧ m.ptable.states q ≠ .unused ∧ m.ptable.states q ≠ .zombie) ∧
    (∀ i x, tally step (exitsAs i x) bootMachine as =
      tally step (reapsAs i x) bootMachine as + if m.ptable.zombieAs i x then 1 else 0) ∧
    (∀ a p i x, m.waitReturns a = some (p, i, x) →
      m.ptable.parents i = some p ∧ m.ptable.states i = .zombie ∧ m.ptable.pids i = x) ∧
    (m.lock = none → ∀ p, m.AsleepInWait p → ∀ i, m.ptable.parents i = some p → m.ptable.states i ≠ .zombie) := by
  have h := reachable_inv hr
  refine ⟨fun i hi hne => ?_, fun i x => ?_, fun a p i x => waitReturns_parent, fun _ p hp => ?_⟩
  · obtain ⟨q, hq, hl⟩ := h.tree.parentLive i hi hne
    exact ⟨q, hq, by rcases hl with hl | hl | hl <;> simp [hl], by rcases hl with hl | hl | hl <;> simp [hl]⟩
  · have hboot : ¬ bootMachine.ptable.zombieAs i x := by
      rintro ⟨hz, _⟩
      by_cases hi : i = 0
      · subst hi; simp [bootMachine, bootTable, Ptable.states] at hz
      · simp [bootMachine, bootTable, Ptable.states, bssProc, hi] at hz
    simpa [hboot] using run_count bootMachine_inv hr i x
  · exact h.waits.children p hp.1 hp.2

def childReaped : List Act :=
  [.schedule 0, .scan 0, .resume 0, .alloc 0, .kstack 0 true, .copy 0 true, .forkRun 0,
    .schedule 1, .scan 1, .scan 1, .resume 1, .exit 1] ++ List.replicate 63 (.scan 1) ++ [.wait 0]

theorem exit_wait_protocol_childReaped :
    ∃ m, run step bootMachine childReaped = some m ∧ tally step (exitsAs 1 2) bootMachine childReaped = 1 ∧
      tally step (reapsAs 1 2) bootMachine childReaped = 1 := by
  have hfree : (run step bootMachine childReaped).any (fun m => m.ptable.states 1 = .unused) = true := by
    decide +kernel
  have hexit : tally step (exitsAs 1 2) bootMachine childReaped = 1 := by decide +kernel
  obtain ⟨m, hm, hs⟩ := (Option.any_eq_true _ _).mp hfree
  have hz : ¬ m.ptable.zombieAs 1 2 := by
    rintro ⟨hz, _⟩
    simp [hz] at hs
  have hcount := (exit_wait_protocol hm).2.1 1 2
  rw [if_neg hz, hexit, Nat.add_zero] at hcount
  exact ⟨m, hm, hexit, hcount.symm⟩

end Machine

end Laboratorio.Procs
