import Laboratorio.Procs.Protocol

namespace Laboratorio.Procs

open Runs Function

structure Machine.Inv (m : Machine) : Prop where
  tree : Tree m.initproc m.ptable.states m.ptable.parents
  forks : Forks m.ptable.states m.ptable.parents m.loc
  waits : Waits m.ptable.states m.ptable.parents m.ptable.chans m.resume
  cpus : Cpus m.cpu m.ptable.states

namespace Machine

theorem bootMachine_inv : Inv bootMachine := by
  have hst : ∀ i : Slot, i ≠ 0 → bootMachine.ptable.states i = .unused := by
    intro i hi
    simp [bootMachine, bootTable, Ptable.states, bssProc, hi]
  have hst0 : bootMachine.ptable.states 0 = .runnable := rfl
  have hpar : ∀ i, bootMachine.ptable.parents i = none := by
    intro i
    by_cases hi : i = 0 <;> simp [bootMachine, bootTable, Ptable.parents, bssProc, hi]
  have hchild : ∀ p, (bootMachine.loc p).child = none := by
    intro p
    by_cases hp : p = 0 <;> simp [bootMachine, Loc.child, hp]
  constructor
  · refine ⟨Or.inr (Or.inl hst0), hpar _, fun i hi hne => ?_, fun i => by simp [hpar], fun i _ => hpar i⟩
    exact absurd (hst i hne) hi.1
  · constructor <;> intro p <;> simp [hchild]
  · have hawake : ∀ p, bootMachine.ptable.states p ≠ .sleeping := by
      intro p
      by_cases hp : p = 0
      · subst hp; simp [hst0]
      · simp [hst p hp]
    exact ⟨fun p hp => absurd hp (hawake p), fun p hp => absurd hp (hawake p)⟩
  · constructor <;> intro c <;> simp [bootMachine]

variable {m : Machine} {t : Ptable} {c : ℕ} {p np : Slot}

theorem wait_sleep (h : wait t p = .sleep) (i : Slot) (hi : t.parents i = some p) : t.states i ≠ .zombie := by
  unfold wait at h
  split at h
  · simp at h
  · next hf =>
    intro hz
    have hn := Ptable.find_none hf i
    simp only [decide_eq_false_iff_not, not_and] at hn
    exact hn hi hz

theorem kill_columns (t : Ptable) (pid : Int32) :
    (∀ i, (t.states i).wokenTo ((kill t pid).1.states i)) ∧ (kill t pid).1.parents = t.parents ∧
      (kill t pid).1.chans = t.chans ∧ (kill t pid).1.pids = t.pids := by
  unfold kill
  split
  · exact ⟨fun i => Or.inl rfl, rfl, rfl, rfl⟩
  next i hi =>
  have hother : ∀ p : Proc, p.parent = (t.proc i).parent → p.chan = (t.proc i).chan → p.pid = (t.proc i).pid →
      (t.set i p).parents = t.parents ∧ (t.set i p).chans = t.chans ∧ (t.set i p).pids = t.pids := by
    intro p h1 h2 h3
    rw [Ptable.parents_set, Ptable.chans_set, Ptable.pids_set, h1, h2, h3]
    exact ⟨update_eq_self _ _, update_eq_self _ _, update_eq_self _ _⟩
  refine ⟨fun j => ?_, hother _ ?_ ?_ ?_⟩
  · rw [Ptable.states_set]
    by_cases hj : j = i
    · subst hj
      simp only [update_self]
      split_ifs with hs
      · exact Or.inr ⟨hs, rfl⟩
      · exact Or.inl rfl
    · exact Or.inl (by simp [hj])
  all_goals split_ifs <;> rfl

theorem current_eq (h : m.current c = some p) : m.cpu c = .thread p ∧ m.resume p = none := by
  unfold current at h
  split at h
  · next q hq =>
    split_ifs at h with hr
    obtain rfl : q = p := Option.some.inj h
    exact ⟨hq, hr⟩
  · simp at h

namespace Inv

variable (h : Inv m)

include h

theorem woken (hs : ∀ i, (m.ptable.states i).wokenTo (t.states i))
    (hp : t.parents = m.ptable.parents) (hc : t.chans = m.ptable.chans) : Inv { m with ptable := t } := by
  constructor
  · rw [hp]
    exact h.tree.woken hs
  · rw [hp]
    exact h.forks.restate (fun i hi => ((hs i).eq_iff (by simp) (by simp)).mpr hi)
  · refine h.waits.restate (fun p hsl hr => ⟨(hs p).sleeping hsl, hr, congrFun hc p⟩) (fun i p hz hpar => ?_)
    exact ⟨((hs i).eq_iff (by simp) (by simp)).mp hz, by rw [← hp]; exact hpar⟩
  · exact h.cpus.restate (fun i hi => ((hs i).eq_iff (by simp) (by simp)).mpr hi)

theorem sched {x : Procstate} {r : Option Resume}
    (hc : m.cpu c = .thread p) (hs : t.states = update m.ptable.states p x) (hx : x = .runnable ∨ x = .sleeping)
    (hp : t.parents = m.ptable.parents) (hw : Waits t.states t.parents t.chans (update m.resume p r)) :
    Inv (m.sched c p t r) := by
  have hrun : m.ptable.states p = .running := h.cpus.running c p hc
  constructor
  · change Tree m.initproc t.states t.parents
    rw [hs, hp]
    exact h.tree.stayLive (by simp [hrun, Procstate.live]) (by rcases hx with rfl | rfl <;> simp [Procstate.live])
  · change Forks t.states t.parents m.loc
    rw [hp]
    apply h.forks.restate
    intro i hi
    have hip : i ≠ p := by
      rintro rfl
      simp [hrun] at hi
    simpa [hs, hip] using hi
  · exact hw
  · change Cpus (update m.cpu c (.scan (p + 1))) t.states
    apply h.cpus.leaves hc rfl
    intro i hi hr
    simpa [hs, hi] using hr

theorem unlock {l : Option ℕ} : Inv { m with lock := l, resume := update m.resume p none } := by
  refine ⟨h.tree, h.forks, h.waits.restate (fun q hq hr => ?_) (fun i q hz hi => ⟨hz, hi⟩), h.cpus⟩
  have hqp : q ≠ p := by
    rintro rfl
    simp at hr
  exact ⟨hq, by simpa [hqp] using hr, rfl⟩

theorem reaped {i : Slot} {pid : Int32} (hw : wait m.ptable p = .reaped i pid t) : Inv { m with ptable := t } := by
  obtain ⟨_, hz, _, hs, hp, hch, _⟩ := wait_reaped hw
  have hother : ∀ j x, x ≠ .zombie → m.ptable.states j = x → t.states j = x := by
    intro j x hx hj
    have hji : j ≠ i := by
      rintro rfl
      exact hx (hj.symm.trans hz)
    simpa [hs, hji] using hj
  constructor
  · rw [hs, hp]
    exact h.tree.reap hz
  · refine ⟨fun q np hq => hother np _ (by simp) (h.forks.embryo q np hq), h.forks.one, fun q np hq => ?_⟩
    have hni : np ≠ i := by
      rintro rfl
      simp [h.forks.embryo q np hq] at hz
    simpa [hp, hni] using h.forks.parent q np hq
  · refine h.waits.restate (fun q hq hr => ?_) (fun j q hzj hj => ?_)
    · refine ⟨?_, hr, congrFun hch q⟩
      by_cases hqi : q = i
      · subst hqi; simp [hs] at hq
      · simpa [hs, hqi] using hq
    · by_cases hji : j = i
      · subst hji; simp [hp] at hj
      · exact ⟨by simpa [hs, hji] using hzj, by simpa [hp, hji] using hj⟩
  · exact h.cpus.restate (fun j hj => hother j _ (by simp) hj)

theorem waitLoop (hc : m.cpu c = .thread p) : Inv (m.waitLoop c p) := by
  unfold Machine.waitLoop
  split
  · next hw => exact (h.reaped hw).unlock
  · exact h.unlock
  · next hw =>
    apply h.sched hc (x := .sleeping)
    · simp [waitSleep]
    · exact Or.inr rfl
    · simp [waitSleep]
    · simpa [waitSleep] using h.waits.sleeps (wait_sleep hw)

theorem setChan (hp : m.ptable.states p ≠ .sleeping) : Inv { m with ptable := m.ptable.setChan p none } := by
  constructor
  · simpa using h.tree
  · simpa using h.forks
  · simp only [Ptable.states_setChan, Ptable.parents_setChan, Ptable.chans_setChan]
    refine h.waits.restate (fun q hq hr => ⟨hq, hr, ?_⟩) (fun i q hz hi => ⟨hz, hi⟩)
    have hqp : q ≠ p := by
      rintro rfl
      exact hp hq
    simp [hqp]
  · simpa using h.cpus

theorem resumed (hc : m.cpu c = .thread p) (r : Resume) : Inv (m.resumed c p r) := by
  have hrun : m.ptable.states p ≠ .sleeping := by simp [h.cpus.running c p hc]
  cases r with
  | forkret | yield => exact h.unlock
  | sleep => exact (h.setChan hrun).unlock
  | wait => exact (h.setChan hrun).waitLoop hc

theorem scanStep {i : ℕ} : Inv (m.scanStep c i) := by
  unfold Machine.scanStep
  split_ifs with hi hr
  · have hr' : m.ptable.states ⟨i, hi⟩ = .runnable := hr
    constructor
    · simpa using h.tree.stayLive (by simp [hr', Procstate.live]) (by simp [Procstate.live])
    · simp only [Ptable.states_setState, Ptable.parents_setState]
      apply h.forks.restate
      intro j hj
      have hji : j ≠ ⟨i, hi⟩ := by
        rintro rfl
        simp [hr'] at hj
      simpa [hji] using hj
    · simp only [Ptable.states_setState, Ptable.parents_setState, Ptable.chans_setState]
      refine h.waits.restate (fun q hq hres => ?_) (fun j q hz hj => ?_)
      · have hqi : q ≠ ⟨i, hi⟩ := by
          rintro rfl
          simp at hq
        exact ⟨by simpa [hqi] using hq, hres, rfl⟩
      · have hji : j ≠ ⟨i, hi⟩ := by
          rintro rfl
          simp at hz
        exact ⟨by simpa [hji] using hz, hj⟩
    · simpa using h.cpus.dispatch hr'
  · exact ⟨h.tree, h.forks, h.waits, h.cpus.idles rfl⟩
  · exact ⟨h.tree, h.forks, h.waits, h.cpus.idles rfl⟩

theorem alloc (ha : allocproc m.ptable = some (np, t)) :
    Inv { m with ptable := t, loc := update m.loc p (.forkKstack np) } := by
  obtain ⟨hu, ht⟩ := allocproc_eq ha
  have hs : t.states = update m.ptable.states np .embryo := by
    subst ht
    exact Ptable.states_set _ _ _
  have hp : t.parents = m.ptable.parents := by
    subst ht
    exact (Ptable.parents_set _ _ _).trans (update_eq_self _ _)
  have hch : t.chans = m.ptable.chans := by
    subst ht
    exact (Ptable.chans_set _ _ _).trans (update_eq_self _ _)
  have hu' : m.ptable.states np = .unused := hu
  constructor
  · rw [hs, hp]
    exact h.tree.alloc hu'
  · rw [hs, hp]
    exact h.forks.alloc hu' (h.tree.freeParent np hu')
  · rw [hs, hp, hch]
    refine h.waits.restate (fun q hq hr => ?_) (fun j q hz hj => ?_)
    · exact ⟨by grind, hr, rfl⟩
    · exact ⟨by grind, hj⟩
  · rw [hs]
    exact h.cpus.restate (fun i hi => by grind)

theorem forkFails (hl : m.loc p = .forkKstack np ∨ m.loc p = .forkCopy np) :
    Inv { m with ptable := m.ptable.setState np .unused, loc := update m.loc p .user } := by
  have hchild : (m.loc p).child = some np := by rcases hl with hl | hl <;> simp [hl, Loc.child]
  have hemb : m.ptable.states np = .embryo := h.forks.embryo p np hchild
  have hpar : m.ptable.parents np = none := by
    rw [h.forks.parent p np hchild]
    rcases hl with hl | hl <;> simp [hl]
  constructor
  · simpa using h.tree.forkFails hemb hpar
  · simp only [Ptable.states_setState, Ptable.parents_setState]
    exact h.forks.done hchild rfl (fun i hi he => by simpa [hi] using he)
  · simp only [Ptable.states_setState, Ptable.parents_setState, Ptable.chans_setState]
    exact h.waits.restate (fun q hq hr => ⟨by grind, hr, rfl⟩) (fun j q hz hj => ⟨by grind, hj⟩)
  · simp only [Ptable.states_setState]
    exact h.cpus.restate (fun i hi => by grind)

theorem setParent (hrun : m.ptable.states p = .running) (hl : m.loc p = .forkCopy np) :
    Inv { m with ptable := m.ptable.setParent np (some p), loc := update m.loc p (.forkRun np) } := by
  have hemb : m.ptable.states np = .embryo := h.forks.embryo p np (by simp [hl, Loc.child])
  constructor
  · simp only [Ptable.states_setParent, Ptable.parents_setParent]
    apply h.tree.setParent hemb
    rintro rfl
    simp [hrun] at hemb
  · simpa using h.forks.setParent hl
  · simp only [Ptable.states_setParent, Ptable.parents_setParent, Ptable.chans_setParent]
    exact h.waits.restate (fun q hq hr => ⟨hq, hr, rfl⟩) (fun j q hz hj => ⟨hz, by grind⟩)
  · simpa using h.cpus

theorem forkRuns (hrun : m.ptable.states p = .running) (hl : m.loc p = .forkRun np) :
    Inv { m with ptable := m.ptable.setState np .runnable
                 loc := update (update m.loc p .user) np .user
                 resume := update m.resume np (some .forkret) } := by
  have hchild : (m.loc p).child = some np := by simp [hl, Loc.child]
  have hemb : m.ptable.states np = .embryo := h.forks.embryo p np hchild
  have hpar : m.ptable.parents np = some p := by rw [h.forks.parent p np hchild, if_pos hl]
  constructor
  · simpa using h.tree.forkRuns hpar (by simp [hrun, Procstate.live])
  · simp only [Ptable.states_setState, Ptable.parents_setState]
    exact (h.forks.done hchild rfl (fun i hi he => by simpa [hi] using he)).leaves rfl
  · simp only [Ptable.states_setState, Ptable.parents_setState, Ptable.chans_setState]
    exact h.waits.restate (fun q hq hr => by grind) (fun j q hz hj => ⟨by grind, hj⟩)
  · simp only [Ptable.states_setState]
    exact h.cpus.restate (fun i hi => by grind)

theorem exits (hc : m.cpu c = .thread p) (hl : m.loc p = .user) (hp : p ≠ m.initproc) :
    Inv { m.sched c p (exit m.ptable p m.initproc) none with loc := update m.loc p .dead } := by
  have hrun : m.ptable.states p = .running := h.cpus.running c p hc
  have he := exit_exited m.ptable p m.initproc
  constructor
  · exact h.tree.exits (by simp [hrun, Procstate.live]) hp he.zombie he.state he.parent
  · have hf := (h.forks.leaves (p := p) (l := .dead) rfl).reparent (by simp [Loc.child]) he.parent
    refine hf.restate (fun i hi => ?_)
    have hip : i ≠ p := by
      rintro rfl
      simp [hrun] at hi
    exact ((he.state i hip).eq_iff (by simp) (by simp)).mpr hi
  · have hw := h.waits.exits (h.tree.notOwn p) he.zombie he.state (fun i => congrFun he.chans i) he.parent
      he.wakesParent he.wakesInit
    refine hw.restate (fun q hq hr => ?_) (fun j q hz hj => ⟨hz, hj⟩)
    have hqp : q ≠ p := by
      rintro rfl
      simp [Machine.sched] at hr
    exact ⟨hq, by simpa [Machine.sched, hqp] using hr, rfl⟩
  · apply h.cpus.leaves hc rfl
    intro i hi hr
    exact ((he.state i hi).eq_iff (by simp) (by simp)).mpr hr

theorem processStep {n : Machine} {a : Act} (hc : m.cpu c = .thread p) (hs : m.processStep c p a = some n) : Inv n := by
  have hrun : m.ptable.states p = .running := h.cpus.running c p hc
  unfold Machine.processStep at hs
  split at hs
  case h_1 =>
    split_ifs at hs
    split at hs
    · cases hs
      exact h
    · next ha =>
      cases hs
      exact h.alloc ha
  case h_2 ok =>
    split at hs
    · next np hl =>
      split_ifs at hs
      · cases hs
        exact ⟨h.tree, h.forks.copies hl, h.waits, h.cpus⟩
      · cases hs
        exact h.forkFails (Or.inl hl)
    · simp at hs
  case h_3 ok =>
    split at hs
    · next np hl =>
      split_ifs at hs
      · cases hs
        exact h.setParent hrun hl
      · cases hs
        exact h.forkFails (Or.inr hl)
    · simp at hs
  case h_4 =>
    split at hs
    · next np hl =>
      split_ifs at hs
      cases hs
      exact h.forkRuns hrun hl
    · simp at hs
  case h_5 =>
    split_ifs at hs with hg
    cases hs
    exact h.exits hc hg.2.1 hg.2.2
  case h_6 =>
    split_ifs at hs
    cases hs
    exact h.waitLoop hc
  case h_7 pid =>
    split_ifs at hs
    cases hs
    obtain ⟨hst, hp, hch, _⟩ := kill_columns m.ptable pid
    exact h.woken hst hp hch
  case h_8 =>
    split_ifs at hs
    cases hs
    apply h.sched hc (by simp) (Or.inl rfl) (by simp)
    simp only [Ptable.states_setState, Ptable.parents_setState, Ptable.chans_setState]
    exact h.waits.restate (fun q hq hr => by grind) (fun j q hz hj => ⟨by grind, hj⟩)
  case h_9 addr =>
    split_ifs at hs
    cases hs
    apply h.sched hc (by simp) (Or.inr rfl) (by simp)
    simp only [Ptable.states_setState, Ptable.parents_setState, Ptable.chans_setState, Ptable.states_setChan,
      Ptable.parents_setChan, Ptable.chans_setChan]
    exact h.waits.restate (fun q hq hr => by grind) (fun j q hz hj => ⟨by grind, hj⟩)
  case h_10 => simp at hs

theorem step {n : Machine} {a : Act} (hs : m.step a = some n) : Inv n := by
  unfold Machine.step at hs
  split at hs
  case h_1 addr =>
    split_ifs at hs
    cases hs
    exact h.woken (states_wakeup1 _ _) (parents_wakeup1 _ _) (chans_wakeup1 _ _)
  case h_2 c =>
    split_ifs at hs
    cases hs
    exact ⟨h.tree, h.forks, h.waits, h.cpus.idles rfl⟩
  case h_3 c =>
    split at hs
    · cases hs
      exact h.scanStep
    · simp at hs
  case h_4 c =>
    split at hs
    · next p hp =>
      obtain ⟨r, _, rfl⟩ := Option.map_eq_some_iff.mp hs
      exact h.resumed hp r
    · simp at hs
  all_goals
    split at hs
    · next p hp => exact h.processStep (current_eq hp).1 hs
    · simp at hs

end Inv

theorem reachable_inv {as : List Act} (hr : run step bootMachine as = some m) : Inv m :=
  invariant (fun _ _ _ h hs => h.step hs) bootMachine_inv hr

end Machine

end Laboratorio.Procs
