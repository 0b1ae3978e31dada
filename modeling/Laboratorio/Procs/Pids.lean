import Laboratorio.Procs.Reaping

/-!
Process identifiers over whole runs of the machine: `nextpid` is an `int` that `allocproc` counts up
and that wraps.
-/

namespace Laboratorio.Procs

open Runs Function

structure Pids (t : Ptable) : Prop where
  positive : ∀ i, t.states i ≠ .unused → 0 < t.pids i
  below : 0 < t.nextpid → ∀ i, t.states i ≠ .unused → t.pids i < t.nextpid
  distinct : ∀ i j, i ≠ j → t.states i ≠ .unused → t.states j ≠ .unused → t.pids i ≠ t.pids j

structure KeepsPids (t u : Ptable) : Prop where
  nextpid : u.nextpid = t.nextpid
  used : ∀ i, u.states i ≠ .unused → t.states i ≠ .unused
  pids : ∀ i, u.states i ≠ .unused → u.pids i = t.pids i

namespace KeepsPids

variable {t u v : Ptable}

theorem refl (t : Ptable) : KeepsPids t t := ⟨rfl, fun _ => id, fun _ _ => rfl⟩

theorem trans (h : KeepsPids t u) (h' : KeepsPids u v) : KeepsPids t v := by
  refine ⟨h'.nextpid.trans h.nextpid, fun i hi => h.used i (h'.used i hi), fun i hi => ?_⟩
  rw [h'.pids i hi, h.pids i (h'.used i hi)]

theorem woken (hn : u.nextpid = t.nextpid) (hs : ∀ i, (t.states i).wokenTo (u.states i)) (hp : u.pids = t.pids) :
    KeepsPids t u := by
  refine ⟨hn, fun i hi => ?_, fun i _ => congrFun hp i⟩
  rwa [Ne, ← (hs i).eq_iff (by simp) (by simp)]

theorem setState {p : Slot} {x : Procstate} (hp : t.states p ≠ .unused ∨ x = .unused) : KeepsPids t (t.setState p x) := by
  refine ⟨rfl, fun i hi => ?_, by simp⟩
  by_cases h : i = p
  · subst h
    rw [Ptable.states_setState, update_self] at hi
    exact hp.resolve_right hi
  · simpa [h] using hi

theorem setChan (t : Ptable) (p : Slot) (c : Option Chan) : KeepsPids t (t.setChan p c) :=
  ⟨rfl, by simp, by simp⟩

theorem setParent (t : Ptable) (p : Slot) (q : Option Slot) : KeepsPids t (t.setParent p q) :=
  ⟨rfl, by simp, by simp⟩

theorem wakeup1 (t : Ptable) (c : Option Chan) : KeepsPids t (wakeup1 t c) :=
  woken rfl (states_wakeup1 t c) (pids_wakeup1 t c)

theorem reparentAll (t : Ptable) (cur ip : Slot) : KeepsPids t (reparentAll t cur ip) := by
  unfold Procs.reparentAll
  induction List.finRange nproc generalizing t with
  | nil => exact refl t
  | cons p ps ih =>
    refine trans ?_ (ih (reparent cur ip t p))
    simp only [reparent]
    split_ifs
    · exact (setParent t p _).trans (wakeup1 _ _)
    · exact setParent t p _
    · exact refl t

theorem exit {cur : Slot} (ip : Slot) (hcur : t.states cur ≠ .unused) : KeepsPids t (exit t cur ip) := by
  have hk := (wakeup1 t ((t.proc cur).parent.map .proc)).trans (reparentAll _ cur ip)
  have hnext : (Procs.exit t cur ip).nextpid = t.nextpid := by
    rw [Procs.exit, Ptable.setState, Ptable.set_nextpid, hk.nextpid]
  refine ⟨hnext, fun i hi => ?_, fun i _ => congrFun (exit_exited t cur ip).pids i⟩
  by_cases h : i = cur
  · rwa [h]
  · have hs := (exit_exited t cur ip).state i h
    rwa [Ne, ← hs.eq_iff (by simp) (by simp)]

theorem waitReaped {p i : Slot} {pid : Int32} (hw : wait t p = .reaped i pid u) : KeepsPids t u := by
  obtain ⟨_, _, _, hs, _, _, hpids⟩ := wait_reaped hw
  have hne : ∀ j, u.states j ≠ .unused → j ≠ i := by
    rintro j hj rfl
    simp [hs] at hj
  refine ⟨?_, fun j hj => ?_, fun j hj => ?_⟩
  · unfold wait at hw
    split at hw
    · injection hw with _ _ hu
      rw [← hu]
      rfl
    · split_ifs at hw
  · simpa [hs, hne j hj] using hj
  · simp [hpids, hne j hj]

theorem kill (t : Ptable) (pid : Int32) : KeepsPids t (kill t pid).1 := by
  obtain ⟨hs, _, _, hp⟩ := Machine.kill_columns t pid
  refine woken ?_ hs hp
  unfold Procs.kill
  split <;> rfl

end KeepsPids

theorem lt_succ_of_pos {x : Int32} (h : 0 < x) (hs : 0 < x + 1) : x < x + 1 := by
  rw [Int32.lt_iff_toInt_lt] at h hs ⊢
  rw [Int32.toInt_add] at hs ⊢
  simp only [Int32.toInt_zero, Int32.toInt_one] at h hs ⊢
  have hx := Int32.toInt_lt x
  rw [Int.bmod_def] at hs ⊢
  split_ifs at hs ⊢ <;> omega

variable {t u : Ptable}

theorem Pids.keeps (h : Pids t) (hk : KeepsPids t u) : Pids u := by
  refine ⟨fun i hi => ?_, fun hn i hi => ?_, fun i j hij hi hj => ?_⟩
  · rw [hk.pids i hi]
    exact h.positive i (hk.used i hi)
  · rw [hk.pids i hi, hk.nextpid]
    exact h.below (hk.nextpid ▸ hn) i (hk.used i hi)
  · rw [hk.pids i hi, hk.pids j hj]
    exact h.distinct i j hij (hk.used i hi) (hk.used j hj)

theorem allocproc_pids {np : Slot} (ha : allocproc t = some (np, u)) :
    u.pids = update t.pids np t.nextpid ∧ u.nextpid = t.nextpid + 1 := by
  obtain ⟨_, rfl⟩ := allocproc_eq ha
  exact ⟨Ptable.pids_set t np _, rfl⟩

theorem Pids.alloc (h : Pids t) {np : Slot} (ha : allocproc t = some (np, u)) (hn : 0 < t.nextpid) : Pids u := by
  obtain ⟨_, hs⟩ := allocproc_states ha
  obtain ⟨hp, hnext⟩ := allocproc_pids ha
  have hused : ∀ i, i ≠ np → u.states i ≠ .unused → t.states i ≠ .unused := by
    intro i hi hu
    simpa [hs, hi] using hu
  have hfresh : ∀ i, i ≠ np → u.states i ≠ .unused → u.pids i ≠ u.pids np := by
    intro i hi hu
    rw [hp, update_of_ne hi, update_self]
    exact Int32.ne_of_lt (h.below hn i (hused i hi hu))
  refine ⟨fun i hi => ?_, fun hn' i hi => ?_, fun i j hij hi hj => ?_⟩
  · rw [hp]
    by_cases hc : i = np
    · simpa [hc] using hn
    · simpa [hc] using h.positive i (hused i hc hi)
  · rw [hnext] at hn' ⊢
    have hlt := lt_succ_of_pos hn hn'
    rw [hp]
    by_cases hc : i = np
    · simpa [hc] using hlt
    · simpa [hc] using Int32.lt_trans (h.below hn i (hused i hc hi)) hlt
  · by_cases hc : i = np
    · subst hc
      exact (hfresh j hij.symm hj).symm
    · by_cases hd : j = np
      · subst hd
        exact hfresh i hc hi
      · rw [hp, update_of_ne hc, update_of_ne hd]
        exact h.distinct i j hij (hused i hc hi) (hused j hd hj)

namespace Machine

def forkReturns (m : Machine) : Act → Option Int32
  | .forkRun c =>
    match m.current c with
    | some p =>
      match m.loc p with
      | .forkRun np => some (m.ptable.pids np)
      | _ => none
    | none => none
  | _ => none

variable {m : Machine} {c : ℕ} {p np : Slot}

theorem forkReturns_eq (hc : m.current c = some p) (hl : m.loc p = .forkRun np) :
    m.forkReturns (.forkRun c) = some (m.ptable.pids np) := by
  simp [forkReturns, hc, hl]

def pidsLeft (m : Machine) : Act → Prop
  | .alloc _ => (allocproc m.ptable).isSome → 0 < m.ptable.nextpid
  | _ => True

theorem waitLoop_pids (hp : m.ptable.states p ≠ .unused) : KeepsPids m.ptable (m.waitLoop c p).ptable := by
  unfold waitLoop
  split
  · next hw => exact KeepsPids.waitReaped hw
  · exact KeepsPids.refl _
  · exact (KeepsPids.setChan _ p _).trans (KeepsPids.setState (Or.inl (by simpa using hp)))

theorem process_pids {n : Machine} (h : Inv m) {a : Act} (hc : m.cpu c = .thread p) (hs : m.processStep c p a = some n) :
    KeepsPids m.ptable n.ptable ∨ ∃ d np, a = .alloc d ∧ allocproc m.ptable = some (np, n.ptable) := by
  have hp : m.ptable.states p ≠ .unused := by simp [h.cpus.running c p hc]
  have hchild : ∀ np, (m.loc p).child = some np → m.ptable.states np ≠ .unused := by
    intro np hl
    simp [h.forks.embryo p np hl]
  unfold processStep at hs
  split at hs
  case h_1 d =>
    split_ifs at hs
    split at hs
    · cases hs
      exact Or.inl (KeepsPids.refl _)
    · next np t ha =>
      cases hs
      exact Or.inr ⟨d, np, rfl, ha⟩
  case h_2 ok =>
    left
    split at hs
    · split_ifs at hs
      · cases hs
        exact KeepsPids.refl _
      · cases hs
        exact KeepsPids.setState (Or.inr rfl)
    · simp at hs
  case h_3 ok =>
    left
    split at hs
    · split_ifs at hs
      · cases hs
        exact KeepsPids.setParent _ _ _
      · cases hs
        exact KeepsPids.setState (Or.inr rfl)
    · simp at hs
  case h_4 =>
    left
    split at hs
    · next np hl =>
      split_ifs at hs
      cases hs
      exact KeepsPids.setState (Or.inl (hchild np (by simp [hl, Loc.child])))
    · simp at hs
  case h_5 =>
    split_ifs at hs
    cases hs
    exact Or.inl (KeepsPids.exit m.initproc hp)
  case h_6 =>
    split_ifs at hs
    cases hs
    exact Or.inl (waitLoop_pids hp)
  case h_7 pid =>
    split_ifs at hs
    cases hs
    exact Or.inl (KeepsPids.kill _ pid)
  case h_8 =>
    split_ifs at hs
    cases hs
    exact Or.inl (KeepsPids.setState (Or.inl hp))
  case h_9 addr =>
    split_ifs at hs
    cases hs
    exact Or.inl ((KeepsPids.setChan _ p _).trans (KeepsPids.setState (Or.inl (by simpa using hp))))
  case h_10 => simp at hs

theorem step_pids {n : Machine} (h : Inv m) {a : Act} (hs : m.step a = some n) :
    KeepsPids m.ptable n.ptable ∨ ∃ d np, a = .alloc d ∧ allocproc m.ptable = some (np, n.ptable) := by
  unfold step at hs
  split at hs
  case h_1 addr =>
    split_ifs at hs
    cases hs
    exact Or.inl (KeepsPids.wakeup1 _ _)
  case h_2 c =>
    split_ifs at hs
    cases hs
    exact Or.inl (KeepsPids.refl _)
  case h_3 c =>
    left
    split at hs
    · cases hs
      unfold scanStep
      split_ifs with hi hr
      · exact KeepsPids.setState (Or.inl (by simp [Ptable.states, hr]))
      · exact KeepsPids.refl _
      · exact KeepsPids.refl _
    · simp at hs
  case h_4 c =>
    left
    split at hs
    · next p hp =>
      obtain ⟨r, hr, rfl⟩ := Option.map_eq_some_iff.mp hs
      have hne : m.ptable.states p ≠ .unused := by simp [h.cpus.running c p hp]
      cases r with
      | forkret | yield => exact KeepsPids.refl _
      | sleep => exact KeepsPids.setChan _ p none
      | wait =>
        exact (KeepsPids.setChan _ p none).trans
          (waitLoop_pids (m := { m with ptable := m.ptable.setChan p none }) (by simpa using hne))
    · simp at hs
  all_goals
    split at hs
    · next p hp => exact process_pids h (current_eq hp).1 hs
    · simp at hs

theorem bootTable_pids : Pids bootTable := by
  have huse : ∀ i, bootTable.states i ≠ .unused → i = 0 := by decide
  refine ⟨by decide, fun _ => by decide, fun i j hij hi hj => ?_⟩
  exact absurd ((huse i hi).trans (huse j hj).symm) hij

theorem pids_usable {as : List Act} {m : Machine} (hr : run step bootMachine as = some m)
    (hc : Along step pidsLeft bootMachine as) :
    (∀ i j, i ≠ j → m.ptable.states i ≠ .unused → m.ptable.states j ≠ .unused → m.ptable.pids i ≠ m.ptable.pids j) ∧
      ∀ a pid, m.forkReturns a = some pid → 0 < pid := by
  have hinv : Inv m ∧ Pids m.ptable := by
    apply invariant_along _ ⟨bootMachine_inv, bootTable_pids⟩ hc hr
    rintro m a n ⟨hm, hp⟩ ha hs
    refine ⟨hm.step hs, ?_⟩
    rcases step_pids hm hs with hk | ⟨d, np, rfl, hal⟩
    · exact hp.keeps hk
    · exact hp.alloc hal (ha (by simp [hal]))
  obtain ⟨hm, hp⟩ := hinv
  refine ⟨hp.distinct, fun a pid hf => ?_⟩
  unfold forkReturns at hf
  split at hf
  · split at hf
    · next p _ =>
      split at hf
      · next np hl =>
        cases hf
        exact hp.positive np (by simp [hm.forks.embryo p np (by simp [hl, Loc.child])])
      · simp at hf
    · simp at hf
  · simp at hf

def initRuns : List Act := [.schedule 0, .scan 0, .resume 0]

def firstFork : List Act := [.alloc 0, .kstack 0 true, .copy 0 true]

theorem pids_usable_firstFork : ∃ m, run step bootMachine (initRuns ++ firstFork) = some m ∧
    m.forkReturns (.forkRun 0) = some 2 ∧ (0 : Int32) < 2 ∧ m.ptable.pids 0 ≠ m.ptable.pids 1 := by
  obtain ⟨m, hm⟩ : ∃ m, run step bootMachine initRuns = some m := ⟨_, rfl⟩
  have hnext : 0 < m.ptable.nextpid := by
    cases hm
    decide
  obtain ⟨n, hn⟩ : ∃ n, run step bootMachine (initRuns ++ firstFork) = some n := ⟨_, rfl⟩
  have hfacts : n.forkReturns (.forkRun 0) = some 2 ∧ n.ptable.states 0 ≠ .unused ∧ n.ptable.states 1 ≠ .unused := by
    cases hn
    decide
  have hc : Along step pidsLeft bootMachine (initRuns ++ firstFork) := by
    rw [along_append hm]
    exact ⟨⟨trivial, fun _ _ => ⟨trivial, fun _ _ => ⟨trivial, fun _ _ => trivial⟩⟩⟩,
      fun _ => hnext, fun _ _ => ⟨trivial, fun _ _ => ⟨trivial, fun _ _ => trivial⟩⟩⟩
  have h := pids_usable hn hc
  exact ⟨n, hn, hfacts.1, h.2 _ _ hfacts.1, h.1 0 1 (by decide) hfacts.2.1 hfacts.2.2⟩

structure Alone (x : Int32) (m : Machine) : Prop where
  current : m.current 0 = some 0
  user : m.loc 0 = .user
  lock : m.lock = none
  nextpid : m.ptable.nextpid = x
  init : m.ptable.states 0 = .running ∧ m.ptable.pids 0 = 1
  free : ∀ i, i ≠ 0 → m.ptable.states i = .unused

theorem step_kstack (hc : m.current c = some p) (hl : m.loc p = .forkKstack np) :
    m.step (.kstack c true) = some { m with loc := update m.loc p (.forkCopy np) } ∧
      m.step (.kstack c false) =
        some { m with ptable := m.ptable.setState np .unused, loc := update m.loc p .user } := by
  simp [step, hc, processStep, hl]

theorem step_copy (hc : m.current c = some p) (hl : m.loc p = .forkCopy np) : m.step (.copy c true) =
      some { m with ptable := m.ptable.setParent np (some p), loc := update m.loc p (.forkRun np) } := by
  simp [step, hc, processStep, hl]

variable {x : Int32}

theorem Alone.alloc (h : Alone x m) : ∃ np n, np ≠ 0 ∧ m.step (.alloc 0) = some n ∧ n.current 0 = some 0 ∧ n.lock = none ∧
      n.loc 0 = .forkKstack np ∧ n.ptable.states = update m.ptable.states np .embryo ∧
      n.ptable.pids = update m.ptable.pids np x ∧ n.ptable.nextpid = x + 1 := by
  cases ha : allocproc m.ptable with
  | none => exact absurd (h.free 1 (by decide)) (allocproc_none ha 1)
  | some r =>
    obtain ⟨np, t⟩ := r
    obtain ⟨hu, hst⟩ := allocproc_states ha
    obtain ⟨hp, hnext⟩ := allocproc_pids ha
    rw [h.nextpid] at hp hnext
    refine ⟨np, { m with ptable := t, loc := update m.loc 0 (.forkKstack np) }, ?_, ?_, h.current, h.lock, ?_⟩
    · rintro rfl
      simp [h.init.1] at hu
    · simp [step, h.current, processStep, h.lock, h.user, ha]
    · exact ⟨by simp, hst, hp, hnext⟩

theorem Alone.spent (h : Alone x m) : ∃ n, run step m [.alloc 0, .kstack 0 false] = some n ∧ Alone (x + 1) n := by
  obtain ⟨np, n, hnp, hs, hcur, hlock, hloc, hst, hp, hnext⟩ := h.alloc
  refine ⟨_, run_cons_eq.mpr ⟨n, hs, run_cons_eq.mpr ⟨_, (step_kstack hcur hloc).2, rfl⟩⟩, ?_⟩
  refine ⟨hcur, by simp, hlock, hnext, ⟨?_, ?_⟩, fun i hi => ?_⟩
  · simp [hst, Ne.symm hnp, h.init.1]
  · simp [hp, Ne.symm hnp, h.init.2]
  · by_cases hin : i = np
    · simp [hin]
    · simp [hst, hin, h.free i hi]

theorem Alone.spentAll (n : ℕ) : ∃ as m, run step bootMachine as = some m ∧ Alone (Int32.ofNat (n + 2)) m := by
  induction n with
  | zero =>
    refine ⟨initRuns, _, rfl, ?_⟩
    exact ⟨rfl, rfl, rfl, rfl, ⟨rfl, rfl⟩, by decide⟩
  | succ n ih =>
    obtain ⟨as, m, hr, hm⟩ := ih
    obtain ⟨m', hr', hm'⟩ := hm.spent
    refine ⟨as ++ [.alloc 0, .kstack 0 false], m', run_append_eq.mpr ⟨m, hr, hr'⟩, ?_⟩
    rwa [show n + 1 + 2 = (n + 2) + 1 from rfl, Int32.ofNat_add]

theorem Alone.forks (h : Alone x m) : ∃ n, run step m firstFork = some n ∧ n.forkReturns (.forkRun 0) = some x ∧
      ∃ np, np ≠ 0 ∧ n.ptable.states np = .embryo ∧ n.ptable.pids np = x ∧
        n.ptable.states 0 = .running ∧ n.ptable.pids 0 = 1 := by
  obtain ⟨np, n, hnp, hs, hcur, hlock, hloc, hst, hp, hnext⟩ := h.alloc
  let m₁ : Machine := { n with loc := update n.loc 0 (.forkCopy np) }
  let m₂ : Machine := { m₁ with ptable := m₁.ptable.setParent np (some 0), loc := update m₁.loc 0 (.forkRun np) }
  have hcopy : m₁.step (.copy 0 true) = some m₂ := step_copy hcur (update_self 0 (.forkCopy np) n.loc)
  refine ⟨m₂, run_cons_eq.mpr ⟨n, hs, run_cons_eq.mpr ⟨m₁, (step_kstack hcur hloc).1, run_cons_eq.mpr ⟨m₂, hcopy, rfl⟩⟩⟩,
    ?_, np, hnp, ?_⟩
  · rw [forkReturns_eq (m := m₂) hcur (update_self 0 (.forkRun np) m₁.loc)]
    simp [m₁, m₂, hp]
  · simp [m₁, m₂, hst, hp, hnp.symm, h.init]

theorem pids_wrap : (∃ as m, run step bootMachine as = some m ∧ m.forkReturns (.forkRun 0) = some (-2147483648)) ∧
      ∃ as m np, run step bootMachine as = some m ∧ np ≠ 0 ∧ m.ptable.states np ≠ .unused ∧
        m.ptable.states 0 ≠ .unused ∧ m.ptable.pids np = m.ptable.pids 0 := by
  constructor
  · obtain ⟨as, m, hr, hm⟩ := Alone.spentAll (2 ^ 31 - 2)
    obtain ⟨n, hr', hf, _⟩ := hm.forks
    exact ⟨_, n, run_append_eq.mpr ⟨m, hr, hr'⟩, hf⟩
  · obtain ⟨as, m, hr, hm⟩ := Alone.spentAll (2 ^ 32 - 1)
    obtain ⟨n, hr', _, np, hnp, he, hp, hs0, hp0⟩ := hm.forks
    refine ⟨_, n, np, run_append_eq.mpr ⟨m, hr, hr'⟩, hnp, by simp [he], by simp [hs0], ?_⟩
    rw [hp, hp0]
    rfl

end Machine

end Laboratorio.Procs
