import Laboratorio.Lib.Count
import Laboratorio.WordStack.Machine

/-!
Processes that add and take words at the same time. The mutex is taken before the semaphore, so that a process may wait for a
place or a word while it keeps everybody else out.
-/

namespace Laboratorio.WordStack

open Function

inductive Debt
  | storing | adding | taking | freeing
  deriving DecidableEq

def Pc.debt : Pc → Option Debt
  | .body (.agregar _) => some .storing
  | .unlock (.agregar _) | .post (.agregar _) => some .adding
  | .body .recuperar => some .taking
  | .unlock .recuperar | .post .recuperar => some .freeing
  | _ => none

def Pc.Inside : Pc → Prop
  | .wait _ | .body _ | .unlock _ => True
  | _ => False

variable {P : Type}

def State.debts (s : State P) : P → Option Debt := fun p => (s.pc p).debt

section counts

variable [Fintype P]

structure Safe (s : State P) : Prop where
  full : (s.memory.full : ℤ) + s.memory.items + count s.debts .storing + count s.debts .freeing = maxItems
  empty : (s.memory.empty : ℤ) + count s.debts .taking + count s.debts .adding = s.memory.items
  mutex : ∀ p, s.memory.mutex = some p ↔ (s.pc p).Inside
  writer : ∀ p palabra, s.pc p = .wait (.agregar palabra) → s.memory.items < maxItems
  reader : ∀ p, s.pc p = .wait .recuperar → 0 < s.memory.items

variable {s : State P} {p q : P} {palabra : CString}

theorem count_debts_initial (b : Debt) : count (State.initial : State P).debts b = 0 :=
  count_eq_zero fun p => by simp [State.debts, State.initial, Pc.debt]

theorem safe_initial : Safe (State.initial : State P) where
  full := by
    rw [count_debts_initial, count_debts_initial]
    simp [State.initial, Memory.crearPila, Memory.zeroed]
  empty := by
    rw [count_debts_initial, count_debts_initial]
    simp [State.initial, Memory.crearPila, Memory.zeroed]
  mutex := fun p => by simp [State.initial, Memory.crearPila, Pc.Inside]
  writer := fun p palabra h => by simp [State.initial] at h
  reader := fun p h => by simp [State.initial] at h

namespace Safe

variable (h : Safe s)

include h

theorem unique (hp : (s.pc p).Inside) (hq : (s.pc q).Inside) : p = q := by
  have hp := (h.mutex p).mpr hp
  have hq := (h.mutex q).mpr hq
  exact Option.some.inj (hp.symm.trans hq)

theorem count_eq_zero {c : Task} (hp : s.pc p = .wait c) {b : Debt} (hb : b = .storing ∨ b = .taking) :
    count s.debts b = 0 := by
  apply Laboratorio.count_eq_zero
  intro q hq
  have hin : (s.pc q).Inside ∧ ∀ c, s.pc q ≠ .wait c := by
    simp only [State.debts] at hq
    rcases hb with rfl | rfl <;> unfold Pc.debt at hq <;> split at hq <;> simp_all [Pc.Inside]
  have hpq : p = q := h.unique (by rw [hp]; trivial) hin.1
  subst hpq
  exact hin.2 c hp

theorem exists_freeing (hp : s.pc p = .wait (.agregar palabra)) (hfull : s.memory.full = 0) :
    ∃ q, s.pc q = .post .recuperar := by
  have hroom := h.writer p palabra hp
  have hsum := h.full
  have hzero := h.count_eq_zero hp (.inl rfl)
  obtain ⟨q, hq⟩ := exists_of_count_pos (g := s.debts) (b := .freeing) (by omega)
  refine ⟨q, ?_⟩
  have hout : ¬ (s.pc q).Inside ∨ p = q := by
    by_cases hin : (s.pc q).Inside
    · exact .inr (h.unique (by rw [hp]; trivial) hin)
    · exact .inl hin
  simp only [State.debts] at hq
  rcases hout with hout | rfl
  · unfold Pc.debt at hq
    split at hq <;> simp_all [Pc.Inside]
  · rw [hp] at hq
    cases hq

theorem exists_adding (hp : s.pc p = .wait .recuperar) (hempty : s.memory.empty = 0) :
    ∃ q palabra, s.pc q = .post (.agregar palabra) := by
  have hroom := h.reader p hp
  have hsum := h.empty
  have hzero := h.count_eq_zero hp (.inr rfl)
  obtain ⟨q, hq⟩ := exists_of_count_pos (g := s.debts) (b := .adding) (by omega)
  have hout : ¬ (s.pc q).Inside ∨ p = q := by
    by_cases hin : (s.pc q).Inside
    · exact .inr (h.unique (by rw [hp]; trivial) hin)
    · exact .inl hin
  simp only [State.debts] at hq
  rcases hout with hout | rfl
  · unfold Pc.debt at hq
    split at hq
    · simp_all
    · simp_all [Pc.Inside]
    · next palabra heq => exact ⟨q, palabra, heq⟩
    all_goals simp_all
  · rw [hp] at hq
    cases hq

end Safe

end counts

variable [DecidableEq P]

def State.CanStep (s : State P) (p : P) : Prop := (s.step (.step p)).isSome

def Roomy (s : State P) (a : Action P) : Prop :=
  ∀ p, a = .step p → (∀ palabra, s.pc p = .lock (.agregar palabra) → s.memory.items < maxItems) ∧
    (s.pc p = .lock .recuperar → 0 < s.memory.items)

def State.Deadlocked (s : State P) : Prop :=
  (∃ p palabra, (s.pc p).task = some (.agregar palabra)) ∧ (∃ p, (s.pc p).task = some .recuperar) ∧ ∀ p, ¬ s.CanStep p

theorem debts_goto (s : State P) (p : P) (pc : Pc) (m : Memory P) : (s.goto p pc m).debts = update s.debts p pc.debt := by
  funext q
  by_cases hq : q = p
  · subst hq
    simp [State.debts, State.goto]
  · simp [State.debts, State.goto, hq]

section safe

variable [Fintype P] {s t : State P} {p r : P} {palabra : CString} {m : Memory P}

def State.CanDo (s : State P) (p : P) : Prop :=
  ∃ ps : List P, ∃ t, Runs.run State.step s (ps.map .step) = some t ∧ ∃ c, t.pc p = .unlock c

namespace Safe

variable (h : Safe s)

include h

theorem goto {pc : Pc}
    (hfull : (m.full : ℤ) + m.items + (if pc.debt = some .storing then 1 else 0) + (if pc.debt = some .freeing then 1 else 0) =
      s.memory.full + s.memory.items + (if (s.pc p).debt = some .storing then 1 else 0) +
        (if (s.pc p).debt = some .freeing then 1 else 0))
    (hempty : (m.empty : ℤ) + (if pc.debt = some .taking then 1 else 0) + (if pc.debt = some .adding then 1 else 0) - m.items =
      s.memory.empty + (if (s.pc p).debt = some .taking then 1 else 0) +
        (if (s.pc p).debt = some .adding then 1 else 0) - s.memory.items)
    (hmutex : m.mutex = some p ↔ pc.Inside) (hothers : ∀ q, q ≠ p → (m.mutex = some q ↔ s.memory.mutex = some q))
    (hitems : m.items = s.memory.items ∨ s.memory.mutex = some p)
    (hwriter : ∀ palabra, pc = .wait (.agregar palabra) → m.items < maxItems) (hreader : pc = .wait .recuperar → 0 < m.items) :
    Safe (s.goto p pc m) := by
  have hcount := fun b => count_update s.debts p pc.debt b
  have hdebts := debts_goto s p pc m
  have hpc : s.debts p = (s.pc p).debt := rfl
  have hsame : ∀ q, q ≠ p → ∀ c, s.pc q = .wait c → m.items = s.memory.items := by
    intro q hq c hqc
    rcases hitems with hitems | hown
    · exact hitems
    · have hq' : s.memory.mutex = some q := (h.mutex q).mpr (by rw [hqc]; trivial)
      exact absurd (Option.some.inj (hq'.symm.trans hown)) hq
  refine ⟨?_, ?_, fun q => ?_, fun q palabra hq => ?_, fun q hq => ?_⟩
  · have h1 := hcount .storing
    have h2 := hcount .freeing
    have h3 := h.full
    rw [hdebts]
    rw [hpc] at h1 h2
    simp only [State.goto]
    split_ifs at h1 h2 hfull <;> omega
  · have h1 := hcount .taking
    have h2 := hcount .adding
    have h3 := h.empty
    rw [hdebts]
    rw [hpc] at h1 h2
    simp only [State.goto]
    split_ifs at h1 h2 hempty <;> omega
  · by_cases hqp : q = p
    · subst hqp
      simpa [State.goto] using hmutex
    · simp only [State.goto, update_of_ne hqp]
      rw [hothers q hqp]
      exact h.mutex q
  · by_cases hqp : q = p
    · subst hqp
      exact hwriter palabra (by simpa [State.goto] using hq)
    · simp only [State.goto, update_of_ne hqp] at hq ⊢
      rw [hsame q hqp _ hq]
      exact h.writer q palabra hq
  · by_cases hqp : q = p
    · subst hqp
      exact hreader (by simpa [State.goto] using hq)
    · simp only [State.goto, update_of_ne hqp] at hq ⊢
      rw [hsame q hqp _ hq]
      exact h.reader q hq

variable {c : Task}

theorem start (ht : s.step (.start p c) = some t) : Safe t := by
  unfold State.step at ht
  cases hpc : s.pc p with
  | idle =>
    simp only [hpc, Option.some.injEq] at ht
    subst ht
    have hm := h.mutex p
    rw [hpc] at hm
    refine h.goto ?_ ?_ hm (fun _ _ => Iff.rfl) (.inl rfl) (by simp) (by simp)
    · simp [hpc, Pc.debt]
    · simp [hpc, Pc.debt]
  | lock c | wait c | body c | unlock c | post c => simp [hpc] at ht

theorem lock (hpc : s.pc p = .lock c) (hm : s.memory.lock p = some m)
    (hroom : Roomy s (.step p)) : Safe (s.goto p (.wait c) m) := by
  obtain ⟨hwriter, hreader⟩ := hroom p rfl
  unfold Memory.lock at hm
  split_ifs at hm with hfree
  cases hm
  rw [Option.isNone_iff_eq_none] at hfree
  refine h.goto ?_ ?_ ?_ ?_ (.inl rfl) ?_ ?_
  · cases c <;> simp [hpc, Pc.debt]
  · cases c <;> simp [hpc, Pc.debt]
  · simp [Pc.Inside]
  · intro q hq
    simp [hfree, Ne.symm hq]
  · intro palabra hc
    exact hwriter palabra (by rw [hpc, Pc.wait.inj hc])
  · intro hc
    exact hreader (by rw [hpc, Pc.wait.inj hc])

theorem wait (hpc : s.pc p = .wait c) (hm : m = { s.memory with full := m.full, empty := m.empty })
    (hfull : (m.full : ℤ) + (if c = .recuperar then 0 else 1) = s.memory.full)
    (hempty : (m.empty : ℤ) + (if c = .recuperar then 1 else 0) = s.memory.empty) : Safe (s.goto p (.body c) m) := by
  have hown := h.mutex p
  have hmutex : m.mutex = s.memory.mutex := by rw [hm]
  have hitems : m.items = s.memory.items := by rw [hm]
  rw [hpc] at hown
  refine h.goto ?_ ?_ ?_ ?_ (.inl hitems) (by simp) (by simp)
  · cases c <;> simp [hpc, Pc.debt, hitems] at hfull ⊢ <;> omega
  · cases c <;> simp [hpc, Pc.debt, hitems] at hempty ⊢ <;> omega
  · rw [hmutex]
    exact hown
  · intro q _
    rw [hmutex]

theorem step (hroom : Roomy s (.step p)) (ht : s.step (.step p) = some t) : Safe t := by
  unfold State.step at ht
  have hown := h.mutex p
  cases hpc : s.pc p with
  | idle => simp [hpc] at ht
  | lock c =>
    simp only [hpc] at ht
    obtain ⟨m, hm, rfl⟩ := Option.map_eq_some_iff.mp ht
    exact h.lock hpc hm hroom
  | wait c =>
    cases c with
    | agregar palabra =>
      simp only [hpc] at ht
      obtain ⟨m, hm, rfl⟩ := Option.map_eq_some_iff.mp ht
      unfold Memory.waitFull at hm
      split_ifs at hm with hpos
      cases hm
      exact h.wait hpc rfl (by simp only [reduceCtorEq, if_false]; omega) (by simp)
    | recuperar =>
      simp only [hpc] at ht
      obtain ⟨m, hm, rfl⟩ := Option.map_eq_some_iff.mp ht
      unfold Memory.waitEmpty at hm
      split_ifs at hm with hpos
      cases hm
      exact h.wait hpc rfl (by simp) (by simp only [if_true]; omega)
  | body c =>
    rw [hpc] at hown
    have hmine : s.memory.mutex = some p := hown.mpr trivial
    cases c with
    | agregar palabra =>
      simp only [hpc, Option.some.injEq] at ht
      subst ht
      refine h.goto ?_ ?_ hown (fun _ _ => Iff.rfl) (.inr hmine) (by simp) (by simp)
      · simp only [hpc, Pc.debt, Memory.push, Option.some.injEq, reduceCtorEq, if_true, if_false]
        omega
      · simp only [hpc, Pc.debt, Memory.push, Option.some.injEq, reduceCtorEq, if_true, if_false]
        omega
    | recuperar =>
      simp only [hpc, Option.some.injEq] at ht
      subst ht
      refine h.goto ?_ ?_ hown (fun _ _ => Iff.rfl) (.inr hmine) (by simp) (by simp)
      · simp only [hpc, Pc.debt, Memory.pop, Option.some.injEq, reduceCtorEq, if_true, if_false]
        omega
      · simp only [hpc, Pc.debt, Memory.pop, Option.some.injEq, reduceCtorEq, if_true, if_false]
        omega
  | unlock c =>
    rw [hpc] at hown
    have hmine : s.memory.mutex = some p := hown.mpr trivial
    simp only [hpc, Option.some.injEq] at ht
    subst ht
    refine h.goto ?_ ?_ (by simp [Memory.unlock, Pc.Inside]) ?_ (.inl rfl) (by simp) (by simp)
    · cases c <;> simp [hpc, Pc.debt, Memory.unlock]
    · cases c <;> simp [hpc, Pc.debt, Memory.unlock]
    · intro q hq
      simp [Memory.unlock, hmine, Ne.symm hq]
  | post c =>
    rw [hpc] at hown
    cases c with
    | agregar palabra =>
      simp only [hpc, Option.some.injEq] at ht
      subst ht
      refine h.goto ?_ ?_ hown (fun _ _ => Iff.rfl) (.inl rfl) (by simp) (by simp)
      · simp [hpc, Pc.debt, Memory.postEmpty]
      · simp [hpc, Pc.debt, Memory.postEmpty]
    | recuperar =>
      simp only [hpc, Option.some.injEq] at ht
      subst ht
      refine h.goto ?_ ?_ hown (fun _ _ => Iff.rfl) (.inl rfl) (by simp) (by simp)
      · simp only [hpc, Pc.debt, Memory.postFull, Option.some.injEq, reduceCtorEq, if_true, if_false]
        omega
      · simp [hpc, Pc.debt, Memory.postFull]

theorem canStep_of_inside (hp : (s.pc p).Inside) : ∃ q, s.CanStep q := by
  cases hpc : s.pc p with
  | wait c =>
    cases c with
    | agregar palabra =>
      by_cases hfull : s.memory.full = 0
      · obtain ⟨q, hq⟩ := h.exists_freeing hpc hfull
        exact ⟨q, by simp [State.CanStep, State.step, hq]⟩
      · exact ⟨p, by simp [State.CanStep, State.step, hpc, Memory.waitFull, Nat.pos_of_ne_zero hfull]⟩
    | recuperar =>
      by_cases hempty : s.memory.empty = 0
      · obtain ⟨q, palabra, hq⟩ := h.exists_adding hpc hempty
        exact ⟨q, by simp [State.CanStep, State.step, hq]⟩
      · exact ⟨p, by simp [State.CanStep, State.step, hpc, Memory.waitEmpty, Nat.pos_of_ne_zero hempty]⟩
  | body c =>
    cases c with
    | agregar palabra | recuperar => exact ⟨p, by simp [State.CanStep, State.step, hpc]⟩
  | unlock c => exact ⟨p, by simp [State.CanStep, State.step, hpc]⟩
  | idle | lock c | post c => simp [hpc, Pc.Inside] at hp

theorem exists_canStep (hp : (s.pc p).task.isSome) : ∃ q, s.CanStep q := by
  cases hm : s.memory.mutex with
  | some q => exact h.canStep_of_inside ((h.mutex q).mp hm)
  | none =>
    cases hpc : s.pc p with
    | idle => simp [hpc, Pc.task] at hp
    | lock c => exact ⟨p, by simp [State.CanStep, State.step, hpc, Memory.lock, hm]⟩
    | post c =>
      cases c with
      | agregar palabra | recuperar => exact ⟨p, by simp [State.CanStep, State.step, hpc]⟩
    | wait c | body c | unlock c => exact h.canStep_of_inside (by rw [hpc]; trivial)

theorem reader_canDo (hp : s.pc p = .wait (.agregar palabra)) (hfull : s.memory.full = 0)
    (hr : s.pc r = .lock .recuperar) : s.CanDo r := by
  obtain ⟨q, hq⟩ := h.exists_freeing hp hfull
  have hqp : p ≠ q := by
    rintro rfl
    simp [hp] at hq
  have hqr : r ≠ q := by
    rintro rfl
    simp [hr] at hq
  have hpr : r ≠ p := by
    rintro rfl
    simp [hr] at hp
  -- the one about to post does, the writer goes on to the end, and the reader follows
  have hrun : (Runs.run State.step s ([q, p, p, p, p, r, r, r].map .step)).map (fun t => t.pc r) =
    some (.unlock .recuperar) := by
    simp [Runs.run_cons, State.step, State.goto, hq, hp, hr, hqp, hqr, hpr, Memory.postFull, Memory.waitFull, Memory.push,
      Memory.unlock, Memory.postEmpty, Memory.lock, Memory.waitEmpty, Memory.pop, hfull]
  obtain ⟨t, ht, hpc⟩ := Option.map_eq_some_iff.mp hrun
  exact ⟨_, t, ht, _, hpc⟩

theorem writer_canDo (hp : s.pc p = .wait .recuperar) (hempty : s.memory.empty = 0)
    (hr : s.pc r = .lock (.agregar palabra)) : s.CanDo r := by
  obtain ⟨q, w, hq⟩ := h.exists_adding hp hempty
  have hqp : p ≠ q := by
    rintro rfl
    simp [hp] at hq
  have hqr : r ≠ q := by
    rintro rfl
    simp [hr] at hq
  have hpr : r ≠ p := by
    rintro rfl
    simp [hr] at hp
  have hrun : (Runs.run State.step s ([q, p, p, p, p, r, r, r].map .step)).map (fun t => t.pc r) =
    some (.unlock (.agregar palabra)) := by
    simp [Runs.run_cons, State.step, State.goto, hq, hp, hr, hqp, hqr, hpr, Memory.postFull, Memory.waitFull, Memory.push,
      Memory.unlock, Memory.postEmpty, Memory.lock, Memory.waitEmpty, Memory.pop, hempty]
  obtain ⟨t, ht, hpc⟩ := Option.map_eq_some_iff.mp hrun
  exact ⟨_, t, ht, _, hpc⟩

end Safe

theorem safe_run {acts : List (Action P)} (hroom : Runs.Along State.step Roomy State.initial acts)
    (h : Runs.run State.step State.initial acts = some s) : Safe s := by
  refine Runs.invariant_along (fun s a t hs ha ht => ?_) safe_initial hroom h
  cases a with
  | start p c => exact hs.start ht
  | step p => exact hs.step ha ht

end safe

theorem deadlock_free {P : Type} [DecidableEq P] [Fintype P] {acts : List (Action P)} {s : State P}
    (hroom : Runs.Along State.step Roomy State.initial acts) (h : Runs.run State.step State.initial acts = some s) :
    ¬ s.Deadlocked ∧ (∀ p, (s.pc p).task.isSome → ∃ q, s.CanStep q) ∧
    (∀ p palabra r, s.pc p = .wait (.agregar palabra) → s.memory.full = 0 → s.pc r = .lock .recuperar → s.CanDo r) ∧
    ∀ p r palabra, s.pc p = .wait .recuperar → s.memory.empty = 0 → s.pc r = .lock (.agregar palabra) → s.CanDo r := by
  have hs := safe_run hroom h
  refine ⟨?_, fun p hp => hs.exists_canStep hp, fun p palabra r => hs.reader_canDo, fun p r palabra => hs.writer_canDo⟩
  rintro ⟨⟨p, palabra, hp⟩, -, hstuck⟩
  obtain ⟨q, hq⟩ := hs.exists_canStep (by rw [hp]; rfl)
  exact hstuck q hq

theorem deadlock_free_waiting : ∃ s : State (Fin 2), Runs.run State.step State.initial
    [.start 0 (.agregar ⟨[97], by decide⟩), .step 0, .start 1 .recuperar] = some s ∧
      s.pc 0 = .wait (.agregar ⟨[97], by decide⟩) ∧ s.pc 1 = .lock .recuperar ∧ ¬ s.Deadlocked := by
  have hroom : Runs.Along State.step Roomy (State.initial : State (Fin 2))
      [.start 0 (.agregar ⟨[97], by decide⟩), .step 0, .start 1 .recuperar] := by
    refine ⟨fun p hp => (by cases hp), fun t ht => ⟨fun p hp => ?_, fun u _ => ⟨fun p hp => (by cases hp), fun _ _ => trivial⟩⟩⟩
    cases ht
    obtain rfl := Action.step.inj hp
    exact ⟨fun _ _ => by decide, fun h => absurd h (by decide)⟩
  exact ⟨_, rfl, rfl, rfl, (deadlock_free hroom rfl).1⟩

theorem reader_locks_out_writer : ∃ s : State (Fin 2), Runs.run State.step State.initial
    [.start 0 .recuperar, .step 0, .start 1 (.agregar ⟨[97], by decide⟩)] = some s ∧ s.Deadlocked := by
  refine ⟨_, rfl, ⟨1, ⟨[97], by decide⟩, rfl⟩, ⟨0, rfl⟩, fun p => ?_⟩
  fin_cases p
  · exact Bool.false_ne_true
  · exact Bool.false_ne_true

end Laboratorio.WordStack
