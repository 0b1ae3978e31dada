import Laboratorio.Lib.Ring
import Laboratorio.Lib.Runs

/-!
The bounded buffer of `lab-05/buf.c`: one producer and one consumer, in any interleaving of their steps.
-/

namespace Laboratorio.Buffer

open Function

inductive Side
  | producer | consumer
  deriving DecidableEq, Repr

def Side.other : Side → Side
  | .producer => .consumer
  | .consumer => .producer

inductive Pc
  | loop | wait | lock | access | unlock | post | done
  deriving DecidableEq, Repr

structure Thread where
  pc : Pc
  i : ℕ
  deriving DecidableEq, Repr

/-- `sem` is the semaphore that a side waits for: `empty` for the producer, `full` for the consumer. -/
structure State where
  thread : Side → Thread
  sem : Side → ℕ
  mutex : Option Side
  buf : ℕ → ℤ
  readerResults : ℕ → ℤ

def initial (size : ℕ) (buf readerResults : ℕ → ℤ) : State where
  thread := fun _ => ⟨.loop, 0⟩
  sem := fun x => match x with
    | .producer => size
    | .consumer => 0
  mutex := none
  buf := buf
  readerResults := readerResults

namespace State

def goto (s : State) (x : Side) (pc : Pc) : State := { s with thread := update s.thread x ⟨pc, (s.thread x).i⟩ }

def access (size : ℕ) (s : State) : Side → State
  | .producer => { s with buf := update s.buf ((s.thread .producer).i % size) (s.thread .producer).i }
  | .consumer =>
    { s with readerResults := update s.readerResults (s.thread .consumer).i (s.buf ((s.thread .consumer).i % size)) }

def step (size items : ℕ) (s : State) (x : Side) : Option State :=
  match (s.thread x).pc with
  | .loop => some (s.goto x (if (s.thread x).i < items then .wait else .done))
  | .wait => if 0 < s.sem x then some ({ s with sem := update s.sem x (s.sem x - 1) }.goto x .lock) else none
  | .lock => if s.mutex = none then some ({ s with mutex := some x }.goto x .access) else none
  | .access => some ((s.access size x).goto x .unlock)
  | .unlock => some ({ s with mutex := none }.goto x .post)
  | .post => some { s with
      thread := update s.thread x ⟨.loop, (s.thread x).i + 1⟩
      sem := update s.sem x.other (s.sem x.other + 1) }
  | .done => none

end State

def Thread.waits (t : Thread) : ℕ :=
  match t.pc with
  | .lock | .access | .unlock | .post => t.i + 1
  | _ => t.i

def Thread.accesses (t : Thread) : ℕ :=
  match t.pc with
  | .unlock | .post => t.i + 1
  | _ => t.i

def Thread.inside (t : Thread) : Prop := t.pc = .access ∨ t.pc = .unlock

def Thread.inBounds (items : ℕ) (t : Thread) : Prop :=
  match t.pc with
  | .loop => t.i ≤ items
  | .done => t.i = items
  | _ => t.i < items

def ints (n : ℕ) : List ℤ := (List.range n).map Nat.cast

def credit (size : ℕ) : Side → ℕ
  | .producer => size
  | .consumer => 0

structure Handoff (size items : ℕ) (s : State) : Prop where
  sem : ∀ x, s.sem x + (s.thread x).waits = credit size x + (s.thread x.other).i
  mutex : ∀ x, s.mutex = some x ↔ (s.thread x).inside
  bounds : ∀ x, (s.thread x).inBounds items
  ring : Ring size s.buf (ints (s.thread .producer).accesses) (ints (s.thread .consumer).accesses)
  results : ∀ j < (s.thread .consumer).accesses, s.readerResults j = j

variable {size items : ℕ} {s t : State} {x : Side}

@[simp] theorem length_ints (n : ℕ) : (ints n).length = n := by simp [ints]

theorem ints_succ (n : ℕ) : ints (n + 1) = ints n ++ [(n : ℤ)] := by simp [ints, List.range_succ]

@[simp] theorem Side.other_other (x : Side) : x.other.other = x := by
  cases x with
  | producer => rfl
  | consumer => rfl

theorem Side.eq_or_eq_other (x y : Side) : y = x ∨ y = x.other := by
  cases x <;> cases y <;> simp [Side.other]

theorem Side.other_ne (x : Side) : x.other ≠ x := by
  cases x <;> simp [Side.other]

theorem handoff_initial (size items : ℕ) (buf readerResults : ℕ → ℤ) : Handoff size items (initial size buf readerResults) where
  sem := fun x => by cases x <;> rfl
  mutex := fun x => by simp [initial, Thread.inside]
  bounds := fun _ => Nat.zero_le _
  ring := Ring.empty size buf
  results := fun j hj => absurd hj (Nat.not_lt_zero j)

theorem step_eq_none (h : s.step size items x = none) :
    (s.thread x).pc = .done ∨ ((s.thread x).pc = .wait ∧ s.sem x = 0) ∨ ((s.thread x).pc = .lock ∧ s.mutex ≠ none) := by
  unfold State.step at h
  cases hpc : (s.thread x).pc with
  | wait =>
    simp only [hpc, ite_eq_right_iff, reduceCtorEq, imp_false] at h
    exact .inr (.inl ⟨rfl, by omega⟩)
  | lock =>
    simp only [hpc, ite_eq_right_iff, reduceCtorEq, imp_false] at h
    exact .inr (.inr ⟨rfl, h⟩)
  | done => exact .inl rfl
  | loop | access | unlock | post => simp [hpc] at h

def Thread.work (t : Thread) : ℕ :=
  6 * t.i + match t.pc with
    | .loop => 0
    | .wait | .done => 1
    | .lock => 2
    | .access => 3
    | .unlock => 4
    | .post => 5

theorem work_step (h : s.step size items x = some t) : (t.thread x).work = (s.thread x).work + 1 ∧
    t.thread x.other = s.thread x.other := by
  have hgoto : ∀ u : State, u.thread = s.thread → ∀ pc, ((u.goto x pc).thread x).work = Thread.work ⟨pc, (s.thread x).i⟩ ∧
      (u.goto x pc).thread x.other = s.thread x.other := by
    intro u hu pc
    simp [State.goto, hu, update_of_ne x.other_ne]
  unfold State.step at h
  cases hpc : (s.thread x).pc with
  | loop =>
    simp only [hpc, Option.some.injEq] at h
    subst h
    refine ⟨((hgoto s rfl _).1).trans ?_, (hgoto s rfl _).2⟩
    split_ifs <;> simp [Thread.work, hpc]
  | wait | lock =>
    simp only [hpc] at h
    split_ifs at h
    cases h
    exact ⟨((hgoto _ rfl _).1).trans (by simp [Thread.work, hpc]), (hgoto _ rfl _).2⟩
  | access =>
    simp only [hpc, Option.some.injEq] at h
    subst h
    have hthread : (s.access size x).thread = s.thread := by
      cases x with
      | producer => rfl
      | consumer => rfl
    exact ⟨((hgoto _ hthread _).1).trans (by simp [Thread.work, hpc]), (hgoto _ hthread _).2⟩
  | unlock =>
    simp only [hpc, Option.some.injEq] at h
    subst h
    exact ⟨((hgoto _ rfl _).1).trans (by simp [Thread.work, hpc]), (hgoto _ rfl _).2⟩
  | post =>
    simp only [hpc, Option.some.injEq] at h
    subst h
    refine ⟨?_, update_of_ne x.other_ne ..⟩
    simp only [update_self, Thread.work, hpc]
    omega
  | done => simp [hpc] at h

namespace Handoff

variable (h : Handoff size items s)

include h

theorem move {th : Thread} (hthread : t.thread = update s.thread x th)
    (hsem : t.sem x + th.waits = s.sem x + (s.thread x).waits)
    (hother : t.sem x.other + (s.thread x).i = s.sem x.other + th.i) (hmutex : t.mutex = some x ↔ th.inside)
    (hmutex' : t.mutex = some x.other ↔ s.mutex = some x.other) (hbounds : th.inBounds items)
    (hacc : th.accesses = (s.thread x).accesses) (hbuf : t.buf = s.buf) (hres : t.readerResults = s.readerResults) :
    Handoff size items t := by
  have hx : t.thread x = th := by rw [hthread, update_self]
  have ho : t.thread x.other = s.thread x.other := by rw [hthread, update_of_ne x.other_ne]
  have hacc' : ∀ y, (t.thread y).accesses = (s.thread y).accesses := by
    intro y
    rcases x.eq_or_eq_other y with rfl | rfl
    · rw [hx, hacc]
    · rw [ho]
  refine ⟨fun y => ?_, fun y => ?_, fun y => ?_, ?_, fun j hj => ?_⟩
  · rcases x.eq_or_eq_other y with rfl | rfl
    · have := h.sem y
      rw [hx, ho]
      omega
    · have := h.sem x.other
      rw [Side.other_other] at this ⊢
      rw [hx, ho]
      omega
  · rcases x.eq_or_eq_other y with rfl | rfl
    · rw [hx]
      exact hmutex
    · rw [ho, hmutex']
      exact h.mutex x.other
  · rcases x.eq_or_eq_other y with rfl | rfl
    · rw [hx]
      exact hbounds
    · rw [ho]
      exact h.bounds x.other
  · rw [hacc', hacc', hbuf]
    exact h.ring
  · rw [hres]
    exact h.results j (by rwa [hacc'] at hj)

theorem lt_of_access_producer (hpc : (s.thread .producer).pc = .access) :
    (s.thread .producer).i < (s.thread .consumer).accesses + size := by
  have hsem := h.sem .producer
  have hwaits : (s.thread .producer).waits = (s.thread .producer).i + 1 := by simp [Thread.waits, hpc]
  have hacc : (s.thread .consumer).i ≤ (s.thread .consumer).accesses := by
    unfold Thread.accesses
    split <;> omega
  simp only [credit, Side.other] at hsem
  omega

theorem lt_of_access_consumer (hpc : (s.thread .consumer).pc = .access) :
    (s.thread .consumer).i < (s.thread .producer).accesses := by
  have hsem := h.sem .consumer
  have hwaits : (s.thread .consumer).waits = (s.thread .consumer).i + 1 := by simp [Thread.waits, hpc]
  have hacc : (s.thread .producer).i ≤ (s.thread .producer).accesses := by
    unfold Thread.accesses
    split <;> omega
  simp only [credit, Side.other] at hsem
  omega

theorem access (hpc : (s.thread x).pc = .access) : Handoff size items ((s.access size x).goto x .unlock) := by
  have hmutex : s.mutex = some x := (h.mutex x).mpr (.inl hpc)
  have hbounds : (s.thread x).i < items := by simpa [Thread.inBounds, hpc] using h.bounds x
  have hacc : (s.thread x).accesses = (s.thread x).i := by simp [Thread.accesses, hpc]
  have hno : ¬ (s.thread x.other).inside := by
    rw [← h.mutex x.other, hmutex, Option.some_inj]
    exact x.other_ne.symm
  have hsem := h.sem x
  have hsem' := h.sem x.other
  have hother := h.bounds x.other
  cases x with
  | producer =>
    have hlt := h.lt_of_access_producer hpc
    have hring := h.ring.push (x := ((s.thread .producer).i : ℤ)) (by rw [hacc]; simpa using hlt)
    rw [hacc, length_ints, ← ints_succ] at hring
    refine ⟨fun y => ?_, fun y => ?_, fun y => ?_, hring, h.results⟩
    · cases y with
      | producer => simpa [State.goto, State.access, Thread.waits, Side.other, hpc] using hsem
      | consumer => simpa [State.goto, State.access, Thread.waits, Side.other] using hsem'
    · cases y with
      | producer => simp [State.goto, State.access, Thread.inside, hmutex]
      | consumer => simpa [State.goto, State.access, Side.other, hmutex] using hno
    · cases y with
      | producer => simpa [State.goto, State.access, Thread.inBounds] using hbounds
      | consumer => simpa [State.goto, State.access, Side.other] using hother
  | consumer =>
    have hlt := h.lt_of_access_consumer hpc
    have hheld : s.buf ((s.thread .consumer).i % size) = (s.thread .consumer).i := by
      have hget := h.ring.held (s.thread .consumer).i (by rw [hacc, length_ints]) (by rw [length_ints]; exact hlt)
      simpa [ints, List.getElem?_range hlt] using hget.symm
    have hring := h.ring.pop (by rw [hacc, length_ints, length_ints]; exact hlt)
    rw [hacc, length_ints, hheld, ← ints_succ] at hring
    refine ⟨fun y => ?_, fun y => ?_, fun y => ?_, hring, fun j hj => ?_⟩
    · cases y with
      | producer => simpa [State.goto, State.access, Thread.waits, Side.other] using hsem'
      | consumer => simpa [State.goto, State.access, Thread.waits, Side.other, hpc] using hsem
    · cases y with
      | producer => simpa [State.goto, State.access, Side.other, hmutex] using hno
      | consumer => simp [State.goto, State.access, Thread.inside, hmutex]
    · cases y with
      | producer => simpa [State.goto, State.access, Side.other] using hother
      | consumer => simpa [State.goto, State.access, Thread.inBounds] using hbounds
    · have hj : j < (s.thread .consumer).i + 1 := by simpa [State.goto, State.access, Thread.accesses] using hj
      by_cases hlast : j = (s.thread .consumer).i
      · simp [State.goto, State.access, hlast, hheld]
      · have hprev := h.results j (by rw [hacc]; omega)
        simpa [State.goto, State.access, hlast] using hprev

theorem step (hstep : s.step size items x = some t) : Handoff size items t := by
  unfold State.step at hstep
  have hb := h.bounds x
  have hm := h.mutex x
  unfold Thread.inBounds at hb
  unfold Thread.inside at hm
  cases hpc : (s.thread x).pc with
  | loop =>
    simp only [hpc, Option.some.injEq] at hstep hb hm
    subst hstep
    by_cases hi : (s.thread x).i < items
    · rw [if_pos hi]
      exact h.move rfl (by simp [State.goto, Thread.waits, hpc]) (by simp [State.goto])
        (by simpa [State.goto, Thread.inside] using hm) Iff.rfl hi (by simp [Thread.accesses, hpc]) rfl rfl
    · rw [if_neg hi]
      exact h.move rfl (by simp [State.goto, Thread.waits, hpc]) (by simp [State.goto])
        (by simpa [State.goto, Thread.inside] using hm) Iff.rfl (by simp only [Thread.inBounds]; omega)
        (by simp [Thread.accesses, hpc]) rfl rfl
  | wait =>
    simp only [hpc] at hstep hb hm
    split_ifs at hstep with hsem
    cases hstep
    refine h.move rfl ?_ ?_ (by simpa [State.goto, Thread.inside] using hm) Iff.rfl hb (by simp [Thread.accesses, hpc]) rfl rfl
    · simp only [State.goto, Thread.waits, hpc, update_self]
      omega
    · simp [State.goto, update_of_ne x.other_ne]
  | lock =>
    simp only [hpc] at hstep hb hm
    split_ifs at hstep with hfree
    cases hstep
    refine h.move rfl (by simp [State.goto, Thread.waits, hpc]) (by simp [State.goto])
      (by simp [State.goto, Thread.inside]) ?_ hb (by simp [Thread.accesses, hpc]) rfl rfl
    simp [State.goto, hfree, x.other_ne.symm]
  | access =>
    simp only [hpc, Option.some.injEq] at hstep
    subst hstep
    exact h.access hpc
  | unlock =>
    simp only [hpc, Option.some.injEq] at hstep hb hm
    subst hstep
    have hown : s.mutex = some x := hm.mpr (by simp)
    refine h.move rfl (by simp [State.goto, Thread.waits, hpc]) (by simp [State.goto])
      (by simp [State.goto, Thread.inside]) ?_ hb (by simp [Thread.accesses, hpc]) rfl rfl
    simp [State.goto, hown, x.other_ne.symm]
  | post =>
    simp only [hpc, Option.some.injEq] at hstep hb hm
    subst hstep
    refine h.move rfl ?_ ?_ (by simpa [Thread.inside] using hm) Iff.rfl hb (by simp [Thread.accesses, hpc]) rfl rfl
    · simp [Thread.waits, hpc, update_of_ne x.other_ne.symm]
    · simp only [update_self]
      omega
  | done => simp [hpc] at hstep

theorem not_locked (hstuck : ∀ x, s.step size items x = none) : s.mutex = none := by
  cases hm : s.mutex with
  | none => rfl
  | some x =>
    have hin := (h.mutex x).mp hm
    unfold Thread.inside at hin
    rcases step_eq_none (hstuck x) with hpc | ⟨hpc, -⟩ | ⟨hpc, -⟩ <;> simp [hpc] at hin

theorem done_of_stuck (hsize : 0 < size) (hstuck : ∀ x, s.step size items x = none) (x : Side) : (s.thread x).pc = .done := by
  have hfree := h.not_locked hstuck
  have hwhere : ∀ x, (s.thread x).pc = .done ∨ ((s.thread x).pc = .wait ∧ s.sem x = 0) := by
    intro x
    rcases step_eq_none (hstuck x) with hpc | hpc | ⟨-, hm⟩
    · exact .inl hpc
    · exact .inr hpc
    · exact absurd hfree hm
  have hp := h.sem .producer
  have hc := h.sem .consumer
  have hbp := h.bounds .producer
  have hbc := h.bounds .consumer
  simp only [credit, Side.other, Thread.waits, Thread.inBounds] at hp hc hbp hbc
  rcases hwhere .producer with hpp | ⟨hpp, hps⟩
  · rcases hwhere .consumer with hcc | ⟨hcc, hcs⟩
    · cases x with
      | producer => exact hpp
      | consumer => exact hcc
    · simp only [hpp, hcc] at hp hc hbp hbc
      omega
  · rcases hwhere .consumer with hcc | ⟨hcc, hcs⟩
    · simp only [hpp, hcc] at hp hc hbp hbc
      omega
    · simp only [hpp, hcc] at hp hc hbp hbc
      omega

theorem work_le (x : Side) : (s.thread x).work ≤ 6 * items + 1 := by
  have hb := h.bounds x
  unfold Thread.work
  unfold Thread.inBounds at hb
  cases hpc : (s.thread x).pc <;> simp only [hpc] at hb ⊢ <;> omega

theorem finishes (hsize : 0 < size) :
    ∃ schedule t, Runs.run (State.step size items) s schedule = some t ∧ (∀ x, (t.thread x).pc = .done) ∧
      schedule.length ≤ 12 * items + 2 := by
  suffices hn : ∀ n (s : State), Handoff size items s → 12 * items + 2 ≤ (s.thread .producer).work + (s.thread .consumer).work +
    n → ∃ schedule t, Runs.run (State.step size items) s schedule = some t ∧ (∀ x, (t.thread x).pc = .done) ∧
    schedule.length ≤ n by
    exact hn (12 * items + 2) s h (by omega)
  intro n
  induction n with
  | zero =>
    intro s h hw
    have hstuck : ∀ x, s.step size items x = none := by
      intro x
      cases hx : s.step size items x with
      | none => rfl
      | some t =>
        have hwork := work_step hx
        have hle := (h.step hx).work_le
        have h1 := hle .producer
        have h2 := hle .consumer
        cases x with
        | producer =>
          simp only [Side.other] at hwork
          rw [hwork.2] at h2
          omega
        | consumer =>
          simp only [Side.other] at hwork
          rw [hwork.2] at h1
          omega
    exact ⟨[], s, rfl, h.done_of_stuck hsize hstuck, le_rfl⟩
  | succ n ih =>
    intro s h hw
    by_cases hstuck : ∀ x, s.step size items x = none
    · exact ⟨[], s, rfl, h.done_of_stuck hsize hstuck, Nat.zero_le _⟩
    obtain ⟨x, hx⟩ := not_forall.mp hstuck
    obtain ⟨t, ht⟩ := Option.ne_none_iff_exists'.mp hx
    have hwork := work_step ht
    have hmore : (t.thread .producer).work + (t.thread .consumer).work = (s.thread .producer).work +
      (s.thread .consumer).work + 1 := by
      cases x with
      | producer | consumer =>
        simp only [Side.other] at hwork
        rw [hwork.1, hwork.2]
        omega
    obtain ⟨schedule, u, hrun, hdone, hlen⟩ := ih t (h.step ht) (by omega)
    exact ⟨x :: schedule, u, Runs.run_cons_eq.mpr ⟨t, ht, hrun⟩, hdone, by simpa using hlen⟩

end Handoff

theorem producer_consumer {size items : ℕ} (hsize : 0 < size) (buf readerResults : ℕ → ℤ) {schedule : List Side} {s : State}
    (h : Runs.run (State.step size items) (initial size buf readerResults) schedule = some s) :
    ((∀ x, (s.thread x).pc = .done) → ∀ i < items, s.readerResults i = i) ∧ ((s.thread .producer).pc = .access →
      ∀ j < (s.thread .producer).i, j % size = (s.thread .producer).i % size → j < (s.thread .consumer).accesses) ∧
    ((∃ x, (s.thread x).pc ≠ .done) → ∃ x t, s.step size items x = some t) ∧
    ∃ more t, Runs.run (State.step size items) s more = some t ∧ ∀ x, (t.thread x).pc = .done := by
  have hs : Handoff size items s := Runs.invariant (fun _ _ _ h hstep => h.step hstep)
    (handoff_initial size items buf readerResults) h
  refine ⟨fun hdone i hi => ?_, fun hpc j hj hmod => ?_, fun ⟨x, hx⟩ => ?_, ?_⟩
  · have hb := hs.bounds .consumer
    simp only [Thread.inBounds, hdone .consumer] at hb
    exact hs.results i (by simpa [Thread.accesses, hdone .consumer, hb] using hi)
  · have hlt := hs.lt_of_access_producer hpc
    have hdvd : size ∣ (s.thread .producer).i - j := (Nat.modEq_iff_dvd' hj.le).mp hmod
    have hle := Nat.le_of_dvd (by omega) hdvd
    omega
  · by_contra hno
    refine hx (hs.done_of_stuck hsize (fun y => ?_) x)
    cases hy : s.step size items y with
    | none => rfl
    | some t => exact absurd ⟨y, t, hy⟩ hno
  · obtain ⟨more, t, hrun, hdone, -⟩ := hs.finishes hsize
    exact ⟨more, t, hrun, hdone⟩

def wrapping : List Side :=
  List.replicate 12 .producer ++ List.replicate 6 .consumer ++ List.replicate 7 .producer ++ List.replicate 13 .consumer

theorem producer_consumer_wrapping :
    ∃ s, Runs.run (State.step 2 3) (initial 2 (fun _ => 7) fun _ => 7) wrapping = some s ∧ ∀ i < 3, s.readerResults i = i := by
  have hend : (Runs.run (State.step 2 3) (initial 2 (fun _ => 7) fun _ => 7) wrapping).map
      (fun s => ((s.thread .producer).pc, (s.thread .consumer).pc)) = some (.done, .done) := by decide
  obtain ⟨s, hs, hpcs⟩ := Option.map_eq_some_iff.mp hend
  obtain ⟨hp, hc⟩ := Prod.mk.inj hpcs
  refine ⟨s, hs, (producer_consumer two_pos _ _ hs).1 (fun x => ?_)⟩
  cases x with
  | producer => exact hp
  | consumer => exact hc

end Laboratorio.Buffer
