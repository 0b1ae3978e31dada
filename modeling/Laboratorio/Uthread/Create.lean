import Laboratorio.Lib.Runs
import Laboratorio.Uthread.Threads

/-!
Where `thread_create` writes, and whether `thread_schedule` can select the thread it makes.
-/

namespace Laboratorio.Uthread

open Function Runs

def stackSize : ℕ := 8192

def threadSize : ℕ := 4 + stackSize + 4

namespace Threads

def slot (s : Threads) : ℕ := (List.finRange maxThread).findIdx fun t => s.state t = .free

def Written (s : Threads) (x : ℕ) : Prop :=
  ∃ field ∈ [0, stackSize, 4 + stackSize], threadSize * s.slot + field ≤ x ∧ x < threadSize * s.slot + field + 4

def Selectable (s : Threads) (q : Fin maxThread) : Prop :=
  s.state q = .runnable ∧ q ≠ s.current ∧ ∃ i, 1 ≤ i ∧ i < maxThread ∧ indiceActual s.ultimoIndice i = q

def mark (s : Threads) (v : Status) : Threads := { s with state := update s.state s.current v }

variable {s t : Threads} {q : Fin maxThread}

theorem mark_other {v : Status} (hq : q ≠ s.current) : (s.mark v).state q = s.state q := update_of_ne hq _ _

theorem selectable_iff : s.Selectable q ↔ s.state q = .runnable ∧ q ≠ s.current ∧ q ≠ s.ultimoIndice := by
  constructor
  · rintro ⟨hrun, hne, i, hi, him, rfl⟩
    refine ⟨hrun, hne, fun he => ?_⟩
    have hval : (s.ultimoIndice + i) % maxThread = s.ultimoIndice := congrArg Fin.val he
    unfold maxThread at *
    omega
  · rintro ⟨hrun, hne, hu⟩
    obtain ⟨h1, h2⟩ := ahead_of_ne hu
    exact ⟨hrun, hne, _, h1, h2, indiceActual_ahead _ _⟩

theorem slot_eq_iff : s.slot = q ↔ s.state q = .free ∧ ∀ r < q, s.state r ≠ .free := by
  have hq : q.val < (List.finRange maxThread).length := by simp
  rw [slot, List.findIdx_eq hq]
  simp only [List.getElem_finRange, Fin.cast_mk, decide_eq_true_eq, decide_eq_false_iff_not]
  constructor
  · rintro ⟨hfree, hfirst⟩
    exact ⟨hfree, fun r hr => hfirst r hr⟩
  · rintro ⟨hfree, hfirst⟩
    exact ⟨hfree, fun j hj => hfirst ⟨j, by omega⟩ hj⟩

theorem threadCreate_slot (h : s.slot = q) : s.threadCreate = some { s with state := update s.state q .runnable } := by
  have hq : (List.finRange maxThread)[q.val]? = some q := by simp
  unfold slot at h
  rw [threadCreate, List.find?_eq_getElem?_findIdx, h, hq, Option.map_some]

theorem running_threadSchedule (s : Threads) : s.threadSchedule.state s.threadSchedule.current = .running := by
  obtain ⟨q, -, hs⟩ | ⟨-, hs⟩ := s.threadSchedule_selects
  · simp [hs]
  · simp [hs]

variable {c : Call}

theorem step_cases (hs : s.step c = some t) : (∃ v, t = (s.mark v).threadSchedule) ∨
    ∃ r, s.state r = .free ∧ t = { s with state := update s.state r .runnable } := by
  cases c with
  | schedule =>
    refine .inl ⟨s.state s.current, ?_⟩
    rw [mark, update_eq_self]
    exact (Option.some.inj hs).symm
  | yield | exit => exact .inl ⟨_, (Option.some.inj hs).symm⟩
  | create =>
    obtain ⟨r, hr, rfl⟩ := Option.map_eq_some_iff.mp hs
    exact .inr ⟨r, by simpa using List.find?_some hr, rfl⟩

theorem running_create {r : Fin maxThread} (h : s.state s.current = .running) (hr : s.state r = .free) :
    update s.state r .runnable s.current = .running := by
  have hne : s.current ≠ r := by
    rintro rfl
    simp [h] at hr
  rwa [update_of_ne hne]

theorem running_step (h : s.state s.current = .running) (hs : s.step c = some t) : t.state t.current = .running := by
  obtain ⟨v, rfl⟩ | ⟨r, hr, rfl⟩ := step_cases hs
  · exact running_threadSchedule _
  · exact running_create h hr

theorem Selectable.schedule (h : s.Selectable q) : s.threadSchedule.current = q ∨ s.threadSchedule.Selectable q := by
  obtain ⟨hrun, hne, hu⟩ := selectable_iff.mp h
  obtain ⟨r, hscan, hs⟩ | ⟨hscan, hs⟩ := s.threadSchedule_selects
  · rw [hs]
    by_cases hqr : q = r
    · exact .inl hqr.symm
    · exact .inr (selectable_iff.mpr ⟨by simpa [hqr] using hrun, hqr, hqr⟩)
  · exact absurd hrun (scan_eq_none hscan hu hne)

theorem Selectable.step (h : s.Selectable q) (hs : s.step c = some t) : t.current = q ∨ t.Selectable q := by
  obtain ⟨v, rfl⟩ | ⟨r, -, rfl⟩ := step_cases hs
  · have hmarked : (s.mark v).Selectable q := ⟨by rw [mark_other h.2.1, h.1], h.2⟩
    exact hmarked.schedule
  · refine .inr ⟨?_, h.2⟩
    by_cases hqr : q = r
    · simp [hqr]
    · simpa [hqr] using h.1

def Waits (q : Fin maxThread) (s : Threads) (cs : List Call) : Prop :=
  ∀ as bs t, cs = as ++ bs → run step s as = some t → t.current ≠ q

theorem Selectable.run {cs : List Call} (h : s.Selectable q) (hw : Waits q s cs) (hr : Runs.run Threads.step s cs = some t) :
    t.Selectable q := by
  induction cs generalizing s with
  | nil =>
    obtain rfl : s = t := by simpa using hr
    exact h
  | cons c cs ih =>
    obtain ⟨u, hu, hr⟩ := run_cons_eq.mp hr
    have hlater : Waits q u cs := fun as bs v hc hv => hw (c :: as) bs v (by rw [hc]; simp) (run_cons_eq.mpr ⟨u, hu, hv⟩)
    obtain hq | hq := h.step hu
    · exact absurd hq (hlater [] cs u rfl rfl)
    · exact ih hq hlater hr

/-- `thread_create` writes in the `FREE` slot `q` alone, and from then on until it runs the new thread can be selected. -/
structure Creates (s : Threads) (q : Fin maxThread) (t : Threads) : Prop where
  created : s.threadCreate = some t
  free : s.state q = .free
  inside : ∀ x, s.Written x → threadSize * q ≤ x ∧ x < threadSize * (q + 1)
  selectable : ∀ cs u, Waits q t cs → Runs.run step t cs = some u → u.Selectable q

theorem slot_of_inside (h : ∀ x, s.Written x → threadSize * q ≤ x ∧ x < threadSize * (q + 1)) : s.slot = q := by
  obtain ⟨h1, h2⟩ := h (threadSize * s.slot) ⟨0, by simp, by omega, by omega⟩
  simp only [threadSize, stackSize] at h1 h2
  omega

theorem inside_of_slot (h : s.slot = q) {x : ℕ} (hx : s.Written x) : threadSize * q ≤ x ∧ x < threadSize * (q + 1) := by
  obtain ⟨field, hf, h1, h2⟩ := hx
  simp only [threadSize, stackSize, h, List.mem_cons, List.not_mem_nil, or_false] at hf h1 h2 ⊢
  omega

theorem threadCreate_inside_iff {as : List Call} (hr : Runs.run step threadInit as = some s) :
    (∃ q t, Creates s q t) ↔ ∃ q, s.state q = .free ∧ (∀ r < q, s.state r ≠ .free) ∧ q ≠ s.ultimoIndice := by
  have hrunning : s.state s.current = .running :=
    invariant (I := fun s : Threads => s.state s.current = .running) (fun _ _ _ => running_step) rfl hr
  have hcurrent : ∀ {q}, s.state q = .free → q ≠ s.current := by
    rintro q hq rfl
    simp [hrunning] at hq
  constructor
  · rintro ⟨q, t, hcreated, hfree, hinside, hsel⟩
    have hslot := slot_of_inside hinside
    rw [threadCreate_slot hslot] at hcreated
    obtain rfl := Option.some.inj hcreated
    have hwaits : Waits q { s with state := update s.state q .runnable } [] := by
      intro as bs t hnil ht
      obtain ⟨rfl, -⟩ := List.append_eq_nil_iff.mp hnil.symm
      rw [← Option.some.inj ht]
      exact (hcurrent hfree).symm
    exact ⟨q, hfree, (slot_eq_iff.mp hslot).2, (selectable_iff.mp (hsel [] _ hwaits rfl)).2.2⟩
  · rintro ⟨q, hfree, hfirst, hu⟩
    have hslot := slot_eq_iff.mpr ⟨hfree, hfirst⟩
    refine ⟨q, _, threadCreate_slot hslot, hfree, fun x => inside_of_slot hslot, fun cs u hw hrun => ?_⟩
    have hnew : Selectable { s with state := update s.state q .runnable } q :=
      selectable_iff.mpr ⟨by simp, hcurrent hfree, hu⟩
    exact hnew.run hw hrun

theorem threadCreate_inside_third :
    ∃ s, Runs.run step threadInit [.create, .create, .schedule, .exit] = some s ∧ ∃ q t, Creates s q t :=
  ⟨_, rfl, (threadCreate_inside_iff (rfl : Runs.run step threadInit [.create, .create, .schedule, .exit] = _)).mpr
    ⟨⟨1, by decide⟩, by decide, by decide, by decide⟩⟩

/-- After seven creations the next writes behind the table; a thread
created in the slot that was selected last is passed over. -/
theorem eighth_thread_outside :
    (∃ s, Runs.run step threadInit (List.replicate 7 .create) = some s ∧ s.Written (threadSize * maxThread)) ∧
    (Runs.run step threadInit [.create, .exit, .exit, .create, .yield]).map (fun s => (s.state ⟨1, by decide⟩, s.current)) =
    some (.runnable, main) := by
  constructor
  · refine ⟨_, rfl, 0, by decide, ?_⟩
    decide
  · decide

end Threads

end Laboratorio.Uthread
