import Laboratorio.Bio.Coherence

/-!
The buffer cache over a disk that may report an error for a command:
`ideintr` then leaves the data alone and still sets `B_VALID`.
-/

namespace Laboratorio.Bio

open Function Runs

namespace State

variable {P D : Type} [DecidableEq P] (s : State P D)

/-- `iderw` when the status of the command is `ok`; that of a write is not looked at. -/
def iderwStatus (ok : Bool) (b : Buf) : Option (State P D) :=
  if s.valid b = false ∧ s.dirty b = false ∧ ok = false then some { s with valid := update s.valid b true } else s.iderw b

def nextStatus (ok : Bool) (p : P) : Pc → Option (State P D)
  | .fill b id => if s.valid b then some (s.goto p (.ret b id)) else (s.iderwStatus ok b).map fun t => t.goto p (.ret b id)
  | .write b => (s.iderwStatus ok b).map fun t => { t.goto p .run with unsaved := update t.unsaved b false }
  | l => s.next p l

def stepStatus : Act P D × Bool → Option (State P D)
  | (.step p, ok) => s.nextStatus ok p (s.pc p)
  | (a, _) => s.step a

def reads : Act P D → Prop
  | .step p => ∃ b id, s.pc p = .fill b id ∧ s.valid b = false
  | _ => False

end State

variable {P D : Type} [DecidableEq P] [Fintype P] {disk : Ident → D} {s s' : State P D} {b : Buf}

theorem Inv.stepStatus_eq (h : Inv disk s) {a : Act P D} {ok : Bool} (ha : s.reads a → ok = true) :
    s.stepStatus (a, ok) = s.step a := by
  cases a with
  | step p =>
    simp only [State.stepStatus, State.step]
    cases hpc : s.pc p with
    | fill b id =>
      by_cases hv : s.valid b = true
      · simp [State.nextStatus, State.next, hv]
      · have hok : ok = true := ha ⟨b, id, hpc, by simpa using hv⟩
        simp [State.nextStatus, State.next, State.iderwStatus, hok]
    | write b =>
      have hv : s.valid b = true := by
        rcases h.filled p b (h.holds p b (by rw [hpc]; rfl)) with hv | ⟨id, hid⟩
        · exact hv
        · simp [hpc] at hid
      simp [State.nextStatus, State.next, State.iderwStatus, hv]
    | _ => rfl
  | _ => rfl

theorem Inv.holds_block (h : Inv disk s) (hv : s.valid b = true) (hd : s.dirty b = false) (hu : s.unsaved b = false) :
    s.data b = s.disk (s.ident b) := by
  rw [h.fresh b hv, h.clean]
  intro b' hb'
  by_cases hbb : b' = b
  · subst hbb
    exact ⟨hd, hu⟩
  have hblank : s.Blank b' := by
    rcases h.shadows_or_shadows (Ne.symm hbb) with hs | hs
    · exact (hs hb'.symm).2
    · have := (hs hb').2.2.1
      simp [hv] at this
  refine ⟨hblank.2.2, ?_⟩
  by_contra hu'
  have := (h.unsaved b' (by simpa using hu')).1
  simp [hblank.2.1] at this

theorem valid_holds_block {data : Buf → D} {as : List (Act P D × Bool)}
    (hr : run State.stepStatus (binit disk data) as = some s)
    (hc : Along State.stepStatus (fun s a => s.reads a.1 → a.2 = true) (binit disk data) as) :
    (∀ b, s.valid b = true → s.dirty b = false → s.unsaved b = false → s.data b = s.disk (s.ident b)) ∧
      ∀ p b id, s.pc p = .ret b id → s.ident b = id ∧ s.data b = s.latest disk id := by
  have h : Inv disk s := by
    refine invariant_along (fun s a t h ha hs => ?_) (binit_inv disk data) hc hr
    rw [← Prod.mk.eta (p := a), h.stepStatus_eq ha] at hs
    exact h.step hs
  refine ⟨fun b => h.holds_block, fun p b id hpc => ?_⟩
  have hid : s.ident b = id := h.wants p b id (by rw [hpc]; rfl)
  refine ⟨hid, hid ▸ h.fresh b ?_⟩
  rcases h.filled p b (h.holds p b (by rw [hpc]; rfl)) with hv | ⟨id', hid'⟩
  · exact hv
  · simp [hpc] at hid'

def reader : Fin 1 := ⟨0, Nat.one_pos⟩

def readOne : List (Act (Fin 1) ℕ × Bool) := [(.bread reader (1, 5), true), (.step reader, true), (.step reader, true)]

theorem valid_holds_block_one : ∃ s, run State.stepStatus (binit (fun id => id.2.toNat) fun _ => 0) readOne = some s ∧
    s.pc 0 = .ret 0 (1, 5) ∧ s.data 0 = s.disk (1, 5) ∧ s.data 0 = s.latest (fun id => id.2.toNat) (1, 5) := by
  have hrun : (run State.stepStatus (binit (fun id => id.2.toNat) fun _ => 0) readOne).any (fun s => s.pc 0 = .ret 0 (1, 5) ∧
      s.valid 0 = true ∧ s.dirty 0 = false ∧ s.unsaved 0 = false) = true := by decide +kernel
  obtain ⟨s, hs, hfacts⟩ := (Option.any_eq_true _ _).mp hrun
  simp only [decide_eq_true_eq] at hfacts
  have h := valid_holds_block hs ⟨fun _ => rfl, fun _ _ => ⟨fun _ => rfl, fun _ _ => ⟨fun _ => rfl, fun _ _ => trivial⟩⟩⟩
  have hret := h.2 0 0 (1, 5) hfacts.1
  refine ⟨s, hs, hfacts.1, ?_, hret.2⟩
  rw [← hret.1]
  exact h.1 0 hfacts.2.1 hfacts.2.2.1 hfacts.2.2.2

def readAll : List (Act (Fin 1) ℕ × Bool) :=
  (List.range nbuf).flatMap fun i =>
    [(.bread reader (1, (i + 1).toUInt32), true), (.step reader, true), (.step reader, true), (.step reader, true),
      (.brelse reader (Fin.ofNat nbuf i), true), (.step reader, true)]

def readFails : List (Act (Fin 1) ℕ × Bool) :=
    readAll ++ [(.bread reader (1, 100), true), (.step reader, true), (.step reader, false)]

theorem bread_returns_leftover : ∃ s b, run State.stepStatus (binit (fun id => id.2.toNat) fun _ => 0) readFails = some s ∧
    s.pc 0 = .ret b (1, 100) ∧ s.ident b = (1, 100) ∧ s.valid b = true ∧ s.dirty b = false ∧ s.unsaved b = false ∧
    s.disk (1, 100) = 100 ∧ s.disk (1, 1) = 1 ∧ s.data b = 1 := by
  have hrun : (run State.stepStatus (binit (fun id => id.2.toNat) fun _ => 0) readFails).any
    (fun s => s.pc 0 = .ret 0 (1, 100) ∧ s.ident 0 = (1, 100) ∧ s.valid 0 = true ∧ s.dirty 0 = false ∧ s.unsaved 0 = false ∧
    s.disk (1, 100) = 100 ∧ s.disk (1, 1) = 1 ∧ s.data 0 = 1) = true := by decide +kernel
  obtain ⟨s, hs, hfacts⟩ := (Option.any_eq_true _ _).mp hrun
  exact ⟨s, 0, hs, by simpa using hfacts⟩

end Laboratorio.Bio
