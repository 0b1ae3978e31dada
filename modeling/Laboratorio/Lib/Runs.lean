import Mathlib

/-!
Runs of a machine given by a partial step function: `step s a` is the state after action `a`,
or `none` where the action is not enabled.
-/

namespace Laboratorio.Runs

variable {σ τ α : Type}

def run (step : σ → α → Option σ) (s : σ) (as : List α) : Option σ := as.foldlM step s

variable {step : σ → α → Option σ} {s t : σ}

theorem guard_some {c : Prop} [Decidable c] : (if c then some s else none) = some t ↔ c ∧ s = t := by
  rw [Option.ite_none_right_eq_some, Option.some.injEq]

@[simp] theorem run_nil (s : σ) : run step s [] = some s := rfl

theorem run_cons (s : σ) (a : α) (as : List α) : run step s (a :: as) = (step s a).bind (fun t => run step t as) := rfl

variable {a : α} {as : List α}

theorem run_cons_eq : run step s (a :: as) = some t ↔ ∃ u, step s a = some u ∧ run step u as = some t := by
  rw [run_cons, Option.bind_eq_some_iff]

theorem run_append (s : σ) (as bs : List α) : run step s (as ++ bs) = (run step s as).bind (fun t => run step t bs) := by
  simp only [run, List.foldlM_append]
  rfl

theorem run_append_eq {bs : List α} : run step s (as ++ bs) = some t ↔ ∃ u, run step s as = some u ∧
    run step u bs = some t := by
  rw [run_append, Option.bind_eq_some_iff]

theorem run_snoc_eq : run step s (as ++ [a]) = some t ↔ ∃ u, run step s as = some u ∧ step u a = some t := by
  rw [run_append_eq]
  simp [run_cons]

def Along (step : σ → α → Option σ) (C : σ → α → Prop) : σ → List α → Prop
  | _, [] => True
  | s, a :: as => C s a ∧ ∀ t, step s a = some t → Along step C t as

theorem along_append {C : σ → α → Prop} {bs : List α} (hr : run step s as = some t) :
    Along step C s (as ++ bs) ↔ Along step C s as ∧ Along step C t bs := by
  induction as generalizing s with
  | nil =>
    obtain rfl : s = t := by simpa using hr
    simp [Along]
  | cons a as ih =>
    obtain ⟨u, hu, hr⟩ := run_cons_eq.mp hr
    constructor
    · rintro ⟨ha, hk⟩
      have hs := (ih hr).mp (hk u hu)
      refine ⟨⟨ha, fun v hv => ?_⟩, hs.2⟩
      obtain rfl : u = v := Option.some.inj (hu.symm.trans hv)
      exact hs.1
    · rintro ⟨⟨ha, hk⟩, hb⟩
      refine ⟨ha, fun v hv => ?_⟩
      obtain rfl : u = v := Option.some.inj (hu.symm.trans hv)
      exact (ih hr).mpr ⟨hk u hu, hb⟩

theorem invariant_along {C : σ → α → Prop} {I : σ → Prop} (hstep : ∀ s a t, I s → C s a → step s a = some t → I t)
    (h0 : I s) (hC : Along step C s as) (hr : run step s as = some t) : I t := by
  induction as generalizing s with
  | nil =>
    obtain rfl : s = t := by simpa using hr
    exact h0
  | cons a as ih =>
    obtain ⟨u, hu, hr⟩ := run_cons_eq.mp hr
    exact ih (hstep s a u h0 hC.1 hu) (hC.2 u hu) hr

theorem invariant {I : σ → Prop} (hstep : ∀ s a t, I s → step s a = some t → I t)
    (h0 : I s) (hr : run step s as = some t) : I t := by
  induction as generalizing s with
  | nil =>
    obtain rfl : s = t := by simpa using hr
    exact h0
  | cons a as ih =>
    obtain ⟨u, hu, hr⟩ := run_cons_eq.mp hr
    exact ih (hstep s a u h0 hu) hr

/-- How often, over the run, an action is taken in a state where `f` holds of the two. -/
def tally (step : σ → α → Option σ) (f : σ → α → Bool) : σ → List α → ℕ
  | _, [] => 0
  | s, a :: as => (if f s a then 1 else 0) + ((step s a).elim 0 (fun t => tally step f t as))

theorem tally_cons {f : σ → α → Bool} (h : step s a = some t) :
    tally step f s (a :: as) = (if f s a then 1 else 0) + tally step f t as := by
  simp [tally, h]

end Laboratorio.Runs
