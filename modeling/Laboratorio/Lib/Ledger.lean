import Mathlib

/-!
Owners of numbered blocks: `own p` is the block that place `p` names, 0 for none.
-/

namespace Laboratorio

open Function

variable {κ : Type} {own own' : κ → ℕ} {used : ℕ → Bool} {lo hi b : ℕ} {p : κ}

structure Ledger (own : κ → ℕ) (used : ℕ → Bool) (lo hi : ℕ) : Prop where
  range : ∀ p, own p ≠ 0 → lo ≤ own p ∧ own p < hi
  held : ∀ p, own p ≠ 0 → used (own p) = true
  inj : ∀ p q, own p ≠ 0 → own p = own q → p = q

def Covers (own : κ → ℕ) (used : ℕ → Bool) (lo hi : ℕ) : Prop := ∀ b, lo ≤ b → b < hi → used b = true → ∃ p, own p = b

namespace Ledger

variable (h : Ledger own used lo hi)

include h

theorem ne_of_unused (hb : used b = false) (hp : own p ≠ 0) : own p ≠ b := by
  rintro rfl
  simp [h.held p hp] at hb

theorem mono_used {used' : ℕ → Bool} (hu : ∀ b, used b = true → used' b = true) : Ledger own used' lo hi :=
  ⟨h.range, fun p hp => hu _ (h.held p hp), h.inj⟩

theorem drops (hd : ∀ p, own' p = 0 ∨ own' p = own p) : Ledger own' used lo hi := by
  have heq : ∀ p, own' p ≠ 0 → own' p = own p := fun p hp => (hd p).resolve_left hp
  refine ⟨fun p hp => ?_, fun p hp => ?_, fun p q hp hpq => ?_⟩
  · have he := heq p hp
    rw [he] at hp ⊢
    exact h.range p hp
  · have he := heq p hp
    rw [he] at hp ⊢
    exact h.held p hp
  · have hq : own' q ≠ 0 := hpq ▸ hp
    rw [heq p hp, heq q hq] at hpq
    rw [heq p hp] at hp
    exact h.inj p q hp hpq

theorem assign [DecidableEq κ] (hu : used b = true) (hlo : lo ≤ b) (hhi : b < hi) (hfree : ∀ q, own q ≠ b) :
    Ledger (update own p b) used lo hi := by
  refine ⟨fun q hq => ?_, fun q hq => ?_, fun q r hq hqr => ?_⟩
  · by_cases hqp : q = p
    · simp [hqp, hlo, hhi]
    · simp only [update_of_ne hqp] at hq ⊢
      exact h.range q hq
  · by_cases hqp : q = p
    · simp [hqp, hu]
    · simp only [update_of_ne hqp] at hq ⊢
      exact h.held q hq
  by_cases hqp : q = p
  · by_cases hrp : r = p
    · rw [hqp, hrp]
    · rw [hqp, update_self, update_of_ne hrp] at hqr
      exact absurd hqr.symm (hfree r)
  · rw [update_of_ne hqp] at hq hqr
    by_cases hrp : r = p
    · rw [hrp, update_self] at hqr
      exact absurd hqr (hfree q)
    · rw [update_of_ne hrp] at hqr
      exact h.inj q r hq hqr

end Ledger

namespace Covers

variable [DecidableEq κ]

theorem assign (h : Covers own used lo hi) (hp : own p = 0) (hlo : 0 < lo) :
    Covers (update own p b) (update used b true) lo hi := by
  intro c hc hc' hu
  by_cases hcb : c = b
  · exact ⟨p, by simp [hcb]⟩
  · obtain ⟨q, hq⟩ := h c hc hc' (by simpa [hcb] using hu)
    have hqp : q ≠ p := by
      rintro rfl
      omega
    exact ⟨q, by simpa [hqp] using hq⟩

end Covers

end Laboratorio
