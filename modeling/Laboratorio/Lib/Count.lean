import Mathlib

namespace Laboratorio

open Function

variable {ι β : Type} [Fintype ι] [DecidableEq β]

def count (g : ι → Option β) (b : β) : ℕ := (Finset.univ.filter fun i => g i = some b).card

variable {g : ι → Option β} {b : β}

theorem count_pos {i : ι} (h : g i = some b) : 0 < count g b :=
  Finset.card_pos.mpr ⟨i, by simp [h]⟩

theorem exists_of_count_pos (h : 0 < count g b) : ∃ i, g i = some b := by
  obtain ⟨i, hi⟩ := Finset.card_pos.mp h
  exact ⟨i, by simpa using hi⟩

theorem count_eq_zero (h : ∀ i, g i ≠ some b) : count g b = 0 := by
  simp [count, h]

variable [DecidableEq ι]

theorem count_eq (g : ι → Option β) (i : ι) (b : β) :
    count g b = (Finset.univ.filter fun j => j ≠ i ∧ g j = some b).card + if g i = some b then 1 else 0 := by
  unfold count
  split_ifs with h
  · have hins : (Finset.univ.filter fun j => g j = some b) = insert i (Finset.univ.filter fun j => j ≠ i ∧ g j = some b) := by
      ext j
      by_cases hj : j = i
      · simp [hj, h]
      · simp [hj]
    rw [hins, Finset.card_insert_of_notMem (by simp)]
  · congr 1
    ext j
    by_cases hj : j = i
    · simp [hj, h]
    · simp [hj]

theorem count_update (g : ι → Option β) (i : ι) (x : Option β) (b : β) :
    count (update g i x) b + (if g i = some b then 1 else 0) = count g b + if x = some b then 1 else 0 := by
  have hrest : (Finset.univ.filter fun j => j ≠ i ∧ update g i x j = some b) = Finset.univ.filter fun j => j ≠ i ∧
    g j = some b := by
    ext j
    by_cases hj : j = i
    · simp [hj]
    · simp [hj]
  rw [count_eq (update g i x) i, count_eq g i, hrest, update_self]
  omega

end Laboratorio
