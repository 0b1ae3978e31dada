import Mathlib

/-!
Items divided among a free list, the items at hand and the roles of a structure.
-/

namespace Laboratorio

variable {α ρ : Type}

structure Partition (free hand : List α) (R : α → ρ → Prop) (W : Set α) : Prop where
  nodup : (hand ++ free).Nodup
  cover : ∀ p, p ∈ W ↔ p ∈ hand ∨ p ∈ free ∨ ∃ r, R p r
  apart : ∀ p r, R p r → p ∉ hand ∧ p ∉ free
  unique : ∀ p r r', R p r → R p r' → r = r'
  holder : ∀ p q r, R p r → R q r → p = q

namespace Partition

variable {free hand : List α} {R R' : α → ρ → Prop} {W : Set α} {p : α} {r : ρ}

theorem attach (h : Partition free (p :: hand) R W) (hr : ∀ q, ¬ R q r)
    (hR : ∀ q s, R' q s ↔ R q s ∨ q = p ∧ s = r) : Partition free hand R' W := by
  have hp : p ∉ hand ∧ p ∉ free := by
    have hn := h.nodup
    rw [List.cons_append, List.nodup_cons, List.mem_append, not_or] at hn
    exact hn.1
  have hvac : ∀ s, ¬ R p s := by
    intro s hs
    exact (h.apart p s hs).1 (by simp)
  constructor
  · exact (List.nodup_cons.mp h.nodup).2
  · intro q
    rw [h.cover q]
    simp only [hR, List.mem_cons]
    constructor
    · rintro ((rfl | hq) | hq | ⟨s, hs⟩)
      · exact Or.inr (Or.inr ⟨r, Or.inr ⟨rfl, rfl⟩⟩)
      · exact Or.inl hq
      · exact Or.inr (Or.inl hq)
      · exact Or.inr (Or.inr ⟨s, Or.inl hs⟩)
    · rintro (hq | hq | ⟨s, hs | ⟨rfl, _⟩⟩)
      · exact Or.inl (Or.inr hq)
      · exact Or.inr (Or.inl hq)
      · exact Or.inr (Or.inr ⟨s, hs⟩)
      · exact Or.inl (Or.inl rfl)
  · intro q s hq
    rcases (hR q s).mp hq with hq | ⟨rfl, _⟩
    · have hn := h.apart q s hq
      simp only [List.mem_cons, not_or] at hn
      exact ⟨hn.1.2, hn.2⟩
    · exact hp
  · intro q s s' hs hs'
    rcases (hR q s).mp hs with hs | ⟨rfl, rfl⟩
    · rcases (hR q s').mp hs' with hs' | ⟨rfl, _⟩
      · exact h.unique q s s' hs hs'
      · exact absurd hs (hvac s)
    · rcases (hR q s').mp hs' with hs' | ⟨_, rfl⟩
      · exact absurd hs' (hvac s')
      · rfl
  · intro q q' s hs hs'
    rcases (hR q s).mp hs with hs | ⟨rfl, rfl⟩
    · rcases (hR q' s).mp hs' with hs' | ⟨_, rfl⟩
      · exact h.holder q q' s hs hs'
      · exact absurd hs (hr q)
    · rcases (hR q' s).mp hs' with hs' | ⟨rfl, _⟩
      · exact absurd hs' (hr q')
      · rfl

variable {ι : Type} {e : ι → ρ}

def region (free hand : List α) (R : α → ρ → Prop) (e : ι → ρ) : Set α := {p | p ∈ hand ∨ p ∈ free ∨ ∃ i, R p (e i)}

theorem focus (he : Function.Injective e) (h : Partition free hand R W) :
    Partition free hand (fun p i => R p (e i)) (region free hand R e) :=
  ⟨h.nodup, fun _ => Iff.rfl, fun p i => h.apart p (e i), fun p _ _ hi hj => he (h.unique p _ _ hi hj),
    fun p q i => h.holder p q (e i)⟩

variable (h : Partition free hand R W)

include h

theorem congr (hR : ∀ q s, R' q s ↔ R q s) : Partition free hand R' W := by
  have heq : R' = R := by
    funext q s
    exact propext (hR q s)
  rw [heq]
  exact h

theorem perm {free' hand' : List α} (hp : (hand' ++ free').Perm (hand ++ free)) : Partition free' hand' R W := by
  have hmem : ∀ q, q ∈ hand' ∨ q ∈ free' ↔ q ∈ hand ∨ q ∈ free := fun q => by simpa using hp.mem_iff (a := q)
  refine ⟨hp.nodup_iff.mpr h.nodup, fun q => ?_, fun q s hq => ?_, h.unique, h.holder⟩
  · rw [h.cover q, ← or_assoc, ← hmem, or_assoc]
  · rw [← not_or, hmem, not_or]
    exact h.apart q s hq

omit h in
theorem take (h : Partition (p :: free) hand R W) : Partition free (p :: hand) R W := h.perm List.perm_middle.symm

omit h in
theorem give (h : Partition free (p :: hand) R W) : Partition (p :: free) hand R W := h.perm List.perm_middle

theorem detach (hp : R p r) (hR : ∀ q s, R' q s ↔ R q s ∧ s ≠ r) : Partition free (p :: hand) R' W := by
  have hout := h.apart p r hp
  constructor
  · rw [List.cons_append, List.nodup_cons, List.mem_append, not_or]
    exact ⟨hout, h.nodup⟩
  · intro q
    rw [h.cover q]
    simp only [hR, List.mem_cons]
    constructor
    · rintro (hq | hq | ⟨s, hs⟩)
      · exact Or.inl (Or.inr hq)
      · exact Or.inr (Or.inl hq)
      · by_cases hsr : s = r
        · subst hsr
          exact Or.inl (Or.inl (h.holder q p s hs hp))
        · exact Or.inr (Or.inr ⟨s, hs, hsr⟩)
    · rintro ((rfl | hq) | hq | ⟨s, hs, _⟩)
      · exact Or.inr (Or.inr ⟨r, hp⟩)
      · exact Or.inl hq
      · exact Or.inr (Or.inl hq)
      · exact Or.inr (Or.inr ⟨s, hs⟩)
  · intro q s hq
    obtain ⟨hs, hsr⟩ := (hR q s).mp hq
    have hn := h.apart q s hs
    have hqp : q ≠ p := by
      rintro rfl
      exact hsr (h.unique q s r hs hp)
    simp only [List.mem_cons, not_or]
    exact ⟨⟨hqp, hn.1⟩, hn.2⟩
  · intro q s s' hs hs'
    exact h.unique q s s' ((hR q s).mp hs).1 ((hR q s').mp hs').1
  · intro q q' s hs hs'
    exact h.holder q q' s ((hR q s).mp hs).1 ((hR q' s).mp hs').1

theorem grow (hp : p ∉ W) : Partition free (p :: hand) R (insert p W) := by
  have hnew : p ∉ hand ++ free := by
    rw [List.mem_append]
    rintro (hq | hq)
    · exact hp ((h.cover p).mpr (Or.inl hq))
    · exact hp ((h.cover p).mpr (Or.inr (Or.inl hq)))
  refine ⟨List.nodup_cons.mpr ⟨hnew, h.nodup⟩, fun q => ?_, fun q r hq => ?_, h.unique, h.holder⟩
  · rw [Set.mem_insert_iff, h.cover q, List.mem_cons]
    tauto
  · have hqp : q ≠ p := by
      rintro rfl
      exact hp ((h.cover q).mpr (Or.inr (Or.inr ⟨r, hq⟩)))
    have hn := h.apart q r hq
    simp only [List.mem_cons, not_or]
    exact ⟨⟨hqp, hn.1⟩, hn.2⟩

theorem region_subset : region free hand R e ⊆ W := by
  rintro p (hp | hp | ⟨i, hp⟩)
  · exact (h.cover p).mpr (Or.inl hp)
  · exact (h.cover p).mpr (Or.inr (Or.inl hp))
  · exact (h.cover p).mpr (Or.inr (Or.inr ⟨e i, hp⟩))

theorem notMem_region (hp : R p r) (hr : ∀ i, r ≠ e i) : p ∉ region free hand R e := by
  rintro (hq | hq | ⟨i, hq⟩)
  · exact (h.apart p r hp).1 hq
  · exact (h.apart p r hp).2 hq
  · exact hr i (h.unique p r (e i) hp hq)

theorem unfocus {free' hand' : List α} {Q : α → ι → Prop}
    (hQ : Partition free' hand' Q (region free hand R e)) (hin : ∀ p i, R' p (e i) ↔ Q p i)
    (hout : ∀ p r, (∀ i, r ≠ e i) → (R' p r ↔ R p r)) : Partition free' hand' R' W := by
  have hcases : ∀ r, (∃ i, r = e i) ∨ ∀ i, r ≠ e i := by
    intro r
    by_cases hr : ∃ i, r = e i
    · exact Or.inl hr
    · exact Or.inr (fun i hi => hr ⟨i, hi⟩)
  have hfar : ∀ p r, (∀ i, r ≠ e i) → R' p r → p ∉ region free hand R e := by
    intro p r hr hp
    exact h.notMem_region ((hout p r hr).mp hp) hr
  constructor
  · exact hQ.nodup
  · intro p
    constructor
    · intro hp
      by_cases hreg : p ∈ region free hand R e
      · rcases (hQ.cover p).mp hreg with hq | hq | ⟨i, hq⟩
        · exact Or.inl hq
        · exact Or.inr (Or.inl hq)
        · exact Or.inr (Or.inr ⟨e i, (hin p i).mpr hq⟩)
      · rcases (h.cover p).mp hp with hq | hq | ⟨r, hq⟩
        · exact absurd (Or.inl hq) hreg
        · exact absurd (Or.inr (Or.inl hq)) hreg
        · rcases hcases r with ⟨i, rfl⟩ | hr
          · exact absurd (Or.inr (Or.inr ⟨i, hq⟩)) hreg
          · exact Or.inr (Or.inr ⟨r, (hout p r hr).mpr hq⟩)
    · rintro (hq | hq | ⟨r, hq⟩)
      · exact h.region_subset ((hQ.cover p).mpr (Or.inl hq))
      · exact h.region_subset ((hQ.cover p).mpr (Or.inr (Or.inl hq)))
      · rcases hcases r with ⟨i, rfl⟩ | hr
        · exact h.region_subset ((hQ.cover p).mpr (Or.inr (Or.inr ⟨i, (hin p i).mp hq⟩)))
        · exact (h.cover p).mpr (Or.inr (Or.inr ⟨r, (hout p r hr).mp hq⟩))
  · intro p r hp
    rcases hcases r with ⟨i, rfl⟩ | hr
    · exact hQ.apart p i ((hin p i).mp hp)
    · have hn := hfar p r hr hp
      exact ⟨fun hq => hn ((hQ.cover p).mpr (Or.inl hq)), fun hq => hn ((hQ.cover p).mpr (Or.inr (Or.inl hq)))⟩
  · intro p r r' hp hp'
    rcases hcases r with ⟨i, rfl⟩ | hr
    · rcases hcases r' with ⟨j, rfl⟩ | hr'
      · rw [hQ.unique p i j ((hin p i).mp hp) ((hin p j).mp hp')]
      · exact absurd ((hQ.cover p).mpr (Or.inr (Or.inr ⟨i, (hin p i).mp hp⟩))) (hfar p r' hr' hp')
    · rcases hcases r' with ⟨j, rfl⟩ | hr'
      · exact absurd ((hQ.cover p).mpr (Or.inr (Or.inr ⟨j, (hin p j).mp hp'⟩))) (hfar p r hr hp)
      · exact h.unique p r r' ((hout p r hr).mp hp) ((hout p r' hr').mp hp')
  · intro p q r hp hq
    rcases hcases r with ⟨i, rfl⟩ | hr
    · exact hQ.holder p q i ((hin p i).mp hp) ((hin q i).mp hq)
    · exact h.holder p q r ((hout p r hr).mp hp) ((hout q r hr).mp hq)

end Partition

end Laboratorio
