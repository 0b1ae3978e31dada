import Laboratorio.Vm.Arguments

/-!
The image that `exec` builds owns its pages, and a failure gives them all back.
-/

namespace Laboratorio.Vm

open Bytes

variable [Layout] {s s' : Kmem} {pd : ℕ} {hand : List ℕ} {W : Set ℕ} {E : Fault → Prop} {src : Source}

theorem Owns.spill (h : Owns s pd hand W) (hs : Spills pd s s') : Owns s' pd hand W ∧ Fills pd W s s' := by
  refine ⟨⟨?_, h.pages, fun v h1 h2 => ?_⟩, hs.table.ptes, hs.changes.mono ?_⟩
  · rw [hs.free]
    exact h.part.congr fun _ _ => hs.table.space_iff
  · rw [hs.table.ptes v h2]
    exact h.guard v h1 h2
  · rintro p ⟨v, hv, rfl⟩
    exact (h.part.cover _).mpr (.inr (.inr ⟨_, h.accessible_user hv⟩))

theorem wp_execImage {argv : List (List UInt8)} {Q : Option (ℕ × ℕ) → Kmem → Prop} (h : Bare s hand W)
    (hnull : E .nullDeref) (hfail : ∀ s', Bare s' hand W → Changes W s s' → Q none s')
    (hok : ∀ pd sz s', sz < kernbase → Owns s' pd hand W → Changes W s s' → Exact s' pd sz → Q (some (pd, sz)) s') :
    wp (execImage src argv) s Q E := by
  rw [execImage, wp_bind]
  apply wp_loadImage h
  · intro s' hbare hch
    exact wp_ret (hfail s' hbare hch)
  intro pd sz img s1 hlt hown1 hch1 he1 _ _ _ _
  rw [wp_bind]
  apply wp_pushFrame hown1.proper hnull
  intro r s2 hs2 _
  obtain ⟨hown2, hfill2⟩ := hown1.spill hs2
  cases r with
  | none =>
    rw [wp_bind]
    apply wp_freevm hown2
    intro s3 hbare hch3
    exact wp_ret (hfail s3 hbare ((hch1.trans hfill2.changes).trans hch3))
  | some sp => exact wp_ret (hok pd sz s2 hlt hown2 (hch1.trans hfill2.changes) (hfill2.exact he1))

end Laboratorio.Vm
