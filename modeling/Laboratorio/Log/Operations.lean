import Laboratorio.Log.Crash

namespace Laboratorio.Log

open Function

/-- The condition on a run: logged blocks lie outside the log area. Where the log is smaller than the
buffer cache also this: when the critical section of a `log_write` takes a new slot, the size test
made before it still holds. -/
def Careful (s : Sys) : Act → Prop
  | .logWrite _ b _ => s.home b
  | .logAppend p => s.size < nbuf → ∀ b v, s.pc p = .logging b v →
      b ∈ s.lh ∨ s.lh.length < logsize ∧ s.lh.length < s.size - 1
  | _ => True

variable {d : ℕ → Block} {s s' : Sys} {x : Spec} {p : ℕ}

theorem Inv.idle (h : Inv d ⟨s, x⟩) (hp : s.ctl ≠ .panicked) (hpc : s.pc p ≠ .out) :
    s.ctl = .idle ∧ Running (currentDisk d x) ⟨s, x⟩ := by
  have hph := h.phase
  unfold Phase at hph
  split at hph
  · next hc => exact ⟨hc, hph⟩
  · exact absurd (hph.2.1 p) hpc
  · exact absurd (hph.quiet p) hpc
  · exact absurd (hph.2 p) hpc
  · exact absurd (hph.quiet p) hpc
  · next hc => exact absurd hc hp

theorem Inv.of_idle (hs : 0 < s.size) (hd : Durable s.start s.size s.disk (committedDisk d x)) (hc : Coherent s)
    (hi : s.ctl = .idle) (hr : Running (currentDisk d x) ⟨s, x⟩) : Inv d ⟨s, x⟩ := by
  refine ⟨hs, hd, hc, ?_⟩
  unfold Phase
  simp only [hi]
  exact hr

theorem Inv.panic (h : Inv d ⟨s, x⟩) {y : Spec} (hy : y.committed = x.committed) : Inv d ⟨s.panic, y⟩ := by
  refine ⟨h.size, ?_, h.coherent.frame _ _ _, trivial⟩
  simpa [committedDisk, hy, Sys.panic] using h.durable

theorem Inv.beginOp (h : Inv d ⟨s, x⟩) (hs : s.beginOp p = some s') : Inv d ⟨s', x.step (.beginOp p)⟩ := by
  unfold Sys.beginOp at hs
  split at hs
  · next hi hpc =>
    split_ifs at hs
    cases hs
    have hr : Running (currentDisk d x) ⟨s, x⟩ := by
      have hph := h.phase
      unfold Phase at hph
      simpa only [hi] using hph
    refine Inv.of_idle h.size h.durable ⟨h.coherent.clean, h.coherent.area, h.coherent.buffered⟩ hi ?_
    refine ⟨hr.header, hr.blocks, hr.homes, hr.nodup, hr.fits, hr.view, fun b buf q hb hq => ?_, fun q b v hq => ?_,
      hr.dirty, ?_⟩
    · have hl : s.pc q = .logging b buf.data := hr.held b buf q hb hq
      have hqp : q ≠ p := by
        rintro rfl
        simp [hpc] at hl
      simpa [hqp] using hl
    · have hqp : q ≠ p := by
        rintro rfl
        simp at hq
      exact hr.logging q b v (by simpa [hqp] using hq)
    · obtain ⟨A, hA, hm⟩ := hr.count
      have hpA : p ∉ A := by simpa [hm] using hpc
      refine ⟨insert p A, by simp [hpA, hA], fun q => ?_⟩
      by_cases hqp : q = p
      · subst hqp; simp
      · simpa [hqp] using hm q
  · simp at hs

variable (h : Inv d ⟨s, x⟩) (hn : s.ctl ≠ .panicked)

include h hn

theorem Inv.logWrite {b : ℕ} {v : Block}
    (hb : s.home b) (hs : s.logWrite p b v = some s') : Inv d ⟨s', x.step (.logWrite p b v)⟩ := by
  simp only [Sys.logWrite] at hs
  split at hs
  · next hpc hh =>
    split_ifs at hs
    · cases hs
      exact h.panic rfl
    · cases hs
      exact h.panic rfl
    cases hs
    obtain ⟨hi, hr⟩ := h.idle hn (p := p) (by simp [hpc])
    have hfree : ∀ buf, s.cache b = some buf → buf.holder = none := by
      intro buf hbuf
      simpa [hbuf] using hh
    refine Inv.of_idle h.size h.durable
      ⟨fun c buf hc hd hho => ?_, fun c buf hnh hc => ?_, fun c buf hc => ?_⟩ hi
      ⟨hr.header, hr.blocks, hr.homes, hr.nodup, hr.fits, fun c hc hfr => ?_, fun c buf q hc hq => ?_,
        fun q c w hq => ?_, fun c => ?_, ?_⟩
    · have hcb : c ≠ b := by
        rintro rfl
        obtain rfl : _ = buf := by simpa using hc
        simp at hho
      exact h.coherent.clean c buf (by simpa [hcb] using hc) hd hho
    · have hcb : c ≠ b := by
        rintro rfl
        exact hnh hb
      exact h.coherent.area c buf hnh (by simpa [hcb] using hc)
    · by_cases hcb : c = b
      · simp [hcb]
      · exact Finset.mem_insert_of_mem (h.coherent.buffered c buf (by simpa [hcb] using hc))
    · have hcb : c ≠ b := by
        rintro rfl
        simpa using hfr _ (update_self _ _ _)
      have hv : s.view c = currentDisk d x c := hr.view c hc (fun buf hbuf => hfr buf (by simpa [hcb] using hbuf))
      change _ = currentDisk d x c
      simpa [Sys.view, hcb] using hv
    · by_cases hcb : c = b
      · subst hcb
        obtain rfl : _ = buf := by simpa using hc
        obtain rfl : p = q := by simpa using hq
        simp
      · have hl : s.pc q = .logging c buf.data := hr.held c buf q (by simpa [hcb] using hc) hq
        have hqp : q ≠ p := by
          rintro rfl
          simp [hpc] at hl
        simpa [hqp] using hl
    · by_cases hqp : q = p
      · subst hqp
        obtain ⟨rfl, rfl⟩ : b = c ∧ v = w := by simpa using hq
        exact ⟨hb, by simp [Spec.step], _, update_self _ _ _⟩
      · obtain ⟨hhome, hpend, e, he⟩ := hr.logging q c w (by simpa [hqp] using hq)
        have hcb : c ≠ b := by
          rintro rfl
          simpa using hfree _ he
        exact ⟨hhome, by simpa [Spec.step, hqp] using hpend, e, by simpa [hcb] using he⟩
    · rw [show (c ∈ s.lh ↔ _) from hr.dirty c]
      by_cases hcb : c = b
      · subst hcb
        cases s.cache c <;> simp
      · simp [hcb]
    · obtain ⟨A, hA, hm⟩ := hr.count
      refine ⟨A, hA, fun q => ?_⟩
      by_cases hqp : q = p
      · subst hqp; simp [hm, hpc]
      · simpa [hqp] using hm q
  · simp at hs

theorem Inv.logAppend (hcare : Careful s (.logAppend p))
    (hs : s.logAppend p = some s') : Inv d ⟨s', x.step (.logAppend p)⟩ := by
  unfold Sys.logAppend at hs
  split at hs
  · next b v hpc =>
    cases hs
    obtain ⟨hi, hr⟩ := h.idle hn (p := p) (by simp [hpc])
    obtain ⟨hb, hpend, e, he⟩ := hr.logging p b v hpc
    have hx : x.step (.logAppend p) =
        { x with current := x.current ++ [⟨x.op p, b, v⟩], issued := x.issued ++ [⟨x.op p, b, v⟩] } := by
      simp only at hpend
      simp [Spec.step, hpend]
    have hcur : currentDisk d (x.step (.logAppend p)) = update (currentDisk d x) b v := by
      rw [hx]
      exact contents_snoc _ _ _
    have hmem : ∀ c, c ∈ (if b ∈ s.lh then s.lh else s.lh ++ [b]) ↔ c = b ∨ c ∈ s.lh := by
      intro c
      by_cases hbl : b ∈ s.lh
      · rw [if_pos hbl]
        constructor
        · exact Or.inr
        · rintro (rfl | hc)
          · exact hbl
          · exact hc
      · rw [if_neg hbl]
        simp [or_comm]
    have hother : ∀ q c w, q ≠ p → s.pc q = .logging c w → c ≠ b := by
      rintro q c w hqp hq rfl
      obtain ⟨_, _, f, hf⟩ := hr.logging q c w hq
      rw [he] at hf
      simp at hf
      exact hqp hf.2.2.symm
    refine Inv.of_idle h.size ?_ ⟨fun c buf hc hd hho => ?_, fun c buf hnh hc => ?_, fun c buf hc => ?_⟩ hi
      ⟨hr.header, fun c => ?_, fun c hc => ?_, ?_, ?_, fun c hc hfr => ?_, fun c buf q hc hq => ?_, fun q c w hq => ?_,
        fun c => ?_, ?_⟩
    · rw [hx]
      exact h.durable
    · have hcb : c ≠ b := by
        rintro rfl
        obtain rfl : _ = buf := by simpa using hc
        simp at hd
      exact h.coherent.clean c buf (by simpa [hcb] using hc) hd hho
    · have hcb : c ≠ b := by
        rintro rfl
        exact hnh hb
      exact h.coherent.area c buf hnh (by simpa [hcb] using hc)
    · by_cases hcb : c = b
      · subst hcb
        exact h.coherent.buffered c _ he
      · exact h.coherent.buffered c buf (by simpa [hcb] using hc)
    · rw [hmem, hx]
      have hbl := hr.blocks c
      simp only [hbl, List.mem_append, List.mem_singleton, or_and_right, exists_or, exists_eq_left]
      rw [or_comm, eq_comm]
    · rcases (hmem c).mp hc with rfl | hc
      · exact hb
      · exact hr.homes c hc
    · have hnd := hr.nodup
      split_ifs with hbl
      · exact hnd
      · exact hnd.append (List.nodup_singleton b) (by simpa using hbl)
    · rcases Nat.lt_or_ge s.size nbuf with hlt | hge
      · have hfits : s.lh.length ≤ s.size - 1 := hr.fits.resolve_right (Nat.not_le.mpr hlt)
        left
        rcases hcare hlt b v hpc with hbl | hlen
        · simpa only [if_pos hbl] using hfits
        · split_ifs
          · exact hfits
          · simp only [List.length_append, List.length_cons, List.length_nil]
            omega
      · exact Or.inr hge
    · rw [hcur]
      by_cases hcb : c = b
      · subst hcb; simp [Sys.view]
      · have hv : s.view c = currentDisk d x c := hr.view c hc (fun buf hbuf => hfr buf (by simpa [hcb] using hbuf))
        simpa [Sys.view, hcb] using hv
    · have hcb : c ≠ b := by
        rintro rfl
        obtain rfl : _ = buf := by simpa using hc
        simp at hq
      have hl : s.pc q = .logging c buf.data := hr.held c buf q (by simpa [hcb] using hc) hq
      have hqp : q ≠ p := by
        rintro rfl
        rw [hpc] at hl
        simp at hl
        exact hcb hl.1.symm
      simpa [hqp] using hl
    · have hqp : q ≠ p := by
        rintro rfl
        simp at hq
      have hq' : s.pc q = .logging c w := by simpa [hqp] using hq
      obtain ⟨hhome, hpq, f, hf⟩ := hr.logging q c w hq'
      have hcb := hother q c w hqp hq'
      exact ⟨hhome, by rw [hx]; exact hpq, f, by simpa [hcb] using hf⟩
    · rw [hmem]
      have hdirty := hr.dirty c
      by_cases hcb : c = b
      · subst hcb; simp
      · simp [hcb, hdirty]
    · obtain ⟨A, hA, hm⟩ := hr.count
      refine ⟨A, hA, fun q => ?_⟩
      by_cases hqp : q = p
      · subst hqp; simp [hm, hpc]
      · simpa [hqp] using hm q
  · simp at hs

theorem Inv.endOp (hs : s.endOp p = some s') : Inv d ⟨s', x.step (.endOp p)⟩ := by
  unfold Sys.endOp at hs
  split at hs
  · next hpc =>
    obtain ⟨hi, hr⟩ := h.idle hn (p := p) (by simp [hpc])
    let u : Sys := { s with outstanding := s.outstanding - 1, pc := update s.pc p .out }
    have hu : Running (currentDisk d x) ⟨u, x⟩ := by
      refine ⟨hr.header, hr.blocks, hr.homes, hr.nodup, hr.fits, hr.view, fun b buf q hb hq => ?_, fun q b v hq => ?_,
        hr.dirty, ?_⟩
      · have hl : s.pc q = .logging b buf.data := hr.held b buf q hb hq
        have hqp : q ≠ p := by
          rintro rfl
          simp [hpc] at hl
        simpa [u, hqp] using hl
      · have hqp : q ≠ p := by
          rintro rfl
          simp [u] at hq
        exact hr.logging q b v (by simpa [u, hqp] using hq)
      · obtain ⟨A, hA, hm⟩ := hr.count
        have hpA : p ∈ A := by simp [hm, hpc]
        refine ⟨A.erase p, by simp [Finset.card_erase_of_mem hpA, hA, u], fun q => ?_⟩
        by_cases hqp : q = p
        · subst hqp; simp [u]
        · simpa [u, hqp] using hm q
    have hquiet : u.outstanding = 0 → ∀ q, u.pc q = .out := by
      intro h0 q
      obtain ⟨A, hA, hm⟩ := hu.count
      have hempty : A = ∅ := Finset.card_eq_zero.mp (hA.trans h0)
      by_contra hq
      have := (hm q).mpr hq
      simp [hempty] at this
    have hc : Coherent u := ⟨h.coherent.clean, h.coherent.area, h.coherent.buffered⟩
    have hcom : u.committing = false := by simp [Sys.committing, u, hi]
    rw [if_neg (show ¬ u.committing = true by simp [hcom])] at hs
    split_ifs at hs with h0 hl
    · cases hs
      exact ⟨h.size, h.durable, hc.frame _ _ _, hu.frame _ _ _, hquiet h0⟩
    · cases hs
      exact ⟨h.size, h.durable, hc.frame _ _ _, hu.frame _ _ _, hquiet h0, by simp⟩
    · cases hs
      exact Inv.of_idle h.size h.durable hc hi hu
  · simp at hs

end Laboratorio.Log
