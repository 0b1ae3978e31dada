import Laboratorio.Bio.Coherence

namespace Laboratorio.Bio

open Function Runs Finset

variable {P D : Type} [DecidableEq P] [Fintype P] {disk : Ident → D} {s : State P D}

namespace State

def engaged (s : State P D) : Finset Buf := univ.filter fun b => (∃ q, 0 < s.uses b q) ∨ s.dirty b = true

def pinned (s : State P D) : Finset Buf := univ.filter fun b => s.dirty b = true

end State

theorem Inv.refcnt_eq_zero (h : Inv disk s) (b : Buf) : s.refcnt b = 0 ↔ ¬ ∃ q, 0 < s.uses b q := by
  rw [h.refs b, sum_eq_zero_iff]
  simp

theorem Inv.bget_isSome (h : Inv disk s) (p : P) (id : Ident) :
    (s.bget p id).isSome ↔ (∃ b, s.ident b = id) ∨ ∃ b, b ∉ s.engaged := by
  obtain ⟨l, hl, hall, _⟩ := h.lists
  have hfree : ∀ b, b ∉ s.engaged ↔ s.refcnt b = 0 ∧ s.dirty b = false := by
    intro b
    rw [h.refcnt_eq_zero]
    simp [State.engaged]
  simp only [hfree]
  unfold State.bget
  rw [Inv.cached_eq hl hall, Inv.unused_eq hl hall]
  cases hc : l.find? (fun b => s.ident b = id) with
  | some b =>
    have hb : s.ident b = id := by simpa using List.find?_some hc
    simp only [Option.isSome_some, true_iff]
    exact Or.inl ⟨b, hb⟩
  | none =>
    have hno : ¬ ∃ b, s.ident b = id := by
      rintro ⟨b, hb⟩
      simpa [hb] using List.find?_eq_none.mp hc b (hall b)
    rw [or_iff_right hno]
    cases hu : l.reverse.find? (fun b => s.refcnt b = 0 ∧ s.dirty b = false) with
    | some b =>
      simp only [Option.isSome_some, true_iff]
      exact ⟨b, by simpa using List.find?_some hu⟩
    | none =>
      simp only [Option.isSome_none, Bool.false_eq_true, false_iff]
      rintro ⟨b, hb⟩
      simpa [hb] using List.find?_eq_none.mp hu b (by simp [hall b])

theorem card_engaged_le (s : State P D) : s.engaged.card ≤ ∑ q, ∑ b, s.uses b q + s.pinned.card := by
  have hused : (univ.filter fun b => ∃ q, 0 < s.uses b q).card ≤ ∑ b, ∑ q, s.uses b q := by
    rw [card_filter]
    apply sum_le_sum
    intro b _
    split_ifs with hq
    · obtain ⟨q, hq⟩ := hq
      exact le_trans hq (single_le_sum (fun q _ => Nat.zero_le (s.uses b q)) (mem_univ q))
    · exact Nat.zero_le _
  have hunion : s.engaged = (univ.filter fun b => ∃ q, 0 < s.uses b q) ∪ s.pinned := filter_or _ _ _
  rw [hunion, sum_comm]
  exact (card_union_le _ _).trans (Nat.add_le_add_right hused _)

theorem bget_finds_iff {data : Buf → D} {as : List (Act P D)} (hr : run State.step (binit disk data) as = some s)
    (p : P) (id : Ident) : ((s.bget p id).isSome ↔ (∃ b, s.ident b = id) ∨ s.engaged.card < nbuf) ∧
      (∑ q, ∑ b, s.uses b q + s.pinned.card < nbuf → (s.bget p id).isSome) := by
  have h : Inv disk s := invariant (fun _ _ _ h hs => h.step hs) (binit_inv disk data) hr
  have hcard : s.engaged.card < nbuf ↔ ∃ b, b ∉ s.engaged := by
    have hne := card_lt_iff_ne_univ s.engaged
    rwa [Fintype.card_fin, Ne, eq_univ_iff_forall, not_forall] at hne
  have hiff : (s.bget p id).isSome ↔ (∃ b, s.ident b = id) ∨ s.engaged.card < nbuf := by rw [h.bget_isSome, hcard]
  refine ⟨hiff, fun hlt => hiff.mpr (Or.inr ?_)⟩
  exact lt_of_le_of_lt (card_engaged_le s) hlt

def oneReader : List (Act (Fin 64) ℕ) :=
  [.bread 0 (1, 1), .step 0, .step 0, .step 0, .bread 1 (1, 2), .step 1, .step 1, .step 1, .logWrite 1 1, .brelse 1 1, .step 1]

theorem bget_finds_iff_oneReader : ∃ s, run State.step (binit (fun _ => 0) fun _ => 0) oneReader = some s ∧
    ∑ q : Fin 64, ∑ b, s.uses b q + s.pinned.card = 2 ∧ (s.bget 2 (1, 3)).isSome := by
  have hrun : (run State.step (binit (fun _ => 0) fun _ => 0) oneReader).any (fun s =>
      ∑ q : Fin 64, ∑ b, s.uses b q + s.pinned.card = 2) = true := by decide +kernel
  obtain ⟨s, hs, hcount⟩ := (Option.any_eq_true _ _).mp hrun
  simp only [decide_eq_true_eq] at hcount
  exact ⟨s, hs, hcount, (bget_finds_iff hs 2 (1, 3)).2 (hcount ▸ by decide)⟩

def thirtyReaders : List (Act (Fin 64) ℕ) :=
  (List.range nbuf).flatMap fun i => [.bread (Fin.ofNat 64 i) (1, (i + 1).toUInt32), .step (Fin.ofNat 64 i)]

theorem bget_no_buffers : ∃ s, run State.step (binit (fun _ => 0) fun _ => 0) thirtyReaders = some s ∧ s.pc 30 = .run ∧
    (∀ p : Fin 64, ∑ b, s.uses b p ≤ 1) ∧ (∀ b, s.dirty b = false) ∧ s.bget 30 (1, 31) = none := by
  have hrun : (run State.step (binit (fun _ => 0) fun _ => 0) thirtyReaders).any (fun s => s.pc 30 = .run ∧
      (∀ p : Fin 64, ∑ b, s.uses b p ≤ 1) ∧ (∀ b, s.dirty b = false) ∧ (s.bget 30 (1, 31)).isNone) = true := by decide +kernel
  obtain ⟨s, hs, hfacts⟩ := (Option.any_eq_true _ _).mp hrun
  simp only [decide_eq_true_eq, Option.isNone_iff_eq_none] at hfacts
  exact ⟨s, hs, hfacts⟩

end Laboratorio.Bio
