import Laboratorio.Umalloc.Blocks

/-!
The search of `malloc` through the free list, and the blocks it takes from it.
-/

namespace Laboratorio.Umalloc

namespace Heap

def carve (nunits : ℕ) (h : Heap) (prevp : ℕ) : Option ℕ × Heap :=
  let p := h.ptr prevp
  if h.size p = nunits then (some (advance p 1), { h.setPtr prevp (h.ptr p) with freep := prevp })
  else
    let h := h.setSize p (h.size p - nunits)
    let p := advance p (h.size p)
    (some (advance p 1), { h.setSize p nunits with freep := prevp })

variable {sbrk : Sbrk} {nu n : ℕ} {h : Heap}

theorem mallocLoop_found {k prevp : ℕ} (hp : h.size (h.ptr prevp) ≥ nu) :
    mallocLoop sbrk nu n (k + 1) h prevp = some (h.carve nu prevp) := by
  rw [mallocLoop]
  simp only [if_pos hp, carve]
  split_ifs <;> rfl

theorem mallocLoop_scan (sbrk : Sbrk) (nu n : ℕ) {r : List ℕ} : ∀ {k prevp : ℕ}, (prevp :: r).map h.ptr = r ++ [h.freep] →
    h.freep ∉ r → r.length < k →
    (∃ y ∈ prevp :: r, nu ≤ h.size (h.ptr y) ∧ mallocLoop sbrk nu n k h prevp = some (h.carve nu y)) ∨
    ((∀ y ∈ prevp :: r, h.size (h.ptr y) < nu) ∧ mallocLoop sbrk nu n k h prevp =
      match h.morecore sbrk n nu with
      | none => none
      | some (none, h) => some (none, h)
      | some (some p, h) => mallocLoop sbrk nu n (k - (r.length + 1)) h p) := by
  induction r with
  | nil =>
    intro k prevp hr _ hk
    obtain ⟨k, rfl⟩ : ∃ m, k = m + 1 := ⟨k - 1, by omega⟩
    have hend : h.ptr prevp = h.freep := by simpa using hr
    by_cases hp : h.size (h.ptr prevp) ≥ nu
    · exact .inl ⟨prevp, by simp, hp, mallocLoop_found hp⟩
    · refine .inr ⟨by simpa using hp, ?_⟩
      rw [mallocLoop]
      simp only [if_neg hp, if_pos hend]
      rfl
  | cons q r ih =>
    intro k prevp hr hfreep hk
    obtain ⟨k, rfl⟩ : ∃ m, k = m + 1 := ⟨k - 1, by omega⟩
    rw [List.map_cons, List.cons_append, List.cons.injEq] at hr
    by_cases hp : h.size (h.ptr prevp) ≥ nu
    · exact .inl ⟨prevp, by simp, hp, mallocLoop_found hp⟩
    have hne : h.ptr prevp ≠ h.freep := by
      rintro he
      rw [hr.1] at he
      simp [he] at hfreep
    have hloop : mallocLoop sbrk nu n (k + 1) h prevp = mallocLoop sbrk nu n k h q := by
      rw [hr.1] at hp hne
      rw [mallocLoop]
      simp only [hr.1, if_neg hp, if_neg hne]
    rw [hloop]
    rcases ih hr.2 (fun hm => hfreep (by simp [hm])) (by simpa using hk) with ⟨y, hy, hfound⟩ | ⟨hsmall, hrun⟩
    · exact .inl ⟨y, List.mem_cons_of_mem _ hy, hfound⟩
    · refine .inr ⟨List.forall_mem_cons.mpr ⟨by omega, hsmall⟩, ?_⟩
      rw [hrun, List.length_cons, Nat.succ_sub_succ]

end Heap

namespace FreeList

variable {base nu : ℕ} {h : Heap} {l : List Block}

theorem apart_block (hf : FreeList base h l) {b : Block} (hb : b ∈ l) {y : ℕ} (hy : y ∈ base :: l.map Prod.fst)
    (hyb : y ≠ b.1) : y + 8 ≤ b.1 ∨ b.1 + 8 * b.2 ≤ y := by
  rcases List.mem_cons.mp hy with rfl | hy
  · exact .inl (hf.fits b hb).low
  obtain ⟨c, hc, rfl⟩ := List.mem_map.mp hy
  obtain ⟨l₁, l₂, rfl⟩ := List.append_of_mem hb
  have hgaps := List.pairwise_append.mp hf.gaps
  have hpos := (hf.fits c hc).pos
  simp only [List.mem_append, List.mem_cons] at hc
  rcases hc with hc | rfl | hc
  · have := hgaps.2.2 c hc b (by simp)
    omega
  · exact absurd rfl hyb
  · have := (List.pairwise_cons.mp hgaps.2.1).1 c hc
    omega

section carve

variable {l₁ l₃ : List Block} {a v : ℕ} {d : List ℕ} {p : ℕ} (hf : FreeList base h (l₁ ++ ([(a, v)] ++ l₃)))
  (hd : base :: l₁.map Prod.fst = d ++ [p])
include hf hd

omit hf in
theorem mem_pred : p ∈ base :: (l₁ ++ ([(a, v)] ++ l₃)).map Prod.fst := by
  rw [List.map_append, ← List.cons_append, hd]
  simp

theorem pred_ne : p ≠ a := by
  have hnodup := hf.nodup
  rw [List.map_append, ← List.cons_append, hd] at hnodup
  rintro rfl
  simp [List.nodup_append] at hnodup

theorem mem_others {y : ℕ} (hy : y ∈ d ++ l₃.map Prod.fst) : y ∈ base :: (l₁ ++ ([(a, v)] ++ l₃)).map Prod.fst ∧
    y ≠ p ∧ y ≠ a := by
  have hnodup := hf.nodup
  rw [List.map_append, ← List.cons_append, hd] at hnodup ⊢
  simp only [List.map_cons, List.append_assoc, List.cons_append, List.nil_append, List.nodup_append, List.nodup_cons,
    List.mem_append, List.mem_cons] at hnodup hy ⊢
  rcases hy with hy | hy
  · exact ⟨.inl hy, hnodup.2.2 y hy p (.inl rfl), hnodup.2.2 y hy a (.inr (.inl rfl))⟩
  · refine ⟨.inr (.inr (.inr hy)), ?_, ?_⟩
    · rintro rfl
      exact hnodup.2.1.1 (.inr hy)
    · rintro rfl
      exact hnodup.2.1.2.1 hy

theorem ptr_behind : h.ptr p = a ∧ h.ptr a :: (l₃.map Prod.fst).map h.ptr = l₃.map Prod.fst ++ [base] := by
  have hcycle := hf.cycle
  rw [List.map_append] at hcycle
  simpa using ((Cycle.append_iff hd).mp hcycle).2

theorem freeList_taken : FreeList base { h.setPtr p (h.ptr a) with freep := p } (l₁ ++ l₃) := by
  have hedit : Heap.Edits p h (h.setPtr p (h.ptr a)) := ⟨fun x hx => Heap.mem_setPtr hx, rfl, rfl⟩
  have hsize : ∀ y ∈ base :: (l₁ ++ ([(a, v)] ++ l₃)).map Prod.fst, (h.setPtr p (h.ptr a)).size y = h.size y := by
    intro y hy
    by_cases hyp : y = p
    · rw [hyp, Heap.size_setPtr]
    · exact (hedit.header (hf.apart hy (mem_pred hd) hyp)).2
  change FreeList base _ (l₁ ++ ([] ++ l₃))
  apply hf.relink hd rfl
  · intro y hy
    obtain ⟨hmem, hyp, -⟩ := hf.mem_others hd hy
    exact (hedit.header (hf.apart hmem (mem_pred hd) hyp)).1
  · change (h.setPtr p (h.ptr a)).ptr p :: ([] ++ _) = _
    rw [Heap.ptr_setPtr (h.ptr_lt a)]
    exact (hf.ptr_behind hd).2
  · exact (hsize base (by simp)).trans hf.base_size
  · intro b hb
    have hmem : b ∈ l₁ ++ ([(a, v)] ++ l₃) := by
      simp only [List.nil_append, List.mem_append] at hb ⊢
      exact hb.imp_right .inr
    exact (hsize b.1 (List.mem_cons_of_mem _ (List.mem_map_of_mem hmem))).trans (hf.size b hmem)
  · rfl
  · exact hf.gaps.sublist (List.Sublist.append_left (List.sublist_append_right _ _) _)
  · intro b hb
    apply hf.fits
    simp only [List.nil_append, List.mem_append] at hb ⊢
    exact hb.imp_right .inr

theorem freeList_shrunk (hnu : 0 < nu) (hlt : nu < v) :
    FreeList base { (h.setSize a (v - nu)).setSize (a + 8 * (v - nu)) nu with freep := p } (l₁ ++ (a, v - nu) :: l₃) := by
  obtain ⟨hpos, hlow, hhigh⟩ := hf.fits (a, v) (by simp)
  have hedit : Heap.Edits a h (h.setSize a (v - nu)) := ⟨fun x hx => Heap.mem_setSize hx, rfl, rfl⟩
  have hedit' : Heap.Edits (a + 8 * (v - nu)) (h.setSize a (v - nu)) ((h.setSize a (v - nu)).setSize (a + 8 * (v - nu)) nu) :=
    ⟨fun x hx => Heap.mem_setSize hx, rfl, rfl⟩
  have hptra := (hedit'.header (.inl (by omega))).1.trans Heap.ptr_setSize
  have hsizea := (hedit'.header (.inl (by omega))).2.trans (Heap.size_setSize (by omega))
  have hother : ∀ y ∈ base :: (l₁ ++ ([(a, v)] ++ l₃)).map Prod.fst, y ≠ a →
      ((h.setSize a (v - nu)).setSize (a + 8 * (v - nu)) nu).ptr y = h.ptr y ∧
      ((h.setSize a (v - nu)).setSize (a + 8 * (v - nu)) nu).size y = h.size y := by
    intro y hy hya
    have hblock := hf.apart_block (b := (a, v)) (by simp) hy hya
    have h1 := hedit.header (q := y) (by omega)
    have h2 := hedit'.header (q := y) (by omega)
    exact ⟨h2.1.trans h1.1, h2.2.trans h1.2⟩
  generalize (h.setSize a (v - nu)).setSize (a + 8 * (v - nu)) nu = h' at hptra hsizea hother
  have hgaps := List.pairwise_append.mp hf.gaps
  have hgaps₃ := List.pairwise_cons.mp hgaps.2.1
  have hbefore : ∀ b ∈ l₁, b.1 + 8 * b.2 < a := fun b hb => hgaps.2.2 b hb (a, v) (by simp)
  have hbehind : ∀ b ∈ l₃, a + 8 * v < b.1 := hgaps₃.1
  obtain ⟨hpptr, hrest⟩ := hf.ptr_behind hd
  apply hf.relink (n := [(a, v - nu)]) hd rfl
  · intro y hy
    obtain ⟨hmem, -, hya⟩ := hf.mem_others hd hy
    exact (hother y hmem hya).1
  · change h'.ptr p :: [h'.ptr a] ++ _ = _
    rw [(hother p (mem_pred hd) (hf.pred_ne hd)).1, hpptr, hptra]
    simpa using hrest
  · exact (hother base (by simp) (by omega)).2.trans hf.base_size
  · have hsize : ∀ b ∈ l₁ ++ ([(a, v)] ++ l₃), b.1 ≠ a → h'.size b.1 = b.2 := by
      intro b hb hba
      exact (hother b.1 (List.mem_cons_of_mem _ (List.mem_map_of_mem hb)) hba).2.trans (hf.size b hb)
    intro b hb
    simp only [List.mem_append, List.mem_singleton] at hb
    rcases hb with hb | rfl | hb
    · have := hbefore b hb
      exact hsize b (by simp [hb]) (by omega)
    · exact hsizea
    · have := hbehind b hb
      exact hsize b (by simp [hb]) (by omega)
  · rfl
  · refine List.pairwise_append.mpr ⟨hgaps.1, List.pairwise_cons.mpr ⟨fun b hb => ?_, hgaps₃.2⟩, fun b hb c hc => ?_⟩
    · have := hbehind b hb
      omega
    · rcases List.mem_cons.mp hc with rfl | hc
      · exact hbefore b hb
      · exact hgaps.2.2 b hb c (List.mem_cons_of_mem _ hc)
  · intro b hb
    simp only [List.mem_append, List.mem_singleton] at hb
    rcases hb with hb | rfl | hb
    · exact hf.fits b (by simp [hb])
    · exact ⟨by simp only; omega, hlow, by simp only; omega⟩
    · exact hf.fits b (by simp [hb])

end carve

theorem carve_spec (hf : FreeList base h l) {y : ℕ} (hy : y ∈ base :: l.map Prod.fst) (hnu : 0 < nu)
    (hbig : nu ≤ h.size (h.ptr y)) :
    ∃ h' l' bp, h.carve nu y = (some (bp + 8), h') ∧ FreeList base h' l' ∧ h'.regions = h.regions ∧ h'.size bp = nu ∧
      Fits base (bp, nu) ∧
      (∀ x, Covered l x ↔ Covered l' x ∨ (bp ≤ x ∧ x < bp + 8 * nu)) ∧ (∀ x, Covered l' x → ¬ (bp ≤ x ∧ x < bp + 8 * nu)) ∧
      units l = units l' + nu ∧ ∀ x, ¬ (base ≤ x ∧ x < base + 8) → ¬ Covered l x → h'.mem x = h.mem x := by
  obtain ⟨d, l₁', l₂', hsplit, hd⟩ := exists_split hy
  obtain ⟨l₁, l₂, rfl, rfl, rfl⟩ := List.map_eq_append_iff.mp hsplit
  cases l₂ with
  | nil =>
    have hcycle := hf.cycle
    rw [List.map_append] at hcycle
    have : h.ptr y = base := by simpa using ((Cycle.append_iff hd).mp hcycle).2
    rw [this, hf.base_size] at hbig
    omega
  | cons b l₃ =>
    obtain ⟨a, v⟩ := b
    obtain ⟨hya, -⟩ := FreeList.ptr_behind hf hd
    have hav := hf.size (a, v) (by simp)
    obtain ⟨hpos, hlow, hhigh⟩ := hf.fits (a, v) (by simp)
    have hgaps := List.pairwise_append.mp hf.gaps
    have hgaps₃ := List.pairwise_cons.mp hgaps.2.1
    have hbefore : ∀ b ∈ l₁, b.1 + 8 * b.2 < a := fun b hb => hgaps.2.2 b hb (a, v) (by simp)
    have hbehind : ∀ b ∈ l₃, a + 8 * v < b.1 := hgaps₃.1
    rw [hya, hav] at hbig
    have hcov : ∀ x, Covered (l₁ ++ l₃) x → ¬ (a ≤ x ∧ x < a + 8 * v) := by
      rintro x ⟨b, hb, hx⟩
      rcases List.mem_append.mp hb with hb | hb
      · have := hbefore b hb
        omega
      · have := hbehind b hb
        omega
    by_cases hv : v = nu
    · subst hv
      have hcarve : h.carve v y = (some (a + 8), { h.setPtr y (h.ptr a) with freep := y }) := by
        have hadv : advance a 1 = a + 8 := Nat.mod_eq_of_lt (by simp only [headerSize]; omega)
        simp only [Heap.carve, hya, if_pos hav, hadv]
      have hedit : Heap.Edits y h (h.setPtr y (h.ptr a)) := ⟨fun x hx => Heap.mem_setPtr hx, rfl, rfl⟩
      have hsize := (hedit.header (hf.apart (by simp) hy (FreeList.pred_ne hf hd).symm)).2.trans hav
      refine ⟨_, l₁ ++ l₃, a, hcarve, FreeList.freeList_taken hf hd, rfl, hsize, ⟨hpos, hlow, hhigh⟩, fun x => ?_, hcov, ?_,
        fun x hx1 hx2 => ?_⟩
      · rw [covered_append, covered_cons, covered_append, or_assoc, or_comm (b := Covered l₃ x)]
      · simp only [units_append, units_cons]
        omega
      · apply hedit.1
        by_contra hx
        exact (hf.covered_header hy (by omega)).elim hx1 hx2
    · have hlt : nu < v := by omega
      have hcarve : h.carve nu y =
          (some (a + 8 * (v - nu) + 8), { (h.setSize a (v - nu)).setSize (a + 8 * (v - nu)) nu with freep := y }) := by
        have hadv : advance a (v - nu) = a + 8 * (v - nu) := Nat.mod_eq_of_lt (by simp only [headerSize]; omega)
        have hadv' : advance (a + 8 * (v - nu)) 1 = a + 8 * (v - nu) + 8 := Nat.mod_eq_of_lt (by simp only [headerSize]; omega)
        simp only [Heap.carve, hya, hav, if_neg hv, Heap.size_setSize (show v - nu < 2 ^ 32 by omega), hadv, hadv']
      have hmem : ∀ x, ¬ (a ≤ x ∧ x < a + 8 * v) → ((h.setSize a (v - nu)).setSize (a + 8 * (v - nu)) nu).mem x = h.mem x := by
        intro x hx
        rw [Heap.mem_setSize (by omega), Heap.mem_setSize (by omega)]
      refine ⟨_, l₁ ++ (a, v - nu) :: l₃, a + 8 * (v - nu), hcarve, FreeList.freeList_shrunk hf hd hnu hlt, rfl,
        Heap.size_setSize (by omega), ⟨hnu, by simp only; omega, by simp only; omega⟩, fun x => ?_, fun x hx => ?_, ?_,
        fun x hx1 hx2 => ?_⟩
      · have hblock := joined_iff (p := a) (u := nu) (v := v - nu) (x := x)
        rw [Nat.sub_add_cancel hbig] at hblock
        simp only [covered_append, covered_cons, hblock, or_assoc, or_comm (b := Covered l₃ x)]
      · simp only [covered_append, covered_cons] at hx hcov
        have hcovx := hcov x
        rcases hx with hx | hx | hx
        · have := hcovx (.inl hx)
          omega
        · omega
        · have := hcovx (.inr hx)
          omega
      · simp only [units_append, units_cons]
        omega
      · apply hmem
        exact fun hx => hx2 (by simp [hx])

end FreeList

end Laboratorio.Umalloc
