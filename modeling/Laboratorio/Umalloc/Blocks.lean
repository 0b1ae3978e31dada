import Laboratorio.Lib.Cycle
import Laboratorio.Umalloc.Heap

/-!
The list of free blocks in memory, and what `free` does to it.
-/

namespace Laboratorio

namespace Umalloc

open Bytes

namespace Heap

variable {h h' : Heap} {p q v x : ℕ}

theorem ptr_lt (h : Heap) (p : ℕ) : h.ptr p < 2 ^ 32 := rd_lt 4 h.mem p

theorem ptr_setPtr (hv : v < 2 ^ 32) : (h.setPtr p v).ptr p = v := rd_wr h.mem p hv

theorem size_setSize (hv : v < 2 ^ 32) : (h.setSize p v).size p = v := rd_wr h.mem (p + 4) hv

theorem size_setPtr : (h.setPtr p v).size p = h.size p := rd_wr_of_disjoint (.inr (Nat.le_refl _))

theorem ptr_setSize : (h.setSize p v).ptr p = h.ptr p := rd_wr_of_disjoint (.inl (Nat.le_refl _))

theorem mem_setPtr (hx : x < p ∨ p + 8 ≤ x) : (h.setPtr p v).mem x = h.mem x := by
  change store h.mem p 4 (fun i => UInt8.ofNat (v / 256 ^ i)) x = h.mem x
  exact store_of_notMem (by omega)

theorem mem_setSize (hx : x < p ∨ p + 8 ≤ x) : (h.setSize p v).mem x = h.mem x := by
  change store h.mem (p + 4) 4 (fun i => UInt8.ofNat (v / 256 ^ i)) x = h.mem x
  exact store_of_notMem (by omega)

theorem header_congr (hm : ∀ x, q ≤ x → x < q + 8 → h'.mem x = h.mem x) : h'.ptr q = h.ptr q ∧ h'.size q = h.size q :=
  ⟨rd_congr fun x h1 h2 => hm x h1 (by omega), rd_congr fun x h1 h2 => hm x (by omega) (by omega)⟩

def Edits (p : ℕ) (h h' : Heap) : Prop := (∀ x, x < p ∨ p + 8 ≤ x → h'.mem x = h.mem x) ∧ h'.freep = h.freep ∧
    h'.regions = h.regions

theorem Edits.header (he : Edits p h h') (hq : q + 8 ≤ p ∨ p + 8 ≤ q) : h'.ptr q = h.ptr q ∧ h'.size q = h.size q :=
  header_congr fun x h1 h2 => he.1 x (by omega)

theorem edits_joinNext (h : Heap) (p bp : ℕ) : Edits bp h (h.joinNext p bp) := by
  unfold joinNext
  split_ifs
  · exact ⟨fun x hx => (mem_setPtr hx).trans (mem_setSize hx), rfl, rfl⟩
  · exact ⟨fun x hx => mem_setPtr hx, rfl, rfl⟩

theorem edits_joinPrev (h : Heap) (p bp : ℕ) : Edits p h (h.joinPrev p bp) := by
  unfold joinPrev
  split_ifs
  · exact ⟨fun x hx => (mem_setPtr hx).trans (mem_setSize hx), rfl, rfl⟩
  · exact ⟨fun x hx => mem_setPtr hx, rfl, rfl⟩

end Heap

abbrev Block := ℕ × ℕ

def units (l : List Block) : ℕ := (l.map Prod.snd).sum

def Covered (l : List Block) (x : ℕ) : Prop := ∃ b ∈ l, b.1 ≤ x ∧ x < b.1 + 8 * b.2

variable {x : ℕ}

@[simp] theorem covered_nil (x : ℕ) : ¬ Covered [] x := by simp [Covered]

@[simp] theorem covered_cons {b : Block} {l : List Block} : Covered (b :: l) x ↔ (b.1 ≤ x ∧ x < b.1 + 8 * b.2) ∨
    Covered l x := by
  simp [Covered]

@[simp] theorem covered_append {l l' : List Block} : Covered (l ++ l') x ↔ Covered l x ∨ Covered l' x := by
  simp [Covered, or_and_right, exists_or]

theorem joined_iff {p u v : ℕ} : p ≤ x ∧ x < p + 8 * (v + u) ↔ (p ≤ x ∧ x < p + 8 * v) ∨
    (p + 8 * v ≤ x ∧ x < p + 8 * v + 8 * u) := by
  omega

@[simp] theorem units_nil : units [] = 0 := rfl

@[simp] theorem units_cons (b : Block) (l : List Block) : units (b :: l) = b.2 + units l := by simp [units]

@[simp] theorem units_append (l l' : List Block) : units (l ++ l') = units l + units l' := by simp [units]

structure Fits (base : ℕ) (b : Block) : Prop where
  pos : 0 < b.2
  low : base + 8 ≤ b.1
  high : b.1 + 8 * b.2 < 2 ^ 32

structure FreeList (base : ℕ) (h : Heap) (l : List Block) : Prop where
  cycle : Cycle h.ptr base (l.map Prod.fst)
  base_size : h.size base = 0
  size : ∀ b ∈ l, h.size b.1 = b.2
  freep : h.freep ∈ base :: l.map Prod.fst
  gaps : l.Pairwise fun b c => b.1 + 8 * b.2 < c.1
  fits : ∀ b ∈ l, Fits base b

namespace FreeList

variable {base : ℕ} {h : Heap} {l l₁ l₂ : List Block}

theorem increasing (hf : FreeList base h l) : (base :: l.map Prod.fst).Pairwise (· < ·) := by
  refine List.pairwise_cons.mpr ⟨fun a ha => ?_, ?_⟩
  · obtain ⟨b, hb, rfl⟩ := List.mem_map.mp ha
    have := (hf.fits b hb).low
    omega
  · exact List.pairwise_map.mpr (hf.gaps.imp fun h => by omega)

theorem nodup (hf : FreeList base h l) : (base :: l.map Prod.fst).Nodup := hf.increasing.imp Nat.ne_of_lt

theorem apart (hf : FreeList base h l) {y z : ℕ} (hy : y ∈ base :: l.map Prod.fst)
    (hz : z ∈ base :: l.map Prod.fst) (hyz : y ≠ z) : y + 8 ≤ z ∨ z + 8 ≤ y := by
  have hall : (base :: l.map Prod.fst).Pairwise fun y z => y + 8 ≤ z := by
    refine List.pairwise_cons.mpr ⟨fun a ha => ?_, List.pairwise_map.mpr (hf.gaps.imp_of_mem fun hb _ hlt => ?_)⟩
    · obtain ⟨b, hb, rfl⟩ := List.mem_map.mp ha
      exact (hf.fits b hb).low
    · have := (hf.fits _ hb).pos
      omega
  rcases List.pairwise_iff_getElem.mp hall with hget
  obtain ⟨i, hi, rfl⟩ := List.getElem_of_mem hy
  obtain ⟨j, hj, rfl⟩ := List.getElem_of_mem hz
  rcases Nat.lt_trichotomy i j with hij | rfl | hij
  · exact .inl (hget i j hi hj hij)
  · exact absurd rfl hyz
  · exact .inr (hget j i hj hi hij)

section free

variable {bp u : ℕ} (hf : FreeList base h (l₁ ++ l₂)) (hfit : Fits base (bp, u)) (h₁ : ∀ b ∈ l₁, b.1 + 8 * b.2 ≤ bp)
  (h₂ : ∀ b ∈ l₂, bp + 8 * u ≤ b.1)
  {d : List ℕ} {p : ℕ} (hd : base :: l₁.map Prod.fst = d ++ [p])
include hf hfit h₁ h₂ hd

omit h₂ in
theorem last_lt : base ≤ p ∧ p < bp := by
  have hp : p ∈ base :: l₁.map Prod.fst := by simp [hd]
  rcases List.mem_cons.mp hp with rfl | hp
  · have := hfit.low
    omega
  · obtain ⟨b, hb, rfl⟩ := List.mem_map.mp hp
    have h1 := h₁ b hb
    have h2 := hf.fits b (by simp [hb])
    have := h2.pos
    have := h2.low
    omega

theorem freeLoop_eq {n : ℕ} (hn : (l₁ ++ l₂).length < n) : h.freeLoop bp n h.freep = some p := by
  have hcycle := hf.cycle
  rw [List.map_append] at hcycle
  obtain ⟨hA, hB⟩ := (Cycle.append_iff hd).mp hcycle
  obtain ⟨hbp, hpb⟩ := hf.last_lt hfit h₁ hd
  let stop : ℕ → Prop := fun y => (bp > y ∧ bp < h.ptr y) ∨ (y ≥ h.ptr y ∧ (bp > y ∨ bp < h.ptr y))
  have hseek : ∀ n y, h.freeLoop bp n y = seek h.ptr stop n y := by
    intro n
    induction n with
    | zero => exact fun _ => rfl
    | succ n ih =>
      intro y
      rw [Heap.freeLoop, seek, ih]
      by_cases h1 : bp > y ∧ bp < h.ptr y
      · rw [if_pos h1, if_pos (.inl h1)]
      · by_cases h2 : y ≥ h.ptr y ∧ (bp > y ∨ bp < h.ptr y)
        · rw [if_neg h1, if_pos h2, if_pos (.inr h2)]
        · rw [if_neg h1, if_neg h2, if_neg (not_or_intro h1 h2)]
  have hstop : stop p := by
    cases hl₂ : l₂ with
    | nil =>
      rw [hl₂] at hB
      have : h.ptr p = base := by simpa using hB
      exact .inr ⟨by omega, .inl hpb⟩
    | cons c l₂ =>
      rw [hl₂, List.map_cons, List.cons_append, List.cons.injEq] at hB
      have hc := h₂ c (by simp [hl₂])
      have := hfit.pos
      exact .inl ⟨hpb, by rw [hB.1]; simp only at this; omega⟩
  -- elsewhere it goes on
  have honly : ∀ y ∈ base :: (l₁ ++ l₂).map Prod.fst, stop y → y = p := by
    intro y hy hs
    have hnext := hf.cycle.next_cases hf.increasing hy
    rw [List.map_append, ← List.cons_append, hd, List.append_assoc] at hy
    simp only [List.mem_append, List.mem_cons, List.cons_append, List.nil_append] at hy
    rcases hy with hyd | rfl | hyl
    · have hmem : h.ptr y ∈ l₁.map Prod.fst := by
        rw [← hA]
        exact List.mem_map_of_mem hyd
      obtain ⟨b, hb, he⟩ := List.mem_map.mp hmem
      have := h₁ b hb
      have := (hf.fits b (by simp [hb])).low
      rcases hs with hs | hs <;> omega
    · rfl
    · obtain ⟨b, hb, rfl⟩ := List.mem_map.mp hyl
      have := h₂ b hb
      rcases hs with hs | hs <;> omega
  obtain ⟨r, hr, hperm⟩ := hf.cycle.rotate hf.freep
  have hlen : r.length < n := by
    have := hperm.length_eq
    simp only [List.length_cons, List.length_map] at this
    omega
  have hpmem : p ∈ base :: (l₁ ++ l₂).map Prod.fst := by
    rw [List.map_append, ← List.cons_append, hd]
    simp
  obtain ⟨y, hy, hs, hrun⟩ := hr.seek_eq_some (hperm.mem_iff.mpr hpmem) hstop hlen
  rw [hseek, hrun, honly y (hperm.mem_iff.mp hy) hs]

omit h₂ in
theorem last_apart : p + 8 ≤ bp := by
  have hp : p ∈ base :: l₁.map Prod.fst := by simp [hd]
  rcases List.mem_cons.mp hp with rfl | hp
  · exact hfit.low
  · obtain ⟨b, hb, rfl⟩ := List.mem_map.mp hp
    have h1 := h₁ b hb
    have h2 := (hf.fits b (by simp [hb])).pos
    omega

theorem joinNext_spec (hsize : h.size bp = u) : ∃ m l₃ u', l₂ = m ++ l₃ ∧ u' = u + units m ∧
    (∀ x, (bp ≤ x ∧ x < bp + 8 * u') ∨ Covered l₃ x ↔ (bp ≤ x ∧ x < bp + 8 * u) ∨ Covered l₂ x) ∧
    (∀ b ∈ l₃, bp + 8 * u' < b.1) ∧ bp + 8 * u' < 2 ^ 32 ∧ (h.joinNext p bp).size bp = u' ∧
    (h.joinNext p bp).ptr bp :: (l₃.map Prod.fst).map h.ptr = l₃.map Prod.fst ++ [base] := by
  have hcycle := hf.cycle
  rw [List.map_append] at hcycle
  obtain ⟨-, hB⟩ := (Cycle.append_iff hd).mp hcycle
  have hp8 := hf.last_apart hfit h₁ hd
  obtain ⟨hpos, hlow, hhigh⟩ := hfit
  have hadv : advance bp u = bp + 8 * u := Nat.mod_eq_of_lt hhigh
  unfold Heap.joinNext
  rw [hsize, hadv]
  by_cases hjoin : bp + 8 * u = h.ptr p
  · cases l₂ with
    | nil =>
      have : h.ptr p = base := by simpa using hB
      omega
    | cons c l₃ =>
      obtain ⟨a, v⟩ := c
      rw [List.map_cons, List.map_cons, List.cons_append, List.cons.injEq] at hB
      obtain ⟨hpa, hB⟩ := hB
      have hv := hf.size (a, v) (by simp)
      have hfa := hf.fits (a, v) (by simp)
      have hgaps := (List.pairwise_cons.mp (List.pairwise_append.mp hf.gaps).2.1).1
      have hah := hfa.high
      rw [if_pos hjoin, hpa, hv]
      have hedit : Heap.Edits bp h (h.setSize bp (u + v)) := ⟨fun x hx => Heap.mem_setSize hx, rfl, rfl⟩
      have hptr : (h.setSize bp (u + v)).ptr p = a := (hedit.header (.inl hp8)).1.trans hpa
      have hptr' : (h.setSize bp (u + v)).ptr a = h.ptr a := (hedit.header (.inr (by omega))).1
      refine ⟨[(a, v)], l₃, u + v, rfl, by simp, fun x => ?_, fun b hb => ?_, by omega, ?_, ?_⟩
      · rw [covered_cons]
        constructor
        · rintro (hx | hx)
          · by_cases hlt : x < bp + 8 * u
            · exact .inl ⟨hx.1, hlt⟩
            · exact .inr (.inl (by omega))
          · exact .inr (.inr hx)
        · rintro (hx | hx | hx)
          · exact .inl (by omega)
          · exact .inl (by omega)
          · exact .inr hx
      · have := hgaps b hb
        omega
      · rw [Heap.size_setPtr, Heap.size_setSize (by omega)]
      · simp only
        rw [hptr, hptr', Heap.ptr_setPtr (h.ptr_lt a)]
        exact hB
  · rw [if_neg hjoin]
    refine ⟨[], l₂, u, rfl, rfl, fun x => Iff.rfl, fun b hb => ?_, hhigh, ?_, ?_⟩
    · cases l₂ with
      | nil => simp at hb
      | cons c l₃ =>
        rw [List.map_cons, List.map_cons, List.cons_append, List.cons.injEq] at hB
        have hc := h₂ c (by simp)
        have hgaps := (List.pairwise_cons.mp (List.pairwise_append.mp hf.gaps).2.1).1
        rcases List.mem_cons.mp hb with rfl | hb
        · omega
        · have := hgaps b hb
          omega
    · rw [Heap.size_setPtr, hsize]
    · rw [Heap.ptr_setPtr (h.ptr_lt p)]
      exact hB

end free

section joinPrev

variable {m l₃ : List Block} {bp u : ℕ} {d : List ℕ} {p : ℕ} {h' : Heap} (hf : FreeList base h (l₁ ++ (m ++ l₃)))
  (hd : base :: l₁.map Prod.fst = d ++ [p])
include hf hd

theorem last_notMem : p ∉ d := by
  have hnodup := hf.nodup
  rw [List.map_append, ← List.cons_append, hd, List.append_assoc] at hnodup
  exact fun hp => (List.nodup_append.mp hnodup).2.2 p hp p (by simp) rfl

theorem relink {l₁' n : List Block} (hl₁ : l₁'.map Prod.fst = l₁.map Prod.fst)
    (hframe : ∀ y ∈ d ++ l₃.map Prod.fst, h'.ptr y = h.ptr y)
    (hptr : h'.ptr p :: (n.map Prod.fst).map h'.ptr ++ (l₃.map Prod.fst).map h.ptr =
    n.map Prod.fst ++ (l₃.map Prod.fst ++ [base]))
    (hbase : h'.size base = 0) (hsize : ∀ b ∈ l₁' ++ (n ++ l₃), h'.size b.1 = b.2) (hfreep : h'.freep = p)
    (hgaps : (l₁' ++ (n ++ l₃)).Pairwise fun b c => b.1 + 8 * b.2 < c.1) (hfits : ∀ b ∈ l₁' ++ (n ++ l₃), Fits base b) :
    FreeList base h' (l₁' ++ (n ++ l₃)) where
  cycle := by
    have hcycle := hf.cycle
    simp only [List.map_append] at hcycle ⊢
    rw [hl₁]
    exact hcycle.splice hd (fun y hy => hframe y (by simp [hy]))
      (fun y hy => hframe y (List.mem_append_right _ hy)) fun _ => hptr
  base_size := hbase
  size := hsize
  freep := by
    rw [hfreep, List.map_append, hl₁, ← List.cons_append, hd]
    simp
  gaps := hgaps
  fits := hfits

variable (hfit : Fits base (bp, u)) (h₁ : ∀ b ∈ l₁, b.1 + 8 * b.2 ≤ bp) (hgap : ∀ b ∈ l₃, bp + 8 * u < b.1)
  (hedit : Heap.Edits bp h h')
include hfit h₁ hgap hedit

variable {h'' : Heap}

theorem frame (hedit' : Heap.Edits p h' h'') {y : ℕ} (hy : y ∈ base :: (l₁ ++ l₃).map Prod.fst) (hyp : y ≠ p) :
    h''.ptr y = h.ptr y ∧ h''.size y = h.size y := by
  have hsub : ∀ z, z ∈ base :: (l₁ ++ l₃).map Prod.fst → z ∈ base :: (l₁ ++ (m ++ l₃)).map Prod.fst := by
    intro z hz
    simp only [List.map_append, List.mem_cons, List.mem_append] at hz ⊢
    tauto
  have hpmem : p ∈ base :: (l₁ ++ (m ++ l₃)).map Prod.fst := by
    rw [List.map_append, ← List.cons_append, hd]
    simp
  have hpos := hfit.pos
  have hybp : y + 8 ≤ bp ∨ bp + 8 ≤ y := by
    rcases List.mem_cons.mp hy with rfl | hy
    · exact .inl hfit.low
    · obtain ⟨b, hb, rfl⟩ := List.mem_map.mp hy
      rcases List.mem_append.mp hb with hb | hb
      · have := (hf.fits b (by simp [hb])).pos
        have := h₁ b hb
        omega
      · have := hgap b hb
        omega
  obtain ⟨h1, h2⟩ := hedit.header hybp
  obtain ⟨h3, h4⟩ := hedit'.header (hf.apart (hsub y hy) hpmem hyp)
  exact ⟨h3.trans h1, h4.trans h2⟩

theorem frame_ptr (hedit' : Heap.Edits p h' h'') : ∀ y ∈ d ++ l₃.map Prod.fst, h''.ptr y = h.ptr y := by
  intro y hy
  rcases List.mem_append.mp hy with hy | hy
  · have hyp : y ≠ p := fun he => hf.last_notMem hd (he ▸ hy)
    have hmem : y ∈ base :: (l₁ ++ l₃).map Prod.fst := by
      rw [List.map_append, ← List.cons_append, hd]
      simp [hy]
    exact (hf.frame hd hfit h₁ hgap hedit hedit' hmem hyp).1
  · obtain ⟨b, hb, rfl⟩ := List.mem_map.mp hy
    have := hgap b hb
    have := (hf.last_lt hfit h₁ hd).2
    have hmem : b.1 ∈ base :: (l₁ ++ l₃).map Prod.fst := by
      simp only [List.map_append, List.mem_cons, List.mem_append]
      exact .inr (.inr hy)
    exact (hf.frame hd hfit h₁ hgap hedit hedit' hmem (by omega)).1

theorem frame_size (hedit' : Heap.Edits p h' h'') {b : Block} (hb : b ∈ l₁ ++ l₃) (hbp : b.1 ≠ p) : h''.size b.1 = b.2 := by
  rw [(hf.frame hd hfit h₁ hgap hedit hedit' (List.mem_cons_of_mem _ (List.mem_map_of_mem hb)) hbp).2]
  apply hf.size
  simp only [List.mem_append] at hb ⊢
  tauto

variable (hsize : h'.size bp = u) (hptr : h'.ptr bp :: (l₃.map Prod.fst).map h.ptr = l₃.map Prod.fst ++ [base])
include hsize hptr

theorem freeList_apart (hjoin : p + 8 * h.size p ≠ bp) : FreeList base { h'.setPtr p bp with freep := p }
    (l₁ ++ (bp, u) :: l₃) := by
  have hp8 := hf.last_apart hfit h₁ hd
  have hbp32 : bp < 2 ^ 32 := by
    have := hfit.high
    omega
  have hedit' : Heap.Edits p h' (h'.setPtr p bp) := ⟨fun x hx => Heap.mem_setPtr hx, rfl, rfl⟩
  have hsizep : (h'.setPtr p bp).size p = h.size p := Heap.size_setPtr.trans (hedit.header (.inl hp8)).2
  obtain ⟨hbpptr, hbpsize⟩ := hedit'.header (.inr hp8)
  have hgaps := List.pairwise_append.mp hf.gaps
  have hstrict : ∀ b ∈ l₁, b.1 + 8 * b.2 < bp := by
    intro b hb
    have hle := h₁ b hb
    rcases List.eq_nil_or_concat l₁ with rfl | ⟨l₀, c, rfl⟩
    · simp at hb
    have hpc : p = c.1 := by
      simp only [List.concat_eq_append, List.map_append, List.map_cons, List.map_nil, ← List.cons_append] at hd
      simpa using (List.append_inj' hd rfl).2.symm
    have hcsize := hf.size c (by simp)
    rw [hpc, hcsize] at hjoin
    simp only [List.concat_eq_append, List.mem_append, List.mem_singleton] at hb
    rcases hb with hb | rfl
    · have h0 := hgaps.1
      rw [List.concat_eq_append, List.pairwise_append] at h0
      have := h0.2.2 b hb c (by simp)
      omega
    · omega
  have hframe := fun b => hf.frame_size hd hfit h₁ hgap hedit hedit' (b := b)
  have hsize₁ : ∀ b ∈ l₁, (h'.setPtr p bp).size b.1 = b.2 := by
    intro b hb
    by_cases hbp : b.1 = p
    · rw [hbp, hsizep, ← hbp]
      exact hf.size b (by simp [hb])
    · exact hframe b (by simp [hb]) hbp
  apply hf.relink (n := [(bp, u)]) hd rfl
  · exact fun y hy => hf.frame_ptr hd hfit h₁ hgap hedit hedit' y hy
  · change (h'.setPtr p bp).ptr p :: [(h'.setPtr p bp).ptr bp] ++ _ = _
    rw [Heap.ptr_setPtr hbp32, hbpptr]
    simpa using hptr
  · change (h'.setPtr p bp).size base = 0
    by_cases hb : base = p
    · rw [hb, hsizep, ← hb, hf.base_size]
    · rw [(hf.frame hd hfit h₁ hgap hedit hedit' (by simp) hb).2, hf.base_size]
  · intro b hb
    simp only [List.mem_append, List.mem_singleton] at hb
    rcases hb with hb | rfl | hb
    · exact hsize₁ b hb
    · exact hbpsize.trans hsize
    · have := hgap b hb
      exact hframe b (by simp [hb]) (by omega)
  · rfl
  · refine List.pairwise_append.mpr ⟨hgaps.1, List.pairwise_cons.mpr ⟨hgap, (List.pairwise_append.mp hgaps.2.1).2.1⟩,
      fun b hb c hc => ?_⟩
    rcases List.mem_cons.mp hc with rfl | hc
    · exact hstrict b hb
    · exact hgaps.2.2 b hb c (List.mem_append_right _ hc)
  · intro b hb
    simp only [List.mem_append, List.mem_singleton] at hb
    rcases hb with hb | rfl | hb
    · exact hf.fits b (by simp [hb])
    · exact hfit
    · exact hf.fits b (by simp [hb])

theorem freeList_joined {l₀ : List Block} {v : ℕ} (hl : l₁ = l₀ ++ [(p, v)]) (hjoin : p + 8 * v = bp) :
    FreeList base { (h'.setSize p (v + u)).setPtr p (h'.ptr bp) with freep := p } (l₀ ++ (p, v + u) :: l₃) := by
  have hhigh := hfit.high
  have hpfits := hf.fits (p, v) (by simp [hl])
  have hplow := hpfits.low
  have hedit' : Heap.Edits p h' ((h'.setSize p (v + u)).setPtr p (h'.ptr bp)) :=
    ⟨fun x hx => (Heap.mem_setPtr hx).trans (Heap.mem_setSize hx), rfl, rfl⟩
  have hsizep : ((h'.setSize p (v + u)).setPtr p (h'.ptr bp)).size p = v + u := by
    rw [Heap.size_setPtr, Heap.size_setSize (by omega)]
  have hgaps := List.pairwise_append.mp hf.gaps
  have hgaps₁ := hgaps.1
  rw [hl, List.pairwise_append] at hgaps₁
  have hframe := fun b => hf.frame_size hd hfit h₁ hgap hedit hedit' (b := b)
  have hlist : l₀ ++ (p, v + u) :: l₃ = (l₀ ++ [(p, v + u)]) ++ ([] ++ l₃) := by simp
  rw [hlist]
  apply hf.relink hd
  · simp [hl]
  · exact fun y hy => hf.frame_ptr hd hfit h₁ hgap hedit hedit' y hy
  · change ((h'.setSize p (v + u)).setPtr p (h'.ptr bp)).ptr p :: ([] ++ _) = _
    rw [Heap.ptr_setPtr (h'.ptr_lt bp)]
    exact hptr
  · exact (hf.frame hd hfit h₁ hgap hedit hedit' (by simp) (by omega)).2.trans hf.base_size
  · intro b hb
    simp only [List.nil_append, List.mem_append, List.mem_singleton] at hb
    rcases hb with (hb | rfl) | hb
    · have hlt := hgaps₁.2.2 b hb (p, v) (by simp)
      exact hframe b (by simp [hl, hb]) (by omega)
    · exact hsizep
    · have := hgap b hb
      exact hframe b (by simp [hb]) (by omega)
  · rfl
  · rw [← hlist]
    refine List.pairwise_append.mpr ⟨hgaps₁.1, List.pairwise_cons.mpr ⟨fun b hb => ?_, (List.pairwise_append.mp hgaps.2.1).2.1⟩,
      fun b hb c hc => ?_⟩
    · have := hgap b hb
      omega
    · rcases List.mem_cons.mp hc with rfl | hc
      · exact hgaps₁.2.2 b hb (p, v) (by simp)
      · exact hgaps.2.2 b (by simp [hl, hb]) c (by simp [hc])
  · intro b hb
    simp only [List.nil_append, List.mem_append, List.mem_singleton] at hb
    rcases hb with (hb | rfl) | hb
    · exact hf.fits b (by simp [hl, hb])
    · have := hpfits.pos
      exact ⟨by simp only at this ⊢; omega, hplow, by simp only; omega⟩
    · exact hf.fits b (by simp [hb])

theorem joinPrev_spec : ∃ l', FreeList base { h'.joinPrev p bp with freep := p } l' ∧
      (∀ x, Covered l' x ↔ Covered l₁ x ∨ (bp ≤ x ∧ x < bp + 8 * u) ∨ Covered l₃ x) ∧ units l' = units l₁ + u + units l₃ ∧
      ∃ b ∈ l', u ≤ b.2 := by
  have hp8 := hf.last_apart hfit h₁ hd
  have hsizep : h'.size p = h.size p := (hedit.header (.inl hp8)).2
  have hhigh := hfit.high
  have hend : p + 8 * h.size p ≤ bp := by
    have hp : p ∈ base :: l₁.map Prod.fst := by simp [hd]
    rcases List.mem_cons.mp hp with rfl | hp
    · rw [hf.base_size]
      omega
    · obtain ⟨b, hb, rfl⟩ := List.mem_map.mp hp
      rw [hf.size b (by simp [hb])]
      exact h₁ b hb
  have hadv : advance p (h'.size p) = p + 8 * h.size p := by
    rw [hsizep]
    exact Nat.mod_eq_of_lt (by simp only [headerSize]; omega)
  unfold Heap.joinPrev
  rw [hadv]
  by_cases hjoin : p + 8 * h.size p = bp
  · rw [if_pos hjoin]
    rcases List.eq_nil_or_concat l₁ with rfl | ⟨l₀, ⟨q, v⟩, hl⟩
    · rw [List.map_nil, ← List.nil_append [base]] at hd
      obtain rfl : base = p := by simpa using (List.append_inj' hd rfl).2
      rw [hf.base_size] at hjoin
      omega
    rw [List.concat_eq_append] at hl
    obtain rfl : q = p := by
      rw [hl, List.map_append, ← List.cons_append] at hd
      simpa using (List.append_inj' hd rfl).2
    have hv := hf.size (q, v) (by simp [hl])
    rw [hv] at hjoin
    have hset : (h'.setSize q (v + u)).ptr bp = h'.ptr bp :=
      (Heap.Edits.header ⟨fun x hx => Heap.mem_setSize hx, rfl, rfl⟩ (.inr hp8)).1
    simp only [hsizep, hv, hsize, hset]
    refine ⟨_, hf.freeList_joined hd hfit h₁ hgap hedit hsize hptr hl hjoin, fun x => ?_, ?_, (q, v + u), by simp, by simp⟩
    · simp only [hl, covered_append, covered_cons, covered_nil, or_false, joined_iff, hjoin, or_assoc]
    · simp only [hl, units_append, units_cons, units_nil]
      omega
  · rw [if_neg hjoin]
    refine ⟨_, hf.freeList_apart hd hfit h₁ hgap hedit hsize hptr hjoin, fun x => ?_, ?_, (bp, u), by simp, by simp⟩
    · simp only [covered_append, covered_cons]
    · simp only [units_append, units_cons]
      omega

end joinPrev

variable {bp u : ℕ} (hf : FreeList base h l)
include hf

theorem exists_sides (hdis : ∀ b ∈ l, b.1 + 8 * b.2 ≤ bp ∨ bp + 8 * u ≤ b.1) :
    ∃ l₁ l₂, l = l₁ ++ l₂ ∧ (∀ b ∈ l₁, b.1 + 8 * b.2 ≤ bp) ∧ ∀ b ∈ l₂, bp + 8 * u ≤ b.1 := by
  have hgaps := hf.gaps
  clear hf
  induction l with
  | nil => exact ⟨[], [], rfl, by simp, by simp⟩
  | cons c l ih =>
    rw [List.pairwise_cons] at hgaps
    rcases hdis c (by simp) with hc | hc
    · obtain ⟨l₁, l₂, rfl, h1, h2⟩ := ih (fun b hb => hdis b (by simp [hb])) hgaps.2
      exact ⟨c :: l₁, l₂, rfl, List.forall_mem_cons.mpr ⟨hc, h1⟩, h2⟩
    · refine ⟨[], c :: l, rfl, by simp, List.forall_mem_cons.mpr ⟨hc, fun b hb => ?_⟩⟩
      have := hgaps.1 b hb
      omega

theorem covered_header {p : ℕ} (hp : p ∈ base :: l.map Prod.fst) (hx : p ≤ x ∧ x < p + 8) :
    (base ≤ x ∧ x < base + 8) ∨ Covered l x := by
  rcases List.mem_cons.mp hp with rfl | hp
  · exact .inl hx
  · obtain ⟨b, hb, rfl⟩ := List.mem_map.mp hp
    have := (hf.fits b hb).pos
    exact .inr ⟨b, hb, hx.1, by omega⟩

theorem free_spec (hfit : Fits base (bp, u)) (hsize : h.size bp = u)
    (hdis : ∀ b ∈ l, b.1 + 8 * b.2 ≤ bp ∨ bp + 8 * u ≤ b.1) {n : ℕ} (hn : l.length < n) : ∃ h' l', h.free n (bp + 8) = some h' ∧
    FreeList base h' l' ∧ h'.regions = h.regions ∧
      (∀ x, Covered l' x ↔ Covered l x ∨ (bp ≤ x ∧ x < bp + 8 * u)) ∧ units l' = units l + u ∧ (∃ b ∈ l', u ≤ b.2) ∧
      ∀ x, ¬ (base ≤ x ∧ x < base + 8) → ¬ Covered l x → ¬ (bp ≤ x ∧ x < bp + 8 * u) → h'.mem x = h.mem x := by
  obtain ⟨l₁, l₂, rfl, h₁, h₂⟩ := hf.exists_sides hdis
  obtain ⟨d, p, hd⟩ : ∃ d p, base :: l₁.map Prod.fst = d ++ [p] :=
    ⟨_, _, (List.dropLast_append_getLast (List.cons_ne_nil base _)).symm⟩
  have hloop := hf.freeLoop_eq hfit h₁ h₂ hd hn
  obtain ⟨m, l₃, u', rfl, hu', hcov, hgap, hlt, hsize', hptr⟩ := hf.joinNext_spec hfit h₁ h₂ hd hsize
  have hedit := Heap.edits_joinNext h p bp
  have hedit' := Heap.edits_joinPrev (h.joinNext p bp) p bp
  have hfit' : Fits base (bp, u') := ⟨by have := hfit.pos; simp only at this ⊢; omega, hfit.low, hlt⟩
  obtain ⟨l', hl', hcov', hunits, b, hb, hub⟩ := hf.joinPrev_spec hd hfit' h₁ hgap hedit hsize' hptr
  have hbp : (bp + 8 + (2 ^ 32 - headerSize)) % 2 ^ 32 = bp := by
    simp only [headerSize]
    omega
  have hrun : h.free n (bp + 8) = some { (h.joinNext p bp).joinPrev p bp with freep := p } := by
    simp only [Heap.free, hbp, hloop]
  have hregions := hedit'.2.2.trans hedit.2.2
  have hmem := fun x hp hbp => (hedit'.1 x hp).trans (hedit.1 x hbp)
  generalize (h.joinNext p bp).joinPrev p bp = h' at hrun hregions hmem hl'
  refine ⟨{ h' with freep := p }, l', hrun, hl', hregions, fun x => ?_, ?_, ⟨b, hb, by omega⟩, fun x hx1 hx2 hx3 => ?_⟩
  · rw [hcov', hcov, covered_append (l := l₁), or_assoc, or_comm (a := bp ≤ x ∧ x < bp + 8 * u)]
  · simp only [units_append]
    omega
  have hpmem : p ∈ base :: (l₁ ++ (m ++ l₃)).map Prod.fst := by
    rw [List.map_append, ← List.cons_append, hd]
    simp
  have hxp : x < p ∨ p + 8 ≤ x := by
    by_contra hc
    exact (hf.covered_header hpmem (by omega)).elim hx1 hx2
  have := hfit.pos
  exact hmem x hxp (by omega)

end FreeList

end Umalloc

end Laboratorio
