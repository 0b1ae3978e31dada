import Laboratorio.Umalloc.Malloc

/-!
The memory of a program that calls `malloc` and `free`: free and live blocks make up what `sbrk` has returned.
-/

namespace Laboratorio.Umalloc

def Apart (b c : Block) : Prop := b.1 + 8 * b.2 ≤ c.1 ∨ c.1 + 8 * c.2 ≤ b.1

variable {b : Block}

theorem Apart.symm {c : Block} (h : Apart b c) : Apart c b := Or.symm h

instance : Std.Symm Apart := ⟨fun _ _ => Apart.symm⟩

theorem apart_of_forall {c : Block} (hb : 0 < b.2) (hc : 0 < c.2)
    (h : ∀ x, b.1 ≤ x ∧ x < b.1 + 8 * b.2 → ¬ (c.1 ≤ x ∧ x < c.1 + 8 * c.2)) : Apart b c := by
  by_contra hbc
  unfold Apart at hbc
  exact h (max b.1 c.1) (by omega) (by omega)

def InRegions (regions : List (ℕ × ℕ)) (x : ℕ) : Prop := ∃ r ∈ regions, r.1 ≤ x ∧ x < r.1 + r.2

variable {base : ℕ}

theorem Fits.header {x : ℕ} (hb : Fits base b) (hx : b.1 ≤ x) (hx' : x < b.1 + 8) :
    ¬ (base ≤ x ∧ x < base + 8) ∧ b.1 ≤ x ∧ x < b.1 + 8 * b.2 := by
  have := hb.pos
  have := hb.low
  omega

structure Layout (base : ℕ) (h : Heap) (l L : List Block) : Prop where
  free : FreeList base h l
  size : ∀ b ∈ L, h.size b.1 = b.2
  fits : ∀ b ∈ L, Fits base b
  apart : L.Pairwise Apart
  disjoint : ∀ x, Covered l x → ¬ Covered L x
  covers : ∀ x, Covered l x ∨ Covered L x ↔ InRegions h.regions x
  conserved : 8 * (units l + units L) = (h.regions.map Prod.snd).sum

theorem FreeList.congr {h h' : Heap} {l : List Block} (hf : FreeList base h l)
    (hmem : ∀ x, (base ≤ x ∧ x < base + 8) ∨ Covered l x → h'.mem x = h.mem x) (hfreep : h'.freep = h.freep) :
    FreeList base h' l := by
  have hheader : ∀ y ∈ base :: l.map Prod.fst, h'.ptr y = h.ptr y ∧ h'.size y = h.size y :=
    fun y hy => Heap.header_congr fun x hx hx' => hmem x (hf.covered_header hy ⟨hx, hx'⟩)
  constructor
  · exact hf.cycle.congr fun y hy => (hheader y hy).1
  · rw [(hheader base (by simp)).2, hf.base_size]
  · intro b hb
    rw [(hheader b.1 (List.mem_cons_of_mem _ (List.mem_map_of_mem hb))).2, hf.size b hb]
  · rw [hfreep]
    exact hf.freep
  · exact hf.gaps
  · exact hf.fits

theorem FreeList.length_le {h : Heap} {l : List Block} (hf : FreeList base h l) : l.length ≤ 2 ^ 32 := by
  have hsub : l.map Prod.fst ⊆ List.range (2 ^ 32) := by
    intro y hy
    obtain ⟨b, hb, rfl⟩ := List.mem_map.mp hy
    have := (hf.fits b hb).high
    exact List.mem_range.mpr (by omega)
  have hle := (List.subperm_of_subset (List.nodup_cons.mp hf.nodup).2 hsub).length_le
  rwa [List.length_map, List.length_range] at hle

def Fresh (base : ℕ) (sbrk : Heap.Sbrk) : Prop :=
  ∀ regions n a, sbrk regions n = some a → base + 8 ≤ a ∧ (∀ r ∈ regions, r.1 + r.2 ≤ a) ∧ a + n < 2 ^ 32

def FreshAt (base : ℕ) (sbrk : Heap.Sbrk) (regions : List (ℕ × ℕ)) : Prop :=
  ∀ n a, n < 2 ^ 31 → sbrk regions n = some a → base + 8 ≤ a ∧ (∀ r ∈ regions, r.1 + r.2 ≤ a) ∧ a + n < 2 ^ 32

theorem Fresh.at {sbrk : Heap.Sbrk} (h : Fresh base sbrk) (regions : List (ℕ × ℕ)) : FreshAt base sbrk regions :=
  fun n a _ hs => h regions n a hs

namespace Layout

variable {base nu n : ℕ} {h h' : Heap} {l L L' : List Block} {c : Block}

theorem perm (hl : Layout base h l L) (hp : L.Perm L') : Layout base h l L' := by
  have hcov : ∀ x, Covered L' x ↔ Covered L x := by simp only [Covered, hp.mem_iff, implies_true]
  have hunits : units L' = units L := (hp.map Prod.snd).sum_eq.symm
  constructor
  · exact hl.free
  · exact fun b hb => hl.size b (hp.mem_iff.mpr hb)
  · exact fun b hb => hl.fits b (hp.mem_iff.mpr hb)
  · exact (hp.pairwise_iff Apart.symm).mp hl.apart
  · exact fun x hx => mt (hcov x).mp (hl.disjoint x hx)
  · exact fun x => by rw [hcov, hl.covers]
  · rw [hunits, hl.conserved]

theorem congr (hl : Layout base h l L) (hbase : ∀ x, base ≤ x ∧ x < base + 8 → h'.mem x = h.mem x)
    (hfree : ∀ x, Covered l x → h'.mem x = h.mem x) (hlive : ∀ b ∈ L, ∀ x, b.1 ≤ x → x < b.1 + 8 → h'.mem x = h.mem x)
    (hfreep : h'.freep = h.freep) (hregions : h'.regions = h.regions) : Layout base h' l L := by
  constructor
  · exact hl.free.congr (fun x hx => hx.elim (hbase x) (hfree x)) hfreep
  · intro b hb
    rw [(Heap.header_congr (hlive b hb)).2, hl.size b hb]
  · exact hl.fits
  · exact hl.apart
  · exact hl.disjoint
  · rw [hregions]
    exact hl.covers
  · rw [hregions, hl.conserved]

theorem free_spec (hl : Layout base h l (c :: L)) (hn : 2 ^ 32 < n) :
    ∃ h' l', h.free n (c.1 + 8) = some h' ∧ Layout base h' l' L ∧ h'.regions = h.regions ∧ ∃ b ∈ l', c.2 ≤ b.2 := by
  have hc := hl.fits c (by simp)
  have hapart := List.pairwise_cons.mp hl.apart
  have hdis : ∀ b ∈ l, Apart b c := by
    intro b hb
    apply apart_of_forall (hl.free.fits b hb).pos hc.pos
    exact fun x hx hx' => hl.disjoint x ⟨b, hb, hx⟩ (by simp [hx'])
  have hlen := hl.free.length_le
  obtain ⟨h', l', hrun, hfree, hregions, hcov, hunits, hbig, hmem⟩ :=
    hl.free.free_spec hc (hl.size c (by simp)) hdis (n := n) (by omega)
  have hnotc : ∀ x, Covered L x → ¬ (c.1 ≤ x ∧ x < c.1 + 8 * c.2) := by
    rintro x ⟨b, hb, hx⟩ hx'
    have := hapart.1 b hb
    unfold Apart at this
    omega
  refine ⟨h', l', hrun, ?_, hregions, hbig⟩
  constructor
  · exact hfree
  · intro b hb
    rw [← hl.size b (by simp [hb])]
    refine (Heap.header_congr fun x hx hx' => ?_).2
    obtain ⟨hbase, hblock⟩ := (hl.fits b (by simp [hb])).header hx hx'
    have hL : Covered L x := ⟨b, hb, hblock⟩
    exact hmem x hbase (fun hx => hl.disjoint x hx (by simp [hL])) (hnotc x hL)
  · exact fun b hb => hl.fits b (by simp [hb])
  · exact hapart.2
  · intro x hx hL
    rcases (hcov x).mp hx with hx | hx
    · exact hl.disjoint x hx (by simp [hL])
    · exact hnotc x hL hx
  · intro x
    rw [hcov, hregions, ← hl.covers, covered_cons, or_assoc]
  · rw [hunits, hregions, ← hl.conserved, units_cons]
    omega

theorem carve_spec (hl : Layout base h l L) {y : ℕ} (hy : y ∈ base :: l.map Prod.fst) (hnu : 0 < nu)
    (hbig : nu ≤ h.size (h.ptr y)) :
    ∃ h' l' bp, h.carve nu y = (some (bp + 8), h') ∧ Layout base h' l' ((bp, nu) :: L) ∧ h'.regions = h.regions := by
  obtain ⟨h', l', bp, hrun, hfree, hregions, hsize, hfit, hcov, hdis, hunits, hmem⟩ := hl.free.carve_spec hy hnu hbig
  have hnotbp : ∀ x, Covered L x → ¬ (bp ≤ x ∧ x < bp + 8 * nu) := fun x hL hx => hl.disjoint x ((hcov x).mpr (.inr hx)) hL
  refine ⟨h', l', bp, hrun, ?_, hregions⟩
  constructor
  · exact hfree
  · refine List.forall_mem_cons.mpr ⟨hsize, fun b hb => ?_⟩
    rw [← hl.size b hb]
    refine (Heap.header_congr fun x hx hx' => ?_).2
    obtain ⟨hbase, hblock⟩ := (hl.fits b hb).header hx hx'
    exact hmem x hbase fun hx => hl.disjoint x hx ⟨b, hb, hblock⟩
  · exact List.forall_mem_cons.mpr ⟨hfit, hl.fits⟩
  · refine List.pairwise_cons.mpr ⟨fun b hb => ?_, hl.apart⟩
    apply apart_of_forall hnu (hl.fits b hb).pos
    exact fun x hx hx' => hnotbp x ⟨b, hb, hx'⟩ hx
  · intro x hx hL
    rcases covered_cons.mp hL with hL | hL
    · exact hdis x hx hL
    · exact hl.disjoint x ((hcov x).mpr (.inl hx)) hL
  · intro x
    rw [hregions, ← hl.covers, hcov, covered_cons, or_assoc]
  · rw [hregions, ← hl.conserved, hunits, units_cons]
    omega

theorem grow (hl : Layout base h l L) {a : ℕ} (hfit : Fits base (a, nu)) (hfresh : ∀ r ∈ h.regions, r.1 + r.2 ≤ a) :
    Layout base ({ h with regions := h.regions ++ [(a, 8 * nu)] }.setSize a nu) l ((a, nu) :: L) := by
  have hbelow : ∀ x, Covered l x ∨ Covered L x → x < a := by
    intro x hx
    obtain ⟨r, hr, hx⟩ := (hl.covers x).mp hx
    have := hfresh r hr
    omega
  have hmem : ∀ x, x < a → ({ h with regions := h.regions ++ [(a, 8 * nu)] }.setSize a nu).mem x = h.mem x :=
    fun x hx => Heap.mem_setSize (.inl hx)
  have hlow := hfit.low
  have hhigh := hfit.high
  have hpos := hfit.pos
  constructor
  · refine hl.free.congr (fun x hx => hmem x ?_) rfl
    rcases hx with hx | hx
    · omega
    · exact hbelow x (.inl hx)
  · refine List.forall_mem_cons.mpr ⟨Heap.size_setSize (by omega), fun b hb => ?_⟩
    rw [← hl.size b hb]
    refine (Heap.header_congr fun x hx hx' => hmem x ?_).2
    exact hbelow x (.inr ⟨b, hb, ((hl.fits b hb).header hx hx').2⟩)
  · exact List.forall_mem_cons.mpr ⟨hfit, hl.fits⟩
  · refine List.pairwise_cons.mpr ⟨fun b hb => ?_, hl.apart⟩
    apply apart_of_forall hpos (hl.fits b hb).pos
    intro x hx hx'
    have := hbelow x (.inr ⟨b, hb, hx'⟩)
    omega
  · intro x hx hL
    rcases covered_cons.mp hL with hL | hL
    · have := hbelow x (.inl hx)
      omega
    · exact hl.disjoint x hx hL
  · intro x
    change _ ↔ InRegions (h.regions ++ [(a, 8 * nu)]) x
    have hregions : InRegions (h.regions ++ [(a, 8 * nu)]) x ↔ (a ≤ x ∧ x < a + 8 * nu) ∨ InRegions h.regions x := by
      simp [InRegions, or_and_right, exists_or, or_comm]
    rw [hregions, ← hl.covers, covered_cons]
    exact or_left_comm
  · change _ = ((h.regions ++ [(a, 8 * nu)]).map Prod.snd).sum
    rw [List.map_append, List.sum_append, ← hl.conserved, units_cons]
    simp only [List.map_cons, List.map_nil, List.sum_cons, List.sum_nil]
    omega

section malloc

variable {sbrk : Heap.Sbrk} (hl : Layout base h l L) (hnu : 0 < nu) (hn : 2 ^ 32 < n)
include hl hnu

theorem round (sbrk : Heap.Sbrk) (n : ℕ) {k : ℕ} (hk : 2 ^ 32 < k) :
    (∃ h' l' bp, Heap.mallocLoop sbrk nu n k h h.freep = some (some (bp + 8), h') ∧ Layout base h' l' ((bp, nu) :: L) ∧
    h'.regions = h.regions) ∨ ((∀ b ∈ l, b.2 < nu) ∧ ∃ k', k ≤ k' + (2 ^ 32 + 1) ∧ Heap.mallocLoop sbrk nu n k h h.freep =
      match h.morecore sbrk n nu with
      | none => none
      | some (none, h) => some (none, h)
      | some (some p, h) => Heap.mallocLoop sbrk nu n k' h p) := by
  obtain ⟨r, hr, hperm⟩ := hl.free.cycle.rotate hl.free.freep
  have hlen := hl.free.length_le
  have hrlen := hperm.length_eq
  simp only [List.length_cons, List.length_map] at hrlen
  have hnotin : h.freep ∉ r := (List.nodup_cons.mp (hperm.nodup_iff.mpr hl.free.nodup)).1
  rcases Heap.mallocLoop_scan sbrk nu n (k := k) hr hnotin (by omega) with ⟨y, hy, hbig, hrun⟩ | ⟨hsmall, hrun⟩
  · obtain ⟨h', l', bp, hcarve, hl', hregions⟩ := hl.carve_spec (hperm.mem_iff.mp hy) hnu hbig
    exact .inl ⟨h', l', bp, by rw [hrun, hcarve], hl', hregions⟩
  refine .inr ⟨fun b hb => ?_, k - (r.length + 1), by omega, hrun⟩
  have hmem : b.1 ∈ (h.freep :: r).map h.ptr := by
    apply (hr.map_perm.trans hperm).mem_iff.mpr
    exact List.mem_cons_of_mem _ (List.mem_map_of_mem hb)
  obtain ⟨y, hy, he⟩ := List.mem_map.mp hmem
  have := hsmall y hy
  rw [he, hl.free.size b hb] at this
  exact this

variable (hfresh : FreshAt base sbrk h.regions) (hlt : 8 * nu < 2 ^ 31)
include hfresh hlt hn

theorem morecore_spec : h.morecore sbrk n nu = some (none, h) ∨
    ∃ h' l' a, h.morecore sbrk n nu = some (some h'.freep, h') ∧ Layout base h' l' L ∧ (∃ b ∈ l', nu ≤ b.2) ∧
      sbrk h.regions (8 * max 4096 nu) = some a ∧ h'.regions = h.regions ++ [(a, 8 * max 4096 nu)] := by
  have hnu' : max 4096 nu = if nu < 4096 then 4096 else nu := by
    split_ifs <;> omega
  obtain ⟨hle, hlt'⟩ : nu ≤ max 4096 nu ∧ 8 * max 4096 nu < 2 ^ 31 := by omega
  generalize max 4096 nu = nu' at *
  have hbytes : nu' * headerSize % 2 ^ 32 = 8 * nu' := by
    simp only [headerSize]
    omega
  unfold Heap.morecore
  rw [← hnu']
  simp only [hbytes]
  cases hs : sbrk h.regions (8 * nu') with
  | none => exact .inl rfl
  | some a =>
    obtain ⟨hlow, hregions, hhigh⟩ := hfresh _ _ hlt' hs
    have hfit : Fits base (a, nu') := ⟨by simp only; omega, hlow, hhigh⟩
    have hgrow := hl.grow hfit hregions
    obtain ⟨h', l', hrun, hl', hkept, b, hb, hub⟩ := hgrow.free_spec hn
    have hadv : advance a 1 = a + 8 := Nat.mod_eq_of_lt (by simp only [headerSize]; omega)
    refine .inr ⟨h', l', a, ?_, hl', ⟨b, hb, Nat.le_trans hle hub⟩, rfl, hkept⟩
    simp only [hadv, hrun]

theorem mallocLoop_spec {k : ℕ} (hk : 2 ^ 34 ≤ k) : ∃ r h' l', Heap.mallocLoop sbrk nu n k h h.freep = some (r, h') ∧
    (h'.regions = h.regions ∨ ∃ a, sbrk h.regions (8 * max 4096 nu) = some a ∧
    h'.regions = h.regions ++ [(a, 8 * max 4096 nu)]) ∧
    ((r = none ∧ Layout base h' l' L) ∨ ∃ bp, r = some (bp + 8) ∧ Layout base h' l' ((bp, nu) :: L)) := by
  rcases hl.round hnu sbrk n (k := k) (by omega) with ⟨h', l', bp, hrun, hl', hregions⟩ | ⟨-, k', hk', hrun⟩
  · exact ⟨_, h', l', hrun, .inl hregions, .inr ⟨bp, rfl, hl'⟩⟩
  rcases hl.morecore_spec hnu hn hfresh hlt with hmore | ⟨h₁, l₁, a, hmore, hl₁, ⟨b, hb, hub⟩, hsbrk, hregions⟩
  · rw [hmore] at hrun
    exact ⟨none, h, l, hrun, .inl rfl, .inl ⟨rfl, hl⟩⟩
  · rw [hmore] at hrun
    -- the second round finds the new block
    rcases hl₁.round hnu sbrk n (k := k') (by omega) with ⟨h', l', bp, hrun', hl', hregions'⟩ | ⟨hsmall, -⟩
    · exact ⟨_, h', l', hrun.trans hrun', .inr ⟨a, hsbrk, hregions'.trans hregions⟩, .inr ⟨bp, rfl, hl'⟩⟩
    · have := hsmall b hb
      omega

end malloc

end Layout

structure World where
  heap : Heap
  live : List (ℕ × ℕ)

inductive Action
  | malloc (nbytes : ℕ) (sbrk : Heap.Sbrk)
  | free (ap : ℕ)
  | write (x : ℕ) (v : UInt8)

namespace World

def step (base n : ℕ) (w : World) : Action → Option World
  | .malloc nbytes sbrk =>
    match w.heap.malloc base sbrk n nbytes with
    | none => none
    | some (none, h) => some { w with heap := h }
    | some (some ap, h) => some { heap := h, live := (ap, nbytes) :: w.live }
  | .free ap =>
    match w.heap.free n ap with
    | none => none
    | some h => some { heap := h, live := w.live.eraseP fun r => r.1 = ap }
  | .write x v => some { w with heap := { w.heap with mem := Function.update w.heap.mem x v } }

def run (base n : ℕ) : World → List Action → Option World
  | w, [] => some w
  | w, a :: as =>
    match w.step base n a with
    | none => none
    | some w => run base n w as

def Legal (base : ℕ) (w : World) : Action → Prop
  | .malloc nbytes sbrk => nbytes + 2 * headerSize ≤ 2 ^ 31 ∧ Fresh base sbrk
  | .free ap => ∃ r ∈ w.live, r.1 = ap
  | .write x _ => (∃ r ∈ w.live, r.1 ≤ x ∧ x < r.1 + r.2) ∨
    (¬ (base ≤ x ∧ x < base + headerSize) ∧ ¬ InRegions w.heap.regions x)

def LegalRun (base n : ℕ) : World → List Action → Prop
  | _, [] => True
  | w, a :: as => w.Legal base a ∧ ∀ w', w.step base n a = some w' → LegalRun base n w' as

def Unused (w : World) : Prop := w.heap.freep = 0 ∧ w.heap.regions = [] ∧ w.live = []

def Holds (r : ℕ × ℕ) (b : Block) : Prop := r.1 = b.1 + headerSize ∧ r.2 + headerSize ≤ headerSize * b.2

def Consistent (base : ℕ) (w : World) : Prop := w.Unused ∨ ∃ l L, Layout base w.heap l L ∧ List.Forall₂ Holds w.live L

variable {base n : ℕ} {w : World} (hbase : 0 < base) (hend : base + 8 ≤ 2 ^ 32) (hn : 2 ^ 34 ≤ n)

include hbase hend in
theorem Consistent.init (hw : w.Consistent base) : ∃ l L, Layout base (w.heap.init base) l L ∧ List.Forall₂ Holds w.live L := by
  rcases hw with ⟨hfreep, hregions, hlive⟩ | ⟨l, L, hl, hlive⟩
  · refine ⟨[], [], ?_, by rw [hlive]; exact .nil⟩
    have hinit : w.heap.init base = { w.heap.setPtr base base with freep := base }.setSize base 0 := if_pos hfreep
    have hptr : (w.heap.init base).ptr base = base := by
      rw [hinit, Heap.ptr_setSize]
      exact Heap.ptr_setPtr (by omega)
    have hreg : (w.heap.init base).regions = [] := by
      rw [hinit]
      exact hregions
    constructor
    · constructor
      · simp [Cycle, hptr]
      · rw [hinit, Heap.size_setSize (by omega)]
      · simp
      · simp [hinit, Heap.setSize]
      · simp
      · simp
    · simp
    · simp
    · simp
    · simp
    · simp [hreg, InRegions]
    · simp [hreg]
  · have hfreep : w.heap.freep ≠ 0 := by
      have := hl.free.freep
      rcases List.mem_cons.mp this with h | h
      · omega
      · obtain ⟨b, hb, he⟩ := List.mem_map.mp h
        have := (hl.free.fits b hb).low
        omega
    rw [Heap.init, if_neg hfreep]
    exact ⟨l, L, hl, hlive⟩

theorem regions_init (base : ℕ) (h : Heap) : (h.init base).regions = h.regions := by
  unfold Heap.init
  split_ifs <;> rfl

variable {nbytes : ℕ}

theorem nunits_spec (h : nbytes + 2 * headerSize ≤ 2 ^ 31) :
    0 < Heap.nunits nbytes ∧ 8 * Heap.nunits nbytes < 2 ^ 31 ∧ nbytes + 8 ≤ 8 * Heap.nunits nbytes := by
  simp only [Heap.nunits, headerSize] at h ⊢
  omega

include hbase hend hn in
theorem malloc_spec (hw : w.Consistent base) {sbrk : Heap.Sbrk} (hsmall : nbytes + 2 * headerSize ≤ 2 ^ 31)
    (hfresh : FreshAt base sbrk w.heap.regions) : ∃ r h' l' L, w.heap.malloc base sbrk n nbytes = some (r, h') ∧
      (h'.regions = w.heap.regions ∨ ∃ a, sbrk w.heap.regions (8 * max 4096 (Heap.nunits nbytes)) = some a ∧
        h'.regions = w.heap.regions ++ [(a, 8 * max 4096 (Heap.nunits nbytes))]) ∧ List.Forall₂ Holds w.live L ∧
      ((r = none ∧ Layout base h' l' L) ∨ ∃ bp, r = some (bp + 8) ∧ Layout base h' l' ((bp, Heap.nunits nbytes) :: L)) := by
  obtain ⟨l, L, hl, hlive⟩ := hw.init hbase hend
  obtain ⟨hpos, hlt, -⟩ := nunits_spec hsmall
  rw [← regions_init base] at hfresh ⊢
  obtain ⟨r, h', l', hrun, hregions, hr⟩ := hl.mallocLoop_spec hpos (n := n) (by omega) hfresh hlt hn
  exact ⟨r, h', l', L, hrun, hregions, hlive, hr⟩

include hbase hend hn in
theorem step_malloc (hw : w.Consistent base) {sbrk : Heap.Sbrk} (hsmall : nbytes + 2 * headerSize ≤ 2 ^ 31)
    (hfresh : FreshAt base sbrk w.heap.regions) : ∃ w', w.step base n (.malloc nbytes sbrk) = some w' ∧ w'.Consistent base ∧
      (w'.heap.regions = w.heap.regions ∨ ∃ a, sbrk w.heap.regions (8 * max 4096 (Heap.nunits nbytes)) = some a ∧
        w'.heap.regions = w.heap.regions ++ [(a, 8 * max 4096 (Heap.nunits nbytes))]) := by
  obtain ⟨r, h', l', L, hrun, hregions, hlive, ⟨rfl, hl'⟩ | ⟨bp, rfl, hl'⟩⟩ := malloc_spec hbase hend hn hw hsmall hfresh
  · refine ⟨{ w with heap := h' }, ?_, .inr ⟨l', L, hl', hlive⟩, hregions⟩
    simp only [step, hrun]
  · refine ⟨⟨h', (bp + 8, nbytes) :: w.live⟩, ?_, .inr ⟨l', _, hl', .cons ⟨rfl, (nunits_spec hsmall).2.2⟩ hlive⟩, hregions⟩
    simp only [step, hrun]

theorem exists_holds {live : List (ℕ × ℕ)} {L : List Block} (hlive : List.Forall₂ Holds live L) {r : ℕ × ℕ} (hr : r ∈ live) :
    ∃ b ∈ L, Holds r b := by
  induction hlive with
  | nil => simp at hr
  | @cons r' b live L hrb hlive ih =>
    rcases List.mem_cons.mp hr with rfl | hr
    · exact ⟨b, by simp, hrb⟩
    · obtain ⟨c, hc, hrc⟩ := ih hr
      exact ⟨c, List.mem_cons_of_mem _ hc, hrc⟩

theorem holds_eraseP {live : List (ℕ × ℕ)} {L : List Block} (hlive : List.Forall₂ Holds live L) {ap : ℕ}
    (hap : ∃ r ∈ live, r.1 = ap) :
    ∃ c L', L.Perm (c :: L') ∧ ap = c.1 + 8 ∧ List.Forall₂ Holds (live.eraseP fun r => r.1 = ap) L' := by
  induction hlive with
  | nil => simp at hap
  | @cons r b live L hrb hlive ih =>
    by_cases hr : r.1 = ap
    · rw [List.eraseP_cons_of_pos (by simpa using hr)]
      exact ⟨b, L, List.Perm.refl _, hr.symm.trans hrb.1, hlive⟩
    · rw [List.eraseP_cons_of_neg (by simpa using hr)]
      obtain ⟨r', hr', he⟩ := hap
      rcases List.mem_cons.mp hr' with rfl | hr'
      · exact absurd he hr
      · obtain ⟨c, L', hperm, hc, hrest⟩ := ih ⟨r', hr', he⟩
        exact ⟨c, b :: L', (hperm.cons b).trans (List.Perm.swap c b L'), hc, .cons hrb hrest⟩

include hn in
theorem step_free (hw : w.Consistent base) {ap : ℕ} (hlegal : w.Legal base (.free ap)) :
    ∃ w', w.step base n (.free ap) = some w' ∧ w'.Consistent base ∧ w'.heap.regions = w.heap.regions := by
  rcases hw with ⟨-, -, hlive⟩ | ⟨l, L, hl, hlive⟩
  · obtain ⟨r, hr, -⟩ := hlegal
    rw [hlive] at hr
    simp at hr
  · obtain ⟨c, L', hperm, rfl, hrest⟩ := holds_eraseP hlive hlegal
    obtain ⟨h', l', hrun, hl', hregions, -⟩ := (hl.perm hperm).free_spec (n := n) (by omega)
    refine ⟨⟨h', w.live.eraseP fun r => r.1 = c.1 + 8⟩, ?_, .inr ⟨l', L', hl', hrest⟩, hregions⟩
    simp only [step, hrun]

theorem step_write (hw : w.Consistent base) {x : ℕ} {v : UInt8} (hlegal : w.Legal base (.write x v)) :
    ∃ w', w.step base n (.write x v) = some w' ∧ w'.Consistent base ∧ w'.heap.regions = w.heap.regions := by
  refine ⟨_, rfl, ?_, rfl⟩
  rcases hw with hw | ⟨l, L, hl, hlive⟩
  · exact .inl hw
  refine .inr ⟨l, L, ?_, hlive⟩
  have hx : ¬ (base ≤ x ∧ x < base + 8) ∧ ¬ Covered l x ∧ ∀ b ∈ L, ¬ (b.1 ≤ x ∧ x < b.1 + 8) := by
    rcases hlegal with ⟨r, hr, hx⟩ | ⟨hx, hout⟩
    · obtain ⟨b, hb, hptr, hroom⟩ := exists_holds hlive hr
      simp only [headerSize] at hptr hroom
      have hlow := (hl.fits b hb).low
      refine ⟨by omega, fun hc => hl.disjoint x hc ⟨b, hb, by omega, by omega⟩, fun c hc hx' => ?_⟩
      by_cases hbc : b = c
      · subst hbc
        omega
      · have hapart := hl.apart.forall hb hc hbc
        unfold Apart at hapart
        omega
    · refine ⟨hx, fun hc => hout ((hl.covers x).mp (.inl hc)), fun b hb hx' => ?_⟩
      exact hout ((hl.covers x).mp (.inr ⟨b, hb, ((hl.fits b hb).header hx'.1 hx'.2).2⟩))
  have hmem : ∀ y, y ≠ x → Function.update w.heap.mem x v y = w.heap.mem y := by
    intro y hy
    rw [Function.update_of_ne hy]
  apply hl.congr
  · rintro y hy
    apply hmem
    rintro rfl
    exact hx.1 hy
  · rintro y hy
    apply hmem
    rintro rfl
    exact hx.2.1 hy
  · rintro b hb y hy hy'
    apply hmem
    rintro rfl
    exact hx.2.2 b hb ⟨hy, hy'⟩
  · rfl
  · rfl

include hbase hend hn in
theorem step_consistent (hw : w.Consistent base) {a : Action} (hlegal : w.Legal base a) :
    ∃ w', w.step base n a = some w' ∧ w'.Consistent base := by
  cases a with
  | malloc nbytes sbrk =>
    obtain ⟨w', hstep, hw', -⟩ := step_malloc hbase hend hn hw hlegal.1 (hlegal.2.at _)
    exact ⟨w', hstep, hw'⟩
  | free ap =>
    obtain ⟨w', hstep, hw', -⟩ := step_free hn hw hlegal
    exact ⟨w', hstep, hw'⟩
  | write x v =>
    obtain ⟨w', hstep, hw', -⟩ := step_write hw hlegal
    exact ⟨w', hstep, hw'⟩

include hbase hend hn in
theorem allocator_consistent {acts : List Action} (hw : w.Unused) (hlegal : LegalRun base n w acts) :
    ∃ w', run base n w acts = some w' ∧ w'.Consistent base := by
  have hrun : ∀ acts w, w.Consistent base → LegalRun base n w acts → ∃ w', run base n w acts = some w' ∧
    w'.Consistent base := by
    intro acts
    induction acts with
    | nil => exact fun w hw _ => ⟨w, rfl, hw⟩
    | cons a acts ih =>
      intro w hw hlegal
      obtain ⟨w₁, hstep, hw₁⟩ := step_consistent hbase hend hn hw hlegal.1
      obtain ⟨w', hrun, hw'⟩ := ih w₁ hw₁ (hlegal.2 w₁ hstep)
      exact ⟨w', by rw [run, hstep]; exact hrun, hw'⟩
  exact hrun acts w (.inl hw) hlegal

def oneRegion : Heap.Sbrk := fun regions n => if regions = [] ∧ n ≤ 32768 then some 8192 else none

theorem fresh_oneRegion : Fresh 4096 oneRegion := by
  intro regions n a h
  unfold oneRegion at h
  split_ifs at h with hn
  obtain rfl : 8192 = a := by simpa using h
  rw [hn.1]
  exact ⟨by decide, by simp, by omega⟩

def fresh : World := ⟨⟨fun _ => 0, 0, []⟩, []⟩

theorem malloc_fresh : (fresh.step 4096 (2 ^ 34) (.malloc 10 oneRegion)).map World.live = some [(40944, 10)] := by
  decide +kernel

theorem allocator_consistent_fresh :
    ∃ w', run 4096 (2 ^ 34) fresh [.malloc 10 oneRegion, .free 40944, .malloc 20 oneRegion] = some w' ∧ w'.Consistent 4096 := by
  apply allocator_consistent (by decide) (by decide) (Nat.le_refl _) ⟨rfl, rfl, rfl⟩
  refine ⟨⟨by decide, fresh_oneRegion⟩, fun w₁ h₁ => ⟨?_, fun w₂ _ => ⟨⟨by decide, fresh_oneRegion⟩, fun _ _ => trivial⟩⟩⟩
  have hlive := malloc_fresh
  rw [h₁] at hlive
  have : w₁.live = [(40944, 10)] := by simpa using hlive
  exact ⟨(40944, 10), by simp [this], rfl⟩

end World

end Laboratorio.Umalloc
