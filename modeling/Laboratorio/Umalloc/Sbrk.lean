import Laboratorio.Umalloc.Runs
import Laboratorio.Vm.Syscall

/-!
The allocator over the `sbrk` of the kernel, whose argument is a signed number.
-/

namespace Laboratorio.Umalloc

open Vm (kernbase)

/-- The size of the process after `growproc`, for an argument of 32 bits; `room` tells whether there are enough pages. -/
def growproc (room : Bool) (sz n : ℕ) : Option ℕ :=
  let newsz := (sz + n) % 2 ^ 32
  if n = 0 then some sz
  else
    let sz :=
      if n < 2 ^ 31 then
        if newsz ≥ kernbase then 0 else if newsz < sz then sz else if room then newsz else 0
      else if newsz ≥ sz then sz else newsz
    if sz = 0 then none else some sz

section kernel

variable [Vm.Layout] {s : Vm.Kmem} {pgdir oldsz newsz : ℕ}

theorem allocuvm_value : wp (Vm.allocuvm pgdir oldsz newsz) s
    (fun r _ => ∃ room : Bool, r = if newsz ≥ kernbase then 0 else if newsz < oldsz then oldsz else if room then newsz else 0)
    fun _ => True := by
  unfold Vm.allocuvm
  split_ifs
  · exact wp_ret ⟨true, rfl⟩
  · exact wp_ret ⟨true, rfl⟩
  · refine wp_mono (Vm.allocPages_size _ _ s) ?_
    rintro r _ (rfl | rfl)
    · exact ⟨false, rfl⟩
    · exact ⟨true, rfl⟩

theorem deallocuvm_value : wp (Vm.deallocuvm pgdir oldsz newsz) s (fun r _ => r = if newsz ≥ oldsz then oldsz else newsz)
    fun _ => True := by
  unfold Vm.deallocuvm
  split_ifs
  · exact wp_ret rfl
  · exact wp_seq (wp_any _) fun _ _ _ => wp_ret rfl

theorem growproc_value (k : Vm.Kernel) (cur : Procs.Slot) (n : Int32) :
    wp (Vm.growproc cur n) k (fun r k' => ∃ room, growproc room (k.sz cur) n.toUInt32.toNat =
      if r then some (k'.sz cur) else none) fun _ => True := by
  have hnat := Vm.toUInt32_toNat n
  have hlt := n.toInt_lt
  have hge := n.le_toInt
  have hzero : n = 0 ↔ n.toUInt32.toNat = 0 := by
    rw [← Int32.toInt_inj, Int32.toInt_zero]
    omega
  have hpos : n > 0 ↔ n ≠ 0 ∧ n.toUInt32.toNat < 2 ^ 31 := by
    rw [gt_iff_lt, Int32.lt_iff_toInt_lt, Ne, hzero, Int32.toInt_zero]
    omega
  have hneg : n < 0 ↔ n ≠ 0 ∧ ¬ n > 0 := by
    rw [gt_iff_lt, Int32.lt_iff_toInt_lt, Int32.lt_iff_toInt_lt, Ne, hzero, Int32.toInt_zero]
    omega
  unfold Vm.growproc
  rw [wp_bind, wp_get]
  cases k.pgdir cur with
  | none => exact (wp_throw _).mpr trivial
  | some pd =>
    have hend : ∀ (t : Vm.Kmem) (sz : ℕ) (room : Bool),
        growproc room (k.sz cur) n.toUInt32.toNat = (if n ≠ 0 ∧ sz = 0 then none else some sz) →
        wp (if n ≠ 0 ∧ sz = 0 then pure false else do
            modify fun k => k.setSz cur sz
            Vm.switchuvm cur
            pure true) { k with vm := t }
          (fun r k' => ∃ room, growproc room (k.sz cur) n.toUInt32.toNat = if r then some (k'.sz cur) else none)
            fun _ => True := by
      intro t sz room h
      split_ifs at h ⊢ with hbad
      · exact wp_ret ⟨room, h⟩
      · rw [wp_bind, wp_modify, wp_bind, Vm.switchuvm, wp_bind, wp_get]
        refine wp_ite.mpr ⟨fun _ => (wp_throw _).mpr trivial, fun _ => wp_ret (wp_ret ⟨room, ?_⟩)⟩
        rw [h]
        simp [Vm.Kernel.setSz]
    simp only
    by_cases h0 : n = 0
    · rw [if_neg fun h => (hpos.mp h).1 h0, if_neg fun h => (hneg.mp h).1 h0, wp_bind]
      refine wp_ret (hend k.vm (k.sz cur) true ?_)
      rw [growproc, if_pos (hzero.mp h0), if_neg fun h => h.1 h0]
    by_cases h : n > 0
    · rw [if_pos h, wp_bind, Vm.onVm, wp_within]
      refine wp_mono allocuvm_value ?_
      rintro r t ⟨room, hr⟩
      apply hend t r room
      rw [growproc, if_neg (mt hzero.mpr h0), if_pos (hpos.mp h).2, ← Vm.u32, ← hr]
      simp only [ne_eq, h0, not_false_eq_true, true_and]
    · rw [if_neg h, if_pos (hneg.mpr ⟨h0, h⟩), wp_bind, Vm.onVm, wp_within]
      refine wp_mono deallocuvm_value fun r t hr => hend t r true ?_
      rw [growproc, if_neg (mt hzero.mpr h0), if_neg fun hm => h (hpos.mpr ⟨h0, hm⟩), ← Vm.u32, ← hr]
      simp only [ne_eq, h0, not_false_eq_true, true_and]

end kernel

def sizeAfter (start : ℕ) (regions : List (ℕ × ℕ)) : ℕ := regions.foldl (fun sz r => (growproc true sz r.2).getD sz) start

def sysSbrk (room : Bool) (start : ℕ) : Heap.Sbrk := fun regions n =>
  (growproc room (sizeAfter start regions) n).map fun _ => sizeAfter start regions

theorem growproc_small {room : Bool} {sz n sz' : ℕ} (hsz : sz < kernbase) (hn : n < 2 ^ 31)
    (h : growproc room sz n = some sz') : sz' = sz + n ∧ sz' < kernbase ∧ growproc true sz n = some sz' := by
  have hmod : (sz + n) % 2 ^ 32 = sz + n := by
    unfold kernbase at hsz
    omega
  unfold growproc at h ⊢
  rw [hmod] at h ⊢
  by_cases h0 : n = 0
  · subst h0
    simp only [if_true, Option.some.injEq] at h ⊢
    omega
  have hnew : ¬ sz + n ≥ kernbase := by
    intro hbig
    simp only [h0, hn, hbig, if_false, if_true] at h
    exact nomatch h
  have hle : ¬ sz + n < sz := by omega
  simp only [h0, hn, hnew, hle, if_false, if_true] at h ⊢
  cases room with
  | false => simp at h
  | true =>
    simp only [if_true] at h ⊢
    split_ifs at h ⊢ with hz
    cases h
    exact ⟨rfl, by omega, rfl⟩

structure Tracks (start : ℕ) (regions : List (ℕ × ℕ)) : Prop where
  low : start ≤ sizeAfter start regions
  high : sizeAfter start regions < kernbase
  inside : ∀ r ∈ regions, start ≤ r.1 ∧ r.1 + r.2 ≤ sizeAfter start regions

section sbrk

variable {start base n a : ℕ} {regions : List (ℕ × ℕ)} {room : Bool}

section

variable (h : Tracks start regions) (hn : n < 2 ^ 31) (hs : sysSbrk room start regions n = some a)

include h hn hs

theorem sysSbrk_spec : a = sizeAfter start regions ∧ sizeAfter start (regions ++ [(a, n)]) = a + n ∧ a + n < kernbase := by
  obtain ⟨sz', hgrow, rfl⟩ := Option.map_eq_some_iff.mp hs
  obtain ⟨rfl, hlt, htrue⟩ := growproc_small h.high hn hgrow
  refine ⟨rfl, ?_, hlt⟩
  rw [sizeAfter, List.foldl_append]
  change (growproc true (sizeAfter start regions) n).getD _ = _
  rw [htrue]
  rfl

theorem Tracks.snoc : Tracks start (regions ++ [(a, n)]) := by
  obtain ⟨ha, hsize, hlt⟩ := sysSbrk_spec h hn hs
  have hlow := h.low
  refine ⟨by omega, by omega, fun r hr => ?_⟩
  rcases List.mem_append.mp hr with hr | hr
  · have := h.inside r hr
    omega
  · obtain rfl := List.mem_singleton.mp hr
    exact ⟨by simp only; omega, hsize.ge⟩

end

theorem Tracks.freshAt (h : Tracks start regions) (hstart : base + 8 ≤ start) : FreshAt base (sysSbrk room start) regions := by
  intro n a hn hs
  obtain ⟨ha, -, hlt⟩ := sysSbrk_spec h hn hs
  have hlow := h.low
  refine ⟨by omega, fun r hr => ?_, hlt.trans (by decide)⟩
  rw [ha]
  exact (h.inside r hr).2

end sbrk

namespace World

def Modest (base start : ℕ) (w : World) : Action → Prop
  | .malloc nbytes sbrk => nbytes + 2 * headerSize ≤ 2 ^ 31 ∧ ∃ room, sbrk = sysSbrk room start
  | a => w.Legal base a

inductive Reaches (base n start : ℕ) : World → Prop
  | start {w : World} (h : w.Unused) : Reaches base n start w
  | step {w w' : World} {a : Action} (h : Reaches base n start w) (ha : w.Modest base start a)
      (hs : w.step base n a = some w') : Reaches base n start w'

variable {base n start : ℕ} (hbase : 0 < base) (hstart : base + 8 ≤ start) (hkern : start < kernbase) (hn : 2 ^ 34 ≤ n)
include hbase hstart hkern hn

theorem tracks_step {w w' : World} {a : Action} (hw : w.Consistent base) (ht : Tracks start w.heap.regions)
    (ha : w.Modest base start a) (hs : w.step base n a = some w') : w'.Consistent base ∧ Tracks start w'.heap.regions := by
  have hend : base + 8 ≤ 2 ^ 32 := by
    unfold kernbase at hkern
    omega
  cases a with
  | malloc nbytes sbrk =>
    obtain ⟨hsmall, room, rfl⟩ := ha
    obtain ⟨w₁, hstep, hw₁, hregions⟩ := step_malloc hbase hend hn hw hsmall (ht.freshAt hstart)
    obtain rfl := Option.some.inj (hs.symm.trans hstep)
    refine ⟨hw₁, ?_⟩
    rcases hregions with hsame | ⟨a, hsbrk, hmore⟩
    · rwa [hsame]
    · rw [hmore]
      exact ht.snoc (by have := (nunits_spec hsmall).2.1; omega) hsbrk
  | free ap =>
    obtain ⟨w₁, hstep, hw₁, hregions⟩ := step_free hn hw ha
    obtain rfl := Option.some.inj (hs.symm.trans hstep)
    rw [hregions]
    exact ⟨hw₁, ht⟩
  | write x v =>
    obtain ⟨w₁, hstep, hw₁, hregions⟩ := step_write hw ha
    obtain rfl := Option.some.inj (hs.symm.trans hstep)
    rw [hregions]
    exact ⟨hw₁, ht⟩

theorem tracks_of_reaches {w : World} (h : Reaches base n start w) : w.Consistent base ∧ Tracks start w.heap.regions := by
  induction h with
  | start h =>
    refine ⟨.inl h, ?_⟩
    rw [h.2.1]
    exact ⟨Nat.le_refl _, hkern, by simp⟩
  | step _ ha hs ih => exact tracks_step hbase hstart hkern hn ih.1 ih.2 ha hs

end World

def Delivers (base n start : ℕ) (room : Bool) (h : Heap) (nbytes : ℕ) : Prop :=
  ∃ r h', h.malloc base (sysSbrk room start) n nbytes = some (r, h') ∧ (∀ ap, r = some ap → ∃ bp, ap = bp + headerSize ∧
    nbytes + headerSize ≤ headerSize * h'.size bp ∧ start ≤ bp ∧ bp + headerSize * h'.size bp ≤ sizeAfter start h'.regions) ∧
    (h'.regions = h.regions ∨ sizeAfter start h.regions + headerSize * max 4096 (Heap.nunits nbytes) ≤
    sizeAfter start h'.regions)

theorem malloc_delivers {base n start nbytes : ℕ} {w : World} (hbase : 0 < base) (hstart : base + 8 ≤ start)
    (hkern : start < kernbase) (hn : 2 ^ 34 ≤ n) (hw : w.Reaches base n start)
    (hsmall : nbytes + 2 * headerSize ≤ 2 ^ 31) (room : Bool) : Delivers base n start room w.heap nbytes := by
  obtain ⟨hcons, ht⟩ := World.tracks_of_reaches hbase hstart hkern hn hw
  have hend : base + 8 ≤ 2 ^ 32 := by
    unfold kernbase at hkern
    omega
  obtain ⟨-, hlt, hroom⟩ := World.nunits_spec hsmall
  have hfresh : FreshAt base (sysSbrk room start) w.heap.regions := ht.freshAt hstart
  obtain ⟨r, h', l', L, hrun, hregions, -, hr⟩ := World.malloc_spec hbase hend hn hcons hsmall hfresh
  have ht' : Tracks start h'.regions := by
    rcases hregions with hsame | ⟨a, hsbrk, hmore⟩
    · rwa [hsame]
    · rw [hmore]
      exact ht.snoc (by omega) hsbrk
  refine ⟨r, h', hrun, fun ap hap => ?_, ?_⟩
  · rcases hr with ⟨rfl, -⟩ | ⟨bp, rfl, hl⟩
    · exact nomatch hap
    cases hap
    have hsize : h'.size bp = Heap.nunits nbytes := hl.size (bp, _) List.mem_cons_self
    have hin : ∀ x, bp ≤ x → x < bp + 8 * Heap.nunits nbytes → start ≤ x ∧ x < sizeAfter start h'.regions := by
      intro x hx hx'
      obtain ⟨q, hq, hqx⟩ := (hl.covers x).mp (.inr ⟨(bp, _), List.mem_cons_self, hx, hx'⟩)
      have := ht'.inside q hq
      omega
    have hfirst := hin bp (by omega) (by omega)
    have hlast := hin (bp + 8 * Heap.nunits nbytes - 1) (by omega) (by omega)
    refine ⟨bp, rfl, ?_, hfirst.1, ?_⟩
    · rw [hsize]
      exact hroom
    · rw [hsize, headerSize]
      omega
  · rcases hregions with hsame | ⟨a, hsbrk, hmore⟩
    · exact .inl hsame
    · obtain ⟨ha, hsz, -⟩ := sysSbrk_spec ht (by omega) hsbrk
      rw [hmore, hsz, ha]
      exact .inr (Nat.le_refl _)

theorem malloc_delivers_fresh : Delivers 4096 (2 ^ 34) 8192 true World.fresh.heap 10 :=
  malloc_delivers (by decide) (by decide) (by decide) (Nat.le_refl _) (.start ⟨rfl, rfl, rfl⟩) (by decide) true

/-- For 2^32 - 1 bytes `malloc` returns a block that has a header only. For 2^31 bytes after 40000 the block that it returns
begins where the memory of the process ends. -/
theorem malloc_too_little : ¬ Delivers 4096 (2 ^ 34) 8192 true World.fresh.heap (2 ^ 32 - 1) ∧
    ((World.fresh.heap.malloc 4096 (sysSbrk true 8192) (2 ^ 34) 40000).bind fun x => x.2.malloc 4096 (sysSbrk true 8192)
    (2 ^ 34) (2 ^ 31)).map
      (fun x => (x.1, x.2.size 48200, sizeAfter 8192 x.2.regions)) = some (some 48208, 2 ^ 28 + 1, 48200) := by
  refine ⟨?_, by decide +kernel⟩
  rintro ⟨r, h', hrun, hblock, -⟩
  have hvalue : (World.fresh.heap.malloc 4096 (sysSbrk true 8192) (2 ^ 34) (2 ^ 32 - 1)).map (fun x => (x.1, x.2.size 40952)) =
      some (some 40960, 1) := by decide +kernel
  rw [hrun, Option.map_some, Option.some.injEq, Prod.mk.injEq] at hvalue
  obtain ⟨bp, hbp, hroom, -⟩ := hblock 40960 hvalue.1
  obtain rfl : bp = 40952 := by
    unfold headerSize at hbp
    omega
  rw [hvalue.2] at hroom
  exact absurd hroom (by decide)

end Laboratorio.Umalloc
