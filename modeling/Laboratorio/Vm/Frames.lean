import Laboratorio.Procs.Table
import Laboratorio.Vm.Image

/-!
The division of the page pool among the free list, the kernel stacks, the address spaces and the
pipes, and how an operation on one address space or on one page changes it.
-/

namespace Laboratorio.Vm

open Bytes Procs

inductive Owner
  | kernel
  | proc (i : Slot)
  | image
  deriving DecidableEq

inductive Holder
  | kstack (i : Slot)
  | space (o : Owner) (r : Role)
  | pipe (p : ℕ)
  deriving DecidableEq

@[ext] structure Frames where
  kstack : Slot → Option ℕ
  dir : Owner → Option ℕ
  pipe : ℕ → Prop

def Held (m : Bytes) (f : Frames) (p : ℕ) : Holder → Prop
  | .kstack i => f.kstack i = some p
  | .space o r => ∃ pd, f.dir o = some pd ∧ Space m pd p r
  | .pipe q => p = q ∧ f.pipe q

theorem space_injective (o : Owner) : Function.Injective (Holder.space o) := by
  intro r r' h
  simpa using h

structure Frames.Gains (f f' : Frames) (p : ℕ) (x : Holder) : Prop where
  dir : f'.dir = f.dir
  vacant : ∀ m q, ¬ Held m f q x
  held : ∀ m q y, Held m f' q y ↔ Held m f q y ∨ q = p ∧ y = x

section gains

variable (f : Frames) (p : ℕ)

theorem gains_kstack {i : Slot} (hi : f.kstack i = none) :
    f.Gains { f with kstack := Function.update f.kstack i (some p) } p (.kstack i) := by
  refine ⟨rfl, fun m q hq => ?_, fun m q y => ?_⟩
  · simp [Held, hi] at hq
  cases y with
  | kstack j =>
    by_cases hij : j = i
    · subst hij
      simp [Held, hi, eq_comm]
    · simp [Held, hij]
  | space o r => simp [Held]
  | pipe q => simp [Held]

theorem gains_pipe (hp : ¬ f.pipe p) : f.Gains { f with pipe := fun q => q = p ∨ f.pipe q } p (.pipe p) := by
  refine ⟨rfl, fun m q hq => hp hq.2, fun m q y => ?_⟩
  cases y with
  | kstack j => simp [Held]
  | space o r => simp [Held]
  | pipe q' =>
    simp only [Held, Holder.pipe.injEq]
    constructor
    · rintro ⟨rfl, rfl | h⟩
      · exact Or.inr ⟨rfl, rfl⟩
      · exact Or.inl ⟨rfl, h⟩
    · rintro (⟨rfl, h⟩ | ⟨rfl, rfl⟩)
      · exact ⟨rfl, Or.inr h⟩
      · exact ⟨rfl, Or.inl rfl⟩

end gains

variable [Layout]

structure Sound (pool : Set ℕ) (s : Kmem) (f : Frames) : Prop where
  part : Partition s.freelist [] (Held s.mem f) pool
  pages : ∀ p ∈ pool, Pg p
  guard : ∀ o pd, f.dir o = some pd → ∀ v, userPages ≤ v → v < allPages → userOk (pte s.mem pd v) = false

abbrev around (s : Kmem) (f : Frames) (o : Owner) : Set ℕ :=
  Partition.region s.freelist [] (Held s.mem f) (Holder.space o)

namespace Sound

variable {pool : Set ℕ} {s s' : Kmem} {f : Frames} {o : Owner} {p : ℕ}

theorem congr (h : Sound pool s f) {f' : Frames} (hf : f' = f) : Sound pool s f' := by
  rw [hf]
  exact h

variable {x : Holder}

theorem held (h : Sound pool s f) (hp : Held s.mem f p x) : Pg p :=
  h.pages p ((h.part.cover p).mpr (Or.inr (Or.inr ⟨x, hp⟩)))

variable {pd : ℕ}

section

variable (h : Sound pool s f)

include h

theorem owns (hd : f.dir o = some pd) : Owns s pd [] (around s f o) := by
  refine ⟨(h.part.focus (space_injective o)).congr (fun q r => ?_), fun q hq => h.pages q (h.part.region_subset hq),
    h.guard o pd hd⟩
  simp only [Held, hd, Option.some.injEq, exists_eq_left']

theorem bare (hd : f.dir o = none) : Bare s [] (around s f o) := by
  refine ⟨(h.part.focus (space_injective o)).congr (fun q r => ?_), fun q hq => h.pages q (h.part.region_subset hq)⟩
  simp [Held, hd]

theorem outside {T : Set ℕ} (hd : f.dir o = some pd)
    (hT : ∀ q r, Held s.mem f q (.space o r) → q ∉ T) : Outside s.mem pd T := by
  refine ⟨⟨(h.owns hd).dir.aligned, hT pd .dir ⟨pd, hd, rfl⟩⟩, fun i hi hp => ?_⟩
  exact hT _ (.tab i) ⟨pd, hd, hi, hp, rfl⟩

theorem frame {T : Set ℕ} (hc : Changes T s s') (hT : ∀ q r, Held s.mem f q (.space o r) → q ∉ T) :
    (∀ q r, Held s'.mem f q (.space o r) ↔ Held s.mem f q (.space o r)) ∧
      ∀ pd, f.dir o = some pd → ∀ v, userPages ≤ v → v < allPages → userOk (pte s'.mem pd v) = false := by
  constructor
  · intro q r
    apply exists_congr
    intro pd
    apply and_congr_right
    intro hd
    have hout := h.outside hd hT
    apply space_iff
    · intro i hi
      exact pde_congr (hc.same pd hout.dir.1 hout.dir.2) hi
    · intro v hv
      exact (hout.same hc).2 v (hv.trans userPages_lt_allPages)
  · intro pd hd v h1 h2
    rw [((h.outside hd hT).same hc).2 v h2]
    exact h.guard o pd hd v h1 h2

theorem notMem_around (hp : Held s.mem f p x) (hx : ∀ r, x ≠ .space o r) : p ∉ around s f o := h.part.notMem_region hp hx

theorem others (hc : Changes (around s f o) s s') {d : Option ℕ} {q : ℕ}
    (hx : ∀ r, x ≠ .space o r) : Held s'.mem { f with dir := Function.update f.dir o d } q x ↔ Held s.mem f q x := by
  cases x with
  | kstack i => rfl
  | pipe p => rfl
  | space o' r =>
    have hne : o' ≠ o := by
      rintro rfl
      exact hx r rfl
    rw [← (h.frame hc (fun q r hq => h.notMem_around hq (by simp [hne]))).1 q r]
    simp only [Held, Function.update_of_ne hne]

theorem guards (hc : Changes (around s f o) s s') {o' : Owner} (hne : o' ≠ o)
    (hd : f.dir o' = some pd) (v : ℕ) (h1 : userPages ≤ v) (h2 : v < allPages) : userOk (pte s'.mem pd v) = false :=
  (h.frame hc (fun q r hq => h.notMem_around hq (by simp [hne]))).2 pd hd v h1 h2

theorem put {d : ℕ} (hown : Owns s' d [] (around s f o)) (hc : Changes (around s f o) s s') :
    Sound pool s' { f with dir := Function.update f.dir o (some d) } := by
  refine ⟨h.part.unfocus hown.part (fun q r => ?_) (fun q x hx => h.others hc hx), h.pages, fun o' pd hd => ?_⟩
  · simp only [Held, Function.update_self, Option.some.injEq, exists_eq_left']
  · by_cases hne : o' = o
    · subst hne
      obtain rfl : d = pd := by simpa using hd
      exact hown.guard
    · simp only [Function.update_of_ne hne] at hd
      exact h.guards hc hne hd

theorem keep (hd : f.dir o = some pd) (hown : Owns s' pd [] (around s f o))
    (hc : Changes (around s f o) s s') : Sound pool s' f := by
  have hput := h.put hown hc
  rw [← hd, Function.update_eq_self] at hput
  exact hput

theorem drop (hbare : Bare s' [] (around s f o)) (hc : Changes (around s f o) s s') :
    Sound pool s' { f with dir := Function.update f.dir o none } := by
  refine ⟨h.part.unfocus hbare.part (fun q r => ?_) (fun q x hx => h.others hc hx), h.pages, fun o' pd hd => ?_⟩
  · simp [Held]
  · have hne : o' ≠ o := by
      rintro rfl
      simp at hd
    simp only [Function.update_of_ne hne] at hd
    exact h.guards hc hne hd

theorem still (hd : f.dir o = none) (hbare : Bare s' [] (around s f o))
    (hc : Changes (around s f o) s s') : Sound pool s' f := by
  have hdrop := h.drop hbare hc
  rw [← hd, Function.update_eq_self] at hdrop
  exact hdrop

theorem rename (e : Owner ≃ Owner) : Sound pool s { f with dir := f.dir ∘ e } := by
  let g : Holder → Holder := fun x => match x with
    | .space o r => .space (e o) r
    | x => x
  have hg : ∀ q x, Held s.mem { f with dir := f.dir ∘ e } q x ↔ Held s.mem f q (g x) := by
    intro q x
    cases x <;> rfl
  have hinj : Function.Injective g := by
    intro x y hxy
    cases x <;> cases y <;> simp_all [g]
  have hsurj : ∀ x, ∃ y, g y = x := by
    intro x
    cases x with
    | kstack i => exact ⟨.kstack i, rfl⟩
    | space o r => exact ⟨.space (e.symm o) r, by simp [g]⟩
    | pipe p => exact ⟨.pipe p, rfl⟩
  refine ⟨⟨h.part.nodup, fun q => ?_, fun q x hq => ?_, fun q x y hx hy => ?_, fun q q' x hx hy => ?_⟩, h.pages,
    fun o pd hd => h.guard (e o) pd hd⟩
  · rw [h.part.cover q]
    apply or_congr_right
    apply or_congr_right
    constructor
    · rintro ⟨x, hx⟩
      obtain ⟨y, rfl⟩ := hsurj x
      exact ⟨y, (hg q y).mpr hx⟩
    · rintro ⟨x, hx⟩
      exact ⟨g x, (hg q x).mp hx⟩
  · exact h.part.apart q _ ((hg q x).mp hq)
  · exact hinj (h.part.unique q _ _ ((hg q x).mp hx) ((hg q y).mp hy))
  · exact h.part.holder q q' _ ((hg q x).mp hx) ((hg q' x).mp hy)

end

end Sound

namespace Sound

variable {pool : Set ℕ} {s : Kmem} {f f' : Frames} {p : ℕ} {x : Holder}

theorem gain (h : Sound pool s f) (hg : f.Gains f' p x) {next : List ℕ} {b : List Bool} (hf : s.freelist = p :: next) :
    Sound pool { s with freelist := next, denied := b } f' := by
  have hpart := h.part
  rw [hf] at hpart
  refine ⟨hpart.take.attach (hg.vacant s.mem) (hg.held s.mem), h.pages, fun o pd hd => ?_⟩
  rw [hg.dir] at hd
  exact h.guard o pd hd

theorem setDenied (h : Sound pool s f) (ds : List Bool) : Sound pool { s with denied := ds } f :=
  ⟨h.part, h.pages, h.guard⟩

theorem lose (h : Sound pool s f') (hg : f.Gains f' p x) (hx : ∀ o r, x ≠ .space o r) : Sound pool (s.freed p) f := by
  have hheld : Held s.mem f' p x := (hg.held s.mem p x).mpr (Or.inr ⟨rfl, rfl⟩)
  have hp := h.held hheld
  have hc : Changes {p} s (s.freed p) :=
    Changes.kfree s hp rfl
  have hout : ∀ o q r, Held s.mem f' q (.space o r) → q ∉ ({p} : Set ℕ) := by
    rintro o q r hq rfl
    exact hx o r (h.part.unique q _ _ hheld hq)
  have hmem : ∀ q y, Held (memset s.mem p 1 pgsize) f' q y ↔ Held s.mem f' q y := by
    intro q y
    cases y with
    | kstack i => rfl
    | pipe p => rfl
    | space o r => exact (h.frame hc (hout o)).1 q r
  refine ⟨(h.part.detach hheld (fun q y => ?_)).give, h.pages, fun o pd hd => ?_⟩
  · rw [← hmem q y, hg.held _ q y]
    constructor
    · intro hq
      refine ⟨Or.inl hq, ?_⟩
      rintro rfl
      exact hg.vacant _ q hq
    · rintro ⟨hq | ⟨_, rfl⟩, hne⟩
      · exact hq
      · exact absurd rfl hne
  · rw [← hg.dir] at hd
    exact (h.frame hc (hout o)).2 pd hd

end Sound

end Laboratorio.Vm
