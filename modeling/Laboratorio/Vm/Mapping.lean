import Laboratorio.Vm.Space

namespace Laboratorio.Vm

open Bytes

def core (s : Kmem) (pd : ℕ) : Set ℕ := {p | p ∈ s.freelist ∨ p = pd ∨ ∃ i, Space s.mem pd p (.tab i)}

structure Changes (T : Set ℕ) (s s' : Kmem) : Prop where
  same : ∀ p, p % pgsize = 0 → p ∉ T → SamePage s.mem s'.mem p
  fair : s.denied = [] → s'.denied = []

theorem Changes.refl (T : Set ℕ) (s : Kmem) : Changes T s s := ⟨fun _ _ _ _ _ _ => rfl, id⟩

variable {s s' : Kmem}

theorem Changes.mono {T U : Set ℕ} (h : Changes T s s') (hTU : T ⊆ U) : Changes U s s' :=
  ⟨fun p hp hn => h.same p hp (fun ht => hn (hTU ht)), h.fair⟩

theorem Changes.trans {T : Set ℕ} {s'' : Kmem} (h : Changes T s s') (h' : Changes T s' s'') : Changes T s s'' :=
  ⟨fun p hp hn => (h.same p hp hn).trans (h'.same p hp hn), fun hd => h'.fair (h.fair hd)⟩

structure Maps (pd : ℕ) (s s' : Kmem) : Prop where
  shrinks : core s' pd ⊆ core s pd
  changes : Changes (core s pd) s s'

theorem Maps.refl (pd : ℕ) (s : Kmem) : Maps pd s s := ⟨subset_rfl, .refl _ s⟩

variable {pd : ℕ}

theorem Maps.trans {s'' : Kmem} (h : Maps pd s s') (h' : Maps pd s' s'') : Maps pd s s'' :=
  ⟨h'.shrinks.trans h.shrinks, h.changes.trans (h'.changes.mono h.shrinks)⟩

section kalloc

variable {s : Kmem} {Q : Option ℕ → Kmem → Prop} {E : Fault → Prop}

theorem wp_kalloc (hnone : (s.denied = [] → s.freelist = []) → Q none { s with denied := s.denied.tail })
    (hsome : ∀ r next, s.freelist = r :: next → Q (some r) { s with freelist := next, denied := s.denied.tail }) :
    wp kalloc s Q E := by
  unfold kalloc
  simp only [wp_bind, wp_get, wp_ite, wp_set, wp_pure]
  constructor
  · intro hd
    apply hnone
    intro hnil
    simp [hnil] at hd
  · intro _
    split
    · next hnil =>
      simp only [wp_bind, wp_set, wp_pure]
      exact hnone (fun _ => hnil)
    · next r next hcons =>
      simp only [wp_bind, wp_set, wp_pure]
      exact hsome r next hcons

end kalloc

variable {va : ℕ}

theorem pdx_eq (h : va < 2 ^ 32) : pdx va = va / pgsize / 1024 := by
  unfold pdx pgsize
  omega

theorem ptx_eq (va : ℕ) : ptx va = va / pgsize % 1024 := rfl

theorem page_lt (h : va < 2 ^ 32) : va / pgsize < allPages := by
  unfold pgsize allPages npdentries
  omega

theorem wp_walkpgdir {Q : Option ℕ → Kmem → Prop} {E : Fault → Prop} (hva : va < 2 ^ 32)
    (hnone : present (pde s.mem pd (va / pgsize / 1024)) = false → Q none s)
    (hsome : present (pde s.mem pd (va / pgsize / 1024)) →
      Q (some (pteAddr (pde s.mem pd (va / pgsize / 1024)) + 4 * (va / pgsize % 1024))) s) :
    wp (walkpgdir pd va false) s Q E := by
  unfold walkpgdir peek
  simp only [wp_bind, wp_get, wp_pure, wp_ite, pdx_eq hva, ptx_eq]
  refine ⟨hsome, fun hp => ⟨fun _ => hnone (eq_false_of_ne_true hp), by simp⟩⟩

variable {pa perm : ℕ}

theorem entry_addr (hpa : pa % pgsize = 0) (hperm : perm < pgsize) : pteAddr (pa ||| perm ||| pteP) = pa := by
  rw [Nat.or_assoc]
  exact pteAddr_or hpa (Nat.or_lt_two_pow (n := 12) hperm (by decide))

theorem entry_present (x : ℕ) : present (x ||| pteP) = true := by
  rw [present_iff, Nat.testBit_or]
  simp [pteP]

theorem entry_lt (hpa : pa < 2 ^ 32) (hperm : perm < pgsize) : pa ||| perm ||| pteP < 2 ^ 32 := by
  have hp : perm < 2 ^ 32 := hperm.trans (by decide)
  exact Nat.or_lt_two_pow (Nat.or_lt_two_pow hpa hp) (by decide)

theorem entry_userOk (hpa : pa % pgsize = 0) : userOk (pa ||| perm ||| pteP) = userOk perm := by
  obtain ⟨k, rfl⟩ : ∃ k, pa = 2 ^ 12 * k := ⟨pa / pgsize, by unfold pgsize at *; omega⟩
  rw [userOk_iff, userOk_iff, Nat.testBit_or, Nat.testBit_or, Nat.testBit_two_pow_mul]
  simp [pteP, Nat.testBit]

theorem mappages_range {size : ℕ} (hal : va % pgsize = 0) (hs : 0 < size) (hva : va + size ≤ 2 ^ 32) :
    mappages pd va size pa perm = mapPages pd perm ((size - 1) / pgsize) va pa := by
  have h1 : pgrounddown va = va := by
    unfold pgrounddown pgsize at *
    omega
  have h2 : u32 (pgrounddown (u32 (va + size + 2 ^ 32 - 1)) + 2 ^ 32 - va) / pgsize = (size - 1) / pgsize := by
    unfold pgrounddown u32 pgsize at *
    omega
  unfold mappages
  simp only [h1, h2]

theorem mappages_page (hal : va % pgsize = 0) (hva : va + pgsize ≤ 2 ^ 32) :
    mappages pd va pgsize pa perm = mapPage pd va pa perm := by
  rw [mappages_range hal (by decide) hva]
  rfl

variable [Layout]

namespace Owns

variable {s : Kmem} {pd : ℕ} {hand : List ℕ} {W : Set ℕ}

theorem core_subset (h : Owns s pd hand W) : core s pd ⊆ W := by
  intro p hp
  rw [h.part.cover p]
  rcases hp with hp | rfl | ⟨i, hi⟩
  · exact Or.inr (Or.inl hp)
  · exact Or.inr (Or.inr ⟨.dir, rfl⟩)
  · exact Or.inr (Or.inr ⟨.tab i, hi⟩)

theorem setDenied (h : Owns s pd hand W) (ds : List Bool) : Owns { s with denied := ds } pd hand W :=
  ⟨h.part, h.pages, h.guard⟩

theorem take (h : Owns s pd hand W) {r : ℕ} {next : List ℕ} {b : List Bool} (hf : s.freelist = r :: next) :
    Owns { s with freelist := next, denied := b } pd (r :: hand) W := by
  have hp := h.part
  rw [hf] at hp
  exact ⟨hp.take, h.pages, h.guard⟩

end Owns

section walkpgdir

variable {s : Kmem} {pd va : ℕ} {hand : List ℕ} {W : Set ℕ} {Q : Option ℕ → Kmem → Prop} {E : Fault → Prop}

theorem wp_walkpgdir_alloc (h : Owns s pd hand W) (hva : va < 2 ^ 32)
    (hnone : ∀ s', Owns s' pd hand W → Maps pd s s' → (∀ v < allPages, pte s'.mem pd v = pte s.mem pd v) →
      (s.denied = [] → s'.freelist = []) → Q none s')
    (hsome : ∀ s', Owns s' pd hand W → Maps pd s s' → (∀ v < allPages, pte s'.mem pd v = pte s.mem pd v) →
      present (pde s'.mem pd (va / pgsize / 1024)) →
      Q (some (pteAddr (pde s'.mem pd (va / pgsize / 1024)) + 4 * (va / pgsize % 1024))) s') :
    wp (walkpgdir pd va true) s Q E := by
  have hi : va / pgsize / 1024 < npdentries := table_lt (page_lt hva)
  unfold walkpgdir peek clearPage poke
  simp only [wp_bind, wp_get, wp_pure, wp_ite, pdx_eq hva, ptx_eq]
  refine ⟨fun hp => hsome s h (.refl pd s) (fun _ _ => rfl) hp, fun hp => ⟨by simp, fun _ => ?_⟩⟩
  apply wp_kalloc
  · intro hstarved
    apply wp_ret
    refine hnone _ (h.setDenied _) ⟨subset_rfl, ⟨fun _ _ _ _ _ _ => rfl, fun hd => by simp [hd]⟩⟩ (fun _ _ => rfl) hstarved
  intro t next hf
  have habs : present (pde s.mem pd (va / pgsize / 1024)) = false := eq_false_of_ne_true hp
  have htake := h.take (b := s.denied.tail) hf
  obtain ⟨hown, hpde, hpte⟩ := htake.newTable hi habs
  have htp : Pg t := htake.held (by simp)
  simp only [wp_modify, wp_pure, wp_bind]
  have haddr := hpde _ hi
  rw [if_pos rfl] at haddr
  have hq := hsome _ hown ⟨?_, ?_, ?_⟩ hpte (by rw [haddr]; exact newPde_present)
  · simp only [haddr, Owns.newPde_addr htp] at hq
    exact hq
  · rintro p (hpf | rfl | ⟨j, hj, hpr, hpa⟩)
    · exact Or.inl (by rw [hf]; exact List.mem_cons_of_mem t hpf)
    · exact Or.inr (Or.inl rfl)
    · rw [hpde j hj] at hpr hpa
      split_ifs at hpr hpa with hji
      · rw [Owns.newPde_addr htp] at hpa
        exact Or.inl (by rw [hf, ← hpa]; exact List.mem_cons_self)
      · exact Or.inr (Or.inr ⟨j, hj, hpr, hpa⟩)
  · intro p hal hn
    have hpd : p ≠ pd := fun hc => hn (Or.inr (Or.inl hc))
    have hpt : p ≠ t := by
      rintro rfl
      exact hn (Or.inl (by rw [hf]; exact List.mem_cons_self))
    exact (samePage_memset htp.aligned hal hpt).trans (samePage_wr32 h.dir.aligned hal hpd hi)
  · intro hd
    simp [hd]

end walkpgdir

section mapPage

variable {s : Kmem} {pd va pa perm : ℕ} {hand hand' : List ℕ} {W : Set ℕ} {Q : Bool → Kmem → Prop} {E : Fault → Prop}

theorem wp_mapPage (h : Owns s pd hand W) (hva : va < 2 ^ 32) (hpa : pa < 2 ^ 32) (hperm : perm < pgsize)
    (put : ∀ s', Owns s' pd hand W → present (pde s'.mem pd (va / pgsize / 1024)) →
      present (pte s'.mem pd (va / pgsize)) = false →
      Owns { s' with mem := Owns.poked s' pd (va / pgsize) (pa ||| perm ||| pteP) } pd hand' W)
    (hremap : present (pte s.mem pd (va / pgsize)) → E .remap)
    (hfail : ∀ s', Owns s' pd hand W → Maps pd s s' → (∀ v < allPages, pte s'.mem pd v = pte s.mem pd v) →
      (s.denied = [] → s'.freelist = []) → Q false s')
    (hok : ∀ s', Owns s' pd hand' W → Maps pd s s' →
      (∀ v < allPages, pte s'.mem pd v = if v = va / pgsize then pa ||| perm ||| pteP else pte s.mem pd v) →
      Q true s') :
    wp (mapPage pd va pa perm) s Q E := by
  have hv := page_lt hva
  unfold mapPage
  rw [wp_bind]
  apply wp_walkpgdir_alloc h hva
  · intro s' hown hmaps hpte hstarved
    exact wp_ret (hfail s' hown hmaps hpte hstarved)
  intro s' hown hmaps hpte hpr
  have hread : rd32 s'.mem (pteAddr (pde s'.mem pd (va / pgsize / 1024)) + 4 * (va / pgsize % 1024)) =
      pte s.mem pd (va / pgsize) := by
    rw [← hpte _ hv, pte, if_pos hpr]
  unfold peek poke
  simp only [wp_bind, wp_get, wp_pure, wp_ite, wp_throw, wp_modify, hread]
  refine ⟨hremap, fun hnp => ?_⟩
  have habs : present (pte s'.mem pd (va / pgsize)) = false := by
    rw [hpte _ hv]
    exact eq_false_of_ne_true hnp
  obtain ⟨hpde', hpte'⟩ := hown.pte_poke hv hpr (entry_lt hpa hperm)
  refine hok _ (put s' hown hpr habs) (hmaps.trans ⟨?_, ⟨fun p hal hn => ?_, id⟩⟩) (fun v hvl => ?_)
  · rintro p (hp | rfl | ⟨j, hj, hjp, hja⟩)
    · exact Or.inl hp
    · exact Or.inr (Or.inl rfl)
    · rw [hpde' j hj] at hjp hja
      exact Or.inr (Or.inr ⟨j, hj, hjp, hja⟩)
  · have htab : p ≠ pteAddr (pde s'.mem pd (va / pgsize / 1024)) := by
      rintro rfl
      exact hn (Or.inr (Or.inr ⟨_, table_lt hv, hpr, rfl⟩))
    exact samePage_wr32 (hown.tabPg (table_lt hv) hpr).aligned hal htab (Nat.mod_lt _ (by decide))
  · rw [hpte' v hvl]
    split_ifs
    · rfl
    · exact hpte v hvl

end mapPage

def mapped (f : ℕ → ℕ) (v0 left pa perm v : ℕ) : ℕ :=
  if v0 ≤ v ∧ v ≤ v0 + left then (pa + (v - v0) * pgsize) ||| perm ||| pteP else f v

variable {s : Kmem} {pd perm left va pa : ℕ} {hand : List ℕ} {W : Set ℕ} {Q : Bool → Kmem → Prop} {E : Fault → Prop}

theorem wp_mapPages_kernel (h : Owns s pd hand W) (hk : kernbase ≤ va) (hva : va + left * pgsize < 2 ^ 32)
    (hpa : pa + left * pgsize < 2 ^ 32) (hal : pa % pgsize = 0) (hperm : perm < pgsize) (hu : userOk perm = false)
    (hremap : ∀ v, va / pgsize ≤ v → v ≤ va / pgsize + left → present (pte s.mem pd v) → E .remap)
    (hfail : ∀ s', Owns s' pd hand W → Maps pd s s' → (∀ v < userPages, pte s'.mem pd v = pte s.mem pd v) →
      (s.denied = [] → s'.freelist = []) → Q false s') (hok : ∀ s', Owns s' pd hand W → Maps pd s s' →
      (∀ v < allPages, pte s'.mem pd v = mapped (pte s.mem pd) (va / pgsize) left pa perm v) → Q true s') :
    wp (mapPages pd perm left va pa) s Q E := by
  induction left generalizing s va pa with
  | zero =>
    rw [Nat.zero_mul, Nat.add_zero] at hva hpa
    apply wp_mapPage h hva hpa hperm fun s' hown hpr _ =>
      hown.mapKernel (Nat.div_le_div_right hk) (page_lt hva) hpr (entry_lt hpa hperm) ((entry_userOk hal).trans hu)
    · exact hremap _ le_rfl le_rfl
    · intro s' hown hmaps hpte hst
      exact hfail s' hown hmaps (fun v hv => hpte v (hv.trans userPages_lt_allPages)) hst
    · intro s' hown hmaps hpte
      refine hok s' hown hmaps (fun v hv => ?_)
      rw [hpte v hv, mapped]
      by_cases hvv : v = va / pgsize
      · rw [if_pos hvv, if_pos ⟨hvv.ge, hvv.le⟩, hvv]
        simp
      · rw [if_neg hvv, if_neg (by omega)]
  | succ left ih =>
    have hk' : userPages ≤ va / pgsize := Nat.div_le_div_right hk
    have hstep : u32 (va + pgsize) = va + pgsize := by
      unfold u32 pgsize at *
      omega
    have hstep' : u32 (pa + pgsize) = pa + pgsize := by
      unfold u32 pgsize at *
      omega
    have hnext : (va + pgsize) / pgsize = va / pgsize + 1 := by
      unfold pgsize
      omega
    unfold mapPages
    rw [wp_bind, hstep, hstep']
    have hva' : va < 2 ^ 32 := by omega
    have hpa' : pa < 2 ^ 32 := by omega
    apply wp_mapPage h hva' hpa' hperm fun s' hown hpr _ =>
      hown.mapKernel hk' (page_lt hva') hpr (entry_lt hpa' hperm) ((entry_userOk hal).trans hu)
    · exact hremap _ le_rfl (by omega)
    · intro s' hown hmaps hpte hst
      exact wp_ret (hfail s' hown hmaps (fun v hv => hpte v (hv.trans userPages_lt_allPages)) hst)
    intro s1 hown1 hmaps1 hpte1
    apply ih hown1
    · omega
    · unfold pgsize at *
      omega
    · unfold pgsize at *
      omega
    · unfold pgsize at *
      omega
    · intro v h1 h2 hp
      apply hremap v (by omega) (by omega)
      by_cases hvl : v < allPages
      · rwa [hpte1 v hvl, if_neg (by omega)] at hp
      · unfold allPages npdentries pgsize at *
        omega
    · intro s' hown hmaps hpte hst
      refine hfail s' hown (hmaps1.trans hmaps) (fun v hv => ?_) (fun hd => hst (hmaps1.changes.fair hd))
      rw [hpte v hv, hpte1 v (hv.trans userPages_lt_allPages), if_neg (by omega)]
    · intro s' hown hmaps hpte
      refine hok s' hown (hmaps1.trans hmaps) (fun v hv => ?_)
      rw [hpte v hv, mapped, mapped, hnext, hpte1 v hv]
      by_cases h1 : v = va / pgsize
      · rw [if_neg (by omega), if_pos h1, if_pos (by omega), h1]
        simp
      · by_cases h2 : va / pgsize ≤ v ∧ v ≤ va / pgsize + (left + 1)
        · have hoff : (v - va / pgsize) * pgsize = pgsize + (v - (va / pgsize + 1)) * pgsize := by
            obtain ⟨k, hk⟩ : ∃ k, v = va / pgsize + 1 + k := ⟨v - (va / pgsize + 1), by omega⟩
            rw [hk, show va / pgsize + 1 + k - va / pgsize = k + 1 by omega,
              show va / pgsize + 1 + k - (va / pgsize + 1) = k by omega, Nat.add_mul, Nat.one_mul, Nat.add_comm]
          rw [if_pos (by omega), if_pos h2, hoff, Nat.add_assoc]
        · rw [if_neg (by omega), if_neg h1, if_neg h2]

end Laboratorio.Vm
