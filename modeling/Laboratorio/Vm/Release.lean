import Laboratorio.Vm.Mapping

namespace Laboratorio.Vm

open Bytes

def reach (s : Kmem) (pd lo hi : ℕ) : Set ℕ :=
  {p | p ∈ core s pd ∨ ∃ v, lo ≤ v ∧ v < hi ∧ Space s.mem pd p (.user v)}

structure Alters (pd lo hi : ℕ) (s s' : Kmem) : Prop where
  shrinks : reach s' pd lo hi ⊆ reach s pd lo hi
  changes : Changes (reach s pd lo hi) s s'

theorem Alters.refl (pd lo hi : ℕ) (s : Kmem) : Alters pd lo hi s s := ⟨subset_rfl, .refl _ s⟩

variable {pd lo : ℕ} {s : Kmem}

theorem Alters.trans {hi : ℕ} {s' s'' : Kmem} (h : Alters pd lo hi s s') (h' : Alters pd lo hi s' s'') :
    Alters pd lo hi s s'' := ⟨h'.shrinks.trans h.shrinks, h.changes.trans (h'.changes.mono h.shrinks)⟩

def pagesOf (sz : ℕ) : ℕ := (sz + pgsize - 1) / pgsize

variable {sz : ℕ}

theorem lt_pagesOf {v : ℕ} : v < pagesOf sz ↔ v * pgsize < sz := by
  unfold pagesOf pgsize
  omega

theorem pagesOf_le_userPages (h : sz ≤ kernbase) : pagesOf sz ≤ userPages := by
  unfold pagesOf userPages kernbase pgsize at *
  omega

structure Unmapped (pd lo sz : ℕ) (s s' : Kmem) : Prop where
  gone : ∀ v, lo ≤ v → v < pagesOf sz → present (pte s'.mem pd v) = false
  rest : ∀ v < allPages, ¬ (lo ≤ v ∧ v < pagesOf sz) → pte s'.mem pd v = pte s.mem pd v

theorem Unmapped.of_le {oldsz : ℕ} (h : pagesOf oldsz ≤ lo) : Unmapped pd lo oldsz s s :=
  ⟨fun v h1 h2 => by omega, fun _ _ _ => rfl⟩

theorem pgroundup_eq (h : sz ≤ kernbase) : pgroundup sz = pagesOf sz * pgsize := by
  unfold pgroundup u32 pagesOf pgsize kernbase at *
  omega

variable {W : Set ℕ} {p : ℕ}

theorem free_role {hand : List ℕ} {R R' : ℕ → Role → Prop} {r : Role} (h : Partition s.freelist hand R W) (hp : R p r)
    (hR : ∀ q x, R' q x ↔ R q x ∧ x ≠ r) : Partition (p :: s.freelist) hand R' W := (h.detach hp hR).give

variable [Layout]

abbrev Kmem.freed (s : Kmem) (p : ℕ) : Kmem := { s with mem := memset s.mem p 1 pgsize, freelist := p :: s.freelist }

theorem wp_kfree {Q : Unit → Kmem → Prop} {E : Fault → Prop} (hp : Pg p) (hok : Q () (s.freed p)) : wp (kfree p) s Q E := by
  have hv : p2v p = p + kernbase := by
    have hlt := hp.lt_phystop
    unfold p2v u32 kernbase phystop at *
    omega
  have hn : ¬ (p % pgsize ≠ 0 ∨ p2v p < kernbase + Layout.stop ∨ p ≥ phystop) := by
    have h1 := hp.aligned
    have h2 := hp.stop_le
    have h3 := hp.lt_phystop
    omega
  rw [kfree, if_neg hn]
  exact (wp_modify _).mpr hok

theorem Changes.kfree (s : Kmem) (hp : Pg p) (hW : p ∈ W) : Changes W s (s.freed p) := by
  refine ⟨fun q hq hn => ?_, id⟩
  apply samePage_memset hp.aligned hq
  rintro rfl
  exact hn hW

namespace Owns

variable {s : Kmem} {pd p : ℕ} {hand : List ℕ} {W : Set ℕ}

theorem storeHeld (h : Owns s pd hand W) (hp : p ∈ hand) {m : Bytes} (hm : ∀ q, q % pgsize = 0 → q ≠ p → SamePage s.mem m q) :
    Owns { s with mem := m } pd hand W ∧ ∀ v < allPages, pte m pd v = pte s.mem pd v := by
  apply h.store
  · exact hm pd h.dir.aligned (h.held_ne_dir hp).symm
  · intro i hi hpr
    exact hm _ (h.tabPg hi hpr).aligned (h.held_ne_tab hp hi hpr).symm

theorem give (h : Owns s pd (p :: hand) W) :
    Owns (s.freed p) pd hand W ∧ ∀ v < allPages, pte (memset s.mem p 1 pgsize) pd v = pte s.mem pd v := by
  have hp : Pg p := h.held (by simp)
  obtain ⟨hown, hpte⟩ := h.storeHeld (by simp)
    (fun q hq hqp => samePage_memset hp.aligned hq hqp)
  exact ⟨⟨hown.part.give, hown.pages, hown.guard⟩, hpte⟩

/-- The page of `v` is freed and its entry cleared. -/
abbrev dropped (s : Kmem) (pd v : ℕ) : Kmem where
  mem := wr32 (memset s.mem (pteAddr (pte s.mem pd v)) 1 pgsize) (pteAddr (pde s.mem pd (v / 1024)) + 4 * (v % 1024)) 0
  freelist := pteAddr (pte s.mem pd v) :: s.freelist
  denied := s.denied

theorem release {v hi : ℕ} (h : Owns s pd hand W) (hv : v < userPages) (hp : present (pte s.mem pd v)) (hlo : lo ≤ v)
    (hhi : v < hi) : Owns (dropped s pd v) pd hand W ∧ Alters pd lo hi s (dropped s pd v) ∧
      ∀ u < allPages, pte (dropped s pd v).mem pd u = if u = v then 0 else pte s.mem pd u := by
  have hall := hv.trans userPages_lt_allPages
  have hti : v / 1024 < npdentries := table_lt hall
  have hpd : present (pde s.mem pd (v / 1024)) := by
    by_contra hn
    rw [pte, if_neg hn] at hp
    simp [present_zero] at hp
  have hpg : Pg (pteAddr (pte s.mem pd v)) := h.space (r := .user v) ⟨hv, hp, rfl⟩
  have htab := h.tabPg hti hpd
  have hne : pteAddr (pde s.mem pd (v / 1024)) ≠ pteAddr (pte s.mem pd v) := by
    intro heq
    have hu := h.part.unique _ (.tab (v / 1024)) (.user v) ⟨hti, hpd, heq⟩ ⟨hv, hp, rfl⟩
    simp at hu
  have hcomm : dropped s pd v = ({ s with mem := poked s pd v 0 } : Kmem).freed (pteAddr (pte s.mem pd v)) := by
    refine congrArg (fun m => (⟨m, pteAddr (pte s.mem pd v) :: s.freelist, s.denied⟩ : Kmem)) (store_comm ?_)
    have h1 := hpg.aligned
    have h2 := htab.aligned
    unfold pgsize at *
    omega
  obtain ⟨hown, hpte⟩ := (h.unmap hv hp).give
  obtain ⟨_, hpte'⟩ := h.pte_poke hall hpd (by decide : 0 < 2 ^ 32)
  have hfinal : ∀ u < allPages, pte (memset (poked s pd v 0) (pteAddr (pte s.mem pd v)) 1 pgsize) pd u =
      if u = v then 0 else pte s.mem pd u := by
    intro u hu
    rw [hpte u hu]
    exact hpte' u hu
  have hsame : ∀ q, q % pgsize = 0 → q ≠ pteAddr (pte s.mem pd v) → q ≠ pteAddr (pde s.mem pd (v / 1024)) →
      SamePage s.mem (memset (poked s pd v 0) (pteAddr (pte s.mem pd v)) 1 pgsize) q := by
    intro q hq h1 h2
    exact (samePage_wr32 htab.aligned hq h2 (Nat.mod_lt _ (by decide))).trans (samePage_memset hpg.aligned hq h1)
  have hdir : SamePage s.mem (memset (poked s pd v 0) (pteAddr (pte s.mem pd v)) 1 pgsize) pd := by
    apply hsame pd h.dir.aligned
    · intro heq
      have hu := h.part.unique pd .dir (.user v) rfl ⟨hv, hp, heq.symm⟩
      simp at hu
    · exact (h.tab_ne_dir hti hpd).symm
  rw [hcomm]
  refine ⟨hown, ⟨?_, ⟨fun q hq hn => ?_, id⟩⟩, hfinal⟩
  · rintro q ((hq | rfl | ⟨j, hj, hjp, hja⟩) | ⟨u, h1, h2, hu⟩)
    · rcases List.mem_cons.mp hq with rfl | hq
      · exact Or.inr ⟨v, hlo, hhi, hv, hp, rfl⟩
      · exact Or.inl (Or.inl hq)
    · exact Or.inl (Or.inr (Or.inl rfl))
    · rw [pde_congr hdir hj] at hjp hja
      exact Or.inl (Or.inr (Or.inr ⟨j, hj, hjp, hja⟩))
    · obtain ⟨hul, hup, hua⟩ := hu
      have hfu := hfinal u (hul.trans userPages_lt_allPages)
      simp only [hfu] at hup hua
      split_ifs at hup hua
      · simp [present_zero] at hup
      · exact Or.inr ⟨u, h1, h2, hul, hup, hua⟩
  · apply hsame q hq
    · rintro rfl
      exact hn (Or.inr ⟨v, hlo, hhi, hv, hp, rfl⟩)
    · rintro rfl
      exact hn (Or.inl (Or.inr (Or.inr ⟨_, hti, hpd, rfl⟩)))

end Owns

theorem Owns.reach_subset {hi : ℕ} {hand : List ℕ} (h : Owns s pd hand W) : reach s pd lo hi ⊆ W := by
  rintro p (hp | ⟨v, _, _, hv⟩)
  · exact h.core_subset hp
  · exact (h.part.cover p).mpr (Or.inr (Or.inr ⟨.user v, hv⟩))

section dealloc

variable {s : Kmem} {pd oldsz newsz left a lo : ℕ} {hand : List ℕ} {W : Set ℕ} {E : Fault → Prop}

theorem wp_deallocPages {Q : Unit → Kmem → Prop} (h : Owns s pd hand W) (hal : a % pgsize = 0)
    (hold : oldsz ≤ kernbase) (hfuel : oldsz ≤ a + left * pgsize) (hlo : lo ≤ a / pgsize)
    (hok : ∀ s', Owns s' pd hand W → Alters pd lo (pagesOf oldsz) s s' → Unmapped pd (a / pgsize) oldsz s s' → Q () s') :
    wp (deallocPages pd oldsz left a) s Q E := by
  induction left generalizing s a with
  | zero =>
    have hle : pagesOf oldsz ≤ a / pgsize := by
      unfold pagesOf pgsize at *
      omega
    exact wp_ret (hok s h (.refl pd lo _ s) (.of_le hle))
  | succ left ih =>
    unfold deallocPages
    simp only [wp_ite]
    constructor
    · intro hlt
      have hva : a < 2 ^ 32 := by
        unfold kernbase at hold
        omega
      have hv : a / pgsize < userPages := Nat.div_lt_div_of_lt_of_dvd (by decide) (by omega)
      have hall := hv.trans userPages_lt_allPages
      have hin : a / pgsize < pagesOf oldsz := by
        rw [lt_pagesOf]
        unfold pgsize at *
        omega
      have hnext : (a + pgsize) / pgsize = a / pgsize + 1 := by
        unfold pgsize
        omega
      rw [wp_bind]
      apply wp_walkpgdir hva
      · intro habs
        have hskip : u32 ((pdx a + 1) * 2 ^ 22) = (a / 2 ^ 22 + 1) * 2 ^ 22 := by
          unfold u32 pdx kernbase at *
          omega
        rw [hskip]
        apply ih h
        · unfold pgsize
          omega
        · unfold pgsize at *
          omega
        · unfold pgsize at *
          omega
        -- every page up to the next page table has no entry
        intro s' hown halt hun
        refine hok s' hown halt ⟨fun v h1 h2 => ?_, fun v hvl hn => ?_⟩
        · by_cases hvn : (a / 2 ^ 22 + 1) * 2 ^ 22 / pgsize ≤ v
          · exact hun.gone v hvn h2
          have hvt : v / 1024 = a / pgsize / 1024 := by
            unfold pgsize at *
            omega
          have hvl : v < allPages := by
            unfold allPages npdentries pgsize at *
            omega
          rw [hun.rest v hvl (by omega), pte, hvt, habs]
          simp [present_zero]
        · apply hun.rest v hvl
          unfold pgsize at *
          omega
      · intro hpr
        have hread : rd32 s.mem (pteAddr (pde s.mem pd (a / pgsize / 1024)) + 4 * (a / pgsize % 1024)) =
            pte s.mem pd (a / pgsize) := by
          rw [pte, if_pos hpr]
        unfold peek poke
        simp only [wp_bind, wp_get, wp_pure, wp_ite, wp_throw, hread]
        refine ⟨fun hp => ⟨fun hz => ?_, fun _ => ?_⟩, fun hp => ?_⟩
        · have hpg : Pg (pteAddr (pte s.mem pd (a / pgsize))) := h.space (r := .user (a / pgsize)) ⟨hv, hp, rfl⟩
          exact absurd hz hpg.pos
        · have hpg : Pg (pteAddr (pte s.mem pd (a / pgsize))) := h.space (r := .user (a / pgsize)) ⟨hv, hp, rfl⟩
          obtain ⟨hown1, halt1, hpte1⟩ := h.release hv hp hlo hin
          apply wp_kfree hpg
          simp only [wp_modify]
          apply ih hown1
          · unfold pgsize at *
            omega
          · unfold pgsize at *
            omega
          · omega
          intro s' hown halt hun
          refine hok s' hown (halt1.trans halt) ⟨fun v h1 h2 => ?_, fun v hvl hn => ?_⟩
          · by_cases hva : v = a / pgsize
            · rw [hva, hun.rest _ hall (by omega)]
              simp only [hpte1 _ hall, if_pos, present_zero]
            · exact hun.gone v (by omega) h2
          · rw [hun.rest v hvl (by omega)]
            simp only [hpte1 v hvl]
            rw [if_neg (by omega)]
        · have habs : present (pte s.mem pd (a / pgsize)) = false := eq_false_of_ne_true hp
          apply ih h
          · unfold pgsize at *
            omega
          · unfold pgsize at *
            omega
          · omega
          · intro s' hown halt hun
            refine hok s' hown halt ⟨fun v h1 h2 => ?_, fun v hvl hn => hun.rest v hvl (by omega)⟩
            by_cases hva : v = a / pgsize
            · rw [hva, hun.rest _ hall (by omega)]
              exact habs
            · exact hun.gone v (by omega) h2
    · intro hge
      have hle : pagesOf oldsz ≤ a / pgsize := by
        unfold pagesOf pgsize at *
        omega
      exact wp_ret (hok s h (.refl pd lo _ s) (.of_le hle))

theorem wp_deallocuvm {Q : ℕ → Kmem → Prop} (h : Owns s pd hand W) (hold : oldsz ≤ kernbase)
    (hok : ∀ s', Owns s' pd hand W → Alters pd (pagesOf newsz) (pagesOf oldsz) s s' →
      Unmapped pd (pagesOf newsz) oldsz s s' → Q (if newsz ≥ oldsz then oldsz else newsz) s') :
    wp (deallocuvm pd oldsz newsz) s Q E := by
  unfold deallocuvm
  rw [wp_ite]
  constructor
  · intro hge
    have hle : pagesOf oldsz ≤ pagesOf newsz := by
      unfold pagesOf pgsize
      omega
    have hq := hok s h (.refl pd _ _ s) (.of_le hle)
    rw [if_pos hge] at hq
    exact wp_ret hq
  · intro hlt
    have hround := pgroundup_eq (show newsz ≤ kernbase by omega)
    have hdiv : pagesOf newsz * pgsize / pgsize = pagesOf newsz := Nat.mul_div_cancel _ (by decide)
    rw [wp_bind, hround]
    apply wp_deallocPages h (Nat.mul_mod_left _ _) hold
    · unfold pgsize
      omega
    · exact hdiv.ge
    · intro s' hown halt hun
      rw [hdiv] at hun
      have hq := hok s' hown halt hun
      rw [if_neg hlt] at hq
      exact wp_ret hq

end dealloc

def tabsFrom (m : Bytes) (pd i p : ℕ) : Role → Prop
  | .dir => p = pd
  | .tab j => i ≤ j ∧ Space m pd p (.tab j)
  | .user _ => False

structure Bare (s : Kmem) (hand : List ℕ) (W : Set ℕ) : Prop where
  part : Partition s.freelist hand (fun _ (_ : Role) => False) W
  pages : ∀ p ∈ W, Pg p

variable {s : Kmem} {pd i left : ℕ} {hand : List ℕ} {W : Set ℕ} {Q : Unit → Kmem → Prop} {E : Fault → Prop}

theorem Owns.tabsFrom_zero (h : Owns s pd hand W) (hu : ∀ v < userPages, present (pte s.mem pd v) = false) :
    Partition s.freelist hand (tabsFrom s.mem pd 0) W := by
  apply h.part.congr
  intro q r
  cases r with
  | dir => rfl
  | tab j => simp [tabsFrom]
  | user v =>
    constructor
    · exact False.elim
    · rintro ⟨hv, hp, _⟩
      simp [hu v hv] at hp

theorem wp_freeTables (h : Partition s.freelist hand (tabsFrom s.mem pd i) W) (hpg : ∀ p ∈ W, Pg p) (hi : i + left = npdentries)
    (hok : ∀ s', Partition s'.freelist hand (tabsFrom s'.mem pd npdentries) W → Changes W s s' → Q () s') :
    wp (freeTables pd left i) s Q E := by
  induction left generalizing s i with
  | zero =>
    subst hi
    exact wp_ret (hok s h (.refl W s))
  | succ left ih =>
    have hin : i < npdentries := by omega
    have hdir : Pg pd := hpg pd ((h.cover pd).mpr (Or.inr (Or.inr ⟨.dir, rfl⟩)))
    unfold freeTables peek
    simp only [wp_bind, wp_get, wp_pure, wp_ite]
    constructor
    · intro hp
      have htab : tabsFrom s.mem pd i (pteAddr (pde s.mem pd i)) (.tab i) := ⟨le_rfl, hin, hp, rfl⟩
      have htW : pteAddr (pde s.mem pd i) ∈ W := (h.cover _).mpr (Or.inr (Or.inr ⟨_, htab⟩))
      have htp : Pg (pteAddr (pde s.mem pd i)) := hpg _ htW
      have hne : pd ≠ pteAddr (pde s.mem pd i) := by
        intro heq
        have hu := h.unique _ (.tab i) .dir htab heq.symm
        simp at hu
      have hsame : ∀ q, q % pgsize = 0 → q ≠ pteAddr (pde s.mem pd i) →
          SamePage s.mem (memset s.mem (pteAddr (pde s.mem pd i)) 1 pgsize) q :=
        fun q hq hqt => samePage_memset htp.aligned hq hqt
      apply wp_kfree htp
      apply ih
      · apply free_role h htab
        intro q r
        cases r with
        | dir => simp [tabsFrom]
        | tab j =>
          constructor
          · rintro ⟨hij, hj, hjp, hja⟩
            rw [pde_congr (hsame pd hdir.aligned hne) hj] at hjp hja
            refine ⟨⟨by omega, hj, hjp, hja⟩, ?_⟩
            simp only [ne_eq, Role.tab.injEq]
            omega
          · rintro ⟨⟨hij, hj, hjp, hja⟩, hne'⟩
            refine ⟨?_, hj, ?_⟩
            · simp only [ne_eq, Role.tab.injEq] at hne'
              omega
            · rw [pde_congr (hsame pd hdir.aligned hne) hj]
              exact ⟨hjp, hja⟩
        | user v => simp [tabsFrom]
      · omega
      · intro s' hpart hch
        exact hok s' hpart ((Changes.kfree s htp htW).trans hch)
    · intro hp
      apply ih
      · apply h.congr
        intro q r
        cases r with
        | dir => rfl
        | tab j =>
          constructor
          · rintro ⟨hij, hj⟩
            exact ⟨by omega, hj⟩
          · rintro ⟨hij, hj⟩
            refine ⟨?_, hj⟩
            have hji : j ≠ i := by
              rintro rfl
              exact hp hj.2.1
            omega
        | user v => rfl
      · omega
      · exact hok

theorem wp_freevm (h : Owns s pd hand W) (hok : ∀ s', Bare s' hand W → Changes W s s' → Q () s') :
    wp (freevm (some pd)) s Q E := by
  unfold freevm
  simp only [wp_bind]
  apply wp_deallocuvm h le_rfl
  intro s1 hown1 halt1 hun1
  have hnone : ∀ v < userPages, present (pte s1.mem pd v) = false := by
    intro v hv
    apply hun1.gone v
    · simp [pagesOf, pgsize]
    · rw [lt_pagesOf]
      unfold userPages kernbase pgsize at *
      omega
  apply wp_freeTables (hown1.tabsFrom_zero hnone) hown1.pages (Nat.zero_add _)
  intro s2 hpart2 hch2
  have hdW : pd ∈ W := (hpart2.cover pd).mpr (Or.inr (Or.inr ⟨.dir, rfl⟩))
  have hdp := h.pages pd hdW
  apply wp_kfree hdp
  apply hok
  · refine ⟨free_role (r := .dir) hpart2 rfl (fun q r => ?_), h.pages⟩
    cases r with
    | dir => simp
    | tab j =>
      simp only [tabsFrom, Space, ne_eq, reduceCtorEq, not_false_eq_true, and_true, false_iff, not_and]
      omega
    | user v => simp [tabsFrom]
  · exact ((halt1.changes.mono h.reach_subset).trans hch2).trans (Changes.kfree s2 hdp hdW)

end Laboratorio.Vm
