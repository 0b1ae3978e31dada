import Laboratorio.Vm.Setup

/-!
What `allocuvm` and `copyuvm` build, and that a failure takes nothing.
-/

namespace Laboratorio.Vm

open Bytes

def Holds (m : Bytes) (p : ℕ) (src : Bytes) : Prop := ∀ x < pgsize, m (p + x) = src x

theorem Holds.samePage {m m' src : Bytes} {p : ℕ} (h : Holds m p src) (hs : SamePage m m' p) : Holds m' p src := by
  intro x hx
  rw [hs (p + x) (by omega) (by omega)]
  exact h x hx

theorem holds_store (m : Bytes) (p : ℕ) (src : Bytes) : Holds (store m p pgsize src) p src := by
  intro x hx
  rw [store_of_mem (by omega) (by omega)]
  simp

def zeroes : Bytes := fun _ => 0

variable {pd lo : ℕ} {s s1 s' : Kmem}

theorem Unmapped.of_changed {sz : ℕ} (h : Unmapped pd lo sz s1 s')
    (hs : ∀ v < allPages, ¬ (lo ≤ v ∧ v < pagesOf sz) → pte s1.mem pd v = pte s.mem pd v) : Unmapped pd lo sz s s' :=
  ⟨h.gone, fun v hv hn => (h.rest v hv hn).trans (hs v hv hn)⟩

variable {hi : ℕ}

theorem Maps.alters (h : Maps pd s s1)
    (hu : ∀ p v, lo ≤ v → v < hi → Space s1.mem pd p (.user v) → p ∈ reach s pd lo hi) : Alters pd lo hi s s1 := by
  refine ⟨?_, h.changes.mono (fun p hp => Or.inl hp)⟩
  rintro p (hp | ⟨v, h1, h2, hv⟩)
  · exact Or.inl (h.shrinks hp)
  · exact hu p v h1 h2 hv

structure Outside (m : Bytes) (pgdir : ℕ) (W : Set ℕ) : Prop where
  dir : pgdir % pgsize = 0 ∧ pgdir ∉ W
  tab : ∀ i < npdentries, present (pde m pgdir i) → pteAddr (pde m pgdir i) ∉ W

theorem Outside.same {pgdir : ℕ} {W : Set ℕ} (h : Outside s.mem pgdir W) (hc : Changes W s s') :
    Outside s'.mem pgdir W ∧ ∀ v < allPages, pte s'.mem pgdir v = pte s.mem pgdir v := by
  have hd := hc.same pgdir h.dir.1 h.dir.2
  have hal : ∀ e, pteAddr e % pgsize = 0 := fun e => Nat.mul_mod_left _ _
  refine ⟨⟨h.dir, fun i hi hp => ?_⟩, fun v hv => ?_⟩
  · rw [pde_congr hd hi] at hp ⊢
    exact h.tab i hi hp
  · apply pte_congr hd hv
    intro hp
    exact hc.same _ (hal _) (h.tab _ (table_lt hv) hp)

variable [Layout]

namespace Owns

variable {s : Kmem} {pd r : ℕ} {hand next : List ℕ} {W : Set ℕ}

theorem takeStore (h : Owns s pd hand W) (hf : s.freelist = r :: next) {m : Bytes}
    (hm : ∀ q, q % pgsize = 0 → q ≠ r → SamePage s.mem m q) :
    Owns { s with mem := m, freelist := next, denied := s.denied.tail } pd (r :: hand) W ∧
      Maps pd s { s with mem := m, freelist := next, denied := s.denied.tail } ∧
      ∀ v < allPages, pte m pd v = pte s.mem pd v := by
  have htake := h.take (b := s.denied.tail) hf
  obtain ⟨hown, hpte⟩ := htake.storeHeld (by simp) hm
  refine ⟨hown, ⟨?_, ⟨fun q hq hn => ?_, fun hd => by simp [hd]⟩⟩, hpte⟩
  · rintro p (hp | rfl | ⟨i, hi, hpr, hpa⟩)
    · exact Or.inl (by rw [hf]; exact List.mem_cons_of_mem r hp)
    · exact Or.inr (Or.inl rfl)
    · have hdir : SamePage s.mem m pd := hm pd h.dir.aligned (htake.held_ne_dir (by simp)).symm
      rw [pde_congr hdir hi] at hpr hpa
      exact Or.inr (Or.inr ⟨i, hi, hpr, hpa⟩)
  · apply hm q hq
    rintro rfl
    exact hn (Or.inl (by rw [hf]; exact List.mem_cons_self))

theorem user_notMem_core (h : Owns s pd hand W) {v : ℕ} (hv : v < userPages) (hp : present (pte s.mem pd v)) :
    pteAddr (pte s.mem pd v) ∉ core s pd := by
  have hrole : Space s.mem pd (pteAddr (pte s.mem pd v)) (.user v) := ⟨hv, hp, rfl⟩
  rintro (hf | hd | ⟨i, hi⟩)
  · exact (h.part.apart _ _ hrole).2 hf
  · have hu := h.part.unique _ .dir _ hd hrole
    simp at hu
  · have hu := h.part.unique _ _ _ hi hrole
    simp at hu

end Owns

/-- A page from the free list is filled with `b` and mapped at `a`. -/
theorem wp_mapFresh {pd r a perm : ℕ} {hand next : List ℕ} {W : Set ℕ} {b : Bytes} {Q : Bool → Kmem → Prop} {E : Fault → Prop}
    (h : Owns s pd hand W) (hf : s.freelist = r :: next) (hal : a % pgsize = 0) (hva : a < kernbase) (hperm : perm < pgsize)
    (hremap : present (pte s.mem pd (a / pgsize)) → E .remap)
    (hfail : ∀ s', Owns s' pd (r :: hand) W → Maps pd s s' → (∀ v < allPages, pte s'.mem pd v = pte s.mem pd v) →
      (s.denied = [] → s'.freelist = []) → Q false s') (hok : ∀ s', Owns s' pd hand W → Pg r → Maps pd s s' →
      (∀ v < allPages, pte s'.mem pd v = if v = a / pgsize then r ||| perm ||| pteP else pte s.mem pd v) →
      Holds s'.mem r b → Q true s') :
    wp (mappages pd a pgsize r perm)
      { s with mem := store s.mem r pgsize b, freelist := next, denied := s.denied.tail } Q E := by
  have hrp : Pg r := (h.take (b := s.denied.tail) hf).held (by simp)
  obtain ⟨hown, hmaps, hpte⟩ := h.takeStore (m := store s.mem r pgsize b) hf fun q hq hqr =>
    samePage_store hrp.aligned hq hqr le_rfl le_rfl
  have hva' : a < 2 ^ 32 := hva.trans (by decide)
  have hv : a / pgsize < userPages := Nat.div_lt_div_of_lt_of_dvd (by decide) hva
  rw [mappages_page hal (by unfold kernbase pgsize at *; omega)]
  apply wp_mapPage hown hva' hrp.lt hperm
  · intro s' hown' hpr habs
    exact hown'.mapUser hv hpr habs (entry_lt hrp.lt hperm) (entry_present _) (entry_addr hrp.aligned hperm)
  · intro hp
    simp only [hpte _ (page_lt hva')] at hp
    exact hremap hp
  · intro s' hown' hmaps' hpte' hempty
    exact hfail s' hown' (hmaps.trans hmaps') (fun v hv => (hpte' v hv).trans (hpte v hv)) fun hd => hempty (by simp [hd])
  · intro s' hown' hmaps' hpte'
    have hnot : r ∉ core { s with mem := store s.mem r pgsize b, freelist := next, denied := s.denied.tail } pd := by
      rintro (hrf | hrd | ⟨i, hi, hpr, hpa⟩)
      · have hn := hown.part.nodup
        rw [List.cons_append, List.nodup_cons, List.mem_append, not_or] at hn
        exact hn.1.2 hrf
      · exact hown.held_ne_dir (by simp) hrd
      · exact hown.held_ne_tab (by simp) hi hpr hpa.symm
    refine hok s' hown' hrp (hmaps.trans hmaps') (fun v hv => ?_)
      ((holds_store s.mem r b).samePage (hmaps'.changes.same r hrp.aligned hnot))
    rw [hpte' v hv]
    split_ifs
    · rfl
    · exact hpte v hv

theorem Owns.small_of_lt {pd n : ℕ} {hand : List ℕ} {W : Set ℕ} (h : Owns s pd hand W) (hf : s.freelist = [])
    (hlow : ∀ v < userPages, present (pte s.mem pd v) → v < n) : Small (hand.length + 1 + npdentries + n) W := by
  simpa using h.small hf fun v hv hp => List.mem_range.mpr (hlow v hv hp)

structure Grown (pd lo hi : ℕ) (perm : ℕ → ℕ) (src : ℕ → Bytes) (s s' : Kmem) : Prop where
  fresh : ∀ v, lo ≤ v → v < hi → ∃ p, Pg p ∧ pte s'.mem pd v = p ||| perm v ||| pteP ∧ Holds s'.mem p (src v)
  rest : ∀ v < allPages, ¬ (lo ≤ v ∧ v < hi) → pte s'.mem pd v = pte s.mem pd v

theorem Grown.of_le {perm : ℕ → ℕ} {src : ℕ → Bytes} (h : hi ≤ lo) :
    Grown pd lo hi perm src s s := ⟨fun v h1 h2 => by omega, fun _ _ _ => rfl⟩

theorem Grown.cons {v0 p : ℕ} {perm : ℕ → ℕ} {src : ℕ → Bytes} {hand : List ℕ} {W : Set ℕ}
    (hown1 : Owns s1 pd hand W) (hv0 : v0 < hi) (hhi : hi ≤ userPages) (hp : Pg p) (hperm : perm v0 < pgsize)
    (hpte1 : ∀ v < allPages, pte s1.mem pd v = if v = v0 then p ||| perm v0 ||| pteP else pte s.mem pd v)
    (hold : Holds s1.mem p (src v0)) (hmaps : Maps pd s1 s') (hg : Grown pd (v0 + 1) hi perm src s1 s') :
    Grown pd v0 hi perm src s s' := by
  have hall : v0 < allPages := (hv0.trans_le hhi).trans userPages_lt_allPages
  refine ⟨fun v h1 h2 => ?_, fun v hv hn => ?_⟩
  · by_cases hvv : v = v0
    · subst hvv
      have hentry := hpte1 v hall
      rw [if_pos rfl] at hentry
      refine ⟨p, hp, ?_, ?_⟩
      · rw [hg.rest v hall (by omega), hentry]
      · have hnot := hown1.user_notMem_core (hv0.trans_le hhi) (by rw [hentry]; exact entry_present _)
        rw [hentry, entry_addr hp.aligned hperm] at hnot
        exact hold.samePage (hmaps.changes.same p hp.aligned hnot)
    · exact hg.fresh v (by omega) h2
  · rw [hg.rest v hv (by omega), hpte1 v hv, if_neg (by omega)]

/-- With no failure of `kalloc` but for want of pages, there are none left for the first `sz` bytes. -/
def Starved (pd sz : ℕ) (hand : List ℕ) (W : Set ℕ) (s : Kmem) : Prop :=
  s.denied = [] → (∀ v < userPages, present (pte s.mem pd v) → v < pagesOf sz) →
    Small (hand.length + 2 + npdentries + pagesOf sz) W

section allocuvm

variable {s : Kmem} {pd oldsz newsz left a : ℕ} {hand : List ℕ} {W : Set ℕ} {Q : ℕ → Kmem → Prop} {E : Fault → Prop}

theorem wp_allocPages (h : Owns s pd hand W) (hnew : newsz < kernbase) (hal : a % pgsize = 0)
    (ho : pagesOf oldsz ≤ a / pgsize) (hleft : left = pagesOf newsz - a / pgsize)
    (hremap : ∀ v, a / pgsize ≤ v → v < pagesOf newsz → present (pte s.mem pd v) → E .remap)
    (hfail : ∀ s', Owns s' pd hand W → Alters pd (pagesOf oldsz) (pagesOf newsz) s s' →
      Unmapped pd (pagesOf oldsz) newsz s s' → Starved pd newsz hand W s → Q 0 s')
        (hok : ∀ s', Owns s' pd hand W → Maps pd s s' →
      Grown pd (a / pgsize) (pagesOf newsz) (fun _ => pteW ||| pteU) (fun _ => zeroes) s s' → Q newsz s') :
    wp (allocPages pd oldsz newsz left a) s Q E := by
  induction left generalizing s a with
  | zero => exact wp_ret (hok s h (.refl pd s) (.of_le (by omega)))
  | succ left ih =>
    have hv : a / pgsize < pagesOf newsz := by omega
    have hhi : pagesOf newsz ≤ userPages := pagesOf_le_userPages (by omega)
    have hva : a < kernbase := by
      unfold pagesOf userPages kernbase pgsize at *
      omega
    have hnext : (a + pgsize) / pgsize = a / pgsize + 1 := by
      unfold pgsize
      omega
    have hperm : pteW ||| pteU < pgsize := by decide
    unfold allocPages clearPage
    rw [wp_bind]
    apply wp_kalloc
    · intro hempty
      simp only [wp_bind]
      apply wp_deallocuvm (h.setDenied s.denied.tail) hnew.le
      intro s' hown halt hun
      apply wp_ret
      refine hfail s' hown ⟨halt.shrinks, ⟨halt.changes.same, fun hd => halt.changes.fair (by simp [hd])⟩⟩ ⟨hun.gone, hun.rest⟩
        fun hd hlow => ?_
      exact (h.small_of_lt (hempty hd) hlow).mono (by omega)
    · intro r next hf
      simp only [wp_bind, wp_modify]
      apply wp_mapFresh (b := zeroes) h hf hal hva hperm
      · exact hremap _ le_rfl hv
      · intro s1 hown1 hmaps1 hpte1 hempty
        simp only [Bool.false_eq_true, if_false, wp_bind]
        apply wp_deallocuvm hown1 hnew.le
        intro s2 hown2 halt2 hun2
        have hrp2 : Pg r := hown2.held (by simp)
        have halt01 : Alters pd (pagesOf oldsz) (pagesOf newsz) s s1 := by
          refine hmaps1.alters (fun p v h1 h2 hp => Or.inr ⟨v, h1, h2, ?_⟩)
          obtain ⟨hvu, hpr, hpa⟩ := hp
          rw [hpte1 v (hvu.trans userPages_lt_allPages)] at hpr hpa
          exact ⟨hvu, hpr, hpa⟩
        obtain ⟨hown3, hpte3⟩ := hown2.give
        apply wp_kfree hrp2
        apply wp_ret
        refine hfail _ hown3 ?_ ?_ fun hd hlow => ?_
        · have hrs : r ∈ reach s pd (pagesOf oldsz) (pagesOf newsz) :=
            Or.inl (Or.inl (by rw [hf]; exact List.mem_cons_self))
          have halt02 := halt01.trans halt2
          refine ⟨?_, halt02.changes.trans (Changes.kfree s2 hrp2 hrs)⟩
          rintro p ((hp | rfl | ⟨i, hi, hpr, hpa⟩) | ⟨v, h1, h2, hvu, hpr, hpa⟩)
          · rcases List.mem_cons.mp hp with rfl | hp
            · exact hrs
            · exact halt02.shrinks (Or.inl (Or.inl hp))
          · exact Or.inl (Or.inr (Or.inl rfl))
          · rw [pde_congr (samePage_memset hrp2.aligned hown2.dir.aligned (hown2.held_ne_dir (by simp)).symm) hi] at hpr hpa
            exact halt02.shrinks (Or.inl (Or.inr (Or.inr ⟨i, hi, hpr, hpa⟩)))
          · simp only [hpte3 v (hvu.trans userPages_lt_allPages)] at hpr hpa
            exact halt02.shrinks (Or.inr ⟨v, h1, h2, hvu, hpr, hpa⟩)
        · have hun02 : Unmapped pd (pagesOf oldsz) newsz s s2 := hun2.of_changed (fun v hv _ => hpte1 v hv)
          refine ⟨fun v h1 h2 => ?_, fun v hv hn => ?_⟩
          · have hvl : v < allPages := (h2.trans_le hhi).trans userPages_lt_allPages
            simp only [hpte3 v hvl]
            exact hun02.gone v h1 h2
          · simp only [hpte3 v hv]
            exact hun02.rest v hv hn
        · refine (hown1.small_of_lt (n := pagesOf newsz) (hempty hd) fun v hv hp => ?_).mono
            (by simp only [List.length_cons]; omega)
          rw [hpte1 v (hv.trans userPages_lt_allPages)] at hp
          exact hlow v hv hp
      · intro s1 hown1 hrp hmaps1 hpte1 hhold
        apply ih hown1
        · unfold pgsize at *
          omega
        · omega
        · omega
        · intro v h1 h2 hp
          have hvl : v < allPages := (h2.trans_le hhi).trans userPages_lt_allPages
          rw [hpte1 v hvl, if_neg (by omega)] at hp
          exact hremap v (by omega) h2 hp
        · intro s' hown halt hun hstarved
          refine hfail s' hown (Alters.trans ?_ halt) (hun.of_changed (fun v hv hn => ?_)) fun hd hlow => ?_
          · refine hmaps1.alters (fun p v h1 h2 hp => ?_)
            obtain ⟨hvu, hpr, hpa⟩ := hp
            rw [hpte1 v (hvu.trans userPages_lt_allPages)] at hpr hpa
            split_ifs at hpr hpa
            · rw [entry_addr hrp.aligned hperm] at hpa
              exact Or.inl (Or.inl (by rw [hf, ← hpa]; exact List.mem_cons_self))
            · exact Or.inr ⟨v, h1, h2, hvu, hpr, hpa⟩
          · rw [hpte1 v hv, if_neg (by omega)]
          · apply hstarved (hmaps1.changes.fair hd)
            intro v hvu hp
            rw [hpte1 v (hvu.trans userPages_lt_allPages)] at hp
            split_ifs at hp with hva
            · omega
            · exact hlow v hvu hp
        · intro s' hown hmaps hg
          rw [hnext] at hg
          exact hok s' hown (hmaps1.trans hmaps) (Grown.cons hown1 hv hhi hrp hperm hpte1 hhold hmaps hg)

theorem wp_allocuvm (h : Owns s pd hand W) (hold : oldsz ≤ kernbase)
    (hremap : ∀ v, pagesOf oldsz ≤ v → v < pagesOf newsz → newsz < kernbase → present (pte s.mem pd v) → E .remap)
    (hbig : kernbase ≤ newsz → Q 0 s) (hless : newsz < oldsz → Q oldsz s)
    (hfail : ∀ s', Owns s' pd hand W → Alters pd (pagesOf oldsz) (pagesOf newsz) s s' →
      Unmapped pd (pagesOf oldsz) newsz s s' → Starved pd newsz hand W s → Q 0 s')
    (hok : ∀ s', oldsz ≤ newsz → newsz < kernbase → Owns s' pd hand W → Maps pd s s' →
      Grown pd (pagesOf oldsz) (pagesOf newsz) (fun _ => pteW ||| pteU) (fun _ => zeroes) s s' → Q newsz s') :
    wp (allocuvm pd oldsz newsz) s Q E := by
  have hdiv : pagesOf oldsz * pgsize / pgsize = pagesOf oldsz := Nat.mul_div_cancel _ (by decide)
  unfold allocuvm
  simp only [wp_ite, wp_pure, ge_iff_le]
  refine ⟨hbig, fun hlt => ⟨hless, fun hge => ?_⟩⟩
  rw [pgroundup_eq hold]
  have hrounds : (newsz - pagesOf oldsz * pgsize + pgsize - 1) / pgsize =
      pagesOf newsz - pagesOf oldsz * pgsize / pgsize := by
    unfold pagesOf pgsize
    omega
  apply wp_allocPages h (by omega) (Nat.mul_mod_left _ _) hdiv.ge hrounds
  · rw [hdiv]
    intro v h1 h2 hp
    exact hremap v h1 h2 (by omega) hp
  · exact hfail
  · intro s' hown hmaps hg
    rw [hdiv] at hg
    exact hok s' (by omega) (by omega) hown hmaps hg

end allocuvm

variable {s : Kmem} {pgdir d sz left i : ℕ} {hand : List ℕ} {W : Set ℕ} {Q : Option ℕ → Kmem → Prop} {E : Fault → Prop}

def parentPerm (m : Bytes) (pgdir v : ℕ) : ℕ := pteFlags (pte m pgdir v)

def parentPage (m : Bytes) (pgdir v : ℕ) : Bytes := fun x => m (pteAddr (pte m pgdir v) + x)

theorem wp_copyPages (h : Owns s d hand W) (hout : Outside s.mem pgdir W)
    (hbytes : ∀ v, i / pgsize ≤ v → v < pagesOf sz → present (pte s.mem pgdir v) → pteAddr (pte s.mem pgdir v) ∉ W)
    (hsz : sz ≤ kernbase) (hal : i % pgsize = 0) (hleft : left = pagesOf sz - i / pgsize)
    (hpanic : ∀ v, i / pgsize ≤ v → v < pagesOf sz → present (pte s.mem pgdir v) = false → E .copyuvmPte ∧ E .copyuvmPage)
    (hlow : ∀ v < userPages, present (pte s.mem d v) → v < i / pgsize)
    (hfail : ∀ s', Bare s' hand W → Changes W s s' →
    (s.denied = [] → Small (hand.length + 2 + npdentries + pagesOf sz) W) → Q none s')
    (hok : ∀ s', (∀ v, i / pgsize ≤ v → v < pagesOf sz → present (pte s.mem pgdir v)) → Owns s' d hand W →
      Maps d s s' → Grown d (i / pgsize) (pagesOf sz) (parentPerm s.mem pgdir) (parentPage s.mem pgdir) s s' → Q (some d) s') :
    wp (copyPages pgdir d left i) s Q E := by
  induction left generalizing s i with
  | zero => exact wp_ret (hok s (fun v h1 h2 => by omega) h (.refl d s) (.of_le (by omega)))
  | succ left ih =>
    have hv : i / pgsize < pagesOf sz := by omega
    have hhi : pagesOf sz ≤ userPages := pagesOf_le_userPages (by omega)
    have hall : i / pgsize < allPages := (hv.trans_le hhi).trans userPages_lt_allPages
    have hva : i < kernbase := by
      unfold pagesOf userPages kernbase pgsize at *
      omega
    have hva' : i < 2 ^ 32 := hva.trans (by decide)
    have hnext : (i + pgsize) / pgsize = i / pgsize + 1 := by
      unfold pgsize
      omega
    unfold copyPages
    rw [wp_bind]
    apply wp_walkpgdir hva'
    · intro hnp
      rw [wp_throw]
      refine (hpanic _ le_rfl hv ?_).1
      rw [pte, hnp]
      simp [present_zero]
    intro hpr
    have hread : rd32 s.mem (pteAddr (pde s.mem pgdir (i / pgsize / 1024)) + 4 * (i / pgsize % 1024)) =
        pte s.mem pgdir (i / pgsize) := by
      rw [pte, if_pos hpr]
    have hperm : pteFlags (pte s.mem pgdir (i / pgsize)) < pgsize := Nat.mod_lt _ (by decide)
    unfold peek
    simp only [wp_bind, wp_get, wp_pure, wp_ite, wp_throw, hread]
    refine ⟨fun hp => ?_, fun hnp => (hpanic _ le_rfl hv (eq_false_of_ne_true hnp)).2⟩
    have hrange : ∀ v < userPages, present (pte s.mem d v) → v < pagesOf sz := fun v hv' hp => (hlow v hv' hp).trans hv
    apply wp_kalloc
    · intro hempty
      simp only [wp_bind]
      apply wp_freevm (h.setDenied s.denied.tail)
      intro s' hbare hch
      refine wp_ret (hfail s' hbare ⟨hch.same, fun hd => hch.fair (by simp [hd])⟩ fun hd => ?_)
      exact (h.small_of_lt (hempty hd) hrange).mono (by omega)
    intro r next hf
    have hrW : r ∈ W := (h.part.cover r).mpr (Or.inr (Or.inl (by rw [hf]; exact List.mem_cons_self)))
    simp only [wp_bind, wp_modify]
    apply wp_mapFresh (b := parentPage s.mem pgdir (i / pgsize)) h hf hal hva hperm
    · intro hp
      exact absurd (hlow _ (hv.trans_le hhi) hp) (Nat.lt_irrefl _)
    · intro s1 hown1 hmaps1 hpte1 hempty
      simp only [Bool.false_eq_true, if_false, wp_bind]
      have hrp1 : Pg r := hown1.held (by simp)
      obtain ⟨hown2, _⟩ := hown1.give
      apply wp_kfree hrp1
      apply wp_freevm hown2
      intro s' hbare hch
      have hch01 := hmaps1.changes.mono h.core_subset
      refine wp_ret (hfail s' hbare ((hch01.trans (Changes.kfree s1 hrp1 hrW)).trans hch) fun hd => ?_)
      refine (hown1.small_of_lt (n := pagesOf sz) (hempty hd) fun v hv hp => hrange v hv ?_).mono
        (by simp only [List.length_cons]; omega)
      rwa [hpte1 v (hv.trans userPages_lt_allPages)] at hp
    · intro s1 hown1 hrp hmaps1 hpte1 hhold
      obtain ⟨hout1, hpar1⟩ := hout.same (hmaps1.changes.mono h.core_subset)
      apply ih hown1 hout1
      · intro v h1 h2 hp
        have hvl : v < allPages := (h2.trans_le hhi).trans userPages_lt_allPages
        rw [hpar1 v hvl] at hp ⊢
        exact hbytes v (by omega) h2 hp
      · unfold pgsize at *
        omega
      · omega
      · intro v h1 h2 hp
        have hvl : v < allPages := (h2.trans_le hhi).trans userPages_lt_allPages
        rw [hpar1 v hvl] at hp
        exact hpanic v (by omega) h2 hp
      · intro v hv hp
        rw [hpte1 v (hv.trans userPages_lt_allPages)] at hp
        split_ifs at hp with hvi
        · omega
        · exact hnext ▸ Nat.lt_succ_of_lt (hlow v hv hp)
      · intro s' hbare hch hst
        exact hfail s' hbare ((hmaps1.changes.mono h.core_subset).trans hch) fun hd => hst (hmaps1.changes.fair hd)
      · intro s' hpres hown hmaps hg
        rw [hnext] at hg hpres
        have hpres' : ∀ v, i / pgsize ≤ v → v < pagesOf sz → present (pte s.mem pgdir v) := by
          intro v h1 h2
          by_cases hvi : v = i / pgsize
          · rw [hvi]
            exact hp
          · rw [← hpar1 v ((h2.trans_le hhi).trans userPages_lt_allPages)]
            exact hpres v (by omega) h2
        refine hok s' hpres' hown (hmaps1.trans hmaps) (Grown.cons hown1 hv hhi hrp hperm hpte1 hhold hmaps
          ⟨fun v h1 h2 => ?_, hg.rest⟩)
        -- the parent's pages have not changed meanwhile
        have hvl : v < allPages := (h2.trans_le hhi).trans userPages_lt_allPages
        obtain ⟨p, hpg, hpe, hph⟩ := hg.fresh v h1 h2
        rw [parentPerm, hpar1 v hvl] at hpe
        refine ⟨p, hpg, hpe, fun x hx => ?_⟩
        have hsrc := (hmaps1.changes.mono h.core_subset).same (pteAddr (pte s.mem pgdir v)) (Nat.mul_mod_left _ _)
          (hbytes v (by omega) h2 (hpres' v (by omega) h2))
        rw [hph x hx, parentPage, parentPage, hpar1 v hvl]
        exact hsrc _ (by omega) (by omega)

theorem wp_copyuvm (h : Bare s hand W) (hout : Outside s.mem pgdir W)
    (hbytes : ∀ v < pagesOf sz, present (pte s.mem pgdir v) → pteAddr (pte s.mem pgdir v) ∉ W) (hsz : sz ≤ kernbase)
    (hpanic : ∀ v < pagesOf sz, present (pte s.mem pgdir v) = false → E .copyuvmPte ∧ E .copyuvmPage)
    (hfail : ∀ s', Bare s' hand W → Changes W s s' →
    (s.denied = [] → Small (hand.length + 2 + npdentries + pagesOf sz) W) → Q none s')
    (hok : ∀ d s', (∀ v < pagesOf sz, present (pte s.mem pgdir v)) → Owns s' d hand W → d ∈ s.freelist →
      Changes {p | p ∈ s.freelist} s s' →
      (∀ v < pagesOf sz, ∃ p, Pg p ∧ pte s'.mem d v = p ||| parentPerm s.mem pgdir v ||| pteP ∧
        Holds s'.mem p (parentPage s.mem pgdir v)) →
      (∀ v < allPages, pagesOf sz ≤ v → pte s'.mem d v = kernelPtes kmap (fun _ => 0) v) → Q (some d) s') :
    wp (copyuvm pgdir sz) s Q E := by
  have hhi : pagesOf sz ≤ userPages := pagesOf_le_userPages hsz
  have hW : {p | p ∈ s.freelist} ⊆ W := fun p hp => (h.part.cover p).mpr (Or.inr (Or.inl hp))
  unfold copyuvm
  rw [wp_bind]
  apply wp_setupkvm h
  · intro s' hbare hch hst
    exact wp_ret (hfail s' hbare hch fun hd => (hst hd).mono (by omega))
  intro d s1 hown1 hd hcore1 hch1 hpte1
  obtain ⟨hout1, hpar1⟩ := hout.same (hch1.mono hW)
  have hpar : ∀ v < pagesOf sz, pte s1.mem pgdir v = pte s.mem pgdir v := by
    intro v hv
    exact hpar1 v ((hv.trans_le hhi).trans userPages_lt_allPages)
  have hzero : 0 / pgsize = 0 := Nat.zero_div _
  apply wp_copyPages hown1 hout1 _ hsz (Nat.zero_mod _) (by rw [hzero]; rfl)
  · intro v _ h2 hp
    rw [hpar v h2] at hp
    exact hpanic v h2 hp
  · intro v hv hp
    rw [hpte1 v (hv.trans userPages_lt_allPages), kernelPtes_user kmap_ordered hv, present_zero] at hp
    exact absurd hp Bool.false_ne_true
  · intro s' hbare hch hst
    exact hfail s' hbare ((hch1.mono hW).trans hch) fun hd => hst (hch1.fair hd)
  · intro s' hpres hown hmaps hg
    have hpres' : ∀ v < pagesOf sz, present (pte s.mem pgdir v) := by
      intro v hv
      rw [← hpar v hv]
      exact hpres v (Nat.zero_le v) hv
    refine hok d s' hpres' hown hd (hch1.trans (hmaps.changes.mono hcore1)) (fun v hv => ?_) (fun v hv hge => ?_)
    · obtain ⟨p, hpg, hpe, hph⟩ := hg.fresh v (Nat.zero_le v) hv
      rw [parentPerm, hpar v hv] at hpe
      refine ⟨p, hpg, hpe, fun x hx => ?_⟩
      have hsrc := (hch1.mono hW).same (pteAddr (pte s.mem pgdir v)) (Nat.mul_mod_left _ _) (hbytes v hv (hpres' v hv))
      rw [hph x hx, parentPage, parentPage, hpar v hv]
      exact hsrc _ (by omega) (by omega)
    · rw [hg.rest v hv (by omega)]
      exact hpte1 v hv
  · intro v _ h2 hp
    rw [hpar v h2] at hp ⊢
    exact hbytes v h2 hp

end Laboratorio.Vm
