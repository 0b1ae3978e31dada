import Laboratorio.Lib.Partition
import Laboratorio.Vm.Paging

/-!
An address space read off physical memory, and what a single store does to it.
-/

namespace Laboratorio.Vm

open Bytes

theorem present_iff {e : ℕ} : present e = true ↔ e.testBit 0 = true := by
  simp [present, pteP, Nat.testBit_zero, Nat.and_one_is_mod]

theorem present_zero : present 0 = false := rfl

theorem userOk_iff {e : ℕ} : userOk e = e.testBit 2 := by
  have h : e &&& pteU = if e.testBit 2 then 4 else 0 := by
    have h := Nat.and_two_pow e 2
    rw [pteU, show (4 : ℕ) = 2 ^ 2 by rfl, h]
    cases e.testBit 2 <;> simp
  unfold userOk
  rw [h]
  cases e.testBit 2 <;> simp

def SamePage (m m' : Bytes) (p : ℕ) : Prop := ∀ x, p ≤ x → x < p + pgsize → m' x = m x

variable {m : Bytes} {p q i j v : ℕ}

theorem SamePage.trans {m' m'' : Bytes} (h : SamePage m m' p) (h' : SamePage m' m'' p) : SamePage m m'' p := by
  intro x h1 h2
  rw [h' x h1 h2, h x h1 h2]

theorem SamePage.rd32 {m' : Bytes} (h : SamePage m m' p) (hi : i < 1024) : rd32 m' (p + 4 * i) = rd32 m (p + 4 * i) := by
  apply rd_congr
  intro x h1 h2
  have hx : x < p + pgsize := by
    unfold pgsize
    omega
  exact h x (by omega) hx

section

variable (hp : p % pgsize = 0)

include hp

theorem pteAddr_or {f : ℕ} (hf : f < pgsize) : pteAddr (p ||| f) = p := by
  obtain ⟨k, rfl⟩ : ∃ k, p = 2 ^ 12 * k := ⟨p / pgsize, by unfold pgsize at *; omega⟩
  have hor := Nat.two_pow_add_eq_or_of_lt (i := 12) hf k
  unfold pteAddr pgsize at *
  omega

theorem pteFlags_or {f : ℕ} (hf : f < pgsize) : pteFlags (p ||| f) = f := by
  obtain ⟨k, rfl⟩ : ∃ k, p = 2 ^ 12 * k := ⟨p / pgsize, by unfold pgsize at *; omega⟩
  have hor := Nat.two_pow_add_eq_or_of_lt (i := 12) hf k
  unfold pteFlags pgsize at *
  omega

theorem rd32_wr32 (hq : q % pgsize = 0) (hi : i < 1024) (hj : j < 1024) (hv : v < 2 ^ 32) :
    rd32 (wr32 m (p + 4 * j) v) (q + 4 * i) = if q = p ∧ i = j then v else rd32 m (q + 4 * i) := by
  by_cases h : q = p ∧ i = j
  · obtain ⟨rfl, rfl⟩ := h
    rw [if_pos ⟨rfl, rfl⟩]
    exact rd_wr m _ hv
  · rw [if_neg h]
    apply rd_store_of_disjoint
    unfold pgsize at hp hq
    omega

theorem rd32_memset (hq : q % pgsize = 0) (hi : i < 1024) :
    rd32 (memset m p 0 pgsize) (q + 4 * i) = if q = p then 0 else rd32 m (q + 4 * i) := by
  unfold pgsize at hp hq ⊢
  by_cases h : q = p
  · rw [if_pos h, h]
    apply rd_memset_zero <;> omega
  · rw [if_neg h]
    apply rd_store_of_disjoint
    omega

theorem samePage_store {src : Bytes} {a n : ℕ} (hq : q % pgsize = 0) (hpq : q ≠ p)
    (ha : p ≤ a) (hn : a + n ≤ p + pgsize) : SamePage m (store m a n src) q := by
  intro x h1 h2
  apply store_of_notMem
  unfold pgsize at *
  omega

theorem samePage_wr32 {i v : ℕ} (hq : q % pgsize = 0) (hpq : q ≠ p) (hi : i < 1024) : SamePage m (wr32 m (p + 4 * i) v) q := by
  apply samePage_store hp hq hpq
  · omega
  · unfold pgsize
    omega

theorem samePage_memset {c : UInt8} (hq : q % pgsize = 0) (hpq : q ≠ p) :
    SamePage m (memset m p c pgsize) q := samePage_store hp hq hpq le_rfl le_rfl

end

def pde (m : Bytes) (pd i : ℕ) : ℕ := rd32 m (pd + 4 * i)

def pte (m : Bytes) (pd v : ℕ) : ℕ :=
  if present (pde m pd (v / 1024)) then rd32 m (pteAddr (pde m pd (v / 1024)) + 4 * (v % 1024)) else 0

inductive Role
  | dir
  | tab (i : ℕ)
  | user (v : ℕ)
  deriving DecidableEq

def userPages : ℕ := kernbase / pgsize

def allPages : ℕ := npdentries * 1024

theorem table_lt {v : ℕ} (h : v < allPages) : v / 1024 < npdentries := by
  unfold allPages npdentries at *
  omega

def Space (m : Bytes) (pd p : ℕ) : Role → Prop
  | .dir => p = pd
  | .tab i => i < npdentries ∧ present (pde m pd i) ∧ pteAddr (pde m pd i) = p
  | .user v => v < userPages ∧ present (pte m pd v) ∧ pteAddr (pte m pd v) = p

section congr

variable {m m' : Bytes} {pd : ℕ}

theorem pde_congr (hd : SamePage m m' pd) {i : ℕ} (hi : i < npdentries) : pde m' pd i = pde m pd i := hd.rd32 hi

theorem pte_congr (hd : SamePage m m' pd) {v : ℕ} (hv : v < allPages)
    (ht : present (pde m pd (v / 1024)) → SamePage m m' (pteAddr (pde m pd (v / 1024)))) : pte m' pd v = pte m pd v := by
  unfold pte
  rw [pde_congr hd (table_lt hv)]
  by_cases hp : present (pde m pd (v / 1024))
  · rw [if_pos hp, if_pos hp]
    exact (ht hp).rd32 (Nat.mod_lt _ (by decide))
  · rw [if_neg hp, if_neg hp]

theorem userPages_lt_allPages : userPages < allPages := by decide

theorem space_iff {r : Role} (hd : ∀ i < npdentries, pde m' pd i = pde m pd i)
    (ht : ∀ v < userPages, pte m' pd v = pte m pd v) : Space m' pd p r ↔ Space m pd p r := by
  cases r with
  | dir => rfl
  | tab i =>
    apply and_congr_right
    intro hi
    rw [hd i hi]
  | user v =>
    apply and_congr_right
    intro hv
    rw [ht v hv]

end congr

def newPde (t : ℕ) : ℕ := t ||| pteP ||| pteW ||| pteU

theorem newPde_eq {t : ℕ} : newPde t = t ||| 7 := by
  unfold newPde pteP pteW pteU
  rw [Nat.or_assoc, Nat.or_assoc]
  rfl

theorem newPde_present {t : ℕ} : present (newPde t) = true := by
  rw [present_iff, newPde_eq, Nat.testBit_or]
  simp

variable [Layout]

structure Pg (p : ℕ) : Prop where
  aligned : p % pgsize = 0
  stop_le : Layout.stop ≤ p
  lt_phystop : p < phystop

theorem Pg.pos (h : Pg p) : p ≠ 0 := by
  have h1 := Layout.extmem_lt
  have h2 := Layout.data_le
  have h3 := h.stop_le
  omega

theorem Pg.lt (h : Pg p) : p < 2 ^ 32 := by
  have := h.lt_phystop
  unfold phystop at this
  omega

structure Owns (s : Kmem) (pd : ℕ) (hand : List ℕ) (W : Set ℕ) : Prop where
  part : Partition s.freelist hand (Space s.mem pd) W
  pages : ∀ p ∈ W, Pg p
  guard : ∀ v, userPages ≤ v → v < allPages → userOk (pte s.mem pd v) = false

namespace Owns

variable {s : Kmem} {pd : ℕ} {hand : List ℕ} {W : Set ℕ} {p : ℕ}

section

variable (h : Owns s pd hand W)

include h

theorem space {r : Role} (hr : Space s.mem pd p r) : Pg p :=
  h.pages p ((h.part.cover p).mpr (Or.inr (Or.inr ⟨r, hr⟩)))

theorem held (hp : p ∈ hand) : Pg p :=
  h.pages p ((h.part.cover p).mpr (Or.inl hp))

theorem dir : Pg pd := h.space (r := .dir) rfl

theorem tabPg (hi : i < npdentries) (hp : present (pde s.mem pd i)) :
    Pg (pteAddr (pde s.mem pd i)) := h.space (r := .tab i) ⟨hi, hp, rfl⟩

theorem tab_ne_dir (hi : i < npdentries) (hp : present (pde s.mem pd i)) : pteAddr (pde s.mem pd i) ≠ pd := by
  intro heq
  have hu := h.part.unique _ (.tab i) .dir ⟨hi, hp, rfl⟩ heq
  simp at hu

theorem tab_inj {j : ℕ} (hi : i < npdentries) (hj : j < npdentries)
    (hp : present (pde s.mem pd i)) (hq : present (pde s.mem pd j))
    (heq : pteAddr (pde s.mem pd i) = pteAddr (pde s.mem pd j)) : i = j := by
  have hu := h.part.unique _ (.tab i) (.tab j) ⟨hi, hp, heq⟩ ⟨hj, hq, rfl⟩
  simpa using hu

theorem held_ne_dir (hp : p ∈ hand) : p ≠ pd := by
  rintro rfl
  exact (h.part.apart p .dir rfl).1 hp

theorem held_ne_tab (hp : p ∈ hand) (hi : i < npdentries) (hpr : present (pde s.mem pd i)) : p ≠ pteAddr (pde s.mem pd i) := by
  rintro rfl
  exact (h.part.apart _ (.tab i) ⟨hi, hpr, rfl⟩).1 hp

end

variable {t : ℕ}

theorem newPde_addr (ht : Pg t) : pteAddr (newPde t) = t := by
  rw [newPde_eq]
  exact pteAddr_or ht.aligned (by decide)

theorem newTable (h : Owns s pd (t :: hand) W) (hi : i < npdentries) (habs : present (pde s.mem pd i) = false) :
    Owns { s with mem := wr32 (memset s.mem t 0 pgsize) (pd + 4 * i) (newPde t) } pd hand W ∧
      (∀ j < npdentries, pde (wr32 (memset s.mem t 0 pgsize) (pd + 4 * i) (newPde t)) pd j =
        if j = i then newPde t else pde s.mem pd j) ∧
      ∀ v < allPages, pte (wr32 (memset s.mem t 0 pgsize) (pd + 4 * i) (newPde t)) pd v = pte s.mem pd v := by
  have htp : Pg t := h.held (by simp)
  have hdp : Pg pd := h.dir
  have htd : t ≠ pd := h.held_ne_dir (by simp)
  have hlt : newPde t < 2 ^ 32 := by
    rw [newPde_eq]
    exact Nat.or_lt_two_pow htp.lt (by decide)
  let m' := wr32 (memset s.mem t 0 pgsize) (pd + 4 * i) (newPde t)
  have hword : ∀ q j, q % pgsize = 0 → j < 1024 → rd32 m' (q + 4 * j) =
      if q = pd ∧ j = i then newPde t else if q = t then 0 else rd32 s.mem (q + 4 * j) := by
    intro q j hq hj
    rw [rd32_wr32 hdp.aligned hq hj hi hlt, rd32_memset htp.aligned hq hj]
  have hpde : ∀ j < npdentries, pde m' pd j = if j = i then newPde t else pde s.mem pd j := by
    intro j hj
    have hw := hword pd j hdp.aligned hj
    rw [if_neg htd.symm] at hw
    simpa [pde] using hw
  have hpte : ∀ v < allPages, pte m' pd v = pte s.mem pd v := by
    intro v hv
    have hvi := table_lt hv
    have hmod : v % 1024 < 1024 := Nat.mod_lt _ (by decide)
    unfold pte
    rw [hpde _ hvi]
    by_cases hvj : v / 1024 = i
    · -- a new table has no entry yet
      rw [if_pos hvj, if_pos newPde_present, newPde_addr htp, hword t _ htp.aligned hmod, hvj, habs]
      simp [htd]
    rw [if_neg hvj]
    by_cases hp : present (pde s.mem pd (v / 1024))
    · have hne := h.tab_ne_dir hvi hp
      have hnt := h.held_ne_tab (p := t) (by simp) hvi hp
      rw [hword _ _ (h.tabPg hvi hp).aligned hmod]
      simp [hne, hnt.symm]
    · rw [if_neg hp, if_neg hp]
  refine ⟨⟨?_, h.pages, fun v h1 h2 => ?_⟩, hpde, hpte⟩
  · refine h.part.attach (r := .tab i) (fun q hq => ?_) (fun q r => ?_)
    · have hq' := hq.2.1
      simp [habs] at hq'
    cases r with
    | dir => simp [Space]
    | tab j =>
      by_cases hji : j = i
      · subst hji
        change _ ∧ present (pde m' pd j) ∧ pteAddr (pde m' pd j) = q ↔ _
        rw [hpde j hi, if_pos rfl, newPde_present, newPde_addr htp]
        simp [Space, hi, habs, eq_comm]
      · simp only [Space, Role.tab.injEq, hji, and_false, or_false]
        apply and_congr_right
        intro hj
        rw [hpde j hj, if_neg hji]
    | user v =>
      simp only [Space, reduceCtorEq, and_false, or_false]
      apply and_congr_right
      intro hv
      rw [hpte v (hv.trans userPages_lt_allPages)]
  · rw [hpte v h2]
    exact h.guard v h1 h2

variable {e : ℕ}

abbrev poked (s : Kmem) (pd v e : ℕ) : Bytes := wr32 s.mem (pteAddr (pde s.mem pd (v / 1024)) + 4 * (v % 1024)) e

variable (h : Owns s pd hand W)

include h

theorem store (hd : SamePage s.mem m pd)
    (ht : ∀ i < npdentries, present (pde s.mem pd i) → SamePage s.mem m (pteAddr (pde s.mem pd i))) :
    Owns { s with mem := m } pd hand W ∧ ∀ v < allPages, pte m pd v = pte s.mem pd v := by
  have hpte : ∀ v < allPages, pte m pd v = pte s.mem pd v := by
    intro v hv
    exact pte_congr hd hv (ht _ (table_lt hv))
  refine ⟨⟨?_, h.pages, ?_⟩, hpte⟩
  · apply h.part.congr
    intro p r
    apply space_iff
    · intro i hi
      exact pde_congr hd hi
    · intro v hv
      exact hpte v (hv.trans userPages_lt_allPages)
  · intro v h1 h2
    rw [hpte v h2]
    exact h.guard v h1 h2

theorem pte_poke (hv : v < allPages) (hp : present (pde s.mem pd (v / 1024))) (he : e < 2 ^ 32) :
    (∀ j < npdentries, pde (poked s pd v e) pd j = pde s.mem pd j) ∧
      ∀ u < allPages, pte (poked s pd v e) pd u = if u = v then e else pte s.mem pd u := by
  have hmod : ∀ u : ℕ, u % 1024 < 1024 := fun u => Nat.mod_lt _ (by decide)
  have htab := h.tabPg (table_lt hv) hp
  have hpde : ∀ j < npdentries, pde (poked s pd v e) pd j = pde s.mem pd j := by
    intro j hj
    have hne := h.tab_ne_dir (table_lt hv) hp
    rw [pde, rd32_wr32 htab.aligned h.dir.aligned hj (hmod v) he, if_neg (fun hc => hne hc.1.symm)]
    rfl
  refine ⟨hpde, fun u hu => ?_⟩
  unfold pte
  rw [hpde _ (table_lt hu)]
  by_cases hpu : present (pde s.mem pd (u / 1024))
  · rw [if_pos hpu, if_pos hpu, rd32_wr32 htab.aligned (h.tabPg (table_lt hu) hpu).aligned (hmod u) (hmod v) he]
    have hiff : pteAddr (pde s.mem pd (u / 1024)) = pteAddr (pde s.mem pd (v / 1024)) ∧ u % 1024 = v % 1024 ↔ u = v := by
      constructor
      · rintro ⟨h1, h2⟩
        have := h.tab_inj (table_lt hu) (table_lt hv) hpu hp h1
        omega
      · rintro rfl
        exact ⟨rfl, rfl⟩
    simp only [hiff]
  · have huv : u ≠ v := by
      rintro rfl
      exact hpu hp
    rw [if_neg hpu, if_neg hpu, if_neg huv]

/-- Only the page of `v` can change its owner. -/
theorem poke {hand' : List ℕ} (hv : v < userPages) (hp : present (pde s.mem pd (v / 1024))) (he : e < 2 ^ 32)
    (hpart : ∀ R : ℕ → Role → Prop, (∀ q r, R q r ↔ if r = .user v then present e ∧ pteAddr e = q else Space s.mem pd q r) →
      Partition s.freelist hand' R W) : Owns { s with mem := poked s pd v e } pd hand' W := by
  have hall := hv.trans userPages_lt_allPages
  obtain ⟨hpde, hpte⟩ := h.pte_poke hall hp he
  refine ⟨hpart _ fun q r => ?_, h.pages, fun u h1 h2 => ?_⟩
  · cases r with
    | dir => simp [Space]
    | tab j =>
      rw [if_neg (by simp)]
      apply and_congr_right
      intro hj
      rw [hpde j hj]
    | user u =>
      by_cases huv : u = v
      · subst huv
        simp [Space, hpte u hall, hv]
      · rw [if_neg (by simpa using huv)]
        apply and_congr_right
        intro hu
        rw [hpte u (hu.trans userPages_lt_allPages), if_neg huv]
  · have huv : u ≠ v := by omega
    simp only [hpte u h2, if_neg huv]
    exact h.guard u h1 h2

omit h in
theorem mapUser {pa : ℕ} (h : Owns s pd (pa :: hand) W) (hv : v < userPages) (hp : present (pde s.mem pd (v / 1024)))
    (habs : present (pte s.mem pd v) = false) (he : e < 2 ^ 32) (hpe : present e) (hea : pteAddr e = pa) :
    Owns { s with mem := poked s pd v e } pd hand W := by
  refine h.poke hv hp he fun R hR => h.part.attach (r := .user v) (fun q hq => ?_) fun q r => ?_
  · have hq' := hq.2.1
    simp [habs] at hq'
  · rw [hR]
    by_cases hr : r = .user v
    · simp [hr, Space, habs, hpe, hea, eq_comm]
    · simp [hr]

theorem mapKernel (hv : userPages ≤ v) (hall : v < allPages)
    (hp : present (pde s.mem pd (v / 1024))) (he : e < 2 ^ 32) (hu : userOk e = false) :
    Owns { s with mem := poked s pd v e } pd hand W := by
  obtain ⟨hpde, hpte⟩ := h.pte_poke hall hp he
  refine ⟨h.part.congr (fun q r => ?_), h.pages, fun u h1 h2 => ?_⟩
  · apply space_iff hpde
    intro u hu'
    rw [hpte u (hu'.trans userPages_lt_allPages), if_neg (by omega)]
  · simp only [hpte u h2]
    split_ifs
    · exact hu
    · exact h.guard u h1 h2

theorem remap (hv : v < userPages) (hp : present (pde s.mem pd (v / 1024))) (he : e < 2 ^ 32)
    (hpe : present e = present (pte s.mem pd v)) (hea : pteAddr e = pteAddr (pte s.mem pd v)) :
    Owns { s with mem := poked s pd v e } pd hand W := by
  refine h.poke hv hp he fun R hR => h.part.congr fun q r => ?_
  rw [hR]
  by_cases hr : r = .user v
  · simp [hr, Space, hv, hpe, hea]
  · simp [hr]

theorem unmap (hv : v < userPages) (hp : present (pte s.mem pd v)) :
    Owns { s with mem := poked s pd v 0 } pd (pteAddr (pte s.mem pd v) :: hand) W := by
  have hpd : present (pde s.mem pd (v / 1024)) := by
    by_contra hn
    rw [pte, if_neg hn] at hp
    simp [present_zero] at hp
  refine h.poke hv hpd (by decide) fun R hR => h.part.detach (r := .user v) ⟨hv, hp, rfl⟩ fun q r => ?_
  rw [hR]
  by_cases hr : r = .user v
  · simp [hr, present_zero]
  · simp [hr]

end Owns

end Laboratorio.Vm
