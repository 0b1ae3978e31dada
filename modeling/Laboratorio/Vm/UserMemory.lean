import Laboratorio.Vm.Grow

/-!
The bytes that a process sees through its page table.
-/

namespace Laboratorio.Vm

open Bytes

def userAddr (m : Bytes) (pd va : ℕ) : ℕ := pteAddr (pte m pd (va / pgsize)) + va % pgsize

def userByte (m : Bytes) (pd va : ℕ) : UInt8 := m (userAddr m pd va)

theorem userAddr_mem (m : Bytes) (pd va : ℕ) : pteAddr (pte m pd (va / pgsize)) ≤ userAddr m pd va ∧
    userAddr m pd va + 1 ≤ pteAddr (pte m pd (va / pgsize)) + pgsize := by
  have hlt : va % pgsize < pgsize := Nat.mod_lt _ (by decide)
  unfold userAddr
  omega

section congr

variable {m m' : Bytes} {pd va : ℕ}

theorem userByte_congr (haddr : pteAddr (pte m' pd (va / pgsize)) = pteAddr (pte m pd (va / pgsize)))
    (hs : SamePage m m' (pteAddr (pte m pd (va / pgsize)))) : userByte m' pd va = userByte m pd va := by
  have hlt : va % pgsize < pgsize := Nat.mod_lt _ (by decide)
  rw [userByte, userByte, userAddr, userAddr, haddr]
  exact hs _ (by omega) (by omega)

theorem userByte_of_holds {p : ℕ} {src : Bytes} (hp : pteAddr (pte m pd (va / pgsize)) = p) (h : Holds m p src) :
    userByte m pd va = src (va % pgsize) := by
  rw [userByte, userAddr, hp]
  exact h _ (Nat.mod_lt _ (by decide))

end congr

theorem pteAddr_aligned (e : ℕ) : pteAddr e % pgsize = 0 := Nat.mul_mod_left _ _

theorem Changes.userByte {T : Set ℕ} {s s' : Kmem} {pd va : ℕ} (h : Changes T s s')
    (hpte : pte s'.mem pd (va / pgsize) = pte s.mem pd (va / pgsize)) (hout : pteAddr (pte s.mem pd (va / pgsize)) ∉ T) :
    userByte s'.mem pd va = userByte s.mem pd va :=
  userByte_congr (congrArg pteAddr hpte) (h.same _ (pteAddr_aligned _) hout)

def Exact (s : Kmem) (pd sz : ℕ) : Prop := ∀ v < userPages, present (pte s.mem pd v) = true ↔ v < pagesOf sz

theorem exact_of_grown {pd lo sz sz' : ℕ} {perm : ℕ → ℕ} {src : ℕ → Bytes} [Layout] {s s' : Kmem} (he : Exact s pd sz)
    (hle : pagesOf sz ≤ pagesOf sz') (hlo : lo = pagesOf sz) (hg : Grown pd lo (pagesOf sz') perm src s s') :
    Exact s' pd sz' := by
  subst hlo
  intro v hv
  by_cases hin : pagesOf sz ≤ v ∧ v < pagesOf sz'
  · obtain ⟨p, _, hp, _⟩ := hg.fresh v hin.1 hin.2
    rw [hp]
    simp [entry_present, hin.2]
  · rw [hg.rest v (hv.trans userPages_lt_allPages) hin, he v hv]
    omega

def Accessible (m : Bytes) (pd v : ℕ) : Prop := v < allPages ∧ present (pte m pd v) = true ∧ userOk (pte m pd v) = true

def userFrames (m : Bytes) (pd : ℕ) : Set ℕ := {p | ∃ v, Accessible m pd v ∧ pteAddr (pte m pd v) = p}

theorem userByte_store {m b : Bytes} {pd va x n : ℕ}
    (hpte : pte (store m (userAddr m pd va) n b) pd (x / pgsize) = pte m pd (x / pgsize)) (hn : va % pgsize + n ≤ pgsize)
    (hinj : pteAddr (pte m pd (x / pgsize)) = pteAddr (pte m pd (va / pgsize)) → x / pgsize = va / pgsize) :
    userByte (store m (userAddr m pd va) n b) pd x = if va ≤ x ∧ x < va + n then b (x - va) else userByte m pd x := by
  have haddr : userAddr (store m (userAddr m pd va) n b) pd x = userAddr m pd x := by
    rw [userAddr, hpte]
    rfl
  rw [userByte, haddr]
  by_cases hpage : x / pgsize = va / pgsize
  · have hrange : userAddr m pd x + va = userAddr m pd va + x := by
      unfold userAddr pgsize at *
      rw [hpage]
      omega
    by_cases hin : va ≤ x ∧ x < va + n
    · have hsub : userAddr m pd x - userAddr m pd va = x - va := by omega
      rw [if_pos hin, store_of_mem (by omega) (by omega), hsub]
    · rw [if_neg hin, store_of_notMem (by omega)]
      rfl
  · have hlo : pteAddr (pte m pd (va / pgsize)) ≤ userAddr m pd va := Nat.le_add_right _ _
    have hhi : userAddr m pd va + n ≤ pteAddr (pte m pd (va / pgsize)) + pgsize := by
      unfold userAddr
      omega
    have hsame : SamePage m (store m (userAddr m pd va) n b) (pteAddr (pte m pd (x / pgsize))) :=
      samePage_store (pteAddr_aligned _) (pteAddr_aligned _) (fun heq => hpage (hinj heq)) hlo hhi
    have hout : ¬ (va ≤ x ∧ x < va + n) := by
      unfold pgsize at *
      omega
    rw [if_neg hout]
    exact hsame _ (userAddr_mem m pd x).1 (userAddr_mem m pd x).2

structure Proper (m : Bytes) (pd : ℕ) : Prop where
  aligned : pd % pgsize = 0
  dir : ∀ v, Accessible m pd v → pteAddr (pte m pd v) ≠ pd
  tab : ∀ v i, Accessible m pd v → i < npdentries → present (pde m pd i) → pteAddr (pte m pd v) ≠ pteAddr (pde m pd i)
  inj : ∀ u v, Accessible m pd u → Accessible m pd v → pteAddr (pte m pd u) = pteAddr (pte m pd v) → u = v

structure SameTable (m m' : Bytes) (pd : ℕ) : Prop where
  pdes : ∀ i < npdentries, pde m' pd i = pde m pd i
  ptes : ∀ v < allPages, pte m' pd v = pte m pd v

namespace SameTable

variable {m m' m'' : Bytes} {pd : ℕ}

theorem refl (m : Bytes) (pd : ℕ) : SameTable m m pd := ⟨fun _ _ => rfl, fun _ _ => rfl⟩

theorem symm (h : SameTable m m' pd) : SameTable m' m pd := ⟨fun i hi => (h.pdes i hi).symm, fun v hv => (h.ptes v hv).symm⟩

theorem trans (h : SameTable m m' pd) (h' : SameTable m' m'' pd) : SameTable m m'' pd :=
  ⟨fun i hi => (h'.pdes i hi).trans (h.pdes i hi), fun v hv => (h'.ptes v hv).trans (h.ptes v hv)⟩

theorem of_samePage (hd : SamePage m m' pd)
    (ht : ∀ i < npdentries, present (pde m pd i) → SamePage m m' (pteAddr (pde m pd i))) : SameTable m m' pd :=
  ⟨fun _ hi => pde_congr hd hi, fun _ hv => pte_congr hd hv (ht _ (table_lt hv))⟩

section

variable (h : SameTable m m' pd)

include h

theorem space_iff {p : ℕ} {r : Role} : Space m' pd p r ↔ Space m pd p r :=
  Vm.space_iff h.pdes fun v hv => h.ptes v (hv.trans userPages_lt_allPages)

theorem accessible_iff {v : ℕ} : Accessible m' pd v ↔ Accessible m pd v := by
  apply and_congr_right
  intro hv
  rw [h.ptes v hv]

theorem userFrames_eq : userFrames m' pd = userFrames m pd := by
  ext p
  apply exists_congr
  intro v
  rw [h.accessible_iff]
  apply and_congr_right
  intro hv
  rw [h.ptes v hv.1]

theorem proper (hp : Proper m pd) : Proper m' pd := by
  constructor
  · exact hp.aligned
  · intro v hv
    rw [h.ptes v hv.1]
    exact hp.dir v (h.accessible_iff.mp hv)
  · intro v i hv hi hpr
    rw [h.pdes i hi] at hpr ⊢
    rw [h.ptes v hv.1]
    exact hp.tab v i (h.accessible_iff.mp hv) hi hpr
  · intro u v hu hv heq
    rw [h.ptes u hu.1, h.ptes v hv.1] at heq
    exact hp.inj u v (h.accessible_iff.mp hu) (h.accessible_iff.mp hv) heq

end

end SameTable

theorem Proper.store {m b : Bytes} {pd v a n : ℕ} (h : Proper m pd) (hv : Accessible m pd v) (ha : pteAddr (pte m pd v) ≤ a)
    (hn : a + n ≤ pteAddr (pte m pd v) + pgsize) : SameTable m (Bytes.store m a n b) pd := by
  apply SameTable.of_samePage
  · exact samePage_store (pteAddr_aligned _) h.aligned (h.dir v hv).symm ha hn
  · intro i hi hp
    exact samePage_store (pteAddr_aligned _) (pteAddr_aligned _) (h.tab v i hv hi hp).symm ha hn

variable [Layout]

namespace Owns

variable {s : Kmem} {pd v : ℕ} {hand : List ℕ} {W : Set ℕ}

section

variable (h : Owns s pd hand W)

include h

theorem user_inj {u : ℕ} (hu : u < userPages) (hv : v < userPages) (hpu : present (pte s.mem pd u))
    (hpv : present (pte s.mem pd v)) (heq : pteAddr (pte s.mem pd u) = pteAddr (pte s.mem pd v)) : u = v := by
  have hrole := h.part.unique _ (.user u) (.user v) ⟨hu, hpu, heq⟩ ⟨hv, hpv, rfl⟩
  simpa using hrole

theorem accessible_user (hv : Accessible s.mem pd v) : Space s.mem pd (pteAddr (pte s.mem pd v)) (.user v) := by
  refine ⟨?_, hv.2.1, rfl⟩
  by_contra hge
  have hguard := h.guard v (by omega) hv.1
  rw [hv.2.2] at hguard
  exact nomatch hguard

theorem proper : Proper s.mem pd := by
  constructor
  · exact h.dir.aligned
  · intro v hv heq
    exact nomatch h.part.unique _ _ .dir (h.accessible_user hv) heq
  · intro v i hv hi hp heq
    exact nomatch h.part.unique _ _ (.tab i) (h.accessible_user hv) ⟨hi, hp, heq.symm⟩
  · intro u v hu hv heq
    exact h.user_inj (h.accessible_user hu).1 (h.accessible_user hv).1 hu.2.1 hv.2.1 heq

theorem user_notMem_reach {lo hi : ℕ} (hv : v < userPages) (hp : present (pte s.mem pd v)) (hout : v < lo ∨ hi ≤ v) :
    pteAddr (pte s.mem pd v) ∉ reach s pd lo hi := by
  rintro (hcore | ⟨u, h1, h2, hu, hpu, heq⟩)
  · exact h.user_notMem_core hv hp hcore
  · have huv := h.user_inj hu hv hpu hp heq
    omega

end

end Owns

omit [Layout]

@[reducible] def sampleLayout : Layout := ⟨0x108000, 0x110000, by decide, by decide, by decide, by decide⟩

def sampleFrames : List ℕ := [0x111000, 0x112000, 0x113000]

def onePage (free : List ℕ) (ds : List Bool) : Kmem :=
  ⟨wr32 (wr32 (memset (memset zeroes 0x111000 0 pgsize) 0x112000 0 pgsize) 0x111000 (newPde 0x112000)) 0x112000
    (0x113000 ||| (pteW ||| pteU) ||| pteP), free, ds⟩

theorem onePage_free (free : List ℕ) (ds : List Bool) : (onePage free ds).freelist = free := rfl

theorem sampleFrames_pg : ∀ p ∈ sampleFrames, @Pg sampleLayout p := by
  intro p hp
  simp only [sampleFrames, List.mem_cons, List.not_mem_nil, or_false] at hp
  rcases hp with rfl | rfl | rfl
  · exact @Pg.mk sampleLayout _ (by decide) (by decide) (by decide)
  · exact @Pg.mk sampleLayout _ (by decide) (by decide) (by decide)
  · exact @Pg.mk sampleLayout _ (by decide) (by decide) (by decide)

theorem onePage_spec {free : List ℕ} (hnd : (sampleFrames ++ free).Nodup) (hpg : ∀ p ∈ free, @Pg sampleLayout p)
    (ds : List Bool) : @Owns sampleLayout (onePage free ds) 0x111000 [] {p | p ∈ sampleFrames ++ free} ∧
      ∀ v < allPages, pte (onePage free ds).mem 0x111000 v = if v = 0 then 0x113000 ||| (pteW ||| pteU) ||| pteP else 0 := by
  let _ := sampleLayout
  have hbare : Bare ⟨zeroes, free, ds⟩ sampleFrames {p | p ∈ sampleFrames ++ free} := by
    refine ⟨⟨hnd, fun p => ?_, fun _ _ h => h.elim, fun _ _ _ h => h.elim, fun _ _ _ h => h.elim⟩, fun p hp => ?_⟩
    · simp
    · rcases List.mem_append.mp hp with hp | hp
      · exact sampleFrames_pg p hp
      · exact hpg p hp
  obtain ⟨hdir, hpte⟩ := hbare.newDir
  have habs : present (pde (memset zeroes 0x111000 0 pgsize) 0x111000 0) = false := by decide +kernel
  obtain ⟨htab, hpde', hpte'⟩ := hdir.newTable (by decide) habs
  have hp : present (pde (wr32 (memset (memset zeroes 0x111000 0 pgsize) 0x112000 0 pgsize) 0x111000 (newPde 0x112000)) 0x111000
    (0 / 1024)) := by
    decide +kernel
  have haddr : pteAddr (pde (wr32 (memset (memset zeroes 0x111000 0 pgsize) 0x112000 0 pgsize) 0x111000 (newPde 0x112000))
    0x111000 (0 / 1024)) + 4 * (0 % 1024) = 0x112000 := by decide +kernel
  have hzero : ∀ v < allPages,
      pte (wr32 (memset (memset zeroes 0x111000 0 pgsize) 0x112000 0 pgsize) 0x111000 (newPde 0x112000)) 0x111000 v = 0 :=
    fun v hv => (hpte' v hv).trans (hpte v hv)
  have hmap := htab.mapUser (e := 0x113000 ||| (pteW ||| pteU) ||| pteP) (by decide) hp
    ((congrArg present (hzero 0 (by decide))).trans present_zero) (by decide) (by decide) (by decide)
  obtain ⟨-, hpoke⟩ := htab.pte_poke (e := 0x113000 ||| (pteW ||| pteU) ||| pteP) (by decide) hp (by decide)
  refine ⟨?_, fun v hv => ?_⟩
  · rw [Owns.poked, haddr] at hmap
    exact hmap
  · have hv' := hpoke v hv
    rw [Owns.poked, haddr] at hv'
    rw [onePage, hv', hzero v hv]

theorem onePage_exact {free : List ℕ} (hnd : (sampleFrames ++ free).Nodup) (hpg : ∀ p ∈ free, @Pg sampleLayout p)
    (ds : List Bool) : Exact (onePage free ds) 0x111000 4096 := by
  intro v hv
  have hone : pagesOf 4096 = 1 := by decide
  rw [(onePage_spec hnd hpg ds).2 v (hv.trans userPages_lt_allPages), hone]
  by_cases h0 : v = 0
  · subst h0
    decide
  · simp [h0, present_zero]

end Laboratorio.Vm
