import Laboratorio.Vm.Release

namespace Laboratorio.Vm

open Bytes

namespace Kmap

def size (k : Kmap) : ℕ := u32 (k.physEnd + 2 ^ 32 - k.physStart)

def put (f : ℕ → ℕ) (k : Kmap) : ℕ → ℕ := mapped f (k.virt / pgsize) ((k.size - 1) / pgsize) k.physStart k.perm

def stop (k : Kmap) : ℕ := (k.virt + k.size - 1) / pgsize + 1

structure Fits (k : Kmap) (lo : ℕ) : Prop where
  virt_aligned : k.virt % pgsize = 0
  lo_le : lo * pgsize ≤ k.virt
  kernel : kernbase ≤ k.virt
  size_pos : 0 < k.size
  virt_le : k.virt + k.size ≤ 2 ^ 32
  phys_aligned : k.physStart % pgsize = 0
  phys_le : k.physStart + k.size ≤ 2 ^ 32
  perm_lt : k.perm < pgsize
  noUser : userOk k.perm = false

theorem put_apply {k : Kmap} {lo : ℕ} (h : k.Fits lo) {f : ℕ → ℕ} {v : ℕ} (hv : v < k.virt / pgsize ∨ k.stop ≤ v) :
    k.put f v = f v := by
  have h2 := h.size_pos
  apply if_neg
  unfold stop pgsize at *
  omega

theorem fits {virt ps pe perm lo n : ℕ} (hn : u32 (pe + 2 ^ 32 - ps) = n) (hv : virt % 4096 = 0)
    (hlo : lo * 4096 ≤ virt) (hk : 0x80000000 ≤ virt) (h0 : 0 < n) (hle : virt + n ≤ 2 ^ 32) (hp : ps % 4096 = 0)
    (hpe : ps + n ≤ 2 ^ 32) (hperm : perm < pgsize ∧ userOk perm = false) : (⟨virt, ps, pe, perm⟩ : Kmap).Fits lo := by
  constructor
  · exact hv
  · exact hlo
  · exact hk
  · rw [size, hn]
    exact h0
  · rw [size, hn]
    exact hle
  · exact hp
  · rw [size, hn]
    exact hpe
  · exact hperm.1
  · exact hperm.2

theorem stop_eq {virt ps pe perm n : ℕ} (hn : u32 (pe + 2 ^ 32 - ps) = n) :
    (⟨virt, ps, pe, perm⟩ : Kmap).stop = (virt + n - 1) / 4096 + 1 := by
  simp only [stop, size, hn, pgsize]

end Kmap

def Ordered : ℕ → List Kmap → Prop
  | _, [] => True
  | lo, k :: ks => k.Fits lo ∧ Ordered k.stop ks

def kernelPtes (ks : List Kmap) (f : ℕ → ℕ) : ℕ → ℕ := ks.foldl Kmap.put f

theorem kernelPtes_congr (ks : List Kmap) {f g : ℕ → ℕ} {v : ℕ} (h : f v = g v) : kernelPtes ks f v = kernelPtes ks g v := by
  induction ks generalizing f g with
  | nil => exact h
  | cons k ks ih =>
    apply ih
    simp only [Kmap.put, mapped, h]

theorem kernelPtes_user {ks : List Kmap} {lo : ℕ} (h : Ordered lo ks) {f : ℕ → ℕ} {v : ℕ} (hv : v < userPages) :
    kernelPtes ks f v = f v := by
  induction ks generalizing lo f with
  | nil => rfl
  | cons k ks ih =>
    obtain ⟨hk, hks⟩ := h
    refine (ih hks).trans (Kmap.put_apply hk (Or.inl ?_))
    have hkern := hk.kernel
    unfold userPages kernbase pgsize at *
    omega

def Small (n : ℕ) (W : Set ℕ) : Prop := ∃ l : List ℕ, l.length ≤ n ∧ ∀ p ∈ W, p ∈ l

variable {W : Set ℕ}

theorem Small.mono {n k : ℕ} (h : Small n W) (hnk : n ≤ k) : Small k W := by
  obtain ⟨l, hl, hW⟩ := h
  exact ⟨l, hl.trans hnk, hW⟩

theorem Small.subset {n : ℕ} {V : Set ℕ} (h : Small n W) (hVW : V ⊆ W) : Small n V := by
  obtain ⟨l, hl, hW⟩ := h
  exact ⟨l, hl, fun p hp => hW p (hVW hp)⟩

variable [Layout]

theorem kmap_ordered : Ordered (kernbase / pgsize) kmap := by
  have h1 : Layout.data % 4096 = 0 := Layout.data_aligned
  have h2 : 0x100000 < Layout.data := Layout.extmem_lt
  have h3 : Layout.data < 0xE000000 := Layout.data_le.trans_lt Layout.stop_lt
  have hp2v : p2v Layout.data = Layout.data + 0x80000000 := by
    unfold p2v u32 kernbase
    omega
  have hlink : v2p kernlink = 0x100000 := by decide
  have hW : pteW < pgsize ∧ userOk pteW = false := by decide
  have h0 : 0 < pgsize ∧ userOk 0 = false := by decide
  have n1 : u32 (extmem + 2 ^ 32 - 0) = 0x100000 := by decide
  have n2 : u32 (Layout.data + 2 ^ 32 - 0x100000) = Layout.data - 0x100000 := by
    unfold u32
    omega
  have n3 : u32 (phystop + 2 ^ 32 - Layout.data) = 0xE000000 - Layout.data := by
    unfold u32 phystop
    omega
  have n4 : u32 (0 + 2 ^ 32 - devspace) = 0x2000000 := by decide
  rw [kmap, hlink, hp2v]
  refine ⟨Kmap.fits n1 ?_ ?_ ?_ ?_ ?_ ?_ ?_ hW, Kmap.fits n2 ?_ ?_ ?_ ?_ ?_ ?_ ?_ h0, Kmap.fits n3 ?_ ?_ ?_ ?_ ?_ ?_ ?_ hW,
    Kmap.fits n4 ?_ ?_ ?_ ?_ ?_ ?_ ?_ hW, trivial⟩
  all_goals
    first
    | omega
    | decide
    | rw [Kmap.stop_eq n2, kernlink, kernbase, extmem]
      omega
    | rw [Kmap.stop_eq n3, devspace]
      omega
    | rw [kernlink, kernbase, extmem]
      omega

theorem Owns.small {s : Kmem} {pd : ℕ} {hand users : List ℕ} (h : Owns s pd hand W) (hf : s.freelist = [])
    (hu : ∀ v < userPages, present (pte s.mem pd v) → v ∈ users) : Small (hand.length + 1 + npdentries + users.length) W := by
  refine ⟨hand ++ pd :: ((List.range npdentries).map (fun i => pteAddr (pde s.mem pd i)) ++
    users.map (fun v => pteAddr (pte s.mem pd v))), ?_, fun p hp => ?_⟩
  · simp only [List.length_append, List.length_cons, List.length_map, List.length_range]
    omega
  rcases (h.part.cover p).mp hp with hp | hp | ⟨r, hr⟩
  · exact List.mem_append_left _ hp
  · simp [hf] at hp
  apply List.mem_append_right
  cases r with
  | dir => exact List.mem_cons.mpr (Or.inl hr)
  | tab i =>
    obtain ⟨hi, _, rfl⟩ := hr
    exact List.mem_cons_of_mem _ (List.mem_append_left _ (List.mem_map.mpr ⟨i, List.mem_range.mpr hi, rfl⟩))
  | user v =>
    obtain ⟨hv, hpr, rfl⟩ := hr
    exact List.mem_cons_of_mem _ (List.mem_append_right _ (List.mem_map.mpr ⟨v, hu v hv hpr, rfl⟩))

variable {s : Kmem} {pd lo : ℕ} {hand : List ℕ} {W : Set ℕ} {Q : Option ℕ → Kmem → Prop} {E : Fault → Prop}

theorem wp_mapKernel {ks : List Kmap} (h : Owns s pd hand W) (ho : Ordered lo ks)
    (habs : ∀ v, lo ≤ v → v < allPages → present (pte s.mem pd v) = false)
    (huser : ∀ v < userPages, present (pte s.mem pd v) = false)
    (hfail : ∀ s', Bare s' hand W → Changes W s s' → (s.denied = [] → Small (hand.length + 1 + npdentries) W) → Q none s')
    (hok : ∀ s', Owns s' pd hand W → Maps pd s s' →
      (∀ v < allPages, pte s'.mem pd v = kernelPtes ks (pte s.mem pd) v) → Q (some pd) s') : wp (mapKernel pd ks) s Q E := by
  induction ks generalizing s lo with
  | nil => exact wp_ret (hok s h (.refl pd s) (fun _ _ => rfl))
  | cons k ks ih =>
    obtain ⟨hk, hks⟩ := ho
    have hsize := hk.size_pos
    have hvle := hk.virt_le
    have hple := hk.phys_le
    have hlast : (k.size - 1) / pgsize * pgsize ≤ k.size - 1 := Nat.div_mul_le_self _ _
    have hlo : lo ≤ k.virt / pgsize := (Nat.le_div_iff_mul_le (by decide)).mpr hk.lo_le
    unfold mapKernel
    rw [wp_bind, show u32 (k.physEnd + 2 ^ 32 - k.physStart) = k.size from rfl,
      mappages_range hk.virt_aligned hsize hvle]
    apply wp_mapPages_kernel h hk.kernel (by omega) (by omega) hk.phys_aligned hk.perm_lt hk.noUser
    · intro v h1 h2 hp
      have hvl : v < allPages := by
        unfold allPages npdentries pgsize at *
        omega
      simp [habs v (hlo.trans h1) hvl] at hp
    · intro s1 hown1 hmaps1 hpte1 hst1
      rw [if_neg (by simp), wp_bind]
      apply wp_freevm hown1
      intro s2 hbare2 hch2
      apply wp_ret
      refine hfail s2 hbare2 ((hmaps1.changes.mono h.core_subset).trans hch2) (fun hd => ?_)
      have hnone : ∀ v < userPages, present (pte s1.mem pd v) → v ∈ ([] : List ℕ) := by
        intro v hv hp
        simp [hpte1 v hv, huser v hv] at hp
      exact hown1.small (hst1 hd) hnone
    · intro s1 hown1 hmaps1 hpte1
      have hput : ∀ v < allPages, pte s1.mem pd v = k.put (pte s.mem pd) v := hpte1
      apply ih hown1 hks
      · intro v h1 h2
        rw [hput v h2, Kmap.put_apply hk (Or.inr h1)]
        apply habs v _ h2
        unfold Kmap.stop pgsize at *
        omega
      · intro v hv
        rw [hput v (hv.trans userPages_lt_allPages), Kmap.put_apply hk]
        · exact huser v hv
        · left
          have hkern := hk.kernel
          unfold userPages kernbase pgsize at *
          omega
      · intro s' hbare hch hst
        exact hfail s' hbare ((hmaps1.changes.mono h.core_subset).trans hch) (fun hd => hst (hmaps1.changes.fair hd))
      · intro s' hown hmaps hpte
        refine hok s' hown (hmaps1.trans hmaps) (fun v hv => ?_)
        rw [hpte v hv]
        exact kernelPtes_congr ks (hput v hv)

theorem Bare.take (h : Bare s hand W) {r : ℕ} {next : List ℕ} {b : List Bool} (hf : s.freelist = r :: next) :
    Bare { s with freelist := next, denied := b } (r :: hand) W := by
  have hp := h.part
  rw [hf] at hp
  exact ⟨hp.take, h.pages⟩

theorem Bare.newDir (h : Bare s (pd :: hand) W) :
    Owns { s with mem := memset s.mem pd 0 pgsize } pd hand W ∧ ∀ v < allPages, pte (memset s.mem pd 0 pgsize) pd v = 0 := by
  have hpd : Pg pd := h.pages pd ((h.part.cover pd).mpr (Or.inl (by simp)))
  have hpde : ∀ i < npdentries, pde (memset s.mem pd 0 pgsize) pd i = 0 := by
    intro i hi
    rw [pde, rd32_memset hpd.aligned hpd.aligned hi, if_pos rfl]
  have hpte : ∀ v < allPages, pte (memset s.mem pd 0 pgsize) pd v = 0 := by
    intro v hv
    rw [pte, hpde _ (table_lt hv)]
    simp [present_zero]
  refine ⟨⟨?_, h.pages, fun v _ h2 => ?_⟩, hpte⟩
  · refine h.part.attach (r := .dir) (fun _ hq => hq) (fun q r => ?_)
    cases r with
    | dir => simp [Space]
    | tab i =>
      simp only [Space, reduceCtorEq, and_false, or_false, iff_false, not_and]
      intro hi hp
      simp [hpde i hi, present_zero] at hp
    | user v =>
      simp only [Space, reduceCtorEq, and_false, or_false, iff_false, not_and]
      intro hv hp
      simp [hpte v (hv.trans userPages_lt_allPages), present_zero] at hp
  · simp only [hpte v h2]
    rfl

theorem Bare.small (h : Bare s hand W) (hf : s.freelist = []) : Small hand.length W := by
  refine ⟨hand, le_rfl, fun p hp => ?_⟩
  rcases (h.part.cover p).mp hp with hp | hp | ⟨_, hr⟩
  · exact hp
  · simp [hf] at hp
  · exact hr.elim

theorem wp_setupkvm (h : Bare s hand W)
    (hfail : ∀ s', Bare s' hand W → Changes W s s' → (s.denied = [] → Small (hand.length + 1 + npdentries) W) → Q none s')
    (hok : ∀ pd s', Owns s' pd hand W → pd ∈ s.freelist → core s' pd ⊆ {p | p ∈ s.freelist} →
    Changes {p | p ∈ s.freelist} s s' →
      (∀ v < allPages, pte s'.mem pd v = kernelPtes kmap (fun _ => 0) v) → Q (some pd) s') : wp setupkvm s Q E := by
  unfold setupkvm clearPage
  rw [wp_bind]
  apply wp_kalloc
  · intro hst
    apply wp_ret
    refine hfail _ ⟨h.part, h.pages⟩ ⟨fun _ _ _ _ _ _ => rfl, fun hd => by simp [hd]⟩ (fun hd => ?_)
    exact (h.small (hst hd)).mono (by omega)
  intro pd next hf
  have htake := h.take (b := s.denied.tail) hf
  obtain ⟨hown, hpte⟩ := htake.newDir
  have hpd : Pg pd := htake.pages pd ((htake.part.cover pd).mpr (Or.inl (by simp)))
  have hfree : ∀ p, p ∈ s.freelist ↔ p = pd ∨ p ∈ next := by
    intro p
    rw [hf]
    exact List.mem_cons
  have hch : Changes {p | p ∈ s.freelist} s
      { s with mem := memset s.mem pd 0 pgsize, freelist := next, denied := s.denied.tail } := by
    refine ⟨fun q hq hn => ?_, fun hd => by simp [hd]⟩
    apply samePage_memset hpd.aligned hq
    rintro rfl
    exact hn ((hfree q).mpr (Or.inl rfl))
  have hsub : core { s with mem := memset s.mem pd 0 pgsize, freelist := next, denied := s.denied.tail } pd ⊆
      {p | p ∈ s.freelist} := by
    rintro p (hp | rfl | ⟨i, hi, hpr, _⟩)
    · exact (hfree p).mpr (Or.inr hp)
    · exact (hfree p).mpr (Or.inl rfl)
    · rw [pde, rd32_memset hpd.aligned hpd.aligned hi, if_pos rfl] at hpr
      simp [present_zero] at hpr
  have hW : {p | p ∈ s.freelist} ⊆ W := fun p hp => (h.part.cover p).mpr (Or.inr (Or.inl hp))
  simp only [wp_bind, wp_modify, wp_ite, wp_throw]
  refine ⟨fun hc => absurd hc (by decide), fun _ => ?_⟩
  apply wp_mapKernel hown kmap_ordered
  · intro v _ hv
    simp only [hpte v hv, present_zero]
  · intro v hv
    simp only [hpte v (hv.trans userPages_lt_allPages), present_zero]
  · intro s' hbare hch' hst
    exact hfail s' hbare ((hch.mono hW).trans hch') (fun hd => hst (hch.fair hd))
  · intro s' hown' hmaps hpte'
    refine hok pd s' hown' ((hfree pd).mpr (Or.inl rfl)) (hmaps.shrinks.trans hsub)
      (hch.trans (hmaps.changes.mono hsub)) (fun v hv => ?_)
    rw [hpte' v hv]
    exact kernelPtes_congr kmap (hpte v hv)

end Laboratorio.Vm
