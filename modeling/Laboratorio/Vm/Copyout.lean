import Laboratorio.Vm.UserMemory

namespace Laboratorio.Vm

open Bytes

theorem pde_present_of_pte {m : Bytes} {pd v : ℕ} (h : present (pte m pd v)) : present (pde m pd (v / 1024)) := by
  by_contra hn
  rw [pte, if_neg hn] at h
  cases h

def rangePage (va x : ℕ) : ℕ := u32 (va + x) / pgsize

theorem rangePage_lt (va x : ℕ) : rangePage va x < allPages := page_lt (Nat.mod_lt _ (by decide))

section copyout

variable {s : Kmem} {pd va len left : ℕ} {buf : Bytes} {E : Fault → Prop}

theorem wp_uva2ka {Q : Option ℕ → Kmem → Prop} (hva : va < 2 ^ 32)
    (hnull : present (pde s.mem pd (va / pgsize / 1024)) = false → E .nullDeref)
    (hnone : present (pde s.mem pd (va / pgsize / 1024)) → ¬ Accessible s.mem pd (va / pgsize) → Q none s)
    (hsome : Accessible s.mem pd (va / pgsize) → Q (some (pteAddr (pte s.mem pd (va / pgsize)))) s) :
    wp (uva2ka pd va) s Q E := by
  rw [uva2ka, wp_bind]
  apply wp_walkpgdir hva
  · intro habs
    exact (wp_throw _).mpr (hnull habs)
  intro hp
  have hpte : rd32 s.mem (pteAddr (pde s.mem pd (va / pgsize / 1024)) + 4 * (va / pgsize % 1024)) =
    pte s.mem pd (va / pgsize) := by
    rw [pte, if_pos hp]
  simp only [peek, wp_bind, wp_get, wp_pure, hpte, wp_ite]
  refine ⟨fun h1 => ?_, fun h1 => ⟨fun h2 => ?_, fun h2 => ?_⟩⟩
  · apply hnone hp
    intro hacc
    rw [hacc.2.1] at h1
    cases h1
  · apply hnone hp
    intro hacc
    rw [hacc.2.2] at h2
    cases h2
  · apply hsome
    exact ⟨page_lt hva, by simpa using h1, by simpa using h2⟩

def Filled (pd va len : ℕ) (buf : Bytes) (s s' : Kmem) : Prop :=
  ∀ x, Accessible s.mem pd (x / pgsize) → userByte s'.mem pd x = if va ≤ x ∧
    x < va + len then buf (x - va) else userByte s.mem pd x

structure Spills (pd : ℕ) (s s' : Kmem) : Prop where
  table : SameTable s.mem s'.mem pd
  changes : Changes (userFrames s.mem pd) s s'
  free : s'.freelist = s.freelist

theorem Spills.refl (pd : ℕ) (s : Kmem) : Spills pd s s := ⟨.refl _ _, .refl _ _, rfl⟩

theorem Spills.trans {s' s'' : Kmem} (h : Spills pd s s') (h' : Spills pd s' s'') : Spills pd s s'' :=
  ⟨h.table.trans h'.table, h.changes.trans (by rw [← h.table.userFrames_eq]; exact h'.changes), h'.free.trans h.free⟩

variable {n : ℕ}

theorem spills_store (h : Proper s.mem pd) (buf : Bytes) (hva : Accessible s.mem pd (va / pgsize))
    (hn : va % pgsize + n ≤ pgsize) :
    Spills pd s { s with mem := store s.mem (userAddr s.mem pd va) n buf } ∧
      Filled pd va n buf s { s with mem := store s.mem (userAddr s.mem pd va) n buf } := by
  have hlo : pteAddr (pte s.mem pd (va / pgsize)) ≤ userAddr s.mem pd va := Nat.le_add_right _ _
  have hhi : userAddr s.mem pd va + n ≤ pteAddr (pte s.mem pd (va / pgsize)) + pgsize := by
    unfold userAddr
    omega
  have htable : SameTable s.mem (store s.mem (userAddr s.mem pd va) n buf) pd := h.store hva hlo hhi
  refine ⟨⟨htable, ⟨fun q hq hout => ?_, id⟩, rfl⟩, fun x hx => ?_⟩
  · apply samePage_store (pteAddr_aligned _) hq _ hlo hhi
    rintro rfl
    exact hout ⟨_, hva, rfl⟩
  · exact userByte_store (htable.ptes _ hx.1) hn fun heq => h.inj _ _ hx hva heq

theorem rangePage_first {x : ℕ} (hva : va < 2 ^ 32) (hn : va % pgsize + n ≤ pgsize) (hx : x < n) :
    rangePage va x = va / pgsize := by
  unfold rangePage u32 pgsize at *
  omega

theorem rangePage_next (va x : ℕ) :
    rangePage (u32 (va / pgsize * pgsize + pgsize)) x = rangePage va (pgsize - va % pgsize + x) := by
  have hsum : va / pgsize * pgsize + pgsize = va + (pgsize - va % pgsize) := by
    unfold pgsize
    omega
  rw [rangePage, rangePage, hsum, u32, u32, Nat.mod_add_mod, Nat.add_assoc]
  rfl

theorem Filled.next {s₁ s' : Kmem} (hn : n = min (pgsize - va % pgsize) len) (hlen : va + len ≤ 2 ^ 32)
    (htable : SameTable s.mem s₁.mem pd) (h : Filled pd va n buf s s₁)
    (h' : Filled pd (u32 (va / pgsize * pgsize + pgsize)) (len - n) (fun i => buf (n + i)) s₁ s') :
    Filled pd va len buf s s' := by
  intro x hx
  rw [h' x (htable.accessible_iff.mpr hx), h x hx]
  by_cases hlast : len - n = 0
  · have hnlen : n = len := by omega
    rw [hlast, hnlen, if_neg (by omega)]
  have hnext : u32 (va / pgsize * pgsize + pgsize) = va + n := by
    unfold u32 pgsize at *
    omega
  rw [hnext]
  by_cases h1 : va + n ≤ x ∧ x < va + len
  · have hsub : n + (x - (va + n)) = x - va := by omega
    rw [if_pos (by omega), if_pos (by omega)]
    exact congrArg buf hsub
  · rw [if_neg (by omega)]
    by_cases h2 : va ≤ x ∧ x < va + n
    · rw [if_pos h2, if_pos (by omega)]
    · rw [if_neg h2, if_neg (by omega)]

theorem wp_copyBytes {Q : Bool → Kmem → Prop} (h : Proper s.mem pd) (hva : va < 2 ^ 32) (hleft : len < left)
    (hnull : ∀ x < len, (∀ y < x, Accessible s.mem pd (rangePage va y)) → present (pde s.mem pd (rangePage va x / 1024)) =
    false → E .nullDeref)
    (hbad : ∀ s' x, x < len → (∀ y < x, Accessible s.mem pd (rangePage va y)) → ¬ Accessible s.mem pd (rangePage va x) →
      present (pde s.mem pd (rangePage va x / 1024)) → Spills pd s s' → Q false s')
    (hok : ∀ s', (∀ x < len, Accessible s.mem pd (rangePage va x)) → Spills pd s s' →
    (va + len ≤ 2 ^ 32 → Filled pd va len buf s s') → Q true s') : wp (copyBytes pd left va buf len) s Q E := by
  induction left generalizing s va buf len with
  | zero => omega
  | succ left ih =>
    rw [copyBytes]
    by_cases hlen : len > 0
    · have hdown : pgrounddown va / pgsize = va / pgsize := Nat.mul_div_cancel _ (by decide)
      have hsub : va - pgrounddown va = va % pgsize := by
        unfold pgrounddown pgsize
        omega
      have hzero : rangePage va 0 = va / pgsize := by
        unfold rangePage u32
        rw [Nat.add_zero, Nat.mod_eq_of_lt hva]
      have hround : pgrounddown va < 2 ^ 32 := lt_of_le_of_lt (Nat.div_mul_le_self _ _) hva
      rw [if_pos hlen, wp_bind]
      apply wp_uva2ka hround
      · rw [hdown, ← hzero]
        exact hnull 0 hlen nofun
      · rw [hdown]
        intro hp hacc
        rw [← hzero] at hp hacc
        exact wp_ret (hbad s 0 hlen nofun hacc hp (.refl pd s))
      rw [hdown]
      intro hacc
      simp only [wp_bind, wp_modify, hsub]
      -- the round copies `n` bytes of the page, and the rest of the range begins with the next page
      obtain ⟨n, hn⟩ : ∃ n, n = min (pgsize - va % pgsize) len := ⟨_, rfl⟩
      have hpage : va % pgsize + n ≤ pgsize := by
        have hlt : va % pgsize < pgsize := Nat.mod_lt _ (by decide)
        omega
      have hpos : 0 < n := by
        have hlt : va % pgsize < pgsize := Nat.mod_lt _ (by decide)
        omega
      rw [← hn]
      obtain ⟨hspill, hfill⟩ := spills_store h buf hacc hpage
      have hfirst : ∀ y < n, Accessible s.mem pd (rangePage va y) := by
        intro y hy
        rw [rangePage_first hva hpage hy]
        exact hacc
      have hlt : u32 (pgrounddown va + pgsize) < 2 ^ 32 := Nat.mod_lt _ (by decide)
      have hnext : ∀ x < len - n, rangePage (u32 (pgrounddown va + pgsize)) x = rangePage va (n + x) := by
        intro x hx
        rw [pgrounddown, rangePage_next, show pgsize - va % pgsize = n by omega]
      have hall : ∀ x ≤ len - n, (∀ y < x, Accessible (store s.mem (userAddr s.mem pd va) n buf) pd
        (rangePage (u32 (pgrounddown va + pgsize)) y)) → ∀ y < n + x, Accessible s.mem pd (rangePage va y) := by
        intro x hx hrest y hy
        by_cases hyn : y < n
        · exact hfirst y hyn
        · have hy' := hspill.table.accessible_iff.mp (hrest (y - n) (by omega))
          rwa [hnext (y - n) (by omega), Nat.add_sub_cancel' (by omega)] at hy'
      have hpde : ∀ x < len - n, pde (store s.mem (userAddr s.mem pd va) n buf) pd
        (rangePage (u32 (pgrounddown va + pgsize)) x / 1024) = pde s.mem pd (rangePage va (n + x) / 1024) := by
        intro x hx
        rw [hnext x hx]
        exact hspill.table.pdes _ (table_lt (rangePage_lt _ _))
      apply ih (hspill.table.proper h) hlt (by omega)
      · intro x hx hrest habs
        rw [hpde x hx] at habs
        exact hnull (n + x) (by omega) (hall x hx.le hrest) habs
      · intro s' x hx hrest hnot hp hs'
        rw [hpde x hx] at hp
        rw [hnext x hx] at hnot
        exact hbad s' (n + x) (by omega) (hall x hx.le hrest) (fun hacc' => hnot (hspill.table.accessible_iff.mpr hacc')) hp
          (hspill.trans hs')
      intro s' hrest hs' hfill'
      apply hok s' _ (hspill.trans hs')
      · intro hle
        apply Filled.next hn hle hspill.table hfill
        apply hfill'
        unfold u32 pgrounddown pgsize at *
        omega
      · intro x hx
        exact hall (len - n) le_rfl hrest x (by omega)
    · rw [if_neg hlen]
      apply wp_ret
      apply hok s
      · omega
      · exact .refl pd s
      · intro _ x _
        rw [if_neg (by omega)]

def Covered (m : Bytes) (pd va len : ℕ) : Prop := va + len ≤ 2 ^ 32 ∧ ∀ x, va ≤ x → x < va + len → Accessible m pd (x / pgsize)

def CopiesOut (s : Kmem) (pd va : ℕ) (buf : Bytes) (len : ℕ) : Prop :=
  ∃ r s', copyout pd va buf len s = .ok (r, s') ∧ Spills pd s s' ∧ (r = true ↔ Covered s.mem pd va len) ∧
    (r = true → Filled pd va len buf s s')

theorem covered_iff : Covered s.mem pd va len ↔ va + len ≤ 2 ^ 32 ∧ ∀ x < len, Accessible s.mem pd (rangePage va x) := by
  apply and_congr_right
  intro hle
  have hpage : ∀ x < len, rangePage va x = (va + x) / pgsize := by
    intro x hx
    rw [rangePage, u32, Nat.mod_eq_of_lt (by omega)]
  constructor
  · intro h x hx
    rw [hpage x hx]
    exact h (va + x) (by omega) (by omega)
  · intro h x h1 h2
    have hx := h (x - va) (by omega)
    rwa [hpage (x - va) (by omega), Nat.add_sub_cancel' h1] at hx

theorem copyout_iff (h : Proper s.mem pd) (hva : va < 2 ^ 32) (buf : Bytes) (len : ℕ) : CopiesOut s pd va buf len ↔
    (∀ x < len, (∀ y < x, Accessible s.mem pd (rangePage va y)) → present (pde s.mem pd (rangePage va x / 1024))) ∧
      ((∀ x < len, Accessible s.mem pd (rangePage va x)) → va + len ≤ 2 ^ 32) := by
  by_cases hpde : ∀ x < len, (∀ y < x, Accessible s.mem pd (rangePage va y)) → present (pde s.mem pd (rangePage va x / 1024))
  · have hrun : wp (copyout pd va buf len) s (fun r s' => Spills pd s s' ∧
      (r = true ↔ ∀ x < len, Accessible s.mem pd (rangePage va x)) ∧ (r = true → va + len ≤ 2 ^ 32 → Filled pd va len buf s s'))
      fun _ => False := by
      apply wp_copyBytes h hva (Nat.lt_succ_self len)
      · intro x hx hall habs
        rw [hpde x hx hall] at habs
        exact nomatch habs
      · intro s' x hx _ hnot _ hs'
        exact ⟨hs', iff_of_false nofun fun hall => hnot (hall x hx), nofun⟩
      · intro s' hall hs' hfill
        exact ⟨hs', iff_of_true rfl hall, fun _ => hfill⟩
    obtain ⟨r, s', heq, hs', hr, hfill⟩ := exists_of_wp hrun
    constructor
    · rintro ⟨r', s'', heq', -, hcov, -⟩
      rw [heq] at heq'
      cases heq'
      exact ⟨hpde, fun hall => (hcov.mp (hr.mpr hall)).1⟩
    · rintro ⟨-, hle⟩
      refine ⟨r, s', heq, hs', ?_, fun htrue => hfill htrue (hle (hr.mp htrue))⟩
      rw [covered_iff, hr]
      exact ⟨fun hall => ⟨hle hall, hall⟩, And.right⟩
  · apply iff_of_false
    · rintro ⟨r, s', heq, -⟩
      push Not at hpde
      obtain ⟨x, hx, hall, habs⟩ := hpde
      have hnull : wp (copyout pd va buf len) s (fun _ _ => False) fun _ => True := by
        apply wp_copyBytes h hva (Nat.lt_succ_self len)
        · intro _ _ _ _
          trivial
        · intro s' x' hx' hall' hnot hp _
          rcases lt_trichotomy x x' with hlt | rfl | hlt
          · exact habs (pde_present_of_pte (hall' x hlt).2.1)
          · exact habs hp
          · exact hnot (hall x' hlt)
        · intro s' hall' _ _
          exact habs (pde_present_of_pte (hall' x hx).2.1)
      exact wp_ok hnull heq
    · intro hc
      exact hpde hc.1

end copyout

theorem onePage_proper : Proper (onePage [] []).mem 0x111000 :=
  let _ := sampleLayout
  (onePage_spec (by decide) (by simp) []).1.proper

theorem copyout_iff_inside : CopiesOut (onePage [] []) 0x111000 100 zeroes 10 := by
  have hpde : present (pde (onePage [] []).mem 0x111000 0) := by decide +kernel
  have hpage : ∀ x < 10, rangePage 100 x = 0 := by decide
  refine (copyout_iff onePage_proper (by decide) zeroes 10).mpr ⟨fun x hx _ => ?_, fun _ => by decide⟩
  rw [hpage x hx]
  exact hpde

theorem copyout_absent_table : Proper (onePage [] []).mem 0x111000 ∧
    wp (copyout 0x111000 0xFD800000 zeroes 1) (onePage [] []) (fun _ _ => False) (fun e => e = .nullDeref) ∧
      ¬ CopiesOut (onePage [] []) 0x111000 0xFD800000 zeroes 1 := by
  have hrun : wp (copyout 0x111000 0xFD800000 zeroes 1) (onePage [] []) (fun _ _ => False)
    (fun e => e = .nullDeref) := by decide +kernel
  refine ⟨onePage_proper, hrun, ?_⟩
  rintro ⟨r, s', heq, -⟩
  exact wp_ok hrun heq

end Laboratorio.Vm
