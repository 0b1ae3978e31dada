import Laboratorio.Vm.Syscall

/-!
What `growproc` does to the address space of the process that calls it.
-/

namespace Laboratorio.Vm

open Bytes
open Procs (Slot)

structure Resized (k k' : Kernel) (cur : Slot) (pd sz : ℕ) : Prop where
  sz_eq : k'.sz cur = sz
  pgdir_eq : k'.pgdir cur = some pd
  exact : Exact k'.vm pd sz
  kept : ∀ va < min (k.sz cur) sz, userByte k'.vm.mem pd va = userByte k.vm.mem pd va
  zeroed : ∀ va, pagesOf (k.sz cur) ≤ va / pgsize → va / pgsize < pagesOf sz → userByte k'.vm.mem pd va = 0

structure Untouched (k k' : Kernel) (cur : Slot) (pd : ℕ) : Prop where
  sz_eq : k'.sz cur = k.sz cur
  pgdir_eq : k'.pgdir cur = some pd
  present_eq : ∀ v < allPages, present (pte k'.vm.mem pd v) = present (pte k.vm.mem pd v)
  pte_eq : ∀ v < allPages, present (pte k.vm.mem pd v) → pte k'.vm.mem pd v = pte k.vm.mem pd v
  kept : ∀ va < k.sz cur, userByte k'.vm.mem pd va = userByte k.vm.mem pd va

def Grew (k k' : Kernel) (cur : Slot) (pd : ℕ) (n : Int32) : Bool → Prop
  | true => ∃ sz : ℕ, (sz : ℤ) = k.sz cur + n.toInt ∧ Resized k k' cur pd sz
  | false => Untouched k k' cur pd

section growproc

variable {k : Kernel} {cur : Slot} {pd : ℕ} {n : Int32} {hand : List ℕ} {W : Set ℕ}

theorem page_lt_pagesOf {va sz : ℕ} (h : va < sz) : va / pgsize < pagesOf sz := by
  rw [lt_pagesOf]
  exact (Nat.div_mul_le_self va pgsize).trans_lt h

theorem wp_growproc_end {t : Kmem} {sz : ℕ} {Q : Bool → Kernel → Prop} {E : Fault → Prop} (hstack : k.kstack cur ≠ none)
    (hpd : k.pgdir cur = some pd) (hfail : n ≠ 0 → sz = 0 → Q false { k with vm := t })
    (hok : ¬ (n ≠ 0 ∧ sz = 0) → Q true ({ k with vm := t }.setSz cur sz)) :
    wp (if n ≠ 0 ∧ sz = 0 then pure false else do
      modify fun k => k.setSz cur sz
      switchuvm cur
      pure true) { k with vm := t } Q E := by
  have hgood : ¬ (k.kstack cur = none ∨ k.pgdir cur = none) := by
    rintro (h | h)
    · exact hstack h
    · rw [hpd] at h
      exact nomatch h
  split_ifs with h
  · exact wp_ret (hfail h.1 h.2)
  · simp only [wp_bind, wp_modify]
    rw [switchuvm, wp_bind, wp_get]
    exact wp_ite.mpr ⟨fun hbad => (hgood hbad).elim, fun _ => wp_ret (wp_ret (hok h))⟩

theorem setSz_self (k : Kernel) (i : Slot) (sz : ℕ) : (k.setSz i sz).sz i = sz := Function.update_self ..

theorem Untouched.refl (hpd : k.pgdir cur = some pd) : Untouched k k cur pd :=
    ⟨rfl, hpd, fun _ _ => rfl, fun _ _ _ => rfl, fun _ _ => rfl⟩

variable [Layout] {s' : Kmem}

theorem Alters.userByte {s : Kmem} {lo hi va : ℕ} (hown : Owns s pd hand W) (h : Alters pd lo hi s s')
    (hva : va / pgsize < userPages) (hp : present (pte s.mem pd (va / pgsize))) (hout : va / pgsize < lo ∨ hi ≤ va / pgsize)
    (hpte : pte s'.mem pd (va / pgsize) = pte s.mem pd (va / pgsize)) :
    userByte s'.mem pd va = userByte s.mem pd va := h.changes.userByte hpte (hown.user_notMem_reach hva hp hout)

variable {newsz : ℕ}

section

variable (hpd : k.pgdir cur = some pd) (hown : Owns k.vm pd hand W) (he : Exact k.vm pd (k.sz cur)) (hsz : k.sz cur < kernbase)

include hpd hown he hsz

theorem untouched_of_unmapped (hnew : newsz < kernbase) (halt : Alters pd (pagesOf (k.sz cur)) (pagesOf newsz) k.vm s')
    (hun : Unmapped pd (pagesOf (k.sz cur)) newsz k.vm s') : Untouched k { k with vm := s' } cur pd := by
  have huser := pagesOf_le_userPages hnew.le
  have hrest : ∀ v < allPages, present (pte k.vm.mem pd v) → pte s'.mem pd v = pte k.vm.mem pd v := by
    intro v hv hp
    apply hun.rest v hv
    rintro ⟨h1, h2⟩
    have hlt := (he v (by omega)).mp hp
    omega
  refine ⟨rfl, hpd, fun v hv => ?_, hrest, fun va hva => ?_⟩
  · by_cases hin : pagesOf (k.sz cur) ≤ v ∧ v < pagesOf newsz
    · have hgone := hun.gone v hin.1 hin.2
      have hold : present (pte k.vm.mem pd v) = false := by
        rw [Bool.eq_false_iff]
        intro hp
        have hlt := (he v (by omega)).mp hp
        omega
      exact hgone.trans hold.symm
    · exact congrArg present (hun.rest v hv hin)
  · have hpage := page_lt_pagesOf hva
    have hv : va / pgsize < userPages := hpage.trans_le (pagesOf_le_userPages hsz.le)
    have hp := (he _ hv).mpr hpage
    exact halt.userByte hown hv hp (.inl hpage) (hrest _ (hv.trans userPages_lt_allPages) hp)

theorem resized_of_grown (hle : k.sz cur ≤ newsz) (hmaps : Maps pd k.vm s')
    (hg : Grown pd (pagesOf (k.sz cur)) (pagesOf newsz) (fun _ => pteW ||| pteU) (fun _ => zeroes) k.vm s') :
    Resized k ({ k with vm := s' }.setSz cur newsz) cur pd newsz := by
  have hpages : pagesOf (k.sz cur) ≤ pagesOf newsz := by
    exact Nat.div_le_div_right (by omega)
  refine ⟨setSz_self _ _ _, hpd, exact_of_grown he hpages rfl hg, fun va hva => ?_, fun va h1 h2 => ?_⟩
  · have hpage := page_lt_pagesOf (show va < k.sz cur by omega)
    have hv : va / pgsize < userPages := hpage.trans_le (pagesOf_le_userPages hsz.le)
    exact hmaps.changes.userByte (hg.rest _ (hv.trans userPages_lt_allPages) (by omega))
      (hown.user_notMem_core hv ((he _ hv).mpr hpage))
  · obtain ⟨p, hp, hpte, hz⟩ := hg.fresh _ h1 h2
    have haddr : pteAddr (pte s'.mem pd (va / pgsize)) = p := by
      rw [hpte]
      exact entry_addr hp.aligned (by decide)
    exact userByte_of_holds haddr hz

theorem resized_of_unmapped (hlt : newsz < k.sz cur) (halt : Alters pd (pagesOf newsz) (pagesOf (k.sz cur)) k.vm s')
    (hun : Unmapped pd (pagesOf newsz) (k.sz cur) k.vm s') : Resized k ({ k with vm := s' }.setSz cur newsz) cur pd newsz := by
  have hpages : pagesOf newsz ≤ pagesOf (k.sz cur) := by
    exact Nat.div_le_div_right (by omega)
  have huser := pagesOf_le_userPages hsz.le
  refine ⟨setSz_self _ _ _, hpd, fun v hv => ?_, fun va hva => ?_, fun va h1 h2 => by omega⟩
  · change present (pte s'.mem pd v) = true ↔ _
    by_cases hin : pagesOf newsz ≤ v ∧ v < pagesOf (k.sz cur)
    · rw [hun.gone v hin.1 hin.2]
      simp only [Bool.false_eq_true, false_iff]
      omega
    · rw [hun.rest v (hv.trans userPages_lt_allPages) hin, he v hv]
      omega
  · have hpage := page_lt_pagesOf (show va < newsz by omega)
    have hv : va / pgsize < userPages := (hpage.trans_le hpages).trans_le huser
    have hp := (he _ hv).mpr (hpage.trans_le hpages)
    exact halt.userByte hown hv hp (.inl hpage) (hun.rest _ (hv.trans userPages_lt_allPages) (by omega))

end

section

variable (hpd : k.pgdir cur = some pd) (hstack : k.kstack cur ≠ none)

include hpd hstack

theorem grew_up (hown : Owns k.vm pd hand W) (he : Exact k.vm pd (k.sz cur))
    (hsz : k.sz cur < kernbase) (hn : 0 < n.toInt) :
    wp (growproc cur n) k (fun r k' => Grew k k' cur pd n r) fun _ => False := by
  have hpos : n > 0 := by simpa [Int32.lt_iff_toInt_lt] using hn
  have hne : n ≠ 0 := by
    rintro rfl
    exact absurd hn (by decide)
  have hnat := toUInt32_toNat n
  have hlt := n.toInt_lt
  have hnew : (u32 (k.sz cur + n.toUInt32.toNat) : ℤ) = k.sz cur + n.toInt := by
    unfold u32 kernbase at *
    omega
  unfold growproc onVm
  simp only [wp_bind, wp_get, hpd, if_pos hpos, wp_within]
  generalize u32 (k.sz cur + n.toUInt32.toNat) = newsz at hnew
  by_cases hbig : kernbase ≤ newsz
  · rw [allocuvm, if_pos hbig]
    apply wp_ret
    apply wp_growproc_end hstack hpd
    · intro _ _
      exact .refl hpd
    · intro hbad
      exact (hbad ⟨hne, rfl⟩).elim
  apply wp_allocuvm hown hsz.le
  · intro v h1 h2 _ hp
    have hv := (he v (h2.trans_le (pagesOf_le_userPages (by omega)))).mp hp
    omega
  · intro h
    exact (hbig h).elim
  · omega
  · intro s' _ halt hun _
    apply wp_growproc_end hstack hpd
    · intro _ _
      exact untouched_of_unmapped hpd hown he hsz (by omega) halt hun
    · intro hbad
      exact (hbad ⟨hne, rfl⟩).elim
  · intro s' hle _ _ hmaps hg
    apply wp_growproc_end hstack hpd
    · omega
    · intro _
      exact ⟨newsz, hnew, resized_of_grown hpd hown he hsz hle hmaps hg⟩

theorem grew_zero (he : Exact k.vm pd (k.sz cur)) :
    wp (growproc cur 0) k (fun r k' => Grew k k' cur pd 0 r) fun _ => False := by
  unfold growproc
  simp only [wp_bind, wp_get, hpd, gt_iff_lt, Int32.lt_irrefl, if_false]
  apply wp_ret
  apply wp_growproc_end hstack hpd
  · intro h
    exact (h rfl).elim
  · intro _
    refine ⟨k.sz cur, by simp, setSz_self _ _ _, hpd, he, fun _ _ => rfl, fun va h1 h2 => by omega⟩

/-- A process that shrinks to nothing loses its pages though `growproc` fails; one
that would shrink below that keeps its size though `growproc` succeeds. -/
theorem grew_down (hown : Owns k.vm pd hand W) (he : Exact k.vm pd (k.sz cur)) (hsz : k.sz cur < kernbase) (hn : n.toInt < 0) :
    wp (growproc cur n) k (fun r k' => Grew k k' cur pd n r ↔ 0 < k.sz cur + n.toInt ∨ k.sz cur = 0) fun _ => False := by
  have hneg : n < 0 := by simpa [Int32.lt_iff_toInt_lt] using hn
  have hne : n ≠ 0 := by
    rintro rfl
    exact absurd hn (by decide)
  have hnot : ¬ n > 0 := Int32.not_lt.mpr (Int32.le_of_lt hneg)
  have hnat := toUInt32_toNat n
  have hge := n.le_toInt
  unfold growproc onVm
  simp only [wp_bind, wp_get, hpd, if_neg hnot, if_pos hneg, wp_within]
  by_cases hbelow : k.sz cur + n.toInt < 0
  · -- the sum wraps to a number above the old size
    have hwrap : u32 (k.sz cur + n.toUInt32.toNat) ≥ k.sz cur := by
      unfold u32 kernbase at *
      omega
    rw [deallocuvm, if_pos hwrap]
    apply wp_ret
    apply wp_growproc_end hstack hpd
    · intro _ h0
      exact iff_of_true (.refl hpd) (.inr h0)
    · intro hpos
      apply iff_of_false
      · rintro ⟨sz, hs, -⟩
        omega
      · have hold : k.sz cur ≠ 0 := fun h0 => hpos ⟨hne, h0⟩
        omega
  · have hnew : (u32 (k.sz cur + n.toUInt32.toNat) : ℤ) = k.sz cur + n.toInt := by
      unfold u32 kernbase at *
      omega
    generalize u32 (k.sz cur + n.toUInt32.toNat) = newsz at hnew
    have hlt : newsz < k.sz cur := by omega
    apply wp_deallocuvm hown hsz.le
    intro s' _ halt hun
    have hres : (if newsz ≥ k.sz cur then k.sz cur else newsz) = newsz := if_neg (Nat.not_le.mpr hlt)
    rw [hres]
    apply wp_growproc_end hstack hpd
    · rintro _ rfl
      apply iff_of_false
      · intro h
        have hpage : 0 < pagesOf (k.sz cur) := page_lt_pagesOf hlt
        have hgone := hun.gone 0 (Nat.zero_le _) hpage
        have hold := (he 0 (by decide)).mpr hpage
        have hsame := h.present_eq 0 (by decide)
        rw [hold] at hsame
        cases hgone.symm.trans hsame
      · omega
    · intro hpos
      apply iff_of_true
      · exact ⟨newsz, hnew, resized_of_unmapped hpd hown he hsz hlt halt hun⟩
      · have hpos' : newsz ≠ 0 := fun h0 => hpos ⟨hne, h0⟩
        omega

end

theorem growproc_exact_iff (hpd : k.pgdir cur = some pd) (hstack : k.kstack cur ≠ none) (hown : Owns k.vm pd hand W)
    (he : Exact k.vm pd (k.sz cur)) (hsz : k.sz cur < kernbase) (n : Int32) :
    (∃ r k', growproc cur n k = .ok (r, k') ∧ Grew k k' cur pd n r) ↔ 0 ≤ n.toInt ∨ 0 < k.sz cur + n.toInt ∨ k.sz cur = 0 := by
  rcases lt_trichotomy n.toInt 0 with hn | hn | hn
  · obtain ⟨r, k', hrun, hiff⟩ := exists_of_wp (grew_down hpd hstack hown he hsz hn)
    rw [or_iff_right (by omega), ← hiff]
    constructor
    · rintro ⟨r1, k1, hrun1, h⟩
      rw [hrun] at hrun1
      cases hrun1
      exact h
    · intro h
      exact ⟨r, k', hrun, h⟩
  · have hn0 : n = 0 := Int32.toInt_inj.mp hn
    subst hn0
    exact iff_of_true (exists_of_wp (grew_zero hpd hstack he)) (.inl (by decide))
  · have h := exists_of_wp (grew_up hpd hstack hown he hsz hn)
    exact iff_of_true h (.inl hn.le)

end growproc

def smallKernel : Kernel :=
  { Kernel.start zeroes [] with
    vm := onePage [] [], kstack := fun _ => some 0x114000, pgdir := fun _ => some 0x111000, sz := fun _ => 4096 }

theorem smallKernel_owns : @Owns sampleLayout smallKernel.vm 0x111000 [] {p | p ∈ sampleFrames ++ []} :=
    (onePage_spec (by decide) (by simp) []).1

theorem smallKernel_exact : Exact smallKernel.vm 0x111000 (smallKernel.sz 0) := onePage_exact (by decide) (by simp) []

theorem growproc_exact_iff_one : letI := sampleLayout
    ∃ r k', growproc 0 1 smallKernel = .ok (r, k') ∧ Grew smallKernel k' 0 0x111000 1 r := by
  let _ := sampleLayout
  exact (growproc_exact_iff rfl (Option.some_ne_none _) smallKernel_owns smallKernel_exact (by decide) 1).mpr (.inl (by decide))

/-- The process loses its page and is told that nothing has happened. With one byte more it is told of a success. -/
theorem growproc_to_nothing : letI := sampleLayout
    (Owns smallKernel.vm 0x111000 [] {p | p ∈ sampleFrames ++ []} ∧ Exact smallKernel.vm 0x111000 (smallKernel.sz 0) ∧
      smallKernel.sz 0 < kernbase) ∧ wp (growproc 0 (-4096)) smallKernel (fun r k' => r = false ∧ k'.sz 0 = 4096 ∧
      present (pte k'.vm.mem 0x111000 0) = false) (fun _ => False) ∧
      wp (growproc 0 (-4097)) smallKernel (fun r k' => r = true ∧ k'.sz 0 = 4096) (fun _ => False) ∧
      (¬ ∃ r k', growproc 0 (-4096) smallKernel = .ok (r, k') ∧ Grew smallKernel k' 0 0x111000 (-4096) r) ∧ ¬ ∃ r k',
      growproc 0 (-4097) smallKernel = .ok (r, k') ∧ Grew smallKernel k' 0 0x111000 (-4097) r := by
  let _ := sampleLayout
  have hsz : smallKernel.sz 0 < kernbase := by decide
  have hdown : ∀ n : Int32, n.toInt < 0 → ¬ (0 < smallKernel.sz 0 + n.toInt ∨ smallKernel.sz 0 = 0) →
      ¬ ∃ r k', growproc 0 n smallKernel = .ok (r, k') ∧ Grew smallKernel k' 0 0x111000 n r := by
    rintro n hn hbad ⟨r, k', hrun, hgrew⟩
    exact hbad ((wp_ok (grew_down rfl (Option.some_ne_none _) smallKernel_owns smallKernel_exact hsz hn) hrun).mp hgrew)
  exact ⟨⟨smallKernel_owns, smallKernel_exact, hsz⟩, by decide +kernel, by decide +kernel, hdown _ (by decide) (by decide),
    hdown _ (by decide) (by decide)⟩

end Laboratorio.Vm
