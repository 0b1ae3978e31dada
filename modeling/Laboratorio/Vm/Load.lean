import Laboratorio.Vm.Exec

/-!
The first half of `exec`: the image that it builds holds the bytes of the segments, and a failure gives all pages back.
-/

namespace Laboratorio.Vm

open Bytes

structure Fills (pd : ℕ) (W : Set ℕ) (s s' : Kmem) : Prop where
  ptes : ∀ v < allPages, pte s'.mem pd v = pte s.mem pd v
  changes : Changes W s s'

theorem Fills.refl (pd : ℕ) (W : Set ℕ) (s : Kmem) : Fills pd W s s := ⟨fun _ _ => rfl, .refl W s⟩

theorem Fills.trans {pd : ℕ} {W : Set ℕ} {s s' s'' : Kmem} (h : Fills pd W s s') (h' : Fills pd W s' s'') :
    Fills pd W s s'' := ⟨fun v hv => (h'.ptes v hv).trans (h.ptes v hv), h.changes.trans h'.changes⟩

theorem Fills.exact {pd sz : ℕ} {W : Set ℕ} {s s' : Kmem} (h : Fills pd W s s') (he : Exact s pd sz) : Exact s' pd sz := by
  intro v hv
  rw [h.ptes v (hv.trans userPages_lt_allPages)]
  exact he v hv

theorem mask_addr {e : ℕ} (h : e < 2 ^ 32) : pteAddr (e &&& (2 ^ 32 - 1 - pteU)) = pteAddr e := by
  have hdiv : (e &&& (2 ^ 32 - 1 - pteU)) / 2 ^ 12 = e / 2 ^ 12 := by
    rw [Nat.and_div_two_pow, show (2 ^ 32 - 1 - pteU) / 2 ^ 12 = 2 ^ 20 - 1 by decide, Nat.and_two_pow_sub_one_eq_mod]
    omega
  unfold pteAddr
  rw [show pgsize = 2 ^ 12 by rfl, hdiv]

theorem mask_present (e : ℕ) : present (e &&& (2 ^ 32 - 1 - pteU)) = present e := by
  have h : (e &&& (2 ^ 32 - 1 - pteU)).testBit 0 = e.testBit 0 := by
    rw [Nat.testBit_and, show Nat.testBit (2 ^ 32 - 1 - pteU) 0 = true by decide, Bool.and_true]
  rw [Bool.eq_iff_iff, present_iff, present_iff, h]

theorem mask_userOk (e : ℕ) : userOk (e &&& (2 ^ 32 - 1 - pteU)) = false := by
  rw [userOk_iff, Nat.testBit_and, show Nat.testBit (2 ^ 32 - 1 - pteU) 2 = false by decide, Bool.and_false]

def segmentByte (readi : ℕ → ℕ → ℕ → ℕ × Bytes) (addr offset sz va : ℕ) : UInt8 :=
  let q := (va - addr) / pgsize
  (readi q (u32 (offset + q * pgsize)) (min (sz - q * pgsize) pgsize)).2 ((va - addr) % pgsize)

/-- Every page of the segment from the `j`-th on is read in full. -/
def Complete (offset sz : ℕ) (readi : ℕ → ℕ → ℕ → ℕ × Bytes) (j : ℕ) : Prop :=
  ∀ q, j ≤ q → q < pagesOf sz → (readi q (u32 (offset + q * pgsize)) (min (sz - q * pgsize) pgsize)).1 =
    min (sz - q * pgsize) pgsize

structure Loaded (pd addr offset sz : ℕ) (readi : ℕ → ℕ → ℕ → ℕ × Bytes) (j : ℕ) (s s' : Kmem) : Prop where
  counts : Complete offset sz readi j
  bytes : ∀ va, va / pgsize < userPages → present (pte s.mem pd (va / pgsize)) → userByte s'.mem pd va =
    if addr + j * pgsize ≤ va ∧ va < addr + sz then segmentByte readi addr offset sz va else userByte s.mem pd va

section loaded

variable {s s₁ s' : Kmem} {pd addr offset sz j : ℕ} {readi : ℕ → ℕ → ℕ → ℕ × Bytes}

theorem Loaded.done (h : pagesOf sz ≤ j) (s : Kmem) : Loaded pd addr offset sz readi j s s := by
  have hj : ¬ j * pgsize < sz := by
    rw [← lt_pagesOf]
    omega
  refine ⟨fun q h1 h2 => by omega, fun va _ _ => ?_⟩
  rw [if_neg (by omega)]

theorem Loaded.cons {n : ℕ} (hn : n = min (sz - j * pgsize) pgsize) (hptes : ∀ v < allPages, pte s₁.mem pd v = pte s.mem pd v)
    (hcount : (readi j (u32 (offset + j * pgsize)) n).1 = n)
    (hfirst : ∀ va, va / pgsize < userPages → present (pte s.mem pd (va / pgsize)) → userByte s₁.mem pd va =
      if addr + j * pgsize ≤ va ∧ va < addr + j * pgsize + n then (readi j (u32 (offset + j * pgsize)) n).2
        (va - (addr + j * pgsize))
      else userByte s.mem pd va) (h : Loaded pd addr offset sz readi (j + 1) s₁ s') :
        Loaded pd addr offset sz readi j s s' := by
  have hsucc : (j + 1) * pgsize = j * pgsize + pgsize := Nat.succ_mul _ _
  refine ⟨fun q h1 h2 => ?_, fun va hva hp => ?_⟩
  · rcases Nat.eq_or_lt_of_le h1 with rfl | hlt
    · rw [← hn]
      exact hcount
    · exact h.counts q hlt h2
  have hp₁ : present (pte s₁.mem pd (va / pgsize)) := by rwa [hptes _ (hva.trans userPages_lt_allPages)]
  rw [h.bytes va hva hp₁, hfirst va hva hp, hsucc]
  by_cases hin : addr + j * pgsize ≤ va ∧ va < addr + j * pgsize + n
  · have hq : (va - addr) / pgsize = j := by
      apply Nat.div_eq_of_lt_le
      · omega
      · omega
    have hmod : (va - addr) % pgsize = va - (addr + j * pgsize) := by
      have hdiv := Nat.div_add_mod (va - addr) pgsize
      rw [hq, Nat.mul_comm] at hdiv
      omega
    rw [if_neg (by omega), if_pos hin, if_pos (by omega), segmentByte, hq, hmod, ← hn]
  · rw [if_neg hin]
    by_cases hrest : addr + (j * pgsize + pgsize) ≤ va ∧ va < addr + sz
    · rw [if_pos hrest, if_pos (by omega)]
    · rw [if_neg hrest, if_neg (by omega)]

end loaded

variable [Layout]

section contents

variable {s : Kmem} {pd v : ℕ} {hand : List ℕ} {W : Set ℕ} {E : Fault → Prop}

theorem Owns.storeUser (h : Owns s pd hand W) (hv : v < userPages) (hp : present (pte s.mem pd v)) {a n : ℕ} {b : Bytes}
    (ha : pteAddr (pte s.mem pd v) ≤ a) (hn : a + n ≤ pteAddr (pte s.mem pd v) + pgsize) :
    Owns { s with mem := Bytes.store s.mem a n b } pd hand W ∧
      Fills pd W s { s with mem := Bytes.store s.mem a n b } := by
  have hrole : Space s.mem pd (pteAddr (pte s.mem pd v)) (.user v) := ⟨hv, hp, rfl⟩
  have hpg : Pg (pteAddr (pte s.mem pd v)) := h.space hrole
  have hsame : ∀ q, q % pgsize = 0 → q ≠ pteAddr (pte s.mem pd v) → SamePage s.mem (Bytes.store s.mem a n b) q :=
    fun q hq hne => samePage_store hpg.aligned hq hne ha hn
  obtain ⟨hown, hpte⟩ := h.store
    (by
      apply hsame pd h.dir.aligned
      intro heq
      have hu := h.part.unique pd .dir (.user v) rfl ⟨hv, hp, heq.symm⟩
      simp at hu)
    (by
      intro i hi hpr
      apply hsame _ (h.tabPg hi hpr).aligned
      intro heq
      have hu := h.part.unique _ (.tab i) (.user v) ⟨hi, hpr, heq⟩ hrole
      simp at hu)
  refine ⟨hown, hpte, fun q hq hnot => ?_, id⟩
  apply hsame q hq
  rintro rfl
  exact hnot ((h.part.cover _).mpr (Or.inr (Or.inr ⟨_, hrole⟩)))

theorem wp_loadPages {addr offset sz left j : ℕ} {readi : ℕ → ℕ → ℕ → ℕ × Bytes} {Q : Bool → Kmem → Prop}
    (h : Owns s pd hand W) (hal : addr % pgsize = 0) (hsz : addr + sz ≤ kernbase)
    (hpres : ∀ v, addr / pgsize ≤ v → v < pagesOf (addr + sz) → present (pte s.mem pd v)) (hleft : left = pagesOf sz - j)
    (hok : ∀ b s', Owns s' pd hand W → Fills pd W s s' → (b = true → Loaded pd addr offset sz readi j s s') →
      (Complete offset sz readi j → b = true) → Q b s') :
    wp (loadPages pd addr offset sz readi left j) s Q E := by
  induction left generalizing s j with
  | zero => exact wp_ret (hok true s h (.refl pd W s) (fun _ => .done (by omega) s) fun _ => rfl)
  | succ left ih =>
    have hj : j * pgsize < sz := by
      rw [← lt_pagesOf]
      omega
    have hva : u32 (addr + j * pgsize) = addr + j * pgsize := by
      apply Nat.mod_eq_of_lt
      unfold kernbase at hsz
      omega
    have hpage : (addr + j * pgsize) / pgsize = addr / pgsize + j := by
      rw [Nat.add_mul_div_right _ _ (by decide)]
    have hmod : (addr + j * pgsize) % pgsize = 0 := by
      rw [Nat.add_mul_mod_self_right]
      exact hal
    have hin : addr / pgsize + j < pagesOf (addr + sz) := by
      rw [lt_pagesOf]
      have hround : addr / pgsize * pgsize = addr := Nat.div_mul_cancel (Nat.dvd_of_mod_eq_zero hal)
      rw [Nat.add_mul, hround]
      omega
    have hvu : addr / pgsize + j < userPages := hin.trans_le (pagesOf_le_userPages hsz)
    have hp := hpres _ (by omega) hin
    unfold loadPages peek
    simp only [hva, wp_bind]
    apply wp_walkpgdir (by unfold kernbase at hsz; omega)
    · intro hnp
      rw [hpage] at hnp
      rw [pte, hnp] at hp
      simp [present_zero] at hp
    intro hpr
    rw [hpage] at hpr ⊢
    have hread : rd32 s.mem (pteAddr (pde s.mem pd ((addr / pgsize + j) / 1024)) + 4 * ((addr / pgsize + j) % 1024)) =
        pte s.mem pd (addr / pgsize + j) := by
      rw [pte, if_pos hpr]
    simp only [wp_bind, wp_get, wp_pure, wp_modify, wp_ite, hread]
    obtain ⟨n, hn⟩ : ∃ n, n = min (sz - j * pgsize) pgsize := ⟨_, rfl⟩
    rw [← hn]
    obtain ⟨r, hr⟩ : ∃ r, r = readi j (u32 (offset + j * pgsize)) n := ⟨_, rfl⟩
    rw [← hr]
    obtain ⟨hown1, hfill1⟩ := h.storeUser hvu hp (n := min r.1 n) le_rfl (by omega)
    refine ⟨fun hne => hok false _ hown1 hfill1 (fun h => absurd h Bool.false_ne_true) fun hall => ?_, fun heq => ?_⟩
    · have hfull := hall j le_rfl (by omega)
      rw [← hn, ← hr] at hfull
      exact absurd hfull hne
    have hcount : r.1 = n := by simpa using heq
    have haddr : userAddr s.mem pd (addr + j * pgsize) = pteAddr (pte s.mem pd (addr / pgsize + j)) := by
      rw [userAddr, hpage, hmod, Nat.add_zero]
    have hfirst : ∀ va, va / pgsize < userPages → present (pte s.mem pd (va / pgsize)) →
      userByte (store s.mem (pteAddr (pte s.mem pd (addr / pgsize + j))) (min r.1 n) r.2) pd va = if addr + j * pgsize ≤ va ∧
      va < addr + j * pgsize + n then r.2 (va - (addr + j * pgsize)) else userByte s.mem pd va := by
      intro va hva' hpva
      have hpte := hfill1.ptes _ (hva'.trans userPages_lt_allPages)
      rw [hcount, Nat.min_self, ← haddr] at hpte ⊢
      apply userByte_store hpte
      · omega
      · rw [hpage]
        exact h.user_inj hva' hvu hpva hp
    apply ih hown1
    · intro v h1 h2
      have hvl : v < allPages := (h2.trans_le (pagesOf_le_userPages hsz)).trans userPages_lt_allPages
      rw [hfill1.ptes v hvl]
      exact hpres v h1 h2
    · omega
    · intro b s' hown hfill hloaded hfull
      refine hok b s' hown (hfill1.trans hfill) (fun hb => ?_) fun hall => hfull fun q h1 => hall q (by omega)
      subst hr
      exact .cons hn hfill1.ptes hcount hfirst (hloaded hb)

theorem wp_loaduvm {addr offset sz : ℕ} {readi : ℕ → ℕ → ℕ → ℕ × Bytes} {Q : Bool → Kmem → Prop}
    (h : Owns s pd hand W) (hal : addr % pgsize = 0) (hsz : addr + sz ≤ kernbase)
    (hpres : ∀ v, addr / pgsize ≤ v → v < pagesOf (addr + sz) → present (pte s.mem pd v))
    (hok : ∀ b s', Owns s' pd hand W → Fills pd W s s' → (b = true → Loaded pd addr offset sz readi 0 s s') →
      (Complete offset sz readi 0 → b = true) → Q b s') :
    wp (loaduvm pd addr readi offset sz) s Q E := by
  unfold loaduvm
  rw [if_neg (by simp [hal])]
  exact wp_loadPages h hal hsz hpres (Nat.sub_zero _).symm hok

theorem wp_clearpteu {uva : ℕ} {Q : Unit → Kmem → Prop} (h : Owns s pd hand W) (hva : uva < kernbase)
    (hp : present (pte s.mem pd (uva / pgsize))) (hok : ∀ s', Owns s' pd hand W → Changes (core s pd) s s' →
      (∀ u < allPages, pte s'.mem pd u =
        if u = uva / pgsize then pte s.mem pd u &&& (2 ^ 32 - 1 - pteU) else pte s.mem pd u) → Q () s') :
    wp (clearpteu pd uva) s Q E := by
  have hv : uva / pgsize < userPages := Nat.div_lt_div_of_lt_of_dvd (by decide) hva
  have hall := hv.trans userPages_lt_allPages
  unfold clearpteu peek poke
  rw [wp_bind]
  apply wp_walkpgdir (hva.trans (by decide))
  · intro hnp
    rw [pte, hnp] at hp
    simp [present_zero] at hp
  intro hpr
  have hread : rd32 s.mem (pteAddr (pde s.mem pd (uva / pgsize / 1024)) + 4 * (uva / pgsize % 1024)) =
      pte s.mem pd (uva / pgsize) := by
    rw [pte, if_pos hpr]
  have hlt : pte s.mem pd (uva / pgsize) < 2 ^ 32 := by
    rw [← hread]
    exact rd_lt 4 _ _
  have hlt' : pte s.mem pd (uva / pgsize) &&& (2 ^ 32 - 1 - pteU) < 2 ^ 32 := Nat.and_le_left.trans_lt hlt
  simp only [wp_bind, wp_get, wp_pure, wp_modify, hread]
  have hown := h.remap hv hpr hlt' (mask_present _) (mask_addr hlt)
  obtain ⟨_, hpte⟩ := h.pte_poke hall hpr hlt'
  refine hok _ hown ⟨fun q hq hn => ?_, id⟩ (fun u hu => ?_)
  · apply samePage_wr32 (h.tabPg (table_lt hall) hpr).aligned hq _ (Nat.mod_lt _ (by decide))
    rintro rfl
    exact hn (Or.inr (Or.inr ⟨_, table_lt hall, hpr, rfl⟩))
  · rw [hpte u hu]
    split_ifs with huv
    · rw [huv]
    · rfl

end contents

structure Shows (s : Kmem) (pd sz : ℕ) (img : Bytes) : Prop where
  bytes : ∀ va, va / pgsize < pagesOf sz → userByte s.mem pd va = img va
  zero : ∀ va, sz ≤ va → img va = 0

inductive Loads (src : Source) : ℕ → ℕ → ℕ → Bytes → Bytes → Prop
  | done (i off : ℕ) (img : Bytes) : Loads src 0 i off img img
  | skip {left i off : ℕ} {img img' : Bytes} (hread : (src (.ph i) off 32).1 = 32)
      (htype : rd32 (src (.ph i) off 32).2 0 ≠ elfProgLoad) (hrest : Loads src left (i + 1) (u32 (off + 32)) img img') :
      Loads src (left + 1) i off img img'
  | segment {left i off vaddr offset filesz : ℕ} {img img' : Bytes} (hread : (src (.ph i) off 32).1 = 32)
    (htype : rd32 (src (.ph i) off 32).2 0 = elfProgLoad) (hvaddr : vaddr = rd32 (src (.ph i) off 32).2 8)
    (hoffset : offset = rd32 (src (.ph i) off 32).2 4) (hfilesz : filesz = rd32 (src (.ph i) off 32).2 16)
    (hcounts : ∀ q < pagesOf filesz, (src (.page i q) (u32 (offset + q * pgsize)) (min (filesz - q * pgsize) pgsize)).1 =
    min (filesz - q * pgsize) pgsize) (hrest : Loads src left (i + 1) (u32 (off + 32)) (fun va => if vaddr ≤ va ∧
    va < vaddr + filesz then segmentByte (fun j => src (.page i j)) vaddr offset filesz va else img va) img') :
    Loads src (left + 1) i off img img'

section shows

variable {s s' : Kmem} {pd sz sz' : ℕ} {img : Bytes} {hand : List ℕ} {W : Set ℕ}

omit [Layout] in
theorem pagesOf_le_page {va : ℕ} (h : pagesOf sz ≤ va / pgsize) : sz ≤ va := by
  have hnot : ¬ va / pgsize < pagesOf sz := by omega
  rw [lt_pagesOf] at hnot
  have hle := Nat.div_mul_le_self va pgsize
  omega

theorem Shows.grown (h : Shows s pd sz img) (hown : Owns s pd hand W) (he : Exact s pd sz) (hsz : sz ≤ kernbase)
    (hle : sz ≤ sz') (hmaps : Maps pd s s')
    (hg : Grown pd (pagesOf sz) (pagesOf sz') (fun _ => pteW ||| pteU) (fun _ => zeroes) s s') : Shows s' pd sz' img := by
  refine ⟨fun va hva => ?_, fun va hva => h.zero va (hle.trans hva)⟩
  by_cases hold : va / pgsize < pagesOf sz
  · have hv : va / pgsize < userPages := hold.trans_le (pagesOf_le_userPages hsz)
    rw [hmaps.changes.userByte (hg.rest _ (hv.trans userPages_lt_allPages) (by omega))
      (hown.user_notMem_core hv ((he _ hv).mpr hold))]
    exact h.bytes va hold
  · obtain ⟨p, hp, hpte, hz⟩ := hg.fresh _ (by omega) hva
    have haddr : pteAddr (pte s'.mem pd (va / pgsize)) = p := by
      rw [hpte]
      exact entry_addr hp.aligned (by decide)
    rw [userByte_of_holds haddr hz, h.zero va (pagesOf_le_page (by omega))]
    rfl

omit [Layout] in
theorem Shows.loaded {vaddr offset filesz : ℕ} {readi : ℕ → ℕ → ℕ → ℕ × Bytes} (h : Shows s pd sz img) (he : Exact s pd sz)
    (hsz : sz ≤ kernbase) (hle : vaddr + filesz ≤ sz) (hl : Loaded pd vaddr offset filesz readi 0 s s') :
    Shows s' pd sz (fun va => if vaddr ≤ va ∧
      va < vaddr + filesz then segmentByte readi vaddr offset filesz va else img va) := by
  refine ⟨fun va hva => ?_, fun va hva => ?_⟩
  · have hv : va / pgsize < userPages := hva.trans_le (pagesOf_le_userPages hsz)
    rw [hl.bytes va hv ((he _ hv).mpr hva), Nat.zero_mul, Nat.add_zero, h.bytes va hva]
  · rw [if_neg (by omega)]
    exact h.zero va hva

end shows

section segments

variable {s : Kmem} {pd : ℕ} {hand : List ℕ} {W : Set ℕ} {E : Fault → Prop} {src : Source}

theorem wp_loadSegments {left i off sz : ℕ} {img : Bytes} {Q : Option ℕ → Kmem → Prop} (h : Owns s pd hand W)
    (he : Exact s pd sz) (hshow : Shows s pd sz img) (hsz : sz < kernbase)
    (hfail : ∀ s', Owns s' pd hand W → Changes W s s' → Q none s')
    (hok : ∀ sz' img' s', sz' < kernbase → Owns s' pd hand W → Changes W s s' → Exact s' pd sz' →
    Loads src left i off img img' →
      Shows s' pd sz' img' → Q (some sz') s') : wp (loadSegments src pd left i off sz) s Q E := by
  induction left generalizing s i off sz img with
  | zero => exact wp_ret (hok sz img s hsz h (.refl W s) he (.done i off img) hshow)
  | succ left ih =>
    unfold loadSegments
    simp only [wp_ite, wp_bind, wp_pure]
    refine ⟨fun _ => hfail s h (.refl W s), fun hread => ⟨fun htype => ?_, fun htype =>
      ⟨fun _ => hfail s h (.refl W s), fun hmem => ⟨fun _ => hfail s h (.refl W s), fun hwrap => ?_⟩⟩⟩⟩
    · apply ih h he hshow hsz hfail
      intro sz' img' s' hlt hown hch he' hl hs'
      exact hok sz' img' s' hlt hown hch he' (.skip (not_not.mp hread) htype hl) hs'
    let ph := (src (.ph i) off 32).2
    have hsum : u32 (rd32 ph 8 + rd32 ph 20) = rd32 ph 8 + rd32 ph 20 := by
      have h2 : rd32 ph 20 < 2 ^ 32 := rd_lt 4 _ _
      change ¬ u32 (rd32 ph 8 + rd32 ph 20) < rd32 ph 8 at hwrap
      unfold u32 at hwrap ⊢
      omega
    -- what follows once the segment's pages are there
    have hload : ∀ sz1 s1, sz1 < kernbase → rd32 ph 8 + rd32 ph 20 ≤ sz1 → Owns s1 pd hand W → Changes W s s1 →
      Exact s1 pd sz1 → Shows s1 pd sz1 img →
      wp (if sz1 = 0 then pure none else if rd32 ph 8 % pgsize ≠ 0 then pure none else do
          if ← loaduvm pd (rd32 ph 8) (fun j => src (.page i j)) (rd32 ph 4) (rd32 ph 16) then
            loadSegments src pd left (i + 1) (u32 (off + 32)) sz1
          else return none) s1 Q E := by
      intro sz1 s1 hlt hle hown1 hch1 he1 hshow1
      simp only [wp_ite, wp_bind, wp_pure]
      refine ⟨fun _ => hfail s1 hown1 hch1, fun _ => ⟨fun _ => hfail s1 hown1 hch1, fun hal => ?_⟩⟩
      have hfile : rd32 ph 8 + rd32 ph 16 ≤ sz1 := by
        change ¬ rd32 ph 20 < rd32 ph 16 at hmem
        omega
      apply wp_loaduvm hown1 (by simpa using hal) (by omega)
      · intro v _ hv
        have hv' : v < pagesOf sz1 := hv.trans_le (Nat.div_le_div_right (by omega))
        exact (he1 v (hv'.trans_le (pagesOf_le_userPages hlt.le))).mpr hv'
      intro b s2 hown2 hfill2 hloaded _
      have hch2 := hch1.trans hfill2.changes
      refine ⟨fun hb => ?_, fun _ => hfail s2 hown2 hch2⟩
      apply ih hown2 (hfill2.exact he1) (hshow1.loaded he1 hlt.le hfile (hloaded hb)) hlt
      · intro s' hown hch
        exact hfail s' hown (hch2.trans hch)
      · intro sz' img' s' hlt' hown hch he' hl hs'
        apply hok sz' img' s' hlt' hown (hch2.trans hch) he' _ hs'
        exact .segment (not_not.mp hread) (not_not.mp htype) rfl rfl rfl
          (fun q hq => (hloaded hb).counts q (Nat.zero_le q) hq) hl
    simp only [wp_ite, wp_bind, wp_pure] at hload
    rw [hsum]
    apply wp_allocuvm h hsz.le
    · intro v h1 h2 h3 hp
      have hv := h2.trans_le (pagesOf_le_userPages h3.le)
      have := (he v hv).mp hp
      omega
    · intro _
      exact ⟨fun _ => hfail s h (.refl W s), fun hn => absurd rfl hn⟩
    · intro hlt
      exact hload sz s hsz hlt.le h (.refl W s) he hshow
    · intro s1 hown1 halt1 _ _
      exact ⟨fun _ => hfail s1 hown1 (halt1.changes.mono h.reach_subset), fun hn => absurd rfl hn⟩
    · intro s1 hle hlt hown1 hmaps1 hg1
      exact hload _ s1 hlt le_rfl hown1 (hmaps1.changes.mono h.core_subset)
        (exact_of_grown he (Nat.div_le_div_right (by omega)) rfl hg1) (hshow.grown h he hsz.le hle hmaps1 hg1)

end segments

structure StackReady (s : Kmem) (pd sz : ℕ) : Prop where
  aligned : sz % pgsize = 0
  room : 2 * pgsize ≤ sz
  stack : Accessible s.mem pd (sz / pgsize - 1)
  guard : userOk (pte s.mem pd (sz / pgsize - 2)) = false

variable {s s' : Kmem} {pd : ℕ} {hand : List ℕ} {W : Set ℕ} {E : Fault → Prop} {src : Source}

omit [Layout] in
theorem pte_lt (m : Bytes) (pd v : ℕ) : pte m pd v < 2 ^ 32 := by
  unfold pte
  split_ifs
  · exact rd_lt 4 _ _
  · decide

theorem Shows.cleared {sz v : ℕ} {img : Bytes} (h : Shows s pd sz img) (hown : Owns s pd hand W) (he : Exact s pd sz)
    (hsz : sz ≤ kernbase) (hc : Changes (core s pd) s s')
    (hpte : ∀ u < allPages, pte s'.mem pd u = if u = v then pte s.mem pd u &&& (2 ^ 32 - 1 - pteU) else pte s.mem pd u) :
    Shows s' pd sz img := by
  refine ⟨fun va hva => ?_, h.zero⟩
  have hv : va / pgsize < userPages := hva.trans_le (pagesOf_le_userPages hsz)
  have haddr : pteAddr (pte s'.mem pd (va / pgsize)) = pteAddr (pte s.mem pd (va / pgsize)) := by
    rw [hpte _ (hv.trans userPages_lt_allPages)]
    split_ifs
    · exact mask_addr (pte_lt _ _ _)
    · rfl
  rw [userByte_congr haddr (hc.same _ (pteAddr_aligned _) (hown.user_notMem_core hv ((he _ hv).mpr hva)))]
  exact h.bytes va hva

omit [Layout] in
theorem Exact.cleared {sz v : ℕ} (he : Exact s pd sz)
    (hpte : ∀ u < allPages, pte s'.mem pd u = if u = v then pte s.mem pd u &&& (2 ^ 32 - 1 - pteU) else pte s.mem pd u) :
    Exact s' pd sz := by
  intro u hu
  rw [hpte u (hu.trans userPages_lt_allPages), ← he u hu]
  split_ifs
  · rw [mask_present]
  · rfl

theorem wp_stackPages {sz : ℕ} {img : Bytes} {Q : Option (ℕ × ℕ) → Kmem → Prop} {bad : VmM (Option (ℕ × ℕ))}
    (h : Owns s pd hand W) (he : Exact s pd sz) (hshow : Shows s pd sz img) (hsz : sz < kernbase)
    (hbad : ∀ s', Owns s' pd hand W → Changes W s s' →
      (pgroundup sz + 2 * pgsize < kernbase → Starved pd (pgroundup sz + 2 * pgsize) hand W s) → wp bad s' Q E)
    (hok : ∀ sz s', sz < kernbase → Owns s' pd hand W → Changes W s s' → Exact s' pd sz → StackReady s' pd sz →
    Shows s' pd sz img → Q (some (pd, sz)) s') : wp (do
      let sz ← allocuvm pd (pgroundup sz) (u32 (pgroundup sz + 2 * pgsize))
      if sz = 0 then bad
      else
        clearpteu pd (u32 (sz + 2 ^ 32 - 2 * pgsize))
        return some (pd, sz)) s Q E := by
  have hround : pgroundup sz = pagesOf sz * pgsize := pgroundup_eq hsz.le
  have hpages : pagesOf (pgroundup sz) = pagesOf sz := by
    rw [hround]
    unfold pagesOf pgsize
    omega
  have hup : sz ≤ pgroundup sz := by
    rw [hround]
    unfold pagesOf pgsize
    omega
  replace he : Exact s pd (pgroundup sz) := by
    intro v hv
    rw [hpages]
    exact he v hv
  replace hshow : Shows s pd (pgroundup sz) img := by
    refine ⟨fun va hva => hshow.bytes va ?_, fun va hva => hshow.zero va (hup.trans hva)⟩
    rwa [hpages] at hva
  have hR : pgroundup sz ≤ kernbase := by
    rw [hround]
    exact (Nat.mul_le_mul_right _ (pagesOf_le_userPages hsz.le)).trans (Nat.div_mul_le_self kernbase pgsize)
  have hal : pgroundup sz % pgsize = 0 := by
    rw [hround]
    exact Nat.mul_mod_left _ _
  generalize pgroundup sz = R at *
  have hnew : u32 (R + 2 * pgsize) = R + 2 * pgsize := by
    unfold u32 kernbase pgsize at *
    omega
  have hback : u32 (R + 2 * pgsize + 2 ^ 32 - 2 * pgsize) = R := by
    unfold u32 kernbase pgsize at *
    omega
  have hlo : pagesOf R = R / pgsize := by
    unfold pagesOf pgsize at *
    omega
  have hhi : pagesOf (R + 2 * pgsize) = R / pgsize + 2 := by
    unfold pagesOf pgsize at *
    omega
  have hdiv : (R + 2 * pgsize) / pgsize = R / pgsize + 2 := Nat.add_mul_div_right _ _ (by decide)
  rw [hnew, wp_bind]
  apply wp_allocuvm h hR
  · intro v h1 h2 h3 hp
    have hv := (he v (h2.trans_le (pagesOf_le_userPages h3.le))).mp hp
    omega
  · intro hbig
    exact hbad s h (.refl W s) fun hlt => absurd hlt (Nat.not_lt.mpr hbig)
  · intro hlt
    omega
  · intro s1 hown1 halt1 _ hstarved
    exact hbad s1 hown1 (halt1.changes.mono h.reach_subset) fun _ => hstarved
  · intro s1 hle hlt hown1 hmaps1 hg1
    have hch1 := hmaps1.changes.mono h.core_subset
    have he1 : Exact s1 pd (R + 2 * pgsize) := exact_of_grown he (by omega) rfl hg1
    have hshow1 := hshow.grown h he hR hle hmaps1 hg1
    have huser : R / pgsize + 1 < userPages := by
      have hle := pagesOf_le_userPages hlt.le
      omega
    have hne : R + 2 * pgsize ≠ 0 := by
      unfold pgsize
      omega
    rw [if_neg hne, wp_bind, hback]
    apply wp_clearpteu hown1 (by omega) ((he1 _ (by omega)).mpr (by omega))
    intro s2 hown2 hch2 hpte2
    apply wp_ret
    apply hok _ s2 hlt hown2 (hch1.trans (hch2.mono hown1.core_subset)) (he1.cleared hpte2) _
      (hshow1.cleared hown1 he1 hlt.le hch2 hpte2)
    refine ⟨?_, by omega, ?_, ?_⟩
    · rw [Nat.add_mul_mod_self_right]
      exact hal
    · obtain ⟨p, hp, hpte, -⟩ := hg1.fresh (R / pgsize + 1) (by omega) (by omega)
      have hpage : (R + 2 * pgsize) / pgsize - 1 = R / pgsize + 1 := by omega
      have hall := huser.trans userPages_lt_allPages
      have hentry : pte s2.mem pd (R / pgsize + 1) = p ||| (pteW ||| pteU) ||| pteP := by
        rw [hpte2 _ hall, if_neg (by omega), hpte]
      rw [hpage]
      refine ⟨hall, ?_, ?_⟩
      · rw [hentry]
        exact entry_present _
      · rw [hentry, entry_userOk hp.aligned]
        decide
    · have hpage : (R + 2 * pgsize) / pgsize - 2 = R / pgsize := by omega
      rw [hpage, hpte2 _ (by have := userPages_lt_allPages; omega), if_pos rfl]
      exact mask_userOk _

theorem wp_loadImage {Q : Option (ℕ × ℕ) → Kmem → Prop} (h : Bare s hand W)
    (hfail : ∀ s', Bare s' hand W → Changes W s s' → Q none s')
    (hok : ∀ pd sz img s', sz < kernbase → Owns s' pd hand W → Changes W s s' → Exact s' pd sz → StackReady s' pd sz →
    (src .elf 0 52).1 = 52 →
      Loads src (rd16 (src .elf 0 52).2 44) 0 (rd32 (src .elf 0 52).2 28) zeroes img → Shows s' pd sz img →
        Q (some (pd, sz)) s') :
    wp (loadImage src) s Q E := by
  have hW : {p | p ∈ s.freelist} ⊆ W := fun p hp => (h.part.cover p).mpr (Or.inr (Or.inl hp))
  unfold loadImage
  simp only [wp_ite, wp_pure]
  refine ⟨fun _ => hfail s h (.refl W s), fun hread => ⟨fun _ => hfail s h (.refl W s), fun _ => ?_⟩⟩
  rw [wp_bind]
  apply wp_setupkvm h
  · intro s' hbare hch _
    exact wp_ret (hfail s' hbare hch)
  intro pd s1 hown1 _ _ hch1 hpte1
  replace hch1 := hch1.mono hW
  have hzero : pagesOf 0 = 0 := by decide
  have hexact : Exact s1 pd 0 := by
    intro v hv
    rw [hpte1 v (hv.trans userPages_lt_allPages), kernelPtes_user kmap_ordered hv, hzero]
    simp [present_zero]
  have hshow : Shows s1 pd 0 zeroes := by
    refine ⟨fun va hva => ?_, fun _ _ => rfl⟩
    exact absurd hva (Nat.not_lt_zero _)
  have hgive : ∀ s2, Owns s2 pd hand W → Changes W s1 s2 →
      wp (do freevm (some pd); return none : VmM (Option (ℕ × ℕ))) s2 Q E := by
    intro s2 hown2 hch2
    rw [wp_bind]
    apply wp_freevm hown2
    intro s3 hbare hch3
    exact wp_ret (hfail s3 hbare ((hch1.trans hch2).trans hch3))
  rw [wp_bind]
  apply wp_loadSegments hown1 hexact hshow (by decide)
  · exact hgive
  intro sz img s2 hlt hown2 hch2 he2 hl2 hshow2
  apply wp_stackPages hown2 he2 hshow2 hlt
  · intro s3 hown3 hch3 _
    exact hgive s3 hown3 (hch2.trans hch3)
  · intro sz' s3 hlt3 hown3 hch3 he3 hstack hshow3
    exact hok pd sz' img s3 hlt3 hown3 ((hch1.trans hch2).trans hch3) he3 hstack (not_not.mp hread) hl2 hshow3

end Laboratorio.Vm
