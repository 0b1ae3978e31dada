import Laboratorio.Vm.Boot

/-!
The copy that `fork` makes of an address space, and that two processes do not see each other's writes.
-/

namespace Laboratorio.Vm

open Bytes

def writable (e : ℕ) : Bool := e &&& pteW ≠ 0

def userWrite (pd : ℕ) (m : Bytes) (w : ℕ × UInt8) : Bytes :=
  let e := pte m pd (w.1 / pgsize)
  if w.1 < 2 ^ 32 ∧ present e ∧ userOk e ∧ writable e then store m (userAddr m pd w.1) 1 (fun _ => w.2) else m

def userWrites (pd : ℕ) (m : Bytes) (ws : List (ℕ × UInt8)) : Bytes := ws.foldl (userWrite pd) m

def mixedWrites (a b : ℕ) (m : Bytes) (ws : List (Bool × ℕ × UInt8)) : Bytes :=
  ws.foldl (fun m w => userWrite (if w.1 then a else b) m w.2) m

structure Apart (m : Bytes) (a b : ℕ) : Prop where
  proper : Proper m a
  aligned : b % pgsize = 0
  clear : ∀ p r, Space m b p r → ∀ v, Accessible m a v → pteAddr (pte m a v) ≠ p

theorem space_aligned {m : Bytes} {pd p : ℕ} {r : Role} (hpd : pd % pgsize = 0) (h : Space m pd p r) : p % pgsize = 0 := by
  cases r with
  | dir => rwa [show p = pd from h]
  | tab i | user v =>
    rw [← h.2.2]
    exact pteAddr_aligned _

section write

variable {m m' : Bytes} {a b : ℕ}

theorem userWrite_cases (pd : ℕ) (m : Bytes) (w : ℕ × UInt8) : userWrite pd m w = m ∨
    Accessible m pd (w.1 / pgsize) ∧ userWrite pd m w = store m (userAddr m pd w.1) 1 (fun _ => w.2) := by
  unfold userWrite
  dsimp only
  split_ifs with h
  · exact .inr ⟨⟨page_lt h.1, h.2.1, h.2.2.1⟩, rfl⟩
  · exact .inl rfl

theorem Proper.write (h : Proper m a) (w : ℕ × UInt8) : SameTable m (userWrite a m w) a := by
  rcases userWrite_cases a m w with hw | ⟨hacc, hw⟩
  · rw [hw]
    exact .refl m a
  · rw [hw]
    exact h.store hacc (userAddr_mem m a w.1).1 (userAddr_mem m a w.1).2

theorem Apart.samePage (h : Apart m a b) (w : ℕ × UInt8) {p : ℕ} {r : Role} (hp : Space m b p r) :
    SamePage m (userWrite a m w) p := by
  rcases userWrite_cases a m w with hw | ⟨hacc, hw⟩
  · rw [hw]
    exact fun _ _ _ => rfl
  · rw [hw]
    exact samePage_store (pteAddr_aligned _) (space_aligned h.aligned hp) (h.clear p r hp _ hacc).symm (userAddr_mem m a w.1).1
      (userAddr_mem m a w.1).2

theorem Apart.sameTable (h : Apart m a b) (w : ℕ × UInt8) : SameTable m (userWrite a m w) b := by
  apply SameTable.of_samePage
  · exact h.samePage w (r := .dir) rfl
  · intro i hi hp
    exact h.samePage w (r := .tab i) ⟨hi, hp, rfl⟩

theorem Apart.congr (h : Apart m a b) (ha : SameTable m m' a) (hb : SameTable m m' b) : Apart m' a b := by
  refine ⟨ha.proper h.proper, h.aligned, fun p r hp v hv => ?_⟩
  rw [ha.ptes v hv.1]
  exact h.clear p r (hb.space_iff.mp hp) v (ha.accessible_iff.mp hv)

structure SameView (pd : ℕ) (m m' : Bytes) : Prop where
  table : SameTable m m' pd
  pages : ∀ p v, Space m pd p (.user v) → SamePage m m' p

theorem SameView.refl (pd : ℕ) (m : Bytes) : SameView pd m m := ⟨.refl m pd, fun _ _ _ _ _ _ => rfl⟩

theorem SameView.userByte {pd va : ℕ} (h : SameView pd m m') (hva : va / pgsize < userPages)
    (hp : present (pte m pd (va / pgsize))) : userByte m' pd va = userByte m pd va :=
  userByte_congr (congrArg pteAddr (h.table.ptes _ (hva.trans userPages_lt_allPages))) (h.pages _ _ ⟨hva, hp, rfl⟩)

theorem Changes.sameView {T : Set ℕ} {s s' : Kmem} {pd : ℕ} (hc : Changes T s s') (hpd : pd % pgsize = 0)
    (hout : ∀ p r, Space s.mem pd p r → p ∉ T) : SameView pd s.mem s'.mem := by
  have hsame : ∀ p r, Space s.mem pd p r → SamePage s.mem s'.mem p :=
    fun p r hp => hc.same p (space_aligned hpd hp) (hout p r hp)
  exact ⟨.of_samePage (hsame _ .dir rfl) fun i hi hp => hsame _ (.tab i) ⟨hi, hp, rfl⟩, fun p v hp => hsame p _ hp⟩

theorem SameView.other (hab : Apart m a b) (h : SameView b m m') (w : ℕ × UInt8) : SameView b (userWrite a m w) m' := by
  have htable := hab.sameTable w
  refine ⟨htable.symm.trans h.table, fun p v hp => ?_⟩
  have hp' := htable.space_iff.mp hp
  intro x h1 h2
  rw [h.pages p v hp' x h1 h2, hab.samePage w hp' x h1 h2]

theorem SameView.own (hb : Proper m b) (h : SameView b m m') (w : ℕ × UInt8) :
    SameView b (userWrite b m w) (userWrite b m' w) := by
  have hb' := h.table.proper hb
  refine ⟨(hb.write w).symm.trans (h.table.trans (hb'.write w)), fun p v hp => ?_⟩
  have hsame := h.pages p v ((hb.write w).space_iff.mp hp)
  unfold userWrite userAddr
  by_cases hw : w.1 < 2 ^ 32
  · rw [h.table.ptes _ (page_lt hw)]
    dsimp only
    split_ifs
    · intro x h1 h2
      unfold store
      split_ifs
      · rfl
      · exact hsame x h1 h2
    · exact hsame
  · simp only [hw, false_and, if_false]
    exact hsame

theorem mixedWrites_view (hab : Apart m a b) (hba : Apart m b a) (h : SameView b m m') (ws : List (Bool × ℕ × UInt8)) :
    SameView b (mixedWrites a b m ws) (userWrites b m' ((ws.filter fun w => !w.1).map Prod.snd)) := by
  induction ws generalizing m m' with
  | nil => exact h
  | cons w ws ih =>
    obtain ⟨byA, w⟩ := w
    cases byA with
    | true =>
      have ha := hab.proper.write w
      have hb := hab.sameTable w
      exact ih (hab.congr ha hb) (hba.congr hb ha) (h.other hab w)
    | false =>
      have hb := hba.proper.write w
      have ha := hba.sameTable w
      exact ih (hab.congr ha hb) (hba.congr hb ha) (h.own hba.proper w)

theorem userWrites_view (hab : Apart m a b) (hba : Apart m b a) (ws : List (ℕ × UInt8)) : SameView b (userWrites a m ws) m := by
  have hview := mixedWrites_view hab hba (.refl b m) (ws.map fun w => (true, w))
  have hmixed : mixedWrites a b m (ws.map fun w => (true, w)) = userWrites a m ws := by
    unfold mixedWrites userWrites
    rw [List.foldl_map]
    rfl
  have hnone : (ws.map fun w => (true, w)).filter (fun w => !w.1) = [] := by
    rw [List.filter_eq_nil_iff]
    intro w hw
    obtain ⟨w', _, rfl⟩ := List.mem_map.mp hw
    simp
  rw [hmixed, hnone] at hview
  exact hview

end write

variable [Layout]

structure Copied (s s' : Kmem) (pgdir sz d : ℕ) : Prop where
  bytes : ∀ va < sz, userByte s'.mem d va = userByte s.mem pgdir va
  flags : ∀ v < pagesOf sz, pteFlags (pte s'.mem d v) = pteFlags (pte s.mem pgdir v)
  fresh : ∀ u < userPages, ∀ v < userPages, present (pte s'.mem d u) → present (pte s.mem pgdir v) →
    pteAddr (pte s'.mem d u) ≠ pteAddr (pte s.mem pgdir v)
  kernel : ∀ d₀ t, setupkvm s = .ok (some d₀, t) → ∀ v, userPages ≤ v → v < allPages → pte s'.mem d v = pte t.mem d₀ v
  above : ∀ v, pagesOf sz ≤ v → v < userPages → present (pte s'.mem d v) = false

section copyuvm

variable {s : Kmem} {pgdir sz : ℕ} {hand : List ℕ} {W : Set ℕ} {s' : Kmem}

omit [Layout] in
theorem flags_present {e : ℕ} (h : present e) : pteFlags e ||| pteP = pteFlags e := by
  have hodd : e % 2 = 1 := by
    rw [present_iff, Nat.testBit_zero] at h
    simpa using h
  apply Nat.eq_of_testBit_eq
  intro i
  rw [Nat.testBit_or]
  cases i with
  | zero =>
    have hflag : pteFlags e % 2 = 1 := by
      unfold pteFlags pgsize
      omega
    simp [Nat.testBit_zero, hflag]
  | succ i => simp [pteP, Nat.testBit_succ]

variable {d : ℕ}

theorem setupkvm_ptes {t : Kmem} (h : Bare s hand W) (hrun : setupkvm s = .ok (some d, t)) {v : ℕ} (hv : v < allPages) :
    pte t.mem d v = kernelPtes kmap (fun _ => 0) v := by
  have hwp : wp setupkvm s (fun r t => ∀ d, r = some d → ∀ v < allPages, pte t.mem d v = kernelPtes kmap (fun _ => 0) v)
    fun _ => False := by
    apply wp_setupkvm h
    · exact nofun
    · rintro pd s' _ _ _ _ hpte _ ⟨⟩
      exact hpte
  exact wp_ok hwp hrun d rfl v hv

section

variable (h : Owns s pgdir hand W)

include h

theorem Owns.bare_free : Bare s [] {p | p ∈ s.freelist} := by
  refine ⟨⟨?_, fun p => ?_, fun _ _ h => h.elim, fun _ _ _ h => h.elim, fun _ _ _ h => h.elim⟩, fun p hp => ?_⟩
  · exact (List.nodup_append.mp h.part.nodup).2.1
  · simp
  · exact h.pages p ((h.part.cover p).mpr (.inr (.inl hp)))

theorem Owns.space_notFree {p : ℕ} {r : Role} (hp : Space s.mem pgdir p r) : p ∉ s.freelist := (h.part.apart p r hp).2

theorem Owns.outside_free : Outside s.mem pgdir {p | p ∈ s.freelist} :=
  ⟨⟨h.dir.aligned, h.space_notFree (r := .dir) rfl⟩, fun i hi hp => h.space_notFree (r := .tab i) ⟨hi, hp, rfl⟩⟩

theorem Owns.kept (hc : Changes {p | p ∈ s.freelist} s s') : SameView pgdir s.mem s'.mem :=
  hc.sameView h.dir.aligned fun _ _ hp => h.space_notFree hp

theorem copied_apart (hc : Changes {p | p ∈ s.freelist} s s')
    (hd : Owns s' d [] {p | p ∈ s.freelist}) : Apart s'.mem pgdir d ∧ Apart s'.mem d pgdir := by
  have hview := h.kept hc
  have hfree : ∀ p r, Space s'.mem d p r → p ∈ s.freelist := fun p r hp => (hd.part.cover p).mpr (.inr (.inr ⟨r, hp⟩))
  have hnot : ∀ p r, Space s'.mem pgdir p r → p ∉ s.freelist := fun p r hp => h.space_notFree (hview.table.space_iff.mp hp)
  have hproper := hview.table.proper h.proper
  have huser : ∀ v, Accessible s'.mem pgdir v → Space s'.mem pgdir (pteAddr (pte s'.mem pgdir v)) (.user v) := by
    intro v hv
    have hsp := h.accessible_user (hview.table.accessible_iff.mp hv)
    rw [← hview.table.ptes v hv.1] at hsp
    exact hview.table.space_iff.mpr hsp
  refine ⟨⟨hproper, hd.dir.aligned, fun p r hp v hv heq => ?_⟩, ⟨hd.proper, h.dir.aligned, fun p r hp v hv heq => ?_⟩⟩
  · apply hnot _ _ (huser v hv)
    rw [heq]
    exact hfree p r hp
  · apply hnot p r hp
    rw [← heq]
    exact hfree _ _ (hd.accessible_user hv)

theorem copied_of_fresh (hsz : sz ≤ kernbase) (hpres : ∀ v < pagesOf sz, present (pte s.mem pgdir v))
    (hd : Owns s' d [] {p | p ∈ s.freelist})
    (hnew : ∀ v < pagesOf sz, ∃ p, Pg p ∧ pte s'.mem d v = p ||| parentPerm s.mem pgdir v ||| pteP ∧
    Holds s'.mem p (parentPage s.mem pgdir v))
    (hrest : ∀ v < allPages, pagesOf sz ≤ v → pte s'.mem d v = kernelPtes kmap (fun _ => 0) v) : Copied s s' pgdir sz d := by
  have hle := pagesOf_le_userPages hsz
  have hperm : ∀ v, parentPerm s.mem pgdir v < pgsize := fun v => Nat.mod_lt _ (by decide)
  constructor
  · intro va hva
    have hpage : va / pgsize < pagesOf sz := by
      rw [lt_pagesOf]
      exact (Nat.div_mul_le_self va pgsize).trans_lt hva
    obtain ⟨p, hp, hpte, hholds⟩ := hnew _ hpage
    have haddr : pteAddr (pte s'.mem d (va / pgsize)) = p := by
      rw [hpte]
      exact entry_addr hp.aligned (hperm _)
    exact userByte_of_holds haddr hholds
  · intro v hv
    obtain ⟨p, hp, hpte, -⟩ := hnew v hv
    have hflags : parentPerm s.mem pgdir v ||| pteP = parentPerm s.mem pgdir v := flags_present (hpres v hv)
    rw [hpte, Nat.or_assoc, hflags, pteFlags_or hp.aligned (hperm v)]
    rfl
  · intro u hu v hv hpu hpv heq
    have hfree : pteAddr (pte s'.mem d u) ∈ s.freelist := (hd.part.cover _).mpr (.inr (.inr ⟨.user u, hu, hpu, rfl⟩))
    rw [heq] at hfree
    exact h.space_notFree (r := .user v) ⟨hv, hpv, rfl⟩ hfree
  · intro d₀ t hrun v h1 h2
    rw [hrest v h2 (hle.trans h1), setupkvm_ptes h.bare_free hrun h2]
  · intro v h1 h2
    rw [hrest v (h2.trans userPages_lt_allPages) h1, kernelPtes_user kmap_ordered h2]
    rfl

end

theorem copyuvm_copies (h : Owns s pgdir hand W) (hsz : sz ≤ kernbase) (hpres : ∀ v < pagesOf sz, present (pte s.mem pgdir v)) :
    ∃ r s', copyuvm pgdir sz s = .ok (r, s') ∧ SameView pgdir s.mem s'.mem ∧
      (r = none → (∀ p, p ∈ s'.freelist ↔ p ∈ s.freelist) ∧
      (s.denied = [] → Small (2 + npdentries + pagesOf sz) {p | p ∈ s.freelist})) ∧
      ∀ d, r = some d → Copied s s' pgdir sz d ∧ ∀ ws, SameView d (userWrites pgdir s'.mem ws) s'.mem ∧
        SameView pgdir (userWrites d s'.mem ws) s'.mem := by
  apply exists_of_wp
  apply wp_copyuvm h.bare_free h.outside_free
  · intro v hv hp
    exact h.space_notFree (r := .user v) ⟨hv.trans_le (pagesOf_le_userPages hsz), hp, rfl⟩
  · exact hsz
  · intro v hv habs
    rw [hpres v hv] at habs
    exact nomatch habs
  · intro s' hbare hc hst
    refine ⟨h.kept hc, fun _ => ⟨fun p => ?_, by simpa using hst⟩, nofun⟩
    have hcover := hbare.part.cover p
    simpa using hcover.symm
  · intro d s' _ hd _ hc hnew hrest
    refine ⟨h.kept hc, nofun, ?_⟩
    rintro _ ⟨⟩
    obtain ⟨hab, hba⟩ := copied_apart h hc hd
    exact ⟨copied_of_fresh h hsz hpres hd hnew hrest, fun ws => ⟨userWrites_view hab hba ws, userWrites_view hba hab ws⟩⟩

end copyuvm

omit [Layout] in
theorem samplePool_apart : (sampleFrames ++ samplePool).Nodup := by
  rw [List.nodup_append]
  refine ⟨by decide, samplePool_nodup, fun p hp q hq heq => ?_⟩
  obtain ⟨i, -, rfl⟩ := List.mem_map.mp hq
  simp only [sampleFrames, List.mem_cons, List.not_mem_nil, or_false] at hp
  omega

def markedPage : Kmem := { onePage samplePool [] with mem := store (onePage samplePool []).mem 0x113005 1 fun _ => 7 }

omit [Layout] in
theorem copyuvm_copies_page : letI := sampleLayout
    ∃ d s', copyuvm 0x111000 4096 markedPage = .ok (some d, s') ∧ SameView 0x111000 markedPage.mem s'.mem ∧
      userByte s'.mem d 5 = 7 := by
  let _ := sampleLayout
  obtain ⟨hown, hpte⟩ := onePage_spec samplePool_apart samplePool_pages []
  have hframe : pteAddr (pte (onePage samplePool []).mem 0x111000 0) = 0x113000 := by
    rw [hpte 0 (by decide)]
    decide
  have hexact := onePage_exact samplePool_apart samplePool_pages []
  obtain ⟨hmarked, hfill⟩ := hown.storeUser (v := 0) (a := 0x113005) (n := 1) (b := fun _ => 7) (by decide)
    ((hexact 0 (by decide)).mpr (by decide)) (by rw [hframe]; decide) (by rw [hframe]; decide)
  have hpages : ∀ v < pagesOf 4096, present (pte markedPage.mem 0x111000 v) := fun v hv =>
    (hfill.exact hexact v (hv.trans_le (by decide))).mpr hv
  obtain ⟨r, s', hrun, hview, hnone, hsome⟩ := copyuvm_copies hmarked (by decide) hpages
  cases r with
  | none =>
    have hfree : markedPage.freelist = samplePool := by simp only [markedPage, onePage_free]
    have hsmall := (hnone rfl).2 rfl
    change Small _ {p | p ∈ markedPage.freelist} at hsmall
    rw [hfree] at hsmall
    exact absurd (hsmall.mono (by decide)) samplePool_large
  | some d =>
    refine ⟨d, s', hrun, hview, ((hsome d rfl).1.bytes 5 (by decide)).trans ?_⟩
    have hsame : pte markedPage.mem 0x111000 (5 / pgsize) = pte (onePage samplePool []).mem 0x111000 0 :=
      hfill.ptes 0 (by decide)
    have haddr : userAddr markedPage.mem 0x111000 5 = 0x113005 := by
      rw [userAddr, hsame, hframe]
      rfl
    change markedPage.mem (userAddr markedPage.mem 0x111000 5) = 7
    rw [haddr]
    rfl

end Laboratorio.Vm
