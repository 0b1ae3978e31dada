import Laboratorio.Vm.Ownership

namespace Laboratorio.Vm

open Bytes Runs
open Procs (Slot Ptable)

section boot

variable [Layout]

section inituvm

variable {s : Kmem} {pd n : ℕ} {init : Bytes} {W : Set ℕ} {Q : Unit → Kmem → Prop} {E : Fault → Prop}

theorem wp_inituvm (h : Owns s pd [] W) (hu : ∀ v < userPages, present (pte s.mem pd v) = false)
    (hbig : pgsize ≤ n → E .inituvm) (hnull : (s.denied = [] → s.freelist = []) → E .nullDeref)
    (hlost : ∀ r s', Owns s' pd [r] W → Changes W s s' → (s.denied = [] → s'.freelist = []) →
      (∀ v < userPages, present (pte s'.mem pd v) = false) → Q () s')
    (hok : ∀ s', Owns s' pd [] W → Changes W s s' → (∀ v < userPages, present (pte s'.mem pd v) ↔ v = 0) → Q () s') :
    wp (inituvm pd init n) s Q E := by
  have hzero : 0 / pgsize = 0 := Nat.zero_div _
  have hperm : pteW ||| pteU < pgsize := by decide
  unfold inituvm clearPage
  simp only [wp_ite, wp_throw, wp_bind]
  refine ⟨hbig, fun hn => ?_⟩
  apply wp_kalloc
  · intro hst
    exact (wp_throw _).mpr (hnull hst)
  intro r next hf
  have hrW : r ∈ W := (h.part.cover r).mpr (Or.inr (Or.inl (by rw [hf]; exact List.mem_cons_self)))
  simp only [wp_bind, wp_modify]
  apply wp_mapFresh (b := zeroes) h hf (Nat.zero_mod _) (by decide) hperm
  · intro hp
    simp [hzero, hu 0 (by decide)] at hp
  · intro s1 hown1 hmaps1 hpte1 hst1
    have hch1 := hmaps1.changes.mono h.core_subset
    have hrp : Pg r := hown1.held (by simp)
    have hsame : ∀ q, q % pgsize = 0 → q ≠ r → SamePage s1.mem (store s1.mem r n init) q :=
      fun q hq hqr => samePage_store hrp.aligned hq hqr le_rfl (by omega)
    obtain ⟨hown2, hpte2⟩ := hown1.storeHeld (by simp) hsame
    apply hlost r _ hown2
    · refine hch1.trans ⟨fun q hq hqW => hsame q hq ?_, id⟩
      rintro rfl
      exact hqW hrW
    · exact hst1
    · intro v hv
      have hvl := hv.trans userPages_lt_allPages
      simp only [hpte2 v hvl, hpte1 v hvl]
      exact hu v hv
  · intro s1 hown1 hrp hmaps1 hpte1 _
    rw [hzero] at hpte1
    have hch1 := hmaps1.changes.mono h.core_subset
    have hentry := hpte1 0 (by decide)
    have hp0 : present (pte s1.mem pd 0) := by
      rw [hentry]
      exact entry_present _
    have haddr : pteAddr (pte s1.mem pd 0) = r := by
      rw [hentry]
      exact entry_addr hrp.aligned hperm
    obtain ⟨hown2, hfill2⟩ := hown1.storeUser (by decide) hp0 (n := n) (by rw [haddr])
      (by rw [haddr]; omega)
    apply hok _ hown2 (hch1.trans hfill2.changes)
    intro v hv
    have hvl := hv.trans userPages_lt_allPages
    rw [hfill2.ptes v hvl, hpte1 v hvl]
    split_ifs with hv0
    · simp [hv0, entry_present]
    · simp [hv0, hu v hv]

end inituvm

section freerange

variable {pool : Set ℕ} {s : Kmem} {f : Frames} {E : Fault → Prop}

theorem Sound.grow (h : Sound pool s f) {p : ℕ} (hp : Pg p) (hnew : p ∉ pool) : Sound (insert p pool) (s.freed p) f ∧
      ∀ q x, Held (memset s.mem p 1 pgsize) f q x ↔ Held s.mem f q x := by
  have hc : Changes {p} s (s.freed p) :=
    Changes.kfree s hp rfl
  have hout : ∀ o q r, Held s.mem f q (.space o r) → q ∉ ({p} : Set ℕ) := by
    rintro o q r hq rfl
    exact hnew ((h.part.cover q).mpr (Or.inr (Or.inr ⟨_, hq⟩)))
  have hmem : ∀ q x, Held (memset s.mem p 1 pgsize) f q x ↔ Held s.mem f q x := by
    intro q x
    cases x with
    | kstack i => rfl
    | pipe p => rfl
    | space o r => exact (h.frame hc (hout o)).1 q r
  refine ⟨⟨((h.part.grow hnew).give).congr hmem, fun q hq => ?_, fun o pd hd => (h.frame hc (hout o)).2 pd hd⟩, hmem⟩
  rcases hq with rfl | hq
  · exact hp
  · exact h.pages q hq

theorem wp_freerange {ps : List ℕ} {Q : Unit → Kmem → Prop} (h : Sound pool s f) (hnd : ps.Nodup)
    (hps : ∀ p ∈ ps, Pg p ∧ p ∉ pool)
    (hok : ∀ s', Sound (pool ∪ {p | p ∈ ps}) s' f → (∀ q x, Held s'.mem f q x ↔ Held s.mem f q x) →
      s'.denied = s.denied → Q () s') : wp (freerange ps) s Q E := by
  induction ps generalizing pool s with
  | nil =>
    apply wp_ret
    apply hok s _ (fun _ _ => Iff.rfl) rfl
    simpa using h
  | cons p ps ih =>
    obtain ⟨hpg, hnew⟩ := hps p (by simp)
    obtain ⟨hgrow, hmem⟩ := h.grow hpg hnew
    rw [List.nodup_cons] at hnd
    unfold freerange
    rw [wp_bind]
    apply wp_kfree hpg
    apply ih hgrow hnd.2
    · intro q hq
      refine ⟨(hps q (by simp [hq])).1, ?_⟩
      rintro (rfl | hqp)
      · exact hnd.1 hq
      · exact (hps q (by simp [hq])).2 hqp
    · intro s' hs' hmem' hd
      apply hok s' _ (fun q x => (hmem' q x).trans (hmem q x)) hd
      convert hs' using 1
      ext q
      simp only [Set.mem_union, Set.mem_ofPred_eq, List.mem_cons, Set.mem_insert_iff]
      tauto

end freerange

def bootPages : ℕ := 2 * npdentries + 4

structure Booted (low high : List ℕ) (k : Kernel) : Prop where
  fair : k.vm.denied = []
  full : k.vm.freelist = [] → Small bootPages {p | p ∈ low}
  ok : k.vm.freelist ≠ [] → k.Ok {p | p ∈ low ++ high}
  runs : k.ptable.states k.initproc = .runnable
  sz : k.sz k.initproc = pgsize
  image : k.vm.freelist ≠ [] → ∃ pd, k.pgdir k.initproc = some pd ∧ present (pte k.vm.mem pd 0)

section main

variable {low high : List ℕ} {mem init : Bytes} {n : ℕ} {pool : Set ℕ} {k : Kernel} {E : Fault → Prop}

omit [Layout] in
theorem start_dir (o : Owner) : (Kernel.start mem low).frames.dir o = none := by
  cases o with
  | kernel => rfl
  | image => rfl
  | proc i => simp [Kernel.frames, Kernel.start, Ptable.states, Procs.bssProc]

theorem start_ok (hnd : low.Nodup) (hpg : ∀ p ∈ low, Pg p) : (Kernel.start mem low).Ok {p | p ∈ low} := by
  have hvac : ∀ q x, ¬ Held mem (Kernel.start mem low).frames q x := by
    intro q x hq
    cases x with
    | kstack i | pipe p => simp [Held, Kernel.frames, Kernel.start] at hq
    | space o r =>
      obtain ⟨pd, hd, _⟩ := hq
      simp [start_dir] at hd
  refine ⟨⟨⟨by simpa [Kernel.start] using hnd, fun q => ?_, fun q x hq => absurd hq (hvac q x),
    fun q x _ hq => absurd hq (hvac q x), fun q _ x hq => absurd hq (hvac q x)⟩, hpg, fun o pd hd => ?_⟩,
    fun _ _ => rfl, fun i hi => absurd rfl hi, fun _ => (by decide : 0 < kernbase)⟩
  · constructor
    · intro hq
      exact Or.inr (Or.inl hq)
    · rintro (hq | hq | ⟨x, hq⟩)
      · simp at hq
      · exact hq
      · exact absurd hq (hvac q x)
  · simp [start_dir] at hd

theorem Sound.small {s : Kmem} {f : Frames} {o : Owner} {L : List ℕ} {m : ℕ} (h : Sound pool s f)
    (hL : ∀ q x, Held s.mem f q x → q ∈ L) (hm : Small m (around s f o)) : Small (m + L.length) pool := by
  obtain ⟨l, hl, hcov⟩ := hm
  refine ⟨l ++ L, by simp only [List.length_append]; omega, fun q hq => ?_⟩
  rcases (h.part.cover q).mp hq with hq | hq | ⟨x, hq⟩
  · simp at hq
  · exact List.mem_append_left _ (hcov q (Or.inr (Or.inl hq)))
  · exact List.mem_append_right _ (hL q x hq)

theorem wp_kvmalloc {Q : Unit → Kernel → Prop} (hnd : low.Nodup) (hpg : ∀ p ∈ low, Pg p)
    (hE : Small (1 + npdentries) {p | p ∈ low} → E .nullDeref)
    (hok : ∀ k, k.Ok {p | p ∈ low} → (∀ i, k.ptable.states i = .unused) → k.vm.denied = [] →
      (∃ L : List ℕ, L.length = 1 + npdentries ∧ ∀ q x, Held k.vm.mem k.frames q x → q ∈ L) → Q () k) :
    wp kvmalloc (Kernel.start mem low) Q E := by
  have h0 : (Kernel.start mem low).Ok {p | p ∈ low} := start_ok hnd hpg
  have hdir : (Kernel.start mem low).frames.dir .kernel = none := rfl
  unfold kvmalloc onVm
  simp only [wp_bind, wp_within]
  apply wp_setupkvm (h0.sound.bare hdir)
  · intro s' _ _ hst
    apply (wp_throw _).mpr
    apply hE
    apply ((hst rfl).mono (by simp)).subset
    intro q hq
    exact Or.inr (Or.inl hq)
  intro pd s1 hown _ _ hch hpte
  have hch1 : Changes (around (Kernel.start mem low).vm (Kernel.start mem low).frames .kernel) (Kernel.start mem low).vm s1 :=
    hch.mono (fun q hq => Or.inr (Or.inl hq))
  have hput := h0.sound.put hown hch1
  have hframes : Kernel.frames { Kernel.start mem low with vm := s1, kpgdir := some pd } =
      { (Kernel.start mem low).frames with
        dir := Function.update (Kernel.start mem low).frames.dir .kernel (some pd) } := by
    refine Frames.ext rfl (funext fun o => ?_) rfl
    cases o <;> simp [Kernel.frames]
  simp only [wp_modify]
  refine hok _ ⟨hput.congr hframes, h0.idle, h0.live, h0.small⟩ (fun _ => rfl) (hch1.fair rfl) ?_
  refine ⟨pd :: (List.range npdentries).map (fun i => pteAddr (pde s1.mem pd i)), by simp [Nat.add_comm],
    fun q x hq => ?_⟩
  rw [hframes] at hq
  cases x with
  | kstack i | pipe p => simp [Held, Kernel.frames, Kernel.start] at hq
  | space o r =>
    obtain ⟨pd', hd, hr⟩ := hq
    by_cases ho : o = .kernel
    · subst ho
      obtain rfl : pd = pd' := by simpa using hd
      cases r with
      | dir => exact List.mem_cons.mpr (Or.inl hr)
      | tab i =>
        obtain ⟨hi, _, rfl⟩ := hr
        exact List.mem_cons_of_mem _ (List.mem_map.mpr ⟨i, List.mem_range.mpr hi, rfl⟩)
      | user v =>
        obtain ⟨hv, hp, _⟩ := hr
        simp [hpte v (hv.trans userPages_lt_allPages), kernelPtes_user kmap_ordered hv, present_zero] at hp
    · simp [ho, start_dir] at hd

theorem wp_userinit {L : List ℕ} {Q : Unit → Kernel → Prop} (h : k.Ok pool) (hfree : ∀ i, k.ptable.states i = .unused)
    (hd : k.vm.denied = []) (hL : ∀ q x, Held k.vm.mem k.frames q x → q ∈ L)
    (hE : ∀ e, Small (L.length + npdentries + 3) pool ∨ pgsize ≤ n → E e)
    (hok : ∀ k', k'.vm.denied = [] → (k'.vm.freelist = [] → Small (L.length + npdentries + 3) pool) →
      (k'.vm.freelist ≠ [] → k'.Ok pool) → k'.ptable.states k'.initproc = .runnable → k'.sz k'.initproc = pgsize →
      (k'.vm.freelist ≠ [] → ∃ pd, k'.pgdir k'.initproc = some pd ∧ present (pte k'.vm.mem pd 0)) → Q () k') :
    wp (userinit init n) k Q E := by
  unfold userinit onVm
  rw [wp_bind]
  apply wp_allocproc h
  · rintro k' _ (hnone | hst)
    · exact absurd (hfree 0) (Procs.allocproc_none hnone 0)
    · have hbare := (h.sound.bare (o := .image) rfl).small (hst hd)
      exact (wp_throw _).mpr (hE _ (Or.inl ((h.sound.small hL hbare).mono (by simp only [List.length_nil]; omega))))
  intro np t p next ha hf hs1
  obtain ⟨hun, hst⟩ := Procs.allocproc_states ha
  have hdir : k.frames.dir (.proc np) = none := by
    simp [Kernel.frames, hun]
  have hL1 : ∀ q x, Held k.vm.mem { k.frames with kstack := Function.update k.kstack np (some p) } q x → q ∈ p :: L := by
    intro q x hq
    rcases ((gains_kstack k.frames p (h.idle np hun)).held _ q x).mp hq with hq | ⟨rfl, _⟩
    · exact List.mem_cons_of_mem _ (hL q x hq)
    · exact List.mem_cons_self
  have hsmall : ∀ m ≤ npdentries + 2, Small m (around { k.vm with freelist := next, denied := k.vm.denied.tail }
      { k.frames with kstack := Function.update k.kstack np (some p) } (.proc np)) →
      Small (L.length + npdentries + 3) pool := by
    intro m hm hs
    exact (hs1.small hL1 hs).mono (by simp only [List.length_cons]; omega)
  simp only [wp_bind, wp_modify, wp_within]
  apply wp_setupkvm (hs1.bare (o := .proc np) hdir)
  · intro s' _ _ hst
    refine (wp_throw _).mpr (hE _ (Or.inl (hsmall _ ?_ (hst (by simp [hd])))))
    simp only [List.length_nil]
    omega
  intro pd s2 hown2 _ _ hch2 hpte2
  have hd2 : s2.denied = [] := hch2.fair (by simp [hd])
  replace hch2 := hch2.mono (U := around { k.vm with freelist := next, denied := k.vm.denied.tail }
    { k.frames with kstack := Function.update k.kstack np (some p) } (.proc np)) (fun q hq => Or.inr (Or.inl hq))
  have huser : ∀ v < userPages, present (pte s2.mem pd v) = false := by
    intro v hv
    rw [hpte2 v (hv.trans userPages_lt_allPages), kernelPtes_user kmap_ordered hv]
    rfl
  have hnone : ∀ v < userPages, present (pte s2.mem pd v) → v ∈ ([] : List ℕ) := by
    intro v hv hp
    simp [huser v hv] at hp
  simp only [wp_bind, wp_modify, wp_within]
  apply wp_inituvm hown2 huser
  · exact fun hn => hE _ (Or.inr hn)
  · intro hst2
    refine hE _ (Or.inl (hsmall _ ?_ (hown2.small (hst2 hd2) hnone)))
    simp only [List.length_nil]
    omega
  · intro r s3 hown3 hch3 hst3 huser3
    have hempty : s3.freelist = [] := hst3 hd2
    have hnone3 : ∀ v < userPages, present (pte s3.mem pd v) → v ∈ ([] : List ℕ) := by
      intro v hv hp
      simp [huser3 v hv] at hp
    apply hok _ (hch3.fair hd2)
    · intro _
      refine hsmall _ ?_ (hown3.small hempty hnone3)
      simp only [List.length_nil, List.length_cons]
      omega
    · exact fun hne => absurd hempty hne
    · simp [Kernel.setState, Kernel.setSz, Kernel.setPgdir]
    · simp [Kernel.setState, Kernel.setSz, Kernel.setPgdir]
    · exact fun hne => absurd hempty hne
  · intro s3 hown3 hch3 hpres3
    have hs3 := hs1.put hown3 (hch2.trans hch3)
    have hstates : (t.setState np .runnable).states = Function.update k.ptable.states np .runnable := by
      rw [Ptable.states_setState, hst, Function.update_idem]
    apply hok _ (hch3.fair hd2)
    · intro hempty
      have hone : ∀ v < userPages, present (pte s3.mem pd v) → v ∈ [0] := by
        intro v hv hp
        simpa using (hpres3 v hv).mp hp
      refine hsmall _ ?_ (hown3.small hempty hone)
      simp only [List.length_nil, List.length_cons]
      omega
    · intro _
      refine ⟨hs3.congr (Frames.ext rfl (funext fun o => ?_) rfl), fun i hi => ?_, fun i hi => ?_, fun i => ?_⟩
      · cases o with
        | kernel => simp [Kernel.frames, Kernel.setState, Kernel.setSz, Kernel.setPgdir]
        | image => simp [Kernel.frames]
        | proc i =>
          by_cases hi : i = np
          · simp [Kernel.frames, Kernel.setState, Kernel.setSz, Kernel.setPgdir, hstates, hi]
          · simp [Kernel.frames, Kernel.setState, Kernel.setSz, Kernel.setPgdir, hstates, hi]
      · have hinp : i ≠ np := by
          rintro rfl
          simp [Kernel.setState, Kernel.setSz, Kernel.setPgdir] at hi
        simpa [Kernel.setState, Kernel.setSz, Kernel.setPgdir, hinp] using h.idle i (hfree i)
      · have hinp : i = np := by
          by_contra hne
          simp [Kernel.setState, Kernel.setSz, Kernel.setPgdir, hstates, hne, hfree i] at hi
        exact ⟨pd, by simp [Kernel.setState, Kernel.setSz, Kernel.setPgdir, hinp]⟩
      · by_cases hinp : i = np
        · simp only [Kernel.setState, Kernel.setSz, hinp, Function.update_self]
          decide
        · simpa [Kernel.setState, Kernel.setSz, Kernel.setPgdir, hinp] using h.small i
    · simp [Kernel.setState, Kernel.setSz, Kernel.setPgdir]
    · simp [Kernel.setState, Kernel.setSz, Kernel.setPgdir]
    · exact fun _ => ⟨pd, by simp [Kernel.setState, Kernel.setSz, Kernel.setPgdir], (hpres3 0 (by decide)).mpr rfl⟩

theorem wp_main (hnd : (low ++ high).Nodup) (hpg : ∀ p ∈ low ++ high, Pg p)
    (hE : ∀ e, Small bootPages {p | p ∈ low} ∨ pgsize ≤ n → E e) :
    wp (main high init n) (Kernel.start mem low) (fun _ k => Booted low high k) E := by
  obtain ⟨hlow, hhigh, hdisj⟩ := List.nodup_append.mp hnd
  unfold main onVm
  rw [wp_bind]
  apply wp_kvmalloc hlow (fun p hp => hpg p (List.mem_append_left _ hp))
  · intro hs
    exact hE _ (Or.inl (hs.mono (by decide)))
  rintro k hk hfree hd ⟨L, hlen, hL⟩
  simp only [wp_bind, wp_within]
  apply wp_freerange hk.sound hhigh
  · intro p hp
    refine ⟨hpg p (List.mem_append_right _ hp), fun hpl => ?_⟩
    exact hdisj p hpl p hp rfl
  intro s2 hs2 hmem2 hd2
  have hpool : ({p | p ∈ low} ∪ {p | p ∈ high} : Set ℕ) = {p | p ∈ low ++ high} := by
    ext p
    simp
  rw [hpool] at hs2
  have hbound : Small (L.length + npdentries + 3) {p | p ∈ low ++ high} → Small bootPages {p | p ∈ low} := by
    intro hs
    refine (hs.subset (fun p hp => List.mem_append_left _ hp)).mono ?_
    unfold bootPages
    omega
  have hk2 : Kernel.Ok {p | p ∈ low ++ high} { k with vm := s2 } := ⟨hs2, hk.idle, hk.live, hk.small⟩
  apply wp_userinit hk2 hfree (hd2.trans hd) (fun q x hq => hL q x ((hmem2 q x).mp hq))
  · rintro e (hs | hn)
    · exact hE e (Or.inl (hbound hs))
    · exact hE e (Or.inr hn)
  · intro k' hd' hfull hok' hrun hsz himage
    exact ⟨hd', fun he => hbound (hfull he), hok', hrun, hsz, himage⟩

end main

/-- What a page is used for; `none` stands for the free list. -/
def Kernel.InRole (k : Kernel) (p : ℕ) : Option Holder → Prop
  | none => p ∈ k.vm.freelist
  | some x => Held k.vm.mem k.frames p x

section roles

variable {pool : Set ℕ} {k : Kernel} {p : ℕ}

theorem Kernel.Ok.unique (h : k.Ok pool) {x y : Option Holder} (hx : k.InRole p x) (hy : k.InRole p y) : x = y := by
  cases x with
  | none =>
    cases y with
    | none => rfl
    | some y => exact absurd hx (h.sound.part.apart p y hy).2
  | some x =>
    cases y with
    | none => exact absurd hy (h.sound.part.apart p x hx).2
    | some y => rw [h.sound.part.unique p x y hx hy]

theorem Kernel.Ok.mem_pool (h : k.Ok pool) {x : Option Holder} (hx : k.InRole p x) : p ∈ pool := by
  apply (h.sound.part.cover p).mpr
  cases x with
  | none => exact Or.inr (Or.inl hx)
  | some x => exact Or.inr (Or.inr ⟨x, hx⟩)

theorem Kernel.Ok.exists_role (h : k.Ok pool) (hp : p ∈ pool) : ∃ x, k.InRole p x := by
  rcases (h.sound.part.cover p).mp hp with hp | hp | ⟨x, hp⟩
  · simp at hp
  · exact ⟨none, hp⟩
  · exact ⟨some x, hp⟩

theorem Booted.fork {low high : List ℕ} (h : Booted low high k) (hleft : k.vm.freelist ≠ []) (ds : List Bool) :
    ∃ k', Kernel.step { k with vm := { k.vm with denied := ds } } (.fork k.initproc) = some k' := by
  have hok := h.ok hleft
  obtain ⟨pd, hpd, hpres⟩ := h.image hleft
  have hds : Kernel.Ok {p | p ∈ low ++ high} { k with vm := { k.vm with denied := ds } } :=
    ⟨hok.sound.setDenied ds, hok.idle, hok.live, hok.small⟩
  have hwp : wp (runCall (.fork k.initproc)) { k with vm := { k.vm with denied := ds } } (fun _ _ => True)
    (fun _ => False) := by
    simp only [runCall, wp_bind, wp_pure]
    apply wp_mono (wp_fork hds (by simp [h.runs]) _) (fun _ _ _ => trivial)
    intro pd' v hpd' hv habs
    obtain rfl : pd = pd' := by simpa [hpd] using hpd'
    have hv0 : v = 0 := by
      rw [lt_pagesOf] at hv
      simp only [h.sz, pgsize] at hv
      omega
    simp [hv0, hpres] at habs
  obtain ⟨_, k', hrun, _⟩ := exists_of_wp hwp
  have hcan : (k.ptable.proc k.initproc).canRun := by
    have hst : (k.ptable.proc k.initproc).state = .runnable := h.runs
    simp [Procs.Proc.canRun, hst]
  refine ⟨k', ?_⟩
  simp only [Kernel.step, Kernel.allows, hcan, if_true, hrun]

end roles

theorem page_ownership {low high : List ℕ} {mem init : Bytes} {n : ℕ} {k₀ k : Kernel} {ds : List Bool} {cs : List Call}
    (hnd : (low ++ high).Nodup) (hpg : ∀ p ∈ low ++ high, Pg p)
    (hboot : main high init n (Kernel.start mem low) = .ok ((), k₀)) (hleft : k₀.vm.freelist ≠ [])
    (hr : run Kernel.step { k₀ with vm := { k₀.vm with denied := ds } } cs = some k) :
    (∀ p ∈ low ++ high, ∃! x, k.InRole p x) ∧ (∀ p x, k.InRole p x → p ∈ low ++ high) ∧ k.vm.freelist.Nodup ∧
      (∀ i j p v w, k.InRole p (some (.space (.proc i) (.user v))) → k.InRole p (some (.space (.proc j) (.user w))) →
        i = j ∧ v = w) ∧
      ∀ o pd, k.frames.dir o = some pd → ∀ v, userPages ≤ v → v < allPages → userOk (pte k.vm.mem pd v) = false := by
  have hbooted := wp_ok (wp_main hnd hpg (fun _ _ => trivial)) hboot
  have h₀ := hbooted.ok hleft
  have hok : k.Ok {p | p ∈ low ++ high} := by
    apply invariant (fun k c k' hk hs => Kernel.Ok.step hk hs) _ hr
    exact ⟨h₀.sound.setDenied ds, h₀.idle, h₀.live, h₀.small⟩
  refine ⟨fun p hp => ?_, fun p x hx => hok.mem_pool hx, by simpa using hok.sound.part.nodup, ?_, hok.sound.guard⟩
  · obtain ⟨x, hx⟩ := hok.exists_role hp
    exact ⟨x, hx, fun y hy => hok.unique hy hx⟩
  · intro i j p v w hi hj
    have hij := hok.unique hi hj
    simp only [Option.some.injEq, Holder.space.injEq, Owner.proc.injEq, Role.user.injEq] at hij
    exact hij

end boot

def samplePool : List ℕ := (List.range 3000).map (fun i => 0x400000 + pgsize * i)

theorem samplePool_nodup : samplePool.Nodup := by
  apply List.Nodup.map _ List.nodup_range
  intro i j hij
  simp only [pgsize] at hij
  omega

theorem samplePool_large : ¬ Small bootPages {p | p ∈ samplePool} := by
  rintro ⟨l, hlen, hl⟩
  have hle := (List.subperm_of_subset samplePool_nodup hl).length_le
  simp only [samplePool, List.length_map, List.length_range, bootPages, npdentries] at hle hlen
  omega

theorem samplePool_pages (p : ℕ) (hp : p ∈ samplePool) : @Pg sampleLayout p := by
  obtain ⟨i, hi, rfl⟩ := List.mem_map.mp hp
  rw [List.mem_range] at hi
  refine @Pg.mk sampleLayout _ ?_ ?_ ?_
  · unfold pgsize
    omega
  · change 0x110000 ≤ _
    omega
  · unfold pgsize phystop
    omega

theorem page_ownership_forked : letI := sampleLayout
    ∃ k₀ k, main [] (fun _ => 0) 0 (Kernel.start (fun _ => 0) samplePool) = .ok ((), k₀) ∧ k₀.vm.freelist ≠ [] ∧
      run Kernel.step { k₀ with vm := { k₀.vm with denied := [false, false, false, false, true] } } [.fork k₀.initproc] =
        some k ∧ ∀ p ∈ samplePool ++ [], ∃! x, k.InRole p x := by
  let _ := sampleLayout
  have hnd : (samplePool ++ []).Nodup := by simpa using samplePool_nodup
  have hpg : ∀ p ∈ samplePool ++ [], Pg p := by simpa using samplePool_pages
  have hmain : wp (main [] (fun _ => 0) 0) (Kernel.start (fun _ => 0) samplePool) (fun _ k => Booted samplePool [] k)
      (fun _ => False) := by
    apply wp_main hnd hpg
    rintro _ (hs | hn)
    · exact samplePool_large hs
    · simp [pgsize] at hn
  obtain ⟨_, k₀, hboot, hk₀⟩ := exists_of_wp hmain
  have hleft : k₀.vm.freelist ≠ [] := fun he => samplePool_large (hk₀.full he)
  obtain ⟨k, hk⟩ := hk₀.fork hleft [false, false, false, false, true]
  have hr : run Kernel.step { k₀ with vm := { k₀.vm with denied := [false, false, false, false, true] } }
      [.fork k₀.initproc] = some k := by
    rw [run_cons_eq]
    exact ⟨k, hk, rfl⟩
  exact ⟨k₀, k, hboot, hleft, hr, (page_ownership hnd hpg hboot hleft hr).1⟩

end Laboratorio.Vm
