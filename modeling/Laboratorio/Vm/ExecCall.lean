import Laboratorio.Vm.Fork
import Laboratorio.Vm.Program

/-!
`exec` as the process sees it: the name and the registers of the new program, and its stack.
-/

namespace Laboratorio.Vm

open Bytes Fs
open Procs (Slot)

/-- The kernel with the name of each process and the registers that `exec` sets in its trap frame. -/
structure Tasks where
  kernel : Kernel
  name : Slot → List UInt8
  eip : Slot → ℕ
  esp : Slot → ℕ

abbrev TaskM := StateT Tasks (Except Fault)

def onKernel {α : Type} : KernelM α → TaskM α := within Tasks.kernel (fun t k => { t with kernel := k })

def lastElem : List UInt8 → List UInt8 → List UInt8
  | last, [] => last
  | last, c :: s => lastElem (if c = 47 then s else last) s

def safestrcpy (t : List UInt8) (n : ℕ) : List UInt8 := t.take (n - 1)

variable [Layout]

/-- `none` for `src` is a path that `namei` does not find. -/
def execProc (cur : Slot) (path : List UInt8) (src : Option Source) (argv : List (List UInt8)) : TaskM Bool := do
  match src with
  | none => return false
  | some src =>
    match ← onKernel (onVm (loadImage src)) with
    | none => return false
    | some (pgdir, sz) =>
      match ← onKernel (onVm (pushFrame pgdir sz argv)) with
      | none =>
        onKernel (onVm (freevm (some pgdir)))
        return false
      | some sp =>
        modify fun t => { t with name := Function.update t.name cur (safestrcpy (lastElem path path) 16) }
        let oldpgdir := (← get).kernel.pgdir cur
        modify fun t =>
          { t with
            kernel := (t.kernel.setPgdir cur (some pgdir)).setSz cur sz,
            eip := Function.update t.eip cur (rd32 (src .elf 0 52).2 24),
            esp := Function.update t.esp cur sp }
        onKernel (switchuvm cur)
        onKernel (onVm (freevm oldpgdir))
        return true

section loading

variable {cur : Slot} {t : Tasks} {old : ℕ} {hand : List ℕ} {W : Set ℕ} {a : Node}

theorem exec_loads (h : Owns t.kernel.vm old hand W) (htype : a.type ≠ tDev) (hsize : a.size < 2 ^ 32) :
    ∃ r s', loadImage (fileSource a) t.kernel.vm = .ok (r, s') ∧ SameView old t.kernel.vm.mem s'.mem ∧
      (r = none → (∀ p, p ∈ s'.freelist ↔ p ∈ t.kernel.vm.freelist) ∧
        ∀ path argv, execProc cur path (some (fileSource a)) argv t =
          .ok (false, { t with kernel := { t.kernel with vm := s' } })) ∧
      ∀ pd sz, r = some (pd, sz) → sz < kernbase ∧ Exact s' pd sz ∧
        ∀ va, va / pgsize < pagesOf sz → userByte s'.mem pd va = programByte a.bytes (fileSegments a.bytes) va 0 := by
  have hwp : wp (loadImage (fileSource a)) t.kernel.vm (fun r s' => SameView old t.kernel.vm.mem s'.mem ∧
    (r = none → ∀ p, p ∈ s'.freelist ↔ p ∈ t.kernel.vm.freelist) ∧ ∀ pd sz, r = some (pd, sz) → sz < kernbase ∧ Exact s' pd sz ∧
    ∀ va, va / pgsize < pagesOf sz → userByte s'.mem pd va = programByte a.bytes (fileSegments a.bytes) va 0)
    fun _ => False := by
    apply wp_loadImage h.bare_free
    · intro s' hbare hch
      refine ⟨h.kept hch, fun _ p => ?_, nofun⟩
      simpa using (hbare.part.cover p).symm
    intro pd sz img s' hlt _ hch hexact _ hread hloads hshows
    refine ⟨h.kept hch, nofun, ?_⟩
    rintro _ _ ⟨⟩
    obtain ⟨-, hbytes⟩ := fileSource_complete htype (by decide) hread
    have hphnum : rd16 (fileSource a .elf 0 52).2 44 = rd16 a.bytes 44 := by
      rw [rd16, rd_shift 2 a.bytes _ 0 44 fun x hx => hbytes x (by omega), Nat.zero_add]
    have hphoff : rd32 (fileSource a .elf 0 52).2 28 = rd32 a.bytes 28 := by
      rw [rd32, rd_shift 4 a.bytes _ 0 28 fun x hx => hbytes x (by omega), Nat.zero_add]
    rw [hphnum, hphoff] at hloads
    refine ⟨hlt, hexact, fun va hva => ?_⟩
    rw [hshows.bytes va hva, hloads.program htype hsize va]
    rfl
  obtain ⟨r, s', hrun, hview, hfree, hok⟩ := exists_of_wp hwp
  refine ⟨r, s', hrun, hview, fun hr => ⟨hfree hr, fun path argv => ?_⟩, hok⟩
  subst hr
  have hload : onKernel (onVm (loadImage (fileSource a))) t = .ok (none, { t with kernel := { t.kernel with vm := s' } }) := by
    simp only [onKernel, onVm, within, hrun]
  exact bind_of_ok hload

end loading

structure Delivered (m : Bytes) (pd top esp : ℕ) (argv : List (List UInt8)) (ptrs : List ℕ) : Prop where
  aligned : top % pgsize = 0
  room : 2 * pgsize ≤ top
  stack : Accessible m pd (top / pgsize - 1)
  guard : ¬ Accessible m pd (top / pgsize - 2)
  low : top - pgsize ≤ esp
  ret : rd32 (userByte m pd) esp = 0xffffffff
  argc : rd32 (userByte m pd) (esp + 4) = argv.length
  argvAt : rd32 (userByte m pd) (esp + 8) = esp + 12
  length : ptrs.length = argv.length
  array : ∀ i p, ptrs[i]? = some p → rd32 (userByte m pd) (esp + 12 + 4 * i) = p
  null : rd32 (userByte m pd) (esp + 12 + 4 * argv.length) = 0
  high : esp + 12 + 4 * (argv.length + 1) ≤ top
  string : ∀ (i : ℕ) (a : List UInt8) (p : ℕ), argv[i]? = some a → ptrs[i]? = some p →
    esp + 12 + 4 * (argv.length + 1) ≤ p ∧ p + (a.length + 1) ≤ top ∧ ∀ j ≤ a.length, userByte m pd (p + j) = a.getD j 0
  apart : ∀ (i j : ℕ) (a b : List UInt8) (p q : ℕ), i < j → argv[i]? = some a → ptrs[i]? = some p → argv[j]? = some b →
    ptrs[j]? = some q → q + (b.length + 1) ≤ p

section delivery

variable {cur : Slot} {t t' : Tasks} {pool : Set ℕ} {path : List UInt8} {src : Option Source}
  {argv : List (List UInt8)} {ptrs : List ℕ}
  {top sp pd : ℕ} {s s' : Kmem}

omit [Layout] in
theorem Frame.congr {f g : Bytes} (h : Frame f top sp argv ptrs) (hfg : ∀ x, sp ≤ x → x < top → g x = f x) :
    Frame g top sp argv ptrs := by
  have hle := h.strings.le
  have hword : ∀ b, sp ≤ b → b + 4 ≤ sp + 4 * (argv.length + 4) → rd32 g b = rd32 f b := by
    intro b h1 h2
    apply rd_congr
    intro x h3 h4
    exact hfg x (by omega) (by omega)
  refine ⟨h.low, ?_, ?_, ?_, fun i hi => ?_, ?_, h.strings.congr fun x h1 h2 => hfg x (by omega) h2⟩
  · rw [hword _ (by omega) (by omega), h.ret]
  · rw [hword _ (by omega) (by omega), h.argc]
  · rw [hword _ (by omega) (by omega), h.argvAt]
  · rw [hword _ (by omega) (by omega), h.array i hi]
  · rw [hword _ (by omega) (by omega), h.null]

omit [Layout] in
theorem Frame.delivered (h : Frame (userByte s.mem pd) top sp argv ptrs) (hs : StackReady s pd top) :
    Delivered s.mem pd top sp argv ptrs := by
  have hle := h.strings.le
  have hlen := h.strings.length_eq
  refine ⟨hs.aligned, hs.room, hs.stack, fun hacc => ?_, h.low, h.ret, h.argc, h.argvAt, hlen, fun i p hp => ?_,
    h.null, by omega, fun i a p ha hp => ?_, fun i j a b p q hij ha hp hb hq => ?_⟩
  · have hguard := hs.guard
    rw [hacc.2.2] at hguard
    exact Bool.noConfusion hguard
  · have hi : i < ptrs.length := (List.getElem?_eq_some_iff.mp hp).1
    rw [h.array i (by omega), List.getD_eq_getElem?_getD, hp]
    rfl
  · obtain ⟨h1, h2, h3, -⟩ := h.strings.spec ha hp
    exact ⟨by omega, h2, h3⟩
  · exact (h.strings.spec ha hp).2.2.2 j b q hij hb hq

variable {E : Fault → Prop}

theorem wp_execProc {src : Source} {Q : Bool → Tasks → Prop} (h : t.kernel.Ok pool)
    (hcur : t.kernel.ptable.states cur ≠ .unused) (hstack : t.kernel.kstack cur = none → E .switchuvm)
    (hload : wp (loadImage src) t.kernel.vm (fun r _ => r = none → ∀ t', Q false t') E)
    (hpush : ∀ pd sz s, StackReady s pd sz → sz < kernbase → Proper s.mem pd →
    wp (pushFrame pd sz argv) s (fun r _ => r = none → ∀ t', Q false t') E)
    (hok : ∀ pd t', t'.kernel.pgdir cur = some pd → StackReady t'.kernel.vm pd (t'.kernel.sz cur) →
      ((∀ a ∈ argv, a.length + 1 < 2 ^ 32) → ∃ ptrs, Frame (userByte t'.kernel.vm.mem pd) (t'.kernel.sz cur)
      (t'.esp cur) argv ptrs) → Q true t') :
    wp (execProc cur path (some src) argv) t Q E := by
  obtain ⟨old, hold⟩ := h.live cur hcur
  have himage : t.kernel.frames.dir .image = none := rfl
  unfold execProc onKernel onVm
  simp only [wp_bind, wp_within]
  apply wp_given hload
  apply wp_loadImage (h.sound.bare himage)
  · intro s' _ _ hnone
    exact wp_ret (hnone rfl _)
  intro pd sz img s1 hlt hown1 hch1 _ hready1 _ _ _ _
  simp only [wp_bind, wp_within]
  have hframe : wp (pushFrame pd sz argv) s1 (fun r s2 => Spills pd s1 s2 ∧
    ((∀ a ∈ argv, a.length + 1 < 2 ^ 32) → ∀ sp, r = some sp → ∃ ptrs, Frame (userByte s2.mem pd) sz sp argv ptrs)) fun _ =>
    True := wp_pushFrame hown1.proper trivial fun r s2 hs2 hframe => ⟨hs2, hframe hready1 hlt⟩
  apply wp_given hframe
  apply wp_mono (hpush pd sz s1 hready1 hlt hown1.proper)
  rintro r s2 hnone ⟨hs2, hframe⟩
  obtain ⟨hown2, hfill2⟩ := hown1.spill hs2
  cases r with
  | none =>
    simp only [wp_bind, wp_within]
    apply wp_freevm hown2
    intro s3 _ _
    exact wp_ret (hnone rfl _)
  | some sp =>
    have hready2 := hs2.table.stackReady hready1 hlt
    simp only [wp_bind, wp_within, wp_modify, wp_get, hold]
    apply wp_switchuvm
    · rintro (hnone | hnone)
      · exact hstack hnone
      · simp [Kernel.setPgdir, Kernel.setSz] at hnone
    have hs := (h.sound.put hown2 (hch1.trans hfill2.changes)).rename (Equiv.swap (.proc cur) .image)
    have hdir : (Function.update t.kernel.frames.dir .image (some pd) ∘ Equiv.swap (Owner.proc cur) .image)
      .image = some old := by
      simp [Kernel.frames, hcur, hold]
    have hnew : (Function.update t.kernel.frames.dir .image (some pd) ∘ Equiv.swap (Owner.proc cur) .image)
      (.proc cur) = some pd := by
      simp
    apply wp_freevm (hs.owns (o := .image) hdir)
    intro s3 _ hch3
    apply wp_ret
    -- the pages that go are not those of the new image
    have hview : SameView pd s2.mem s3.mem := by
      apply hch3.sameView hown2.dir.aligned
      intro p r hp
      apply hs.notMem_around (x := .space (.proc cur) r) ⟨pd, hnew, hp⟩
      simp
    apply hok pd
    · simp [Kernel.setPgdir, Kernel.setSz]
    · simpa [Kernel.setSz] using hview.table.stackReady hready2 hlt
    intro hargv
    obtain ⟨ptrs, hframe⟩ := hframe hargv sp rfl
    have hframe3 : Frame (userByte s3.mem pd) sz sp argv ptrs := by
      apply hframe.congr
      intro x h1 h2
      apply hview.userByte
      · exact Nat.div_lt_div_of_lt_of_dvd (by decide) (by omega)
      · exact (hready2.page (hframe.low.trans h1) h2).2.1
    exact ⟨ptrs, by simpa [Kernel.setSz] using hframe3⟩

theorem exec_delivers (h : t.kernel.Ok pool) (hcur : t.kernel.ptable.states cur ≠ .unused)
    (hargv : ∀ a ∈ argv, a.length + 1 < 2 ^ 32) (hrun : execProc cur path src argv t = .ok (true, t')) :
    ∃ pd ptrs, t'.kernel.pgdir cur = some pd ∧ Delivered t'.kernel.vm.mem pd (t'.kernel.sz cur) (t'.esp cur) argv ptrs := by
  cases src with
  | none => exact absurd hrun nofun
  | some src =>
    have hwp : wp (execProc cur path (some src) argv) t (fun r t' => r = true → ∃ pd ptrs, t'.kernel.pgdir cur = some pd ∧
      Delivered t'.kernel.vm.mem pd (t'.kernel.sz cur) (t'.esp cur) argv ptrs) fun _ => True := by
      apply wp_execProc h hcur (fun _ => trivial)
      · exact wp_mono (wp_any _) fun _ _ _ _ _ => nofun
      · intro pd sz s _ _ _
        exact wp_mono (wp_any _) fun _ _ _ _ _ => nofun
      · intro pd t' hpd hready hframe _
        obtain ⟨ptrs, hframe⟩ := hframe hargv
        exact ⟨pd, ptrs, hpd, hframe.delivered hready⟩
    exact wp_ok hwp hrun rfl

/-- One segment of at most a page at address 0, for which there is memory. -/
structure OneSegment (src : Source) (off : ℕ) : Prop where
  read : (src (.ph 0) off 32).1 = 32
  load : rd32 (src (.ph 0) off 32).2 0 = elfProgLoad
  vaddr : rd32 (src (.ph 0) off 32).2 8 = 0
  filesz : rd32 (src (.ph 0) off 32).2 16 ≤ rd32 (src (.ph 0) off 32).2 20
  memsz : 0 < rd32 (src (.ph 0) off 32).2 20 ∧ rd32 (src (.ph 0) off 32).2 20 ≤ pgsize
  pages : Complete (rd32 (src (.ph 0) off 32).2 4) (rd32 (src (.ph 0) off 32).2 16) (fun j => src (.page 0 j)) 0

theorem wp_loadSegments_one {src : Source} {W : Set ℕ} {off : ℕ} (h : Owns s pd [] W) (he : Exact s pd 0) (hd : s.denied = [])
    (hlarge : ¬ Small (npdentries + 5) W) (hseg : OneSegment src off) :
    wp (loadSegments src pd 1 0 off 0) s (fun r _ => r = some (rd32 (src (.ph 0) off 32).2 20)) E := by
  obtain ⟨hread, hload, hvaddr, hfilesz, ⟨hpos, hmemsz⟩, hpages⟩ := hseg
  unfold loadSegments
  dsimp only
  generalize (src (.ph 0) off 32).2 = ph at *
  have hzero : pagesOf 0 = 0 := by decide
  have hone : pagesOf (rd32 ph 20) ≤ 1 := by
    unfold pagesOf pgsize at *
    omega
  have hkern : rd32 ph 20 < kernbase := hmemsz.trans_lt (by decide)
  have hnone : ∀ v < userPages, ¬ present (pte s.mem pd v) := fun v hv hp => by
    have := (he v hv).mp hp
    omega
  have hsum : u32 (rd32 ph 20) = rd32 ph 20 := Nat.mod_eq_of_lt (rd_lt 4 _ _)
  rw [if_neg (not_not.mpr hread), if_neg (not_not.mpr hload), if_neg (Nat.not_lt.mpr hfilesz), hvaddr, Nat.zero_add, hsum,
    if_neg (Nat.not_lt_zero _), wp_bind]
  apply wp_allocuvm h (by decide)
  · exact fun v _ h2 _ hp => absurd hp (hnone v (h2.trans_le (pagesOf_le_userPages hkern.le)))
  · exact fun hbig => absurd hkern (Nat.not_lt.mpr hbig)
  · exact fun hless => absurd hless (Nat.not_lt_zero _)
  · intro s1 _ _ _ hstarved
    exact absurd ((hstarved hd fun v hv hp => absurd hp (hnone v hv)).mono (by simp only [List.length_nil]; omega)) hlarge
  · intro s1 hle hlt hown1 _ hg1
    have he1 : Exact s1 pd (rd32 ph 20) := exact_of_grown he (Nat.div_le_div_right (by omega)) rfl hg1
    rw [if_neg hpos.ne', if_neg (by simp), wp_bind]
    apply wp_loaduvm hown1 (Nat.zero_mod _) (by omega)
    · intro v _ hv
      have hv' : v < pagesOf (rd32 ph 20) := hv.trans_le (Nat.div_le_div_right (by omega))
      exact (he1 v (hv'.trans_le (pagesOf_le_userPages hlt.le))).mpr hv'
    · intro b s2 _ _ _ hfull
      rw [hfull hpages, if_pos rfl, loadSegments]
      exact wp_ret rfl

theorem wp_loadImage_one {src : Source} {W : Set ℕ} (h : Bare s [] W) (hd : s.denied = []) (hlarge : ¬ Small (npdentries + 5) W)
    (hread : (src .elf 0 52).1 = 52) (hmagic : rd32 (src .elf 0 52).2 0 = elfMagic) (hphnum : rd16 (src .elf 0 52).2 44 = 1)
    (hseg : OneSegment src (rd32 (src .elf 0 52).2 28)) :
    wp (loadImage src) s (fun r _ => ∃ pd sz, r = some (pd, sz) ∧ 0 < sz) E := by
  unfold loadImage
  rw [if_neg (not_not.mpr hread), if_neg (not_not.mpr hmagic), wp_bind]
  apply wp_setupkvm h
  · intro _ _ _ hsmall
    exact absurd ((hsmall hd).mono (by simp only [List.length_nil]; omega)) hlarge
  intro pd s1 hown1 _ _ hch1 hpte1
  have hexact : Exact s1 pd 0 := by
    intro v hv
    rw [hpte1 v (hv.trans userPages_lt_allPages), kernelPtes_user kmap_ordered hv, show pagesOf 0 = 0 by decide]
    simp [present_zero]
  have hshow : Shows s1 pd 0 zeroes := ⟨fun va hva => absurd hva (Nat.not_lt_zero _), fun _ _ => rfl⟩
  dsimp only
  rw [hphnum, wp_bind]
  obtain ⟨hpos, hmemsz⟩ := hseg.memsz
  have hone := wp_loadSegments_one (E := E) hown1 hexact (hch1.fair hd) hlarge hseg
  refine wp_given (F := fun _ => True) (P := fun r t => ∀ sz, r = some sz → sz < kernbase ∧ Owns t pd [] W ∧ Changes W s1 t ∧
    Exact t pd sz ∧ ∃ img, Shows t pd sz img) ?_ (wp_mono hone ?_)
  · apply wp_loadSegments hown1 hexact hshow (by decide)
    · exact fun _ _ _ => nofun
    · rintro sz img t hlt hown hch he - hs _ ⟨⟩
      exact ⟨hlt, hown, hch, he, img, hs⟩
  rintro r t rfl hfacts
  generalize rd32 (src (.ph 0) _ 32).2 20 = sz at *
  obtain ⟨hlt, hown, hch, he, img, hs⟩ := hfacts sz rfl
  apply wp_stackPages hown he hs hlt
  · intro t' _ _ hstarved
    have hpages : pagesOf (pgroundup sz + 2 * pgsize) = 3 := by
      unfold pagesOf pgroundup u32 pgsize at *
      omega
    have hsmall := hstarved (by unfold pgroundup u32 kernbase pgsize at *; omega) (hch.fair (hch1.fair hd)) fun v hv hp => by
      have := (he v hv).mp hp
      unfold pagesOf pgsize at *
      omega
    rw [hpages] at hsmall
    exact absurd hsmall hlarge
  · intro sz' t' _ _ _ _ hready _
    exact ⟨pd, sz', rfl, (by decide : 0 < 2 * pgsize).trans_le hready.room⟩

omit [Layout] in
theorem wp_copyout_stack {va len : ℕ} {buf : Bytes} {Q : Bool → Kmem → Prop} (h : Proper s.mem pd) (hs : StackReady s pd top)
    (htop : top < kernbase) (hlow : top - pgsize ≤ va) (hhigh : va + len ≤ top) (hok : ∀ s', Spills pd s s' → Q true s') :
    wp (copyout pd va buf len) s Q E := by
  have hacc : ∀ x < len, Accessible s.mem pd (rangePage va x) := by
    intro x hx
    have hin : u32 (va + x) = va + x := by
      unfold u32 kernbase at *
      omega
    exact hs.page (by omega) (by omega)
  apply wp_copyBytes h (by unfold kernbase at htop; omega) (Nat.lt_succ_self _)
  · intro x hx _ habs
    have hpte := (hacc x hx).2.1
    rw [pte, if_neg (by simp [habs]), present_zero] at hpte
    exact Bool.noConfusion hpte
  · intro s' x hx _ hnot _ _
    exact absurd (hacc x hx) hnot
  · intro s' _ hspills _
    exact hok s' hspills

/-- The bytes of the strings, each with its 0 and up to three bytes to align it. -/
def strings (argv : List (List UInt8)) : ℕ := (argv.map fun a => a.length + 4).sum

omit [Layout] in
theorem wp_pushArgs_fits {sp : ℕ} {ptrs : List ℕ} {Q : Option (ℕ × List ℕ) → Kmem → Prop} (h : Proper s.mem pd)
    (hs : StackReady s pd top) (htop : top < kernbase) (hsp : sp ≤ top) (hfits : top - pgsize + strings argv ≤ sp)
    (hcount : ptrs.length + argv.length ≤ maxarg)
    (hok : ∀ sp' ptrs' s', Spills pd s s' → sp' ≤ sp → sp ≤ sp' + strings argv → ptrs'.length = ptrs.length + argv.length →
      Q (some (sp', ptrs')) s') : wp (pushArgs pd argv sp ptrs) s Q E := by
  induction argv generalizing s sp ptrs with
  | nil => exact wp_ret (hok sp ptrs s (.refl pd s) le_rfl (Nat.le_add_right _ _) rfl)
  | cons a argv ih =>
    have hroom := hs.room
    have hsum : strings (a :: argv) = a.length + 4 + strings argv := by simp [strings]
    rw [List.length_cons] at hcount
    have hlen : u32 (a.length + 1) = a.length + 1 := by
      unfold u32 kernbase at *
      omega
    rw [pushArgs, if_neg (by omega), hlen]
    obtain ⟨sp', hsp'⟩ : ∃ sp', sp' = u32 (sp + 2 ^ 32 - (a.length + 1)) / 4 * 4 := ⟨_, rfl⟩
    have hle : sp' + (a.length + 1) ≤ sp ∧ sp ≤ sp' + (a.length + 4) := by
      unfold u32 kernbase pgsize at *
      omega
    rw [← hsp', wp_bind]
    apply wp_copyout_stack h hs htop (by omega) (by omega)
    intro s1 hs1
    rw [if_pos rfl]
    apply ih (hs1.table.proper h) (hs1.table.stackReady hs htop) (by omega) (by omega) (by simp; omega)
    intro sp'' ptrs'' s2 hs2 h1 h2 h3
    exact hok sp'' ptrs'' s2 (hs1.trans hs2) (by omega) (by omega) (by simp at h3 ⊢; omega)

omit [Layout] in
theorem wp_pushFrame_fits (h : Proper s.mem pd) (hs : StackReady s pd top) (htop : top < kernbase)
    (hcount : argv.length ≤ maxarg) (hfits : strings argv + (argv.length + 4) * 4 ≤ pgsize) :
    wp (pushFrame pd top argv) s (fun r _ => r ≠ none) E := by
  have hroom := hs.room
  rw [pushFrame, wp_bind]
  apply wp_pushArgs_fits h hs htop le_rfl (by omega) (by simpa using hcount)
  intro sp ptrs s1 hs1 h1 h2 h3
  have hva : u32 (sp + 2 ^ 32 - (3 + ptrs.length + 1) * 4) = sp - (ptrs.length + 4) * 4 := by
    simp only [List.length_nil] at h3
    unfold u32 kernbase pgsize at *
    omega
  dsimp only
  simp only [List.length_nil] at h3
  rw [wp_bind, hva]
  apply wp_copyout_stack (hs1.table.proper h) (hs1.table.stackReady hs htop) htop (by omega) (by omega)
  intro s2 _
  exact wp_ret (Option.some_ne_none _)

end delivery

omit [Layout]

/-- A file with one program header, for five bytes at address 0 of which the file holds three. -/
def program : Node :=
  let file : List UInt8 := [0x7f, 0x45, 0x4c, 0x46] ++ List.replicate 24 0 ++ [52, 0, 0, 0] ++ List.replicate 12 0 ++ [1] ++
    List.replicate 7 0 ++ [1, 0, 0, 0, 84] ++ List.replicate 11 0 ++ [3, 0, 0, 0, 5] ++ List.replicate 11 0 ++ [7, 8, 9]
  ⟨tFile, 0, 0, 1, 87, fun x => file.getD x 0⟩

def oneTask : Tasks :=
  ⟨{ Kernel.start (onePage [] []).mem [] with
      vm := onePage samplePool [], ptable := Procs.bootTable, kstack := Function.update (fun _ => none) 0 (some 0x114000),
      pgdir := Function.update (fun _ => none) 0 (some 0x111000) }, fun _ => [], fun _ => 0, fun _ => 0⟩

theorem oneTask_owns : @Owns sampleLayout oneTask.kernel.vm 0x111000 [] {p | p ∈ sampleFrames ++ samplePool} :=
  (onePage_spec samplePool_apart samplePool_pages []).1

theorem oneTask_states (i : Slot) : oneTask.kernel.ptable.states i = if i = 0 then .runnable else .unused := by
  by_cases hi : i = 0
  · simp [oneTask, Procs.Ptable.states, Procs.bootTable, hi]
  · simp [oneTask, Procs.Ptable.states, Procs.bootTable, Procs.bssProc, hi]

theorem oneTask_ok : @Kernel.Ok sampleLayout {p | p ∈ 0x114000 :: (sampleFrames ++ samplePool)} oneTask.kernel := by
  let _ := sampleLayout
  have hpg : ∀ p ∈ 0x114000 :: (sampleFrames ++ samplePool), Pg p := by
    intro p hp
    rcases List.mem_cons.mp hp with rfl | hp
    · exact Pg.mk (by decide) (by decide) (by decide)
    · rcases List.mem_append.mp hp with hp | hp
      · exact sampleFrames_pg p hp
      · exact samplePool_pages p hp
  have hnd : (0x114000 :: (sampleFrames ++ samplePool)).Nodup := by
    rw [List.nodup_cons]
    refine ⟨fun hp => ?_, samplePool_apart⟩
    rcases List.mem_append.mp hp with hp | hp
    · exact absurd hp (by decide)
    · obtain ⟨i, -, hi⟩ := List.mem_map.mp hp
      omega
  have hstart : (Kernel.start (onePage [] []).mem (0x114000 :: (sampleFrames ++ samplePool))).Ok _ := start_ok hnd hpg
  have hkstack := hstart.sound.gain (gains_kstack _ 0x114000 (i := 0) rfl) (b := []) rfl
  have haround : around ⟨(onePage [] []).mem, sampleFrames ++ samplePool, []⟩
      { (Kernel.start (onePage [] []).mem (0x114000 :: (sampleFrames ++ samplePool))).frames with
        kstack := Function.update (Kernel.start (onePage [] []).mem (0x114000 :: (sampleFrames ++ samplePool))).frames.kstack 0
          (some 0x114000) } (.proc 0) =
      {p | p ∈ sampleFrames ++ samplePool} := by
    ext p
    simp [around, Partition.region, Held, start_dir]
  have hown := oneTask_owns
  rw [← haround] at hown
  have hput := hkstack.put hown ⟨fun _ _ _ _ _ _ => rfl, fun _ => rfl⟩
  refine ⟨hput.congr (Frames.ext rfl (funext fun o => ?_) rfl), fun i hi => ?_, fun i hi => ?_,
    fun i => (by decide : 0 < kernbase)⟩
  · cases o with
    | kernel => rfl
    | image => rfl
    | proc i =>
      have hdir : oneTask.kernel.frames.dir (.proc i) = if oneTask.kernel.ptable.states i =
        .unused then none else oneTask.kernel.pgdir i := rfl
      rw [hdir, oneTask_states]
      by_cases hi : i = 0
      · simp [hi, oneTask]
      · simp [hi, start_dir]
  · have hne : i ≠ 0 := by
      rintro rfl
      simp [oneTask_states] at hi
    simp [oneTask, hne]
  · have h0 : i = 0 := by
      by_contra hne
      simp [oneTask_states, hne] at hi
    exact ⟨0x111000, by simp [oneTask, h0]⟩

theorem oneTask_free : oneTask.kernel.vm.freelist = samplePool := onePage_free samplePool []

theorem oneTask_enough : ¬ Small (npdentries + 5) {p | p ∈ oneTask.kernel.vm.freelist} := by
  rw [oneTask_free]
  exact fun h => samplePool_large (h.mono (by decide))

theorem program_header : (fileSource program .elf 0 52).1 = 52 ∧ rd32 (fileSource program .elf 0 52).2 0 = elfMagic ∧
    rd16 (fileSource program .elf 0 52).2 44 = 1 := by
  decide +kernel

theorem program_segment : OneSegment (fileSource program) (rd32 (fileSource program .elf 0 52).2 28) := by
  refine ⟨by decide +kernel, by decide +kernel, by decide +kernel, by decide +kernel, by decide +kernel, fun q _ hq => ?_⟩
  have hone : pagesOf (rd32 (fileSource program (.ph 0) (rd32 (fileSource program .elf 0 52).2 28) 32).2 16) =
    1 := by decide +kernel
  obtain rfl : q = 0 := by omega
  decide +kernel

theorem exec_loads_segment : letI := sampleLayout
    ∃ pd sz s', loadImage (fileSource program) oneTask.kernel.vm = .ok (some (pd, sz), s') ∧
      SameView 0x111000 oneTask.kernel.vm.mem s'.mem ∧ userByte s'.mem pd 2 = 9 ∧ userByte s'.mem pd 4 = 0 := by
  let _ := sampleLayout
  obtain ⟨r, s', hrun, hview, -, hok⟩ := @exec_loads _ 0 _ _ _ _ program oneTask_owns (by decide) (by decide)
  obtain ⟨hread, hmagic, hphnum⟩ := program_header
  obtain ⟨pd, sz, rfl, hpos⟩ := wp_ok (wp_loadImage_one (E := fun _ => True) oneTask_owns.bare_free rfl oneTask_enough hread
    hmagic hphnum program_segment) hrun
  have hbyte : ∀ va < pgsize, userByte s'.mem pd va = programByte program.bytes
    (fileSegments program.bytes) va 0 := fun va hva =>
    (hok pd sz rfl).2.2 va (by unfold pagesOf pgsize at *; omega)
  refine ⟨pd, sz, s', hrun, hview, (hbyte 2 (by decide)).trans ?_, (hbyte 4 (by decide)).trans ?_⟩
  all_goals decide +kernel

theorem exec_delivers_two : letI := sampleLayout
    ∃ t' pd p q, execProc 0 [47, 115, 104] (some (fileSource program)) [[115, 104], [120]] oneTask = .ok (true, t') ∧
      t'.kernel.pgdir 0 = some pd ∧ Delivered t'.kernel.vm.mem pd (t'.kernel.sz 0) (t'.esp 0) [[115, 104], [120]] [p, q] := by
  let _ := sampleLayout
  obtain ⟨hread, hmagic, hphnum⟩ := program_header
  have hwp : wp (execProc 0 [47, 115, 104] (some (fileSource program)) [[115, 104], [120]]) oneTask (fun r _ => r = true)
    fun _ => False := by
    apply wp_execProc oneTask_ok (by rw [oneTask_states]; decide)
    · exact fun hnone => absurd hnone (by simp [oneTask])
    · refine wp_mono (wp_loadImage_one oneTask_owns.bare_free rfl oneTask_enough hread hmagic hphnum program_segment) ?_
      rintro _ _ ⟨_, _, rfl, -⟩
      exact nofun
    · intro pd sz s hready hlt hproper
      exact wp_mono (wp_pushFrame_fits hproper hready hlt (by decide) (by decide)) fun _ _ hsome hnone => absurd hnone hsome
    · exact fun _ _ _ _ _ => rfl
  obtain ⟨r, t', hrun, rfl⟩ := exists_of_wp hwp
  obtain ⟨pd, ptrs, hpd, hdel⟩ := exec_delivers oneTask_ok (by rw [oneTask_states]; decide) (by decide) hrun
  obtain ⟨p, q, rfl⟩ := List.length_eq_two.mp hdel.length
  exact ⟨t', pd, p, q, hrun, hpd, hdel⟩

end Laboratorio.Vm
