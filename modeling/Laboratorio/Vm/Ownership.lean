import Laboratorio.Procs.Exit
import Laboratorio.Vm.Frames
import Laboratorio.Vm.Kernel

namespace Laboratorio.Vm

open Bytes Runs
open Procs (Slot Ptable)

/-- The page directory that a slot has left over from a reaped process counts for nothing. -/
def Kernel.frames (k : Kernel) : Frames where
  kstack := k.kstack
  dir
    | .kernel => k.kpgdir
    | .proc i => if k.ptable.states i = .unused then none else k.pgdir i
    | .image => none
  pipe p := (k.pipes p).isSome

theorem wp_switchuvm {k : Kernel} {E : Fault → Prop} {cur : Slot} {Q : Unit → Kernel → Prop}
    (hE : k.kstack cur = none ∨ k.pgdir cur = none → E .switchuvm) (hok : Q () k) : wp (switchuvm cur) k Q E := by
  unfold switchuvm
  simp only [wp_bind, wp_get, wp_ite, wp_throw, wp_pure]
  exact ⟨hE, fun _ => hok⟩

variable [Layout]

structure Kernel.Ok (pool : Set ℕ) (k : Kernel) : Prop where
  sound : Sound pool k.vm k.frames
  idle : ∀ i, k.ptable.states i = .unused → k.kstack i = none
  live : ∀ i, k.ptable.states i ≠ .unused → ∃ pd, k.pgdir i = some pd
  small : ∀ i, k.sz i < kernbase

variable {pool : Set ℕ} {k : Kernel} {E : Fault → Prop} {cur : Slot} (h : k.Ok pool)

include h

theorem Kernel.Ok.table {t : Ptable} (ht : ∀ i, t.states i = .unused ↔ k.ptable.states i = .unused) :
    Kernel.Ok pool { k with ptable := t } := by
  have hf : Kernel.frames { k with ptable := t } = k.frames := by
    unfold Kernel.frames
    simp only [ht]
  refine ⟨?_, fun i hi => h.idle i ((ht i).mp hi), fun i hi => h.live i (fun hu => hi ((ht i).mpr hu)), h.small⟩
  rw [hf]
  exact h.sound

theorem Kernel.Ok.stale {i : Slot} (hi : k.ptable.states i = .unused) (pd : Option ℕ) : (k.setPgdir i pd).Ok pool := by
  have hf : (k.setPgdir i pd).frames = k.frames := by
    refine Frames.ext rfl (funext fun o => ?_) rfl
    cases o with
    | kernel => rfl
    | image => rfl
    | proc j =>
      by_cases hj : j = i
      · simp [Kernel.frames, Kernel.setPgdir, hj, hi]
      · simp [Kernel.frames, Kernel.setPgdir, hj]
  refine ⟨?_, h.idle, fun j hj => ?_, h.small⟩
  · rw [hf]
    exact h.sound
  · have hji : j ≠ i := by
      rintro rfl
      exact hj hi
    simpa [Kernel.setPgdir, hji] using h.live j hj

theorem wp_allocproc {Q : Option Slot → Kernel → Prop}
    (hnone : ∀ k', k'.Ok pool → (Procs.allocproc k.ptable = none ∨ (k.vm.denied = [] → k.vm.freelist = [])) → Q none k')
    (hsome : ∀ np t p next, Procs.allocproc k.ptable = some (np, t) → k.vm.freelist = p :: next →
      Sound pool { k.vm with freelist := next, denied := k.vm.denied.tail }
        { k.frames with kstack := Function.update k.kstack np (some p) } →
      Q (some np) { k with
        vm := { k.vm with freelist := next, denied := k.vm.denied.tail }
        ptable := t
        kstack := Function.update k.kstack np (some p) }) :
    wp allocproc k Q E := by
  unfold allocproc onVm
  simp only [wp_bind, wp_get]
  split
  · next ha => exact wp_ret (hnone k h (Or.inl ha))
  next np t ha =>
  obtain ⟨hun, hst⟩ := Procs.allocproc_states ha
  simp only [wp_bind, wp_set, wp_within]
  apply wp_kalloc
  · intro hst'
    simp only [wp_bind, wp_modify, wp_pure]
    refine hnone _ ?_ (Or.inr hst')
    have hk : Function.update k.kstack np none = k.kstack := by
      rw [← h.idle np hun, Function.update_eq_self]
    have hd : Kernel.Ok pool { k with vm := { k.vm with denied := k.vm.denied.tail } } :=
      ⟨h.sound.setDenied _, h.idle, h.live, h.small⟩
    simp only [Kernel.setKstack, Kernel.setState, hk]
    apply hd.table
    intro i
    rw [Ptable.states_setState, hst, Function.update_idem]
    by_cases hi : i = np
    · simp [hi, hun]
    · simp [hi]
  · intro p next hf
    simp only [wp_bind, wp_modify, wp_pure]
    exact hsome np t p next ha hf (h.sound.gain (gains_kstack k.frames p (h.idle np hun)) hf)

theorem wp_fork (hcur : k.ptable.states cur ≠ .unused)
    (hE : ∀ pd v, k.pgdir cur = some pd → v < pagesOf (k.sz cur) → present (pte k.vm.mem pd v) = false →
      E .copyuvmPte ∧ E .copyuvmPage) : wp (fork cur) k (fun _ k' => k'.Ok pool) E := by
  obtain ⟨pd, hpd⟩ := h.live cur hcur
  unfold fork
  rw [wp_bind]
  apply wp_allocproc h
  · intro k' hk' _
    exact wp_ret hk'
  intro np t p next ha hf hs1
  obtain ⟨hun, hst⟩ := Procs.allocproc_states ha
  have hne : np ≠ cur := by
    rintro rfl
    exact hcur hun
  have hcurdir : k.frames.dir (.proc cur) = some pd := by
    simp [Kernel.frames, hcur, hpd]
  have hnpdir : k.frames.dir (.proc np) = none := by
    simp [Kernel.frames, hun]
  have hfar : ∀ q r, Held k.vm.mem { k.frames with kstack := Function.update k.kstack np (some p) } q
      (.space (.proc cur) r) → q ∉ around { k.vm with freelist := next, denied := k.vm.denied.tail }
        { k.frames with kstack := Function.update k.kstack np (some p) } (.proc np) := by
    intro q r hq
    exact hs1.notMem_around hq (by simp [hne.symm])
  unfold onVm
  simp only [wp_bind, wp_get, hpd, wp_within]
  apply wp_copyuvm (hs1.bare hnpdir) (hs1.outside hcurdir hfar) _ (h.small cur).le
  · exact fun v => hE pd v hpd
  · intro s' hbare hch _
    simp only [Function.update_self, wp_bind, wp_within, wp_modify, wp_pure]
    have hs2 := hs1.still hnpdir hbare hch
    have hgains := gains_kstack k.frames p (h.idle np hun)
    apply wp_kfree (hs2.held (x := .kstack np) (by simp [Held]))
    have hs3 := hs2.lose hgains (by simp)
    have hk : Function.update (Function.update k.kstack np (some p)) np none = k.kstack := by
      rw [Function.update_idem, ← h.idle np hun, Function.update_eq_self]
    have hok3 : Kernel.Ok pool { k with
        vm := { s' with mem := memset s'.mem p 1 pgsize, freelist := p :: s'.freelist } } :=
      ⟨hs3, h.idle, h.live, h.small⟩
    simp only [Kernel.setKstack, Kernel.setState, Kernel.setPgdir, hk]
    apply (hok3.stale hun none).table
    intro i
    rw [Ptable.states_setState, hst, Function.update_idem]
    by_cases hi : i = np
    · simp [hi, hun, Kernel.setPgdir]
    · simp [hi, Kernel.setPgdir]
  · intro d s' _ hown _ hch _ _
    simp only [wp_bind, wp_modify, wp_pure, Kernel.setPgdir, Kernel.setSz]
    have hstates : ((t.setParent np (some cur)).setState np .runnable).states =
        Function.update k.ptable.states np .runnable := by
      rw [Ptable.states_setState, Ptable.states_setParent, hst, Function.update_idem]
    have hs2 := hs1.put hown (hch.mono (fun q hq => Or.inr (Or.inl hq)))
    refine ⟨?_, fun i hi => ?_, fun i hi => ?_, fun i => ?_⟩
    · refine hs2.congr (Frames.ext rfl (funext fun o => ?_) rfl)
      cases o with
      | kernel => rfl
      | image => rfl
      | proc i =>
        by_cases hi : i = np
        · simp [Kernel.frames, hstates, hi]
        · simp [Kernel.frames, hstates, hi]
    · have hinp : i ≠ np := by
        rintro rfl
        simp [hstates] at hi
      simp only [hstates, Function.update_of_ne hinp] at hi
      simpa [hinp] using h.idle i hi
    · by_cases hinp : i = np
      · exact ⟨d, by simp [hinp]⟩
      · simp only [hstates, Function.update_of_ne hinp] at hi
        simpa [hinp] using h.live i hi
    · by_cases hinp : i = np
      · simpa [hinp] using h.small cur
      · simpa [hinp] using h.small i
  · intro v hv hp
    have hvu := hv.trans_le (pagesOf_le_userPages (h.small cur).le)
    exact hfar _ (.user v) ⟨pd, hcurdir, hvu, hp, rfl⟩

theorem Kernel.Ok.space {o : Owner} {pd : ℕ} (hd : k.frames.dir o = some pd) {s' : Kmem}
    (hown : Owns s' pd [] (around k.vm k.frames o)) (hc : Changes (around k.vm k.frames o) k.vm s') :
    Kernel.Ok pool { k with vm := s' } := ⟨h.sound.keep hd hown hc, h.idle, h.live, h.small⟩

theorem Kernel.Ok.setSz {i : Slot} {n : ℕ} (hn : n < kernbase) : (k.setSz i n).Ok pool := by
  refine ⟨h.sound, h.idle, h.live, fun j => ?_⟩
  by_cases hj : j = i
  · simpa [Kernel.setSz, hj] using hn
  · simpa [Kernel.setSz, hj] using h.small j

theorem wp_growproc {n : Int32} (hcur : k.ptable.states cur ≠ .unused) (hE : ∀ e, E e) :
    wp (growproc cur n) k (fun _ k' => k'.Ok pool) E := by
  obtain ⟨pd, hpd⟩ := h.live cur hcur
  have hdir : k.frames.dir (.proc cur) = some pd := by
    simp [Kernel.frames, hcur, hpd]
  have hown := h.sound.owns hdir
  have hend : ∀ sz (k' : Kernel), k'.Ok pool → sz < kernbase →
      wp (if n ≠ 0 ∧ sz = 0 then return false
        else do
          modify fun k => k.setSz cur sz
          switchuvm cur
          return true : KernelM Bool) k' (fun _ k' => k'.Ok pool) E := by
    intro sz k' hk' hsz
    simp only [wp_ite, wp_bind, wp_modify, wp_pure]
    exact ⟨fun _ => hk', fun _ => wp_switchuvm (fun _ => hE _) (hk'.setSz hsz)⟩
  unfold growproc onVm
  simp only [wp_bind, wp_get, hpd, wp_ite, wp_within, wp_pure]
  simp only [wp_bind, wp_ite, wp_pure] at hend
  refine ⟨fun _ => ?_, fun _ => ⟨fun _ => ?_, fun _ => hend _ k h (h.small cur)⟩⟩
  · apply wp_allocuvm hown (h.small cur).le
    · intro _ _ _ _ _
      exact hE _
    · intro _
      exact hend 0 _ h (by decide)
    · intro _
      exact hend _ _ h (h.small cur)
    · intro s' hown' halt _ _
      exact hend 0 _ (h.space hdir hown' (halt.changes.mono hown.reach_subset)) (by decide)
    · intro s' _ hlt hown' hmaps _
      exact hend _ _ (h.space hdir hown' (hmaps.changes.mono hown.core_subset)) hlt
  · apply wp_deallocuvm hown (h.small cur).le
    intro s' hown' halt _
    apply hend _ _ (h.space hdir hown' (halt.changes.mono hown.reach_subset))
    have hsz := h.small cur
    split_ifs <;> omega

theorem wp_exec {src : Option Source} {argv : List (List UInt8)} (hcur : k.ptable.states cur ≠ .unused)
    (hE : ∀ e, E e) : wp (exec cur src argv) k (fun _ k' => k'.Ok pool) E := by
  obtain ⟨old, hold⟩ := h.live cur hcur
  cases src with
  | none => exact wp_ret h
  | some src =>
    have himage : k.frames.dir .image = none := rfl
    unfold exec onVm
    simp only [wp_bind, wp_within]
    apply wp_execImage (h.sound.bare himage) (hE _)
    · intro s' hbare hch
      exact wp_ret ⟨h.sound.still himage hbare hch, h.idle, h.live, h.small⟩
    intro d sz s1 hsz hown hch _
    simp only [wp_bind, wp_get, wp_modify, wp_within, hold]
    apply wp_switchuvm fun _ => hE _
    -- the new image and the old one change hands, and then the old one goes
    have hs1 := (h.sound.put hown hch).rename (Equiv.swap (.proc cur) .image)
    have hdir : (Function.update k.frames.dir .image (some d) ∘ Equiv.swap (Owner.proc cur) .image) .image =
        some old := by
      simp [Kernel.frames, hcur, hold]
    apply wp_freevm (hs1.owns (o := .image) hdir)
    intro s2 hbare hch2
    apply wp_ret
    have hs2 := hs1.drop hbare hch2
    refine ⟨?_, h.idle, fun i hi => ?_, fun i => ?_⟩
    · refine hs2.congr (Frames.ext rfl (funext fun o => ?_) rfl)
      cases o with
      | kernel => simp [Kernel.frames, Kernel.setPgdir, Kernel.setSz, Equiv.swap_apply_of_ne_of_ne]
      | image => simp [Kernel.frames]
      | proc i =>
        by_cases hi : i = cur
        · simp [Kernel.frames, Kernel.setPgdir, Kernel.setSz, hi, hcur]
        · simp [Kernel.frames, Kernel.setPgdir, Kernel.setSz, hi, Equiv.swap_apply_of_ne_of_ne]
    · by_cases hic : i = cur
      · exact ⟨d, by simp [Kernel.setPgdir, Kernel.setSz, hic]⟩
      · simpa [Kernel.setPgdir, Kernel.setSz, hic] using h.live i hi
    · by_cases hic : i = cur
      · simpa [Kernel.setPgdir, Kernel.setSz, hic] using hsz
      · simpa [Kernel.setPgdir, Kernel.setSz, hic] using h.small i

section

variable (hcur : k.ptable.states cur ≠ .unused) (hE : ∀ e, E e)

include hcur hE

theorem wp_exit : wp (exit cur) k (fun _ k' => k'.Ok pool) E := by
  unfold exit
  simp only [wp_bind, wp_get, wp_ite, wp_throw, wp_set]
  refine ⟨fun _ => hE _, fun _ => h.table (fun i => ?_)⟩
  have hexit := Procs.exit_exited k.ptable cur k.initproc
  by_cases hi : i = cur
  · rw [hi, hexit.zombie]
    simp [hcur]
  · exact (hexit.state i hi).eq_iff (by simp) (by simp)

theorem wp_wait : wp (wait cur) k (fun _ k' => k'.Ok pool) E := by
  unfold wait onVm
  simp only [wp_bind, wp_get]
  split
  · exact wp_ret h
  · simp only [wp_set]
    apply h.table
    intro i
    rw [Procs.waitSleep, Ptable.states_setState, Ptable.states_setChan]
    by_cases hi : i = cur
    · simp [hi, hcur]
    · simp [hi]
  next p pid t hw =>
  obtain ⟨_, hz, _, hst, _⟩ := Procs.wait_reaped hw
  have hlive : k.ptable.states p ≠ .unused := by
    rw [hz]
    simp
  obtain ⟨pd, hpd⟩ := h.live p hlive
  cases hpage : k.kstack p with
  | none =>
    simp only [wp_bind, wp_throw]
    exact hE _
  | some page =>
    have hheld : Held k.vm.mem k.frames page (.kstack p) := hpage
    simp only [wp_bind, wp_modify, wp_within]
    apply wp_kfree (h.sound.held hheld)
    have hgains : Frames.Gains { k.frames with kstack := Function.update k.kstack p none } k.frames page (.kstack p) := by
      convert gains_kstack { k.frames with kstack := Function.update k.kstack p none } page (i := p) (by simp) using 1
      rw [Function.update_idem, ← hpage, Function.update_eq_self]
      rfl
    have hs1 := h.sound.lose hgains (by simp)
    have hdir : k.frames.dir (.proc p) = some pd := by
      simp [Kernel.frames, hlive, hpd]
    rw [hpd]
    apply wp_freevm (hs1.owns (o := .proc p) hdir)
    intro s2 hbare hch
    have hs2 := hs1.drop hbare hch
    refine ⟨?_, fun i hi => ?_, fun i hi => ?_, h.small⟩
    · refine hs2.congr (Frames.ext rfl (funext fun o => ?_) rfl)
      cases o with
      | kernel => simp [Kernel.frames, Kernel.setKstack]
      | image => simp [Kernel.frames]
      | proc i =>
        by_cases hi : i = p
        · simp [Kernel.frames, Kernel.setKstack, hst, hi]
        · simp [Kernel.frames, Kernel.setKstack, hst, hi]
    · by_cases hip : i = p
      · simp [Kernel.setKstack, hip]
      · simp only [hst, Function.update_of_ne hip] at hi
        simpa [Kernel.setKstack, hip] using h.idle i hi
    · have hip : i ≠ p := by
        rintro rfl
        simp [hst] at hi
      simp only [hst, Function.update_of_ne hip] at hi
      exact h.live i hi

end

theorem Kernel.Ok.setPipe {p : ℕ} {q : Pipe} (hp : (k.pipes p).isSome) : (k.setPipe p (some q)).Ok pool := by
  have hf : (k.setPipe p (some q)).frames = k.frames := by
    refine Frames.ext rfl rfl (funext fun x => ?_)
    by_cases hx : x = p
    · simp [Kernel.frames, Kernel.setPipe, hx, hp]
    · simp [Kernel.frames, Kernel.setPipe, hx]
  refine ⟨?_, h.idle, h.live, h.small⟩
  rw [hf]
  exact h.sound

theorem wp_pipealloc {filesOk : Bool} {Q : Option ℕ → Kernel → Prop} (hnone : ∀ k', k'.Ok pool → Q none k')
    (hsome : ∀ p k', k'.Ok pool → (k'.pipes p).isSome → Q (some p) k') : wp (pipealloc filesOk) k Q E := by
  unfold pipealloc onVm
  simp only [wp_ite, wp_bind, wp_pure, wp_within]
  refine ⟨fun _ => hnone k h, fun _ => ?_⟩
  apply wp_kalloc
  · intro _
    exact wp_ret (hnone _ ⟨h.sound.setDenied _, h.idle, h.live, h.small⟩)
  intro p next hf
  have hfree : ¬ k.frames.pipe p := by
    intro hp
    exact (h.sound.part.apart p (.pipe p) ⟨rfl, hp⟩).2 (by simp [hf])
  simp only [wp_bind, wp_modify, wp_pure]
  have hs1 := h.sound.gain (gains_pipe k.frames p hfree) (b := k.vm.denied.tail) hf
  refine hsome p _ ⟨?_, h.idle, h.live, h.small⟩ (by simp [Kernel.setPipe])
  refine hs1.congr (Frames.ext rfl rfl (funext fun x => ?_))
  by_cases hx : x = p
  · simp [Kernel.frames, Kernel.setPipe, hx]
  · simp [Kernel.frames, Kernel.setPipe, hx]

theorem wp_pipeclose {p : ℕ} {writable : Bool} {Q : Unit → Kernel → Prop} (hE : ∀ e, E e)
    (hok : ∀ k', k'.Ok pool → Q () k') : wp (pipeclose p writable) k Q E := by
  unfold pipeclose onVm
  simp only [wp_bind, wp_get]
  split
  · exact (wp_throw _).mpr (hE _)
  next q hq =>
  have hsome : (k.pipes p).isSome := by simp [hq]
  simp only [wp_ite, wp_bind, wp_modify, wp_within]
  refine ⟨fun _ => ?_, fun _ => hok _ (h.setPipe hsome)⟩
  have hheld : Held k.vm.mem k.frames p (.pipe p) := ⟨rfl, hsome⟩
  apply wp_kfree (h.sound.held hheld)
  have hgains : Frames.Gains { k.frames with pipe := fun x => x ≠ p ∧ k.frames.pipe x } k.frames p (.pipe p) := by
    convert gains_pipe { k.frames with pipe := fun x => x ≠ p ∧ k.frames.pipe x } p (by simp) using 1
    refine Frames.ext rfl rfl (funext fun x => ?_)
    by_cases hx : x = p
    · simp [Kernel.frames, hx, hsome]
    · simp [hx]
  have hs1 := h.sound.lose hgains (by simp)
  refine hok _ ⟨?_, h.idle, h.live, h.small⟩
  refine hs1.congr (Frames.ext rfl rfl (funext fun x => ?_))
  by_cases hx : x = p
  · simp [Kernel.frames, Kernel.setPipe, hx]
  · simp [Kernel.frames, Kernel.setPipe, hx]

theorem wp_runCall {c : Call} (hc : k.allows c) (hE : ∀ e, E e) : wp (runCall c) k (fun _ k' => k'.Ok pool) E := by
  have hrun : ∀ i, (k.ptable.proc i).canRun → k.ptable.states i ≠ .unused := by
    intro i hi hu
    have hs : (k.ptable.proc i).state = .unused := hu
    simp [Procs.Proc.canRun, hs] at hi
  cases c with
  | fork cur =>
    simp only [runCall, wp_bind, wp_pure]
    exact wp_fork h (hrun cur hc) (fun _ _ _ _ _ => ⟨hE _, hE _⟩)
  | exec cur src argv =>
    simp only [runCall, wp_bind, wp_pure]
    exact wp_exec h (hrun cur hc) hE
  | sbrk cur n =>
    simp only [runCall, wp_bind, wp_pure]
    exact wp_growproc h (hrun cur hc) hE
  | exit cur => exact wp_exit h (hrun cur hc) hE
  | wait cur => exact wp_wait h (hrun cur hc) hE
  | pipe filesOk fdsOk =>
    simp only [runCall, sysPipe, wp_bind, wp_pure]
    apply wp_pipealloc h
    · intro k' hk'
      exact wp_ret hk'
    · intro p k' hk' _
      simp only [wp_ite, wp_bind, wp_pure]
      refine ⟨fun _ => hk', fun _ => ?_⟩
      apply wp_pipeclose hk' hE
      intro k'' hk''
      exact wp_pipeclose hk'' hE (fun _ hk => hk)
  | pipeclose p writable => exact wp_pipeclose h hE (fun _ hk => hk)

theorem Kernel.Ok.step {c : Call} {k' : Kernel} (hs : k.step c = some k') : k'.Ok pool := by
  unfold Kernel.step at hs
  split_ifs at hs with hc
  split at hs
  · next a k'' hr =>
    obtain rfl : k'' = k' := by simpa using hs
    have hok := wp_ok (wp_runCall h hc (fun _ => trivial)) hr
    exact hok
  · simp at hs

end Laboratorio.Vm
