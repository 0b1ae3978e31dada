import Laboratorio.Uthread.Switch

/-!
Every thread but the current one keeps on its stack the frame that `popa` and `ret` take when it is selected.
-/

namespace Laboratorio.Uthread

open Function Runs Bytes

variable {area : ℕ × ℕ} {m : Bytes} {sp : ℕ} {k : Saved} {c : Cpu}

def Frame (area : ℕ × ℕ) (m : Bytes) (sp : ℕ) : Saved → Prop
  | .start func => sp + 36 = area.2 ∧ rd32 m (sp + 32) = func.toNat
  | .paused c =>
    sp + 36 = c.esp ∧ (∀ r, rd32 m (sp + offset r) = (c.reg r).toNat) ∧ rd32 m (sp + 32) = c.eip.toNat ∧ ∀ x, c.esp ≤ x →
      x < area.2 → m x = c.mem x

structure Kept (area : ℕ × ℕ) (m : Bytes) (sp : ℕ) (k : Saved) : Prop where
  low : area.1 ≤ sp
  high : sp + 36 ≤ area.2
  frame : Frame area m sp k

def Resumed (area : ℕ × ℕ) (c' : Cpu) : Saved → Prop
  | .start func => c'.eip = func ∧ c'.esp = area.2
  | .paused c => c'.reg = c.reg ∧ c'.esp = c.esp ∧ c'.eip = c.eip ∧ ∀ x, c.esp ≤ x → x < area.2 → c'.mem x = c.mem x

theorem offset_le (r : Reg) : offset r ≤ 28 := by
  cases r <;> decide

theorem Kept.congr {m' : Bytes} (h : Kept area m sp k) (hm : ∀ x, area.1 ≤ x → x < area.2 → m' x = m x) :
    Kept area m' sp k := by
  obtain ⟨hlow, hhigh, hframe⟩ := h
  have hword : ∀ o, o ≤ 32 → rd32 m' (sp + o) = rd32 m (sp + o) := by
    intro o ho
    apply rd_congr
    intro x h1 h2
    apply hm <;> omega
  refine ⟨hlow, hhigh, ?_⟩
  cases k with
  | start func => exact ⟨hframe.1, by rw [hword 32 (by omega), hframe.2]⟩
  | paused c =>
    obtain ⟨hesp, hreg, heip, hstack⟩ := hframe
    refine ⟨hesp, fun r => ?_, by rw [hword 32 (by omega), heip], fun x h1 h2 => ?_⟩
    · have hr := offset_le r
      rw [hword _ (by omega), hreg]
    · rw [hm x (by omega) h2, hstack x h1 h2]

theorem Kept.resumed (h : Kept area c.mem c.esp k) (ha : area.2 < 2 ^ 32) : Resumed area c.popa.ret k := by
  obtain ⟨-, hhigh, hframe⟩ := h
  rw [Cpu.popa_ret (by omega)]
  cases k with
  | start func => exact ⟨by simp [hframe.2], hframe.1⟩
  | paused c' =>
    obtain ⟨hesp, hreg, heip, hstack⟩ := hframe
    refine ⟨?_, hesp, by simp [heip], hstack⟩
    simp [hreg]

theorem kept_pusha (hlow : area.1 + 36 ≤ c.esp) (hhigh : c.esp ≤ area.2) (ha : area.2 < 2 ^ 32) :
    Kept area (c.push c.eip.toNat).pusha.mem (c.push c.eip.toNat).pusha.esp (.paused c) ∧
      ∀ x, x < area.1 ∨ area.2 ≤ x → (c.push c.eip.toNat).pusha.mem x = c.mem x := by
  obtain ⟨a, hesp⟩ : ∃ a, c.esp = a + 36 := ⟨c.esp - 36, by omega⟩
  rw [Cpu.push_eq hesp (by omega)]
  obtain ⟨hsp, hreg, hmem⟩ := Cpu.pusha_spec
    (c := { c with esp := a + 32, mem := wr32 c.mem (a + 32) c.eip.toNat }) rfl (by omega)
  generalize Cpu.pusha _ = d at *
  have hold : ∀ x, x < a ∨ a + 36 ≤ x → d.mem x = c.mem x := by
    intro x hx
    rw [hmem x (by omega)]
    show wr32 c.mem (a + 32) c.eip.toNat x = c.mem x
    apply store_of_notMem
    omega
  have heip : rd32 d.mem (a + 32) = c.eip.toNat := by
    refine Eq.trans ?_ (rd_wr (n := 4) c.mem (a + 32) c.eip.toNat_lt)
    apply rd_congr
    intro x h1 h2
    apply hmem
    omega
  rw [hsp]
  exact ⟨⟨by omega, by omega, hesp.symm, hreg, heip, fun x h1 h2 => hold x (by omega)⟩, fun x hx => hold x (by omega)⟩

namespace Threads

variable {s : Threads}

theorem threadSchedule_other {r : Fin maxThread} (hr : r ≠ s.threadSchedule.current) :
    s.threadSchedule.state r = s.state r := by
  obtain ⟨q, -, hs⟩ | ⟨-, hs⟩ := s.threadSchedule_selects
  · rw [hs] at hr ⊢
    exact update_of_ne hr _ _
  · rw [hs] at hr ⊢
    exact update_of_ne hr _ _

theorem threadSchedule_current (s : Threads) : s.state s.threadSchedule.current = .runnable ∨
    s.threadSchedule.current = main := by
  obtain ⟨q, hscan, hs⟩ | ⟨-, hs⟩ := s.threadSchedule_selects
  · rw [hs]
    exact .inl (scan_eq_some hscan).1
  · rw [hs]
    exact .inr rfl

def busy (s : Threads) : Finset (Fin maxThread) := Finset.univ.filter fun q => q ≠ main ∧ s.state q ≠ .free

theorem busy_schedule {v : Status} (h : s.state s.current = .running) : (s.mark v).threadSchedule.busy ⊆ s.busy := by
  intro r hr
  obtain ⟨-, hmain, hbusy⟩ := Finset.mem_filter.mp hr
  refine Finset.mem_filter.mpr ⟨Finset.mem_univ r, hmain, fun hfree => hbusy ?_⟩
  have hcur : r ≠ s.current := by
    rintro rfl
    simp [h] at hfree
  have hnext : r ≠ (s.mark v).threadSchedule.current := by
    rintro rfl
    obtain hrun | hm := (s.mark v).threadSchedule_current
    · simp [mark_other hcur, hfree] at hrun
    · exact hmain hm
  rw [threadSchedule_other hnext, mark_other hcur, hfree]

theorem busy_create (s : Threads) (t : Fin maxThread) :
    busy { s with state := update s.state t .runnable } ⊆ insert t s.busy := by
  intro r hr
  obtain ⟨-, hmain, hbusy⟩ := Finset.mem_filter.mp hr
  by_cases hrt : r = t
  · exact Finset.mem_insert.mpr (.inl hrt)
  · simp only [update_of_ne hrt] at hbusy
    exact Finset.mem_insert_of_mem (Finset.mem_filter.mpr ⟨Finset.mem_univ r, hmain, hbusy⟩)

theorem exists_free (h : s.busy.card < 7) : ∃ t, s.state t = .free := by
  by_contra hno
  have hall : s.busy = Finset.univ.erase main := by
    ext r
    have hr : s.state r ≠ .free := fun he => hno ⟨r, he⟩
    simp [busy, hr]
  rw [hall] at h
  exact absurd h (by decide)

end Threads

section runs

variable [Layout]

def InPlace (area : Fin maxThread → ℕ × ℕ) : Prop := ∀ q, area q = stack q ∨ q = main ∧ area q = Layout.processStack

section place

variable {area : Fin maxThread → ℕ × ℕ} (h : InPlace area)

include h

theorem InPlace.create (t : Fin maxThread) : InPlace (update area t (stack t)) := by
  intro q
  by_cases hq : q = t
  · rw [hq, update_self]
    exact .inl rfl
  · rw [update_of_ne hq]
    exact h q

theorem InPlace.lt (q : Fin maxThread) : (area q).2 < 2 ^ 32 := by
  obtain hq | ⟨-, hq⟩ := h q
  · have hfits := Layout.table_fits
    simp only [hq, stack, thread, threadSize, stackSize, maxThread] at hfits ⊢
    omega
  · rw [hq]
    exact Layout.process_fits

theorem InPlace.apart {q r : Fin maxThread} (hqr : q ≠ r) : (area q).2 ≤ (area r).1 ∨ (area r).2 ≤ (area q).1 := by
  have hapart := Layout.apart
  obtain hq | ⟨hqm, hq⟩ := h q <;> obtain hr | ⟨hrm, hr⟩ := h r
  · simp only [hq, hr, stack, thread, threadSize, stackSize]
    omega
  · simp only [hq, hr, stack, thread, threadSize, stackSize, maxThread] at hapart ⊢
    omega
  · simp only [hq, hr, stack, thread, threadSize, stackSize, maxThread] at hapart ⊢
    omega
  · exact absurd (hqm.trans hrm.symm) hqr

end place

structure Inv (w : World) : Prop where
  place : InPlace w.area
  kept : ∀ q k, q ≠ w.threads.current → w.last q = some k → Kept (w.area q) w.cpu.mem (w.sp q) k
  saved : ∀ q, q ≠ w.threads.current → w.threads.state q = .runnable ∨ q = main → ∃ k, w.last q = some k
  running : w.threads.state w.threads.current = .running
  busy : w.threads.busy.card ≤ w.created

variable {w w' : World}

theorem inv_init (c : Cpu) (sp : Fin maxThread → ℕ) : Inv (.init c sp) where
  place q := by
    by_cases hq : q = main
    · exact .inr ⟨hq, by simp [World.init, hq]⟩
    · exact .inl (by simp [World.init, hq])
  kept _ _ _ hk := absurd hk (by simp [World.init])
  saved q hq hrun := by
    have hstate : Threads.threadInit.state q = .free := by simp [Threads.threadInit, show q ≠ main from hq]
    obtain hrun | hmain := hrun
    · simp [World.init, hstate] at hrun
    · exact absurd hmain hq
  running := rfl
  busy := by
    have hbusy : Threads.threadInit.busy.card = 0 := by decide
    exact hbusy.le

def Continues (w w' : World) : Prop :=
  w'.threads.current ≠ w.threads.current → w'.nextThread = none ∧
    ∃ k, w.last w'.threads.current = some k ∧ Resumed (w.area w'.threads.current) w'.cpu k

namespace Inv

variable (h : Inv w)

include h

theorem within (c : Cpu) {q : Fin maxThread} (hq : q ≠ w.threads.current) (hk : w.last q = some k) :
    Kept (w.area q) (w.cpu.within (w.area w.threads.current) c).mem (w.sp q) k := by
  apply (h.kept q k hq hk).congr
  intro x h1 h2
  have hapart := h.place.apart hq
  apply if_neg
  omega

theorem work (c : Cpu) : Inv { w with cpu := w.cpu.within (w.area w.threads.current) c } :=
  ⟨h.place, fun _ _ hq hk => h.within c hq hk, h.saved, h.running, h.busy⟩

theorem create {t : Fin maxThread} (ht : w.threads.state t = .free) (func : UInt32) :
    Inv ⟨w.threadCreate func t, update w.area t (stack t), update w.last t (some (.start func)), w.created + 1⟩ where
  place := h.place.create t
  kept q k hq hk := by
    have hsize : (stack t).2 = (stack t).1 + 8192 := rfl
    by_cases hqt : q = t
    · subst hqt
      obtain rfl : .start func = k := by simpa using hk
      simp only [Machine.threadCreate, update_self]
      refine ⟨by omega, by omega, by omega, ?_⟩
      exact rd_wr _ _ func.toNat_lt
    · have hapart := (h.place.create t).apart hqt
      rw [update_of_ne hqt, update_self] at hapart
      simp only [Machine.threadCreate, update_of_ne hqt] at hk ⊢
      apply (h.kept q k hq hk).congr
      intro x h1 h2
      apply store_of_notMem
      omega
  saved q hq hrun := by
    by_cases hqt : q = t
    · exact ⟨.start func, by simp [hqt]⟩
    · simp only [Machine.threadCreate, update_of_ne hqt] at hrun ⊢
      exact h.saved q hq hrun
  running := Threads.running_create h.running ht
  busy := by
    apply (Finset.card_le_card (w.threads.busy_create t)).trans
    apply (Finset.card_insert_le _ _).trans
    exact Nat.succ_le_succ h.busy

variable {v : Status}

theorem saved_schedule {q : Fin maxThread} (hq : q ≠ w.threads.current)
    (hrun : (w.threads.mark v).state q = .runnable ∨ q = main) : ∃ k, w.last q = some k := by
  rw [Threads.mark_other hq] at hrun
  exact h.saved q hq hrun

theorem switch {d e : Cpu} {t : Threads} (ht : t.state t.current = .running ∧ t.busy.card ≤ w.created)
    (hother : ∀ q, q ≠ t.current → t.state q = (w.threads.mark v).state q) (he : e.mem = d.mem)
    (hcaller : Kept (w.area w.threads.current) d.mem d.esp (.paused c))
    (hkept : ∀ q k, q ≠ w.threads.current → w.last q = some k → Kept (w.area q) d.mem (w.sp q) k) :
    Inv ⟨⟨e, t, none, update w.sp w.threads.current d.esp⟩, w.area, update w.last w.threads.current (some (.paused c)),
      w.created⟩ where
  place := h.place
  kept q k _ hk := by
    rw [he]
    by_cases hq : q = w.threads.current
    · subst hq
      obtain rfl : .paused c = k := by simpa using hk
      simpa using hcaller
    · simp only [update_of_ne hq] at hk ⊢
      exact hkept q k hq hk
  saved q hq hrun := by
    by_cases hqc : q = w.threads.current
    · exact ⟨.paused c, by simp [hqc]⟩
    · simp only [update_of_ne hqc, hother q hq] at hrun ⊢
      exact h.saved_schedule hqc hrun
  running := ht.1
  busy := ht.2

theorem schedule (hs : w.threadSchedule (w.threads.mark v) c = some w') :
    Inv w' ∧ (w.threads.mark v).threadSchedule = w'.threads ∧ Continues w w' := by
  have hrunning := (w.threads.mark v).running_threadSchedule
  have hbusy := (Finset.card_le_card (Threads.busy_schedule (v := v) h.running)).trans h.busy
  have hother := fun q => Threads.threadSchedule_other (s := w.threads.mark v) (r := q)
  have hnext := (w.threads.mark v).threadSchedule_current
  unfold World.threadSchedule at hs
  generalize (w.threads.mark v).threadSchedule = t at *
  dsimp only at hs
  split at hs
  case isTrue hcur =>
    obtain rfl := Option.some.inj hs
    refine ⟨⟨h.place, fun q k hq hk => h.within c (hcur ▸ hq) hk, fun q hq hrun => ?_, hrunning, hbusy⟩, rfl, absurd hcur⟩
    rw [hother q hq] at hrun
    exact h.saved_schedule (hcur ▸ hq) hrun
  case isFalse hcur =>
    obtain ⟨⟨hlow, hhigh⟩, hs⟩ := Option.ite_none_right_eq_some.mp hs
    obtain ⟨hcaller, hmem⟩ := kept_pusha hlow hhigh (h.place.lt _)
    simp only [Machine.threadSwitch, Option.map_some, Option.some.injEq] at hs
    generalize Cpu.pusha _ = d at hs hcaller hmem
    have hkept : ∀ q k, q ≠ w.threads.current → w.last q = some k → Kept (w.area q) d.mem (w.sp q) k := by
      intro q k hq hk
      apply (h.within c hq hk).congr
      intro x h1 h2
      have hapart := h.place.apart hq
      apply hmem
      omega
    obtain ⟨k, hk⟩ := h.saved_schedule hcur hnext
    have hsaved := hkept _ k hcur hk
    rw [update_of_ne hcur] at hs
    subst hs
    refine ⟨h.switch ⟨hrunning, hbusy⟩ hother rfl hcaller hkept, rfl, fun _ => ⟨rfl, k, hk, ?_⟩⟩
    exact Kept.resumed hsaved (h.place.lt _)

theorem step {a : Act} (hs : w.step a = some w') :
    Inv w' ∧ (∀ call, a.call = some call → w.threads.step call = some w'.threads) ∧ Continues w w' := by
  have hsame : w.threads.mark (w.threads.state w.threads.current) = w.threads := by rw [Threads.mark, update_eq_self]
  cases a with
  | work c =>
    obtain rfl := Option.some.inj hs
    exact ⟨h.work c, by simp [Act.call], absurd rfl⟩
  | create func =>
    obtain ⟨t, ht, rfl⟩ := Option.map_eq_some_iff.mp hs
    refine ⟨h.create (by simpa using List.find?_some ht) func, ?_, absurd rfl⟩
    rintro _ ⟨⟩
    exact Option.map_eq_some_iff.mpr ⟨t, ht, rfl⟩
  | schedule c =>
    rw [World.step, ← hsame] at hs
    obtain ⟨hinv, hthreads, hnext⟩ := h.schedule hs
    refine ⟨hinv, ?_, hnext⟩
    rintro _ ⟨⟩
    rw [← hthreads, hsame]
    rfl
  | yield c | exit c =>
    obtain ⟨hinv, hthreads, hnext⟩ := h.schedule hs
    refine ⟨hinv, ?_, hnext⟩
    rintro _ ⟨⟩
    exact congrArg some hthreads

end Inv

theorem threadSwitch_resumes {sp : Fin maxThread → ℕ} {as : List Act} (hr : run World.step (.init c sp) as = some w) :
    (w.created < 7 → ∀ func, ∃ w', w.step (.create func) = some w') ∧
      ∀ a call t w', a.call = some call → w.threads.step call = some t → t.current ≠ w.threads.current → w.step a = some w' →
        w'.threads.current = t.current ∧ w'.nextThread = none ∧ ∃ k, w.last t.current = some k ∧
          Resumed (w.area t.current) w'.cpu k := by
  have hinv : Inv w := invariant (fun _ _ _ h hs => (h.step hs).1) (inv_init c sp) hr
  constructor
  · intro hcreated func
    obtain ⟨t, ht⟩ := Threads.exists_free (hinv.busy.trans_lt hcreated)
    have hfound : ((List.finRange maxThread).find? fun t => w.threads.state t = .free).isSome := by
      rw [List.find?_isSome]
      exact ⟨t, List.mem_finRange t, by simpa using ht⟩
    obtain ⟨r, hr⟩ := Option.isSome_iff_exists.mp hfound
    exact ⟨_, Option.map_eq_some_iff.mpr ⟨r, hr, rfl⟩⟩
  · intro a call t w' hcall ht hcur hs
    obtain ⟨-, hstep, hnext⟩ := hinv.step hs
    obtain rfl : t = w'.threads := Option.some.inj (ht.symm.trans (hstep call hcall))
    exact ⟨rfl, hnext hcur⟩

end runs

@[reducible] def lowLayout : Layout := ⟨8192, (4096, 8192), by decide, by decide, by decide⟩

def mainCpu : Cpu := ⟨fun _ => 5, 6000, 3, fun _ => 1⟩

def threadCpu (t : Fin maxThread) (v : UInt32) : Cpu := ⟨fun _ => v, (@stack lowLayout t).2 - 100, v, fun _ => 1⟩

def firstYield : List Act := [.create 7, .create 9, .schedule mainCpu, .yield (threadCpu 1 40)]

def yielded : World := (run (@World.step lowLayout) (@World.init lowLayout mainCpu fun _ => 0) firstYield).get rfl

theorem threadSwitch_resumes_yielded :
    run (@World.step lowLayout) (@World.init lowLayout mainCpu fun _ => 0) firstYield = some yielded ∧
    ∃ w', @World.step lowLayout yielded (.yield (threadCpu 2 50)) = some w' ∧ w'.cpu.reg = (fun _ => 40) ∧
      w'.cpu.eip = 40 ∧ w'.cpu.esp = (threadCpu 1 40).esp := by
  obtain ⟨w', hs⟩ : ∃ w', @World.step lowLayout yielded (.yield (threadCpu 2 50)) = some w' := ⟨_, rfl⟩
  obtain ⟨m, hm⟩ : ∃ m, yielded.last 1 = some (.paused { threadCpu 1 40 with mem := m }) := ⟨_, rfl⟩
  obtain ⟨t, ht, hcur⟩ : ∃ t, yielded.threads.step .yield = some t ∧ t.current = 1 := ⟨_, rfl, rfl⟩
  have hne : t.current ≠ yielded.threads.current := by
    rw [hcur]
    decide
  obtain ⟨-, -, k, hk, hresumed⟩ := (@threadSwitch_resumes mainCpu lowLayout yielded (fun _ => 0) firstYield rfl).2 _ .yield t
    w' rfl ht hne hs
  rw [hcur, hm] at hk
  cases hk
  exact ⟨rfl, w', hs, hresumed.1, hresumed.2.2.1, hresumed.2.1⟩

end Laboratorio.Uthread
