import Laboratorio.Procs.Exit
import Laboratorio.Procs.Machine

/-!
The four parts of the invariant of the machine, each over the columns of the table it speaks of:
whose parent is who, which slots a `fork` is filling, who sleeps in `wait`, and who runs where.
-/

namespace Laboratorio.Procs

open Function

def Procstate.live (s : Procstate) : Prop := s = .sleeping ∨ s = .runnable ∨ s = .running

def Procstate.forked (s : Procstate) : Prop := s ≠ .unused ∧ s ≠ .embryo

structure Tree (ip : Slot) (st : Slot → Procstate) (par : Slot → Option Slot) : Prop where
  initLive : (st ip).live
  initParent : par ip = none
  parentLive : ∀ i, (st i).forked → i ≠ ip → ∃ q, par i = some q ∧ (st q).live
  notOwn : ∀ i, par i ≠ some i
  freeParent : ∀ i, st i = .unused → par i = none

namespace Tree

variable {ip : Slot} {st st' : Slot → Procstate} {par par' : Slot → Option Slot}

theorem restate (h : Tree ip st par) (hl : ∀ i, (st i).live → (st' i).live)
    (hf : ∀ i, (st' i).forked → (st i).forked) (hu : ∀ i, st' i = .unused → st i = .unused) : Tree ip st' par := by
  refine ⟨hl ip h.initLive, h.initParent, fun i hi hne => ?_, h.notOwn, fun i hi => h.freeParent i (hu i hi)⟩
  obtain ⟨q, hq, hlq⟩ := h.parentLive i (hf i hi) hne
  exact ⟨q, hq, hl q hlq⟩

theorem woken (h : Tree ip st par) (hw : ∀ i, (st i).wokenTo (st' i)) : Tree ip st' par := by
  apply h.restate <;> intro i <;> have := hw i <;>
    grind [Procstate.wokenTo, Procstate.live, Procstate.forked]

variable {p : Slot}

theorem stayLive (h : Tree ip st par) {x : Procstate} (hp : (st p).live) (hx : x.live) : Tree ip (update st p x) par := by
  apply h.restate <;> intro i <;> grind [Procstate.live, Procstate.forked]

variable {np : Slot}

section

variable (h : Tree ip st par)

include h

theorem alloc (hn : st np = .unused) : Tree ip (update st np .embryo) par := by
  apply h.restate <;> intro i <;> grind [Procstate.live, Procstate.forked]

theorem forkFails (hn : st np = .embryo) (hp : par np = none) : Tree ip (update st np .unused) par := by
  have hl : ∀ i, (st i).live → (update st np .unused i).live := by
    grind [Procstate.live]
  refine ⟨hl ip h.initLive, h.initParent, fun i hi hne => ?_, h.notOwn, fun i hi => ?_⟩
  · obtain ⟨q, hq, hlq⟩ := h.parentLive i (by grind [Procstate.forked]) hne
    exact ⟨q, hq, hl q hlq⟩
  · by_cases hi' : i = np
    · rw [hi', hp]
    · exact h.freeParent i (by simpa [hi'] using hi)

theorem setParent (hn : st np = .embryo) (hp : p ≠ np) : Tree ip st (update par np (some p)) := by
  have hip : ip ≠ np := by
    rintro rfl
    have := h.initLive
    simp [hn, Procstate.live] at this
  refine ⟨h.initLive, by simpa [hip] using h.initParent, fun i hi hne => ?_, fun i => ?_, fun i hi => ?_⟩
  · have hi' : i ≠ np := by
      rintro rfl
      simp [hn, Procstate.forked] at hi
    simpa [hi'] using h.parentLive i hi hne
  · by_cases hi' : i = np
    · subst hi'; simpa using hp
    · simpa [hi'] using h.notOwn i
  · have hi' : i ≠ np := by
      rintro rfl
      simp [hn] at hi
    simpa [hi'] using h.freeParent i hi

theorem forkRuns (hp : par np = some p) (hl : (st p).live) : Tree ip (update st np .runnable) par := by
  have hlive : ∀ i, (st i).live → (update st np .runnable i).live := by
    grind [Procstate.live]
  refine ⟨hlive ip h.initLive, h.initParent, fun i hi hne => ?_, h.notOwn, fun i hi => ?_⟩
  · by_cases hi' : i = np
    · exact ⟨p, by rw [hi', hp], hlive p hl⟩
    · obtain ⟨q, hq, hlq⟩ := h.parentLive i (by simpa [hi'] using hi) hne
      exact ⟨q, hq, hlive q hlq⟩
  · exact h.freeParent i (by grind)

theorem reap {i : Slot} (hz : st i = .zombie) : Tree ip (update st i .unused) (update par i none) := by
  have hl : ∀ j, (st j).live → (update st i .unused j).live := by
    grind [Procstate.live]
  have hip : ip ≠ i := by
    rintro rfl
    have := h.initLive
    simp [hz, Procstate.live] at this
  refine ⟨hl ip h.initLive, by simpa [hip] using h.initParent, fun j hj hne => ?_, fun j => ?_, fun j hj => ?_⟩
  · have hji : j ≠ i := by
      rintro rfl
      simp [Procstate.forked] at hj
    obtain ⟨q, hq, hlq⟩ := h.parentLive j (by simpa [hji] using hj) hne
    exact ⟨q, by simpa [hji] using hq, hl q hlq⟩
  · by_cases hji : j = i
    · simp [hji]
    · simpa [hji] using h.notOwn j
  · by_cases hji : j = i
    · simp [hji]
    · simpa [hji] using h.freeParent j (by simpa [hji] using hj)

theorem exits {cur : Slot} (hcur : (st cur).live) (hne : cur ≠ ip)
    (hz : st' cur = .zombie) (hs : ∀ i, i ≠ cur → (st i).wokenTo (st' i))
    (hp : ∀ i, par' i = if par i = some cur then some ip else par i) : Tree ip st' par' := by
  have hl : ∀ q, q ≠ cur → (st q).live → (st' q).live := by
    grind [Procstate.wokenTo, Procstate.live]
  have hinit : (st' ip).live := hl ip hne.symm h.initLive
  have hforked : ∀ i, (st' i).forked → (st i).forked := by
    intro i
    by_cases hi : i = cur
    · grind [Procstate.live, Procstate.forked]
    · grind [Procstate.wokenTo, Procstate.forked]
  refine ⟨hinit, by simp [hp, h.initParent], fun i hi hip => ?_, fun i hi => ?_, fun i hi => ?_⟩
  · obtain ⟨q, hq, hlq⟩ := h.parentLive i (hforked i hi) hip
    by_cases hqc : q = cur
    · exact ⟨ip, by simp [hp, hq, hqc], hinit⟩
    · exact ⟨q, by simp [hp, hq, hqc], hl q hqc hlq⟩
  · rw [hp] at hi
    split_ifs at hi with hc
    · obtain rfl : ip = i := Option.some.inj hi
      simp [h.initParent] at hc
    · exact h.notOwn i hi
  · have hu : st i = .unused := by
      grind [Procstate.wokenTo]
    simp [hp, h.freeParent i hu]

end

end Tree

def Loc.child : Loc → Option Slot
  | .forkKstack np | .forkCopy np | .forkRun np => some np
  | _ => none

structure Forks (st : Slot → Procstate) (par : Slot → Option Slot) (loc : Slot → Loc) : Prop where
  embryo : ∀ p np, (loc p).child = some np → st np = .embryo
  one : ∀ p q np, (loc p).child = some np → (loc q).child = some np → p = q
  parent : ∀ p np, (loc p).child = some np → par np = if loc p = .forkRun np then some p else none

namespace Forks

variable {st st' : Slot → Procstate} {par par' : Slot → Option Slot} {loc : Slot → Loc}

theorem restate (h : Forks st par loc) (hs : ∀ i, st i = .embryo → st' i = .embryo) : Forks st' par loc :=
  ⟨fun p np hc => hs np (h.embryo p np hc), h.one, h.parent⟩

variable {p : Slot}

theorem leaves (h : Forks st par loc) {l : Loc} (hl : l.child = none) : Forks st par (update loc p l) := by
  have hback : ∀ q np, (update loc p l q).child = some np → q ≠ p ∧ (loc q).child = some np := by
    intro q np
    by_cases hq : q = p
    · subst hq; simp [hl]
    · simp [hq]
  refine ⟨fun q np hc => h.embryo q np (hback q np hc).2, fun q r np hq hr => ?_, fun q np hc => ?_⟩
  · exact h.one q r np (hback q np hq).2 (hback r np hr).2
  · simpa [(hback q np hc).1] using h.parent q np (hback q np hc).2

variable {np : Slot}

section

variable (h : Forks st par loc)

include h

theorem alloc (hn : st np = .unused) (hp : par np = none) :
    Forks (update st np .embryo) par (update loc p (.forkKstack np)) := by
  have hother : ∀ q mp, q ≠ p → (update loc p (.forkKstack np) q).child = some mp →
      (loc q).child = some mp ∧ mp ≠ np := by
    intro q mp hq hc
    have hc' : (loc q).child = some mp := by simpa [hq] using hc
    refine ⟨hc', ?_⟩
    rintro rfl
    simp [h.embryo q mp hc'] at hn
  have hself : ∀ mp, (update loc p (.forkKstack np) p).child = some mp → mp = np := by
    intro mp hc
    simpa [Loc.child, eq_comm] using hc
  refine ⟨fun q mp hc => ?_, fun q r mp hq hr => ?_, fun q mp hc => ?_⟩
  · by_cases hq : q = p
    · subst hq; simp [hself mp hc]
    · obtain ⟨hc', hne⟩ := hother q mp hq hc
      simpa [hne] using h.embryo q mp hc'
  · by_cases hqp : q = p <;> by_cases hrp : r = p
    · rw [hqp, hrp]
    · subst hqp
      exact absurd (hself mp hq) (hother r mp hrp hr).2
    · subst hrp
      exact absurd (hself mp hr) (hother q mp hqp hq).2
    · exact h.one q r mp (hother q mp hqp hq).1 (hother r mp hrp hr).1
  · by_cases hq : q = p
    · subst hq; simp [hself mp hc, hp]
    · simpa [hq] using h.parent q mp (hother q mp hq hc).1

omit h in
theorem child_update {l l' : Loc} (hl : loc p = l') (hc : l.child = l'.child) (q : Slot) :
    (update loc p l q).child = (loc q).child := by
  by_cases hq : q = p
  · subst hq; simp [hl, hc]
  · simp [hq]

theorem copies (hl : loc p = .forkKstack np) : Forks st par (update loc p (.forkCopy np)) := by
  have hchild := child_update (l := .forkCopy np) hl rfl
  refine ⟨fun q mp hc => h.embryo q mp (hchild q ▸ hc), fun q r mp hq hr => ?_, fun q mp hc => ?_⟩
  · exact h.one q r mp (hchild q ▸ hq) (hchild r ▸ hr)
  · rw [h.parent q mp (hchild q ▸ hc)]
    by_cases hq : q = p
    · subst hq; simp [hl]
    · simp [hq]

theorem setParent (hl : loc p = .forkCopy np) : Forks st (update par np (some p)) (update loc p (.forkRun np)) := by
  have hchild := child_update (l := .forkRun np) hl rfl
  refine ⟨fun q mp hc => h.embryo q mp (hchild q ▸ hc), fun q r mp hq hr => ?_, fun q mp hc => ?_⟩
  · exact h.one q r mp (hchild q ▸ hq) (hchild r ▸ hr)
  have hc' : (loc q).child = some mp := hchild q ▸ hc
  by_cases hq : q = p
  · subst hq
    obtain rfl : np = mp := by simpa [hl, Loc.child] using hc'
    simp
  · have hmp : mp ≠ np := by
      rintro rfl
      exact hq (h.one q p mp hc' (by simp [hl, Loc.child]))
    simpa [hq, hmp] using h.parent q mp hc'

theorem done {l : Loc} (hc : (loc p).child = some np) (hl : l.child = none)
    (hs : ∀ i, i ≠ np → st i = .embryo → st' i = .embryo) : Forks st' par (update loc p l) := by
  have hf := h.leaves (p := p) hl
  refine ⟨fun q mp hq => hs mp ?_ (hf.embryo q mp hq), hf.one, hf.parent⟩
  rintro rfl
  by_cases hqp : q = p
  · subst hqp; simp [hl] at hq
  · exact hqp (h.one q p mp (by simpa [hqp] using hq) hc)

theorem reparent {cur ip : Slot} (hcur : (loc cur).child = none)
    (hp : ∀ i, par' i = if par i = some cur then some ip else par i) : Forks st par' loc := by
  refine ⟨h.embryo, h.one, fun q np hc => ?_⟩
  have hq : q ≠ cur := by
    rintro rfl
    simp [hcur] at hc
  have hne : par np ≠ some cur := by
    rw [h.parent q np hc]
    split_ifs <;> simp [hq]
  rw [hp, if_neg hne, h.parent q np hc]

end

end Forks

structure Waits (st : Slot → Procstate) (par : Slot → Option Slot) (ch : Slot → Option Chan)
    (res : Slot → Option Resume) : Prop where
  chan : ∀ p, st p = .sleeping → res p = some .wait → ch p = some (.proc p)
  children : ∀ p, st p = .sleeping → res p = some .wait → ∀ i, par i = some p → st i ≠ .zombie

namespace Waits

variable {st st' : Slot → Procstate} {par par' : Slot → Option Slot} {ch ch' : Slot → Option Chan}
  {res res' : Slot → Option Resume}

theorem restate (h : Waits st par ch res)
    (hs : ∀ p, st' p = .sleeping → res' p = some .wait → st p = .sleeping ∧ res p = some .wait ∧ ch' p = ch p)
    (hz : ∀ i p, st' i = .zombie → par' i = some p → st i = .zombie ∧ par i = some p) : Waits st' par' ch' res' := by
  refine ⟨fun p hp hr => ?_, fun p hp hr i hi hzi => ?_⟩
  · obtain ⟨hp', hr', hc⟩ := hs p hp hr
    rw [hc, h.chan p hp' hr']
  · obtain ⟨hp', hr', _⟩ := hs p hp hr
    obtain ⟨hzi', hi'⟩ := hz i p hzi hi
    exact h.children p hp' hr' i hi' hzi'

theorem sleeps (h : Waits st par ch res) {p : Slot} (hz : ∀ i, par i = some p → st i ≠ .zombie) :
    Waits (update st p .sleeping) par (update ch p (some (.proc p))) (update res p (some .wait)) := by
  refine ⟨fun q hq hr => ?_, fun q hq hr i hi => ?_⟩
  · by_cases hqp : q = p
    · simp [hqp]
    · simpa [hqp] using h.chan q (by simpa [hqp] using hq) (by simpa [hqp] using hr)
  · have hqi : st i ≠ .zombie := by
      by_cases hqp : q = p
      · exact hz i (hqp ▸ hi)
      · exact h.children q (by simpa [hqp] using hq) (by simpa [hqp] using hr) i hi
    by_cases hip : i = p
    · simp [hip]
    · simpa [hip] using hqi

theorem exits (h : Waits st par ch res) {cur ip : Slot} (hown : par cur ≠ some cur)
    (hz : st' cur = .zombie) (hs : ∀ i, i ≠ cur → (st i).wokenTo (st' i)) (hc : ∀ i, ch' i = ch i)
    (hp : ∀ i, par' i = if par i = some cur then some ip else par i)
    (hwp : ∀ i, i ≠ cur → st' i = .sleeping → ch i ≠ (par cur).map .proc)
    (hwi : ∀ i j, i ≠ cur → par j = some cur → st j = .zombie → st' i = .sleeping → ch i ≠ some (.proc ip)) :
    Waits st' par' ch' res := by
  have hasleep : ∀ p, st' p = .sleeping → p ≠ cur ∧ st p = .sleeping := by
    intro p hsl
    have hpc : p ≠ cur := by
      rintro rfl
      simp [hz] at hsl
    exact ⟨hpc, by grind [Procstate.wokenTo]⟩
  refine ⟨fun p hp hr => ?_, fun p hsl hr i hi hzi => ?_⟩
  · rw [hc, h.chan p (hasleep p hp).2 hr]
  obtain ⟨hpc, hsl'⟩ := hasleep p hsl
  have hch := h.chan p hsl' hr
  rw [hp] at hi
  by_cases hic : i = cur
  · subst hic
    rw [if_neg hown] at hi
    exact hwp p hpc hsl (by rw [hch, hi]; rfl)
  · have hzi' : st i = .zombie := by
      grind [Procstate.wokenTo]
    split_ifs at hi with hpar
    · obtain rfl : ip = p := Option.some.inj hi
      exact hwi ip i hpc hpar hzi' hsl hch
    · exact h.children p hsl' hr i hi hzi'

end Waits

structure Cpus (cpu : ℕ → Cpu) (st : Slot → Procstate) : Prop where
  running : ∀ c p, cpu c = .thread p → st p = .running
  one : ∀ c d p, cpu c = .thread p → cpu d = .thread p → c = d

namespace Cpus

variable {cpu : ℕ → Cpu} {st st' : Slot → Procstate}

theorem restate (h : Cpus cpu st) (hs : ∀ i, st i = .running → st' i = .running) : Cpus cpu st' :=
  ⟨fun c p hc => hs p (h.running c p hc), h.one⟩

variable {c : ℕ}

theorem thread_update {d : ℕ} {q : Slot} {x : Cpu} (hx : x.proc = none) (hd : update cpu c x d = .thread q) :
    d ≠ c ∧ cpu d = .thread q := by
  by_cases hdc : d = c
  · subst hdc
    simp only [update_self] at hd
    simp [hd, Cpu.proc] at hx
  · exact ⟨hdc, by simpa [hdc] using hd⟩

theorem idles (h : Cpus cpu st) {x : Cpu} (hx : x.proc = none) : Cpus (update cpu c x) st :=
  ⟨fun d q hd => h.running d q (thread_update hx hd).2, fun d e q hd he => h.one d e q (thread_update hx hd).2
    (thread_update hx he).2⟩

theorem leaves (h : Cpus cpu st) {p : Slot} {x : Cpu} (hc : cpu c = .thread p) (hx : x.proc = none)
    (hs : ∀ i, i ≠ p → st i = .running → st' i = .running) : Cpus (update cpu c x) st' := by
  refine ⟨fun d q hd => ?_, (h.idles hx).one⟩
  obtain ⟨hdc, hd'⟩ := thread_update hx hd
  apply hs q _ (h.running d q hd')
  rintro rfl
  exact hdc (h.one d c q hd' hc)

theorem dispatch (h : Cpus cpu st) {p : Slot} (hp : st p = .runnable) :
    Cpus (update cpu c (.thread p)) (update st p .running) := by
  have hback : ∀ d q, update cpu c (.thread p) d = .thread q → d ≠ c → cpu d = .thread q ∧ q ≠ p := by
    intro d q hd hdc
    have hd' : cpu d = .thread q := by simpa [hdc] using hd
    refine ⟨hd', ?_⟩
    rintro rfl
    simp [h.running d q hd'] at hp
  have hself : ∀ q, update cpu c (.thread p) c = .thread q → q = p := by
    intro q hq
    simpa [eq_comm] using hq
  refine ⟨fun d q hd => ?_, fun d e q hd he => ?_⟩
  · by_cases hdc : d = c
    · subst hdc; simp [hself q hd]
    · obtain ⟨hd', hq⟩ := hback d q hd hdc
      simpa [hq] using h.running d q hd'
  · by_cases hdc : d = c <;> by_cases hec : e = c
    · rw [hdc, hec]
    · subst hdc
      exact absurd (hself q hd) (hback e q he hec).2
    · subst hec
      exact absurd (hself q he) (hback d q hd hdc).2
    · exact h.one d e q (hback d q hd hdc).1 (hback e q he hec).1

end Cpus

end Laboratorio.Procs
