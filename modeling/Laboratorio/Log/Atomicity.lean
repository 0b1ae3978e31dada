import Laboratorio.Log.Commit

namespace Laboratorio.Log

open Function Runs

namespace Spec

def writesOf (o : ℕ) (ws : List Write) : List Write := ws.filter (fun w => w.op = o)

def Atomic (x : Spec) (o : ℕ) : Prop :=
  (∀ g ∈ x.committed, writesOf o g = []) ∨
    ∃ pre g post, x.committed = pre ++ g :: post ∧ writesOf o g = writesOf o x.issued ∧
      ∀ h ∈ pre ++ post, writesOf o h = []

def Open (x : Spec) (o : ℕ) : Prop :=
  (∀ g ∈ x.committed, writesOf o g = []) ∧ writesOf o x.current = writesOf o x.issued

end Spec

open Spec

@[simp] theorem writesOf_append (o : ℕ) (ws vs : List Write) : writesOf o (ws ++ vs) = writesOf o ws ++ writesOf o vs :=
  List.filter_append ..

theorem writesOf_eq_nil {o : ℕ} {ws : List Write} : writesOf o ws = [] ↔ ∀ w ∈ ws, w.op ≠ o := by
  simp [writesOf]

theorem Spec.Open.atomic {x : Spec} {o : ℕ} (h : x.Open o) : x.Atomic o := Or.inl h.1

structure Ops (t : Tracked) : Prop where
  active : ∀ p, t.sys.pc p ≠ .out → t.spec.Open (t.spec.op p) ∧ t.spec.op p < t.spec.nextOp
  current : ∀ w ∈ t.spec.current, t.spec.Open w.op
  fresh : ∀ w, (w ∈ t.spec.issued ∨ w ∈ t.spec.current ∨ ∃ g ∈ t.spec.committed, w ∈ g) → w.op < t.spec.nextOp
  atomic : ∀ o, t.spec.Atomic o

variable {s s' : Sys} {x y : Spec}

section

variable (h : Ops ⟨s, x⟩)

include h

theorem Ops.frame (hpc : ∀ p, s'.pc p ≠ .out → s.pc p ≠ .out) (hc : y.committed = x.committed)
    (hcur : y.current = x.current) (hi : y.issued = x.issued) (ho : y.op = x.op) (hn : y.nextOp = x.nextOp) : Ops ⟨s', y⟩ := by
  have hopen : ∀ o, x.Open o → y.Open o := by
    intro o h
    simpa [Open, hc, hcur, hi] using h
  refine ⟨fun p hp => ?_, fun w hw => ?_, fun w hw => ?_, fun o => ?_⟩
  · have ha := h.active p (hpc p hp)
    rw [show y.op p = x.op p by rw [ho], show y.nextOp = x.nextOp from hn]
    exact ⟨hopen _ ha.1, ha.2⟩
  · exact hopen _ (h.current w (by simpa [hcur] using hw))
  · rw [show y.nextOp = x.nextOp from hn]
    exact h.fresh w (by simpa [hc, hcur, hi] using hw)
  · simpa [Atomic, hc, hi] using h.atomic o

theorem Ops.beginOp {p : ℕ} (hpc : ∀ q, q ≠ p → s'.pc q ≠ .out → s.pc q ≠ .out) : Ops ⟨s', x.step (.beginOp p)⟩ := by
  have hnone : ∀ ws : List Write, (∀ w ∈ ws, w.op < x.nextOp) → writesOf x.nextOp ws = [] := by
    intro ws hws
    rw [writesOf_eq_nil]
    intro w hw
    exact Nat.ne_of_lt (hws w hw)
  have hnew : x.Open x.nextOp := by
    refine ⟨fun g hg => hnone g (fun w hw => h.fresh w (Or.inr (Or.inr ⟨g, hg, hw⟩))), ?_⟩
    rw [hnone x.current (fun w hw => h.fresh w (Or.inr (Or.inl hw))),
      hnone x.issued (fun w hw => h.fresh w (Or.inl hw))]
  refine ⟨fun q hq => ?_, h.current, fun w hw => Nat.lt_succ_of_lt (h.fresh w hw), h.atomic⟩
  change x.Open (update x.op p x.nextOp q) ∧ update x.op p x.nextOp q < x.nextOp + 1
  by_cases hqp : q = p
  · subst hqp
    simpa using hnew
  · have ha := h.active q (hpc q hqp hq)
    simp only [update_of_ne hqp]
    exact ⟨ha.1, Nat.lt_succ_of_lt ha.2⟩

theorem Ops.logAppend {p : ℕ} (hp : s.pc p ≠ .out) (hpc : ∀ q, s'.pc q ≠ .out → s.pc q ≠ .out) :
    Ops ⟨s', x.step (.logAppend p)⟩ := by
  simp only [Spec.step]
  split
  · next b v _ =>
    obtain ⟨hop, hlt⟩ := h.active p hp
    let w : Write := ⟨x.op p, b, v⟩
    let y : Spec := { x with current := x.current ++ [w], issued := x.issued ++ [w] }
    have hopen : ∀ o, x.Open o → y.Open o := by
      intro o ho
      refine ⟨ho.1, ?_⟩
      simp [y, ho.2]
    refine ⟨fun q hq => ⟨hopen _ (h.active q (hpc q hq)).1, (h.active q (hpc q hq)).2⟩, fun v hv => ?_, fun v hv => ?_,
      fun o => ?_⟩
    · rcases List.mem_append.mp hv with hv | hv
      · exact hopen _ (h.current v hv)
      · obtain rfl : v = w := by simpa using hv
        exact hopen _ hop
    · by_cases hvw : v = w
      · subst hvw
        exact hlt
      refine h.fresh v ?_
      simp only [List.mem_append, List.mem_singleton] at hv
      rcases hv with (hv | hv) | (hv | hv) | hv
      · exact Or.inl hv
      · exact absurd hv hvw
      · exact Or.inr (Or.inl hv)
      · exact absurd hv hvw
      · exact Or.inr (Or.inr hv)
    · by_cases ho : x.op p = o
      · subst ho
        exact (hopen _ hop).atomic
      · have hw : writesOf o [w] = [] := by simp [writesOf, w, ho]
        rcases h.atomic o with hn | ⟨pre, g, post, hcom, hg, hrest⟩
        · exact Or.inl hn
        · exact Or.inr ⟨pre, g, post, hcom, by rw [hg, writesOf_append, hw, List.append_nil], hrest⟩
  · exact h.frame hpc rfl rfl rfl rfl rfl

theorem Ops.writeHead (hquiet : ∀ p, s'.pc p = .out) : Ops ⟨s', x.step .writeHead⟩ := by
  refine ⟨fun p hp => absurd (hquiet p) hp, by simp [Spec.step], fun w hw => ?_, fun o => ?_⟩
  · refine h.fresh w ?_
    simp only [Spec.step, List.not_mem_nil, List.mem_append, List.mem_singleton, false_or] at hw
    rcases hw with hw | ⟨g, hg | rfl, hw⟩
    · exact Or.inl hw
    · exact Or.inr (Or.inr ⟨g, hg, hw⟩)
    · exact Or.inr (Or.inl hw)
  by_cases hcur : writesOf o x.current = []
  · rcases h.atomic o with hn | ⟨pre, g, post, hcom, hg, hrest⟩
    · refine Or.inl (fun g hg => ?_)
      rcases List.mem_append.mp hg with hg | hg
      · exact hn g hg
      · obtain rfl : g = x.current := by simpa using hg
        exact hcur
    · refine Or.inr ⟨pre, g, post ++ [x.current], ?_, hg, fun f hf => ?_⟩
      · have hcom : x.committed = pre ++ g :: post := hcom
        simp [Spec.step, hcom]
      · rw [← List.append_assoc, List.mem_append] at hf
        rcases hf with hf | hf
        · exact hrest f hf
        · obtain rfl : f = x.current := by simpa using hf
          exact hcur
  · obtain ⟨w, hw, hwo⟩ : ∃ w ∈ x.current, w.op = o := by
      by_contra hnone
      push Not at hnone
      exact hcur (writesOf_eq_nil.mpr hnone)
    subst hwo
    have hop := h.current w hw
    refine Or.inr ⟨x.committed, x.current, [], rfl, hop.2, fun f hf => hop.1 f (by simpa using hf)⟩

theorem Ops.crash : Ops ⟨s.crash, x.step .crash⟩ := by
  refine ⟨fun p hp => absurd rfl hp, by simp [Spec.step], fun w hw => h.fresh w ?_, h.atomic⟩
  simp only [Spec.step, List.not_mem_nil, false_or] at hw
  exact hw.imp_right Or.inr

end

variable {a : Act}

theorem Sys.act_pc (hs : s.act a = some s') (p : ℕ) (hp : s'.pc p ≠ .out) : s.pc p ≠ .out ∨ a = .beginOp p := by
  cases a with
  | beginOp q =>
    simp only [Sys.act, Sys.beginOp] at hs
    split at hs
    · split_ifs at hs
      cases hs
      by_cases hpq : p = q
      · subst hpq; simp
      · exact Or.inl (by simpa [hpq] using hp)
    · simp at hs
  | logWrite q b v =>
    simp only [Sys.act, Sys.logWrite] at hs
    split at hs
    · next hq _ =>
      split_ifs at hs <;> cases hs
      · exact Or.inl hp
      · exact Or.inl hp
      · by_cases hpq : p = q
        · subst hpq; simp [hq]
        · exact Or.inl (by simpa [hpq] using hp)
    · simp at hs
  | logAppend q =>
    simp only [Sys.act, Sys.logAppend] at hs
    split at hs
    · next hq =>
      cases hs
      by_cases hpq : p = q
      · subst hpq; simp [hq]
      · exact Or.inl (by simpa [hpq] using hp)
    · simp at hs
  | endOp q =>
    simp only [Sys.act, Sys.endOp] at hs
    split at hs
    · have hpq : p ≠ q := by
        rintro rfl
        split_ifs at hs <;> cases hs <;> simp [Sys.panic] at hp
      left
      split_ifs at hs <;> cases hs <;> simpa [Sys.panic, hpq] using hp
    · simp at hs
  | writeLog =>
    simp only [Sys.act] at hs
    split at hs
    · obtain ⟨b, _, rfl⟩ := Option.map_eq_some_iff.mp hs
      exact Or.inl (by simpa [Sys.writeLog, Sys.bwrite] using hp)
    · simp at hs
  | writeHead =>
    simp only [Sys.act] at hs
    split at hs
    · split_ifs at hs
      cases hs
      exact Or.inl (by simpa [Sys.writeHead, Sys.bwrite] using hp)
    · simp at hs
  | install =>
    simp only [Sys.act] at hs
    split at hs
    · obtain ⟨b, _, rfl⟩ := Option.map_eq_some_iff.mp hs
      exact Or.inl (by simpa [Sys.install, Sys.bwrite] using hp)
    · simp at hs
  | clear =>
    simp only [Sys.act] at hs
    split at hs
    · split_ifs at hs <;> cases hs <;>
        exact Or.inl (by simpa [Sys.writeHead, Sys.bwrite] using hp)
    · simp at hs
  | finish =>
    simp only [Sys.act] at hs
    split_ifs at hs
    cases hs
    exact Or.inl hp
  | readHead =>
    simp only [Sys.act] at hs
    split_ifs at hs
    cases hs
    exact Or.inl (by simpa using hp)
  | read b =>
    cases hs
    exact Or.inl (by simpa using hp)
  | brelse b =>
    simp only [Sys.act] at hs
    split_ifs at hs
    cases hs
    exact Or.inl hp
  | evict b =>
    simp only [Sys.act, Sys.evict] at hs
    split at hs
    · split_ifs at hs
      cases hs
      exact Or.inl hp
    · simp at hs
  | crash => simp [Sys.act] at hs

variable {t u : Tracked}

theorem run_area {acts : List Act} (hr : run Tracked.step t acts = some u) :
    u.sys.start = t.sys.start ∧ u.sys.size = t.sys.size := by
  refine invariant (I := fun u => u.sys.start = t.sys.start ∧ u.sys.size = t.sys.size) (fun v a w hv hs => ?_) ⟨rfl, rfl⟩ hr
  rcases Tracked.step_cases hs with ⟨_, rfl⟩ | rfl | ⟨_, hs, _⟩
  · exact hv
  · exact hv
  · obtain ⟨hst, hsz, _⟩ := Sys.act_area hs
    exact ⟨hst.trans hv.1, hsz.trans hv.2⟩

variable {d : ℕ → Block}

theorem Inv.quiet (h : Inv d ⟨s, x⟩) {tail : ℕ} (hctl : s.ctl = .writing tail) (p : ℕ) : s.pc p = .out := by
  have hp := h.phase
  simp only [Phase, hctl] at hp
  exact hp.2.1 p

theorem Ops.act (h : Ops ⟨s, x⟩) (hi : Inv d ⟨s, x⟩) (hs : s.act a = some s') : Ops ⟨s', x.step a⟩ := by
  have hpc := Sys.act_pc hs
  cases a with
  | beginOp p => exact h.beginOp (fun q hqp hq => (hpc q hq).resolve_right (by simpa using Ne.symm hqp))
  | logAppend p =>
    refine h.logAppend ?_ (fun q hq => (hpc q hq).resolve_right (by simp))
    intro hp
    simp [Sys.act, Sys.logAppend, hp] at hs
  | writeHead =>
    refine h.writeHead (fun p => ?_)
    by_contra hp
    refine (hpc p hp).resolve_right (by simp) ?_
    simp only [Sys.act] at hs
    split at hs
    · next hctl => exact hi.quiet hctl p
    · simp at hs
  | crash => simp [Sys.act] at hs
  | _ => exact h.frame (fun q hq => (hpc q hq).resolve_right (by simp)) rfl rfl rfl rfl rfl

theorem Ops.step (h : Ops t) (hi : Inv d t) (hs : t.step a = some u) : Ops u := by
  obtain ⟨s', y⟩ := u
  rcases Tracked.step_cases hs with ⟨rfl, hu⟩ | hu | ⟨_, hs, _, rfl⟩
  · cases hu
    exact h.crash
  · cases hu
    exact h.frame (fun _ hp => hp) rfl rfl rfl rfl rfl
  · exact h.act hi hs

section boot

variable {start size : ℕ}

theorem Inv.boot (hs : 0 < size) (hh : getHeader (d start) = []) : Inv d (Tracked.boot start size d) :=
  ⟨hs, Durable.of_clear hh (fun _ _ => rfl),
    ⟨by simp [Tracked.boot, Log.boot], by simp [Tracked.boot, Log.boot], by simp [Tracked.boot, Log.boot]⟩,
    ⟨rfl, fun _ => rfl, rfl, by simp [Tracked.boot, Log.boot]⟩⟩

theorem Ops.boot : Ops (Tracked.boot start size d) :=
  ⟨fun _ hp => absurd rfl hp, by simp [Tracked.boot, Spec.init], by simp [Tracked.boot, Spec.init],
    fun _ => Or.inl (by simp [Tracked.boot, Spec.init])⟩

theorem reachable_inv {acts : List Act} (hs : 0 < size) (hh : getHeader (d start) = [])
    (hc : Along Tracked.step (fun t a => Careful t.sys a) (Tracked.boot start size d) acts)
    (hr : run Tracked.step (Tracked.boot start size d) acts = some t) : Inv d t ∧ Ops t :=
  invariant_along (I := fun t => Inv d t ∧ Ops t) (fun _ _ _ h hc hs => ⟨h.1.step hc hs, h.2.step h.1 hs⟩)
    ⟨Inv.boot hs hh, Ops.boot⟩ hc hr

end boot

def Act.recovers : Act → Bool
  | .crash | .readHead | .install | .clear | .read _ | .brelse _ | .evict _ => true
  | _ => false

theorem careful_of_recovers (h : a.recovers) (s : Sys) : Careful s a := by
  cases a <;> simp [Act.recovers] at h <;> trivial

theorem committed_of_recovers (h : a.recovers) (x : Spec) : (x.step a).committed = x.committed := by
  cases a <;> simp [Act.recovers] at h <;> rfl

theorem run_recovers {acts : List Act} (hi : Inv d t) (ha : ∀ a ∈ acts, a.recovers)
    (hr : run Tracked.step t acts = some u) : Inv d u ∧ u.spec.committed = t.spec.committed := by
  induction acts generalizing t with
  | nil =>
    obtain rfl : t = u := by simpa using hr
    exact ⟨hi, rfl⟩
  | cons a acts ih =>
    obtain ⟨t', hs, hr⟩ := run_cons_eq.mp hr
    have hrec : a.recovers := ha a (by simp)
    obtain ⟨hiu, hcom⟩ := ih (hi.step (careful_of_recovers hrec t.sys) hs) (fun b hb => ha b (by simp [hb])) hr
    refine ⟨hiu, hcom.trans ?_⟩
    rcases Tracked.step_cases hs with ⟨_, rfl⟩ | rfl | ⟨_, _, _, hspec⟩
    · rfl
    · rfl
    · rw [hspec, committed_of_recovers hrec]

theorem Inv.disk_idle (h : Inv d t) (hidle : t.sys.ctl = .idle) {b : ℕ} (hb : t.sys.home b) :
    t.sys.disk b = committedDisk d t.spec b := by
  have hp := h.phase
  simp only [Phase, hidle] at hp
  exact h.durable.disk_eq hp.header hb

/-- A step of a recovery that no process disturbs: of the cache only the header is kept. -/
structure Recovering (d : ℕ → Block) (t : Tracked) : Prop where
  inv : Inv d t
  bufs : t.sys.bufs = {t.sys.start}
  readers : t.sys.readers = []
  sound : t.sys.noBuffers = false

theorem step_of_act {s' : Sys} (hs : t.sys.act a = some s') (hctl : t.sys.ctl ≠ .panicked) (hn : t.sys.noBuffers = false)
    (ha : a ≠ .crash) (hcard : s'.bufs.card ≤ nbuf) : t.step a = some ⟨s', t.spec.step a⟩ := by
  have hn' : s'.noBuffers = false := (Sys.act_area hs).2.2.trans hn
  have hstep : t.sys.step a = some s' := by
    cases a <;> simp_all [Sys.step, Sys.bget]
  simp [Tracked.step, hstep, hn']

theorem Recovering.install {tail b : ℕ} (h : Recovering d t) (hctl : t.sys.ctl = .installing true tail)
    (hl : t.sys.lh[tail]? = some b) :
    ∃ u, run Tracked.step t [.install, .evict (t.sys.start + tail + 1), .evict b] = some u ∧ Recovering d u ∧
      u.sys.ctl = .installing true (tail + 1) ∧ u.sys.lh = t.sys.lh := by
  have hp := h.inv.phase
  unfold Phase at hp
  simp only [hctl] at hp
  have hhead : getHeader (t.sys.disk t.sys.start) = t.sys.lh := hp.header
  have hb : t.sys.home b := h.inv.durable.homes b (by simpa only [hhead] using List.mem_of_getElem? hl)
  have hslot : ¬ t.sys.home (t.sys.start + tail + 1) :=
    Sys.area_slot hl (by simpa only [hhead] using h.inv.durable.fits)
  have hbs : b ≠ t.sys.start := by
    rintro rfl
    exact Sys.area_header h.inv.size hb
  have hne : t.sys.start + tail + 1 ≠ b := by
    intro heq
    exact hslot (heq ▸ hb)
  have hcache : ∀ c, c ≠ t.sys.start → t.sys.cache c = none := by
    intro c hc
    by_contra hsome
    obtain ⟨buf, hbuf⟩ := Option.ne_none_iff_exists'.mp hsome
    exact hc (by simpa [h.bufs] using h.inv.coherent.buffered c buf hbuf)
  let v := t.sys.disk (t.sys.start + tail + 1)
  let s : Sys := { t.sys with
    disk := update t.sys.disk b v
    cache := update (update t.sys.cache (t.sys.start + tail + 1) (some ⟨v, false, none⟩)) b (some ⟨v, false, none⟩)
    bufs := {b, t.sys.start + tail + 1, t.sys.start}
    ctl := .installing true (tail + 1) }
  have hs : t.sys.act .install = some s := by
    simp [Sys.act, hctl, hl, Sys.install, Sys.bread, Sys.bwrite, Sys.view, hcache (t.sys.start + tail + 1) (by omega),
      hcache b hbs, hne, hne.symm, h.bufs, s, v]
  have hcard : s.bufs.card ≤ nbuf := Finset.card_le_three.trans (by decide)
  let s' : Sys := { s with
    cache := update s.cache (t.sys.start + tail + 1) none, bufs := s.bufs.erase (t.sys.start + tail + 1) }
  have hs' : s.act (.evict (t.sys.start + tail + 1)) = some s' := by
    simp [Sys.act, Sys.evict, s, s', hne, h.readers]
  let s'' : Sys := { s' with cache := update s'.cache b none, bufs := s'.bufs.erase b }
  have hs'' : s'.act (.evict b) = some s'' := by
    simp [Sys.act, Sys.evict, s, s', s'', hne.symm, h.readers]
  have hr : run Tracked.step t [.install, .evict (t.sys.start + tail + 1), .evict b] = some ⟨s'', t.spec⟩ := by
    have hc' : s'.bufs.card ≤ nbuf := Finset.card_erase_le.trans hcard
    refine run_cons_eq.mpr ⟨⟨s, t.spec⟩, step_of_act hs (by simp [hctl]) h.sound (by simp) hcard, ?_⟩
    refine run_cons_eq.mpr ⟨⟨s', t.spec⟩, step_of_act hs' (by simp [s]) h.sound (by simp) hc', ?_⟩
    refine run_cons_eq.mpr ⟨⟨s'', t.spec⟩, step_of_act hs'' (by simp [s, s']) h.sound (by simp) ?_, rfl⟩
    exact Finset.card_erase_le.trans hc'
  refine ⟨_, hr, ⟨(run_recovers h.inv (by simp [Act.recovers]) hr).1, ?_, h.readers, h.sound⟩, rfl, rfl⟩
  ext c
  simp only [s, s', s'', Finset.mem_erase, Finset.mem_insert, Finset.mem_singleton]
  constructor
  · rintro ⟨hcb, hcs, hc⟩
    exact (hc.resolve_left hcb).resolve_left hcs
  · rintro rfl
    exact ⟨hbs.symm, by omega, Or.inr (Or.inr rfl)⟩

theorem Recovering.run_install {tail n : ℕ} (h : Recovering d t) (hctl : t.sys.ctl = .installing true tail)
    (hn : tail + n = t.sys.lh.length) : ∃ acts u, (∀ a ∈ acts, a.recovers) ∧ run Tracked.step t acts = some u ∧ Recovering d u ∧
      u.sys.ctl = .installing true u.sys.lh.length := by
  induction n generalizing t tail with
  | zero => exact ⟨[], t, by simp, rfl, h, by rw [hctl, ← hn, Nat.add_zero]⟩
  | succ n ih =>
    have hlt : tail < t.sys.lh.length := by omega
    obtain ⟨w, hw, hrec, hctl', hlh⟩ := h.install hctl (List.getElem?_eq_getElem hlt)
    obtain ⟨acts, u, ha, hu, hdone⟩ := ih hrec hctl' (by rw [hlh]; omega)
    refine ⟨_ ++ acts, u, fun a hmem => ?_, run_append_eq.mpr ⟨w, hw, hu⟩, hdone⟩
    rcases List.mem_append.mp hmem with hmem | hmem
    · simp only [List.mem_cons, List.not_mem_nil, or_false] at hmem
      rcases hmem with rfl | rfl | rfl <;> rfl
    · exact ha a hmem

theorem run_recovery (hi : Inv d t) :
    ∃ racts u, (∀ a ∈ racts, a.recovers) ∧ run Tracked.step t (.crash :: racts) = some u ∧ u.sys.ctl = .idle := by
  let c : Tracked := ⟨t.sys.crash, t.spec.step .crash⟩
  let r : Tracked := ⟨{ t.sys.crash.bread t.sys.start with
    lh := getHeader (t.sys.disk t.sys.start), ctl := .installing true 0 }, c.spec⟩
  have hr : c.step .readHead = some r := by
    refine step_of_act (t := c) rfl (by simp [c, Sys.crash]) rfl (by simp) ?_
    rw [show r.sys.bufs = {t.sys.start} from rfl, Finset.card_singleton]
    decide
  have hrec : Recovering d r := by
    refine ⟨?_, rfl, rfl, rfl⟩
    exact (show Inv d c from hi.crash).step (careful_of_recovers rfl _) hr
  obtain ⟨acts, w, ha, hw, hdone, hctl⟩ := hrec.run_install rfl (Nat.zero_add _)
  let s' : Sys := { ({ w.sys with lh := [] } : Sys).writeHead with ctl := .idle }
  have hclear : w.sys.act .clear = some s' := by simp [Sys.act, hctl, s']
  have hbufs : s'.bufs = {w.sys.start} := by
    simp only [s', Sys.writeHead, Sys.bwrite, Sys.bread]
    split <;> simp [hdone.bufs]
  have hcard : s'.bufs.card ≤ nbuf := by
    rw [hbufs, Finset.card_singleton]
    decide
  refine ⟨.readHead :: (acts ++ [.clear]), ⟨s', w.spec⟩, fun a hmem => ?_, ?_, rfl⟩
  · simp only [List.mem_cons, List.mem_append, List.not_mem_nil, or_false] at hmem
    rcases hmem with rfl | hmem | rfl
    · rfl
    · exact ha a hmem
    · rfl
  · refine run_cons_eq.mpr ⟨c, rfl, run_cons_eq.mpr ⟨r, hr, run_snoc_eq.mpr ⟨w, hw, ?_⟩⟩⟩
    exact step_of_act hclear (by simp [hctl]) hdone.sound (by simp) hcard

theorem careful_along {acts : List Act} (hs : nbuf ≤ t.sys.size) (hb : ∀ p b v, Act.logWrite p b v ∈ acts → t.sys.home b) :
    Along Tracked.step (fun t a => Careful t.sys a) t acts := by
  induction acts generalizing t with
  | nil => trivial
  | cons a acts ih =>
    constructor
    · cases a with
      | logWrite p b v => exact hb p b v (by simp)
      | logAppend p => exact fun hlt => absurd hs (Nat.not_le.mpr hlt)
      | _ => trivial
    · intro u hu
      obtain ⟨hst, hsz⟩ := run_area (run_cons_eq.mpr ⟨u, hu, run_nil u⟩)
      apply ih
      · rwa [hsz]
      · intro p b v hmem
        simpa only [Sys.home, hst, hsz] using hb p b v (by simp [hmem])

/-- A crash after any run, followed by recoveries that may crash again, leaves exactly the groups
whose header had reached the disk, and no operation is split by a group boundary. -/
theorem crash_atomicity {start : ℕ} {acts : List Act} {t : Tracked} (hh : getHeader (d start) = [])
    (hc : ∀ p b v, Act.logWrite p b v ∈ acts → b < start ∨ start + nlog ≤ b)
    (hr : run Tracked.step (Tracked.boot start nlog d) acts = some t) :
    (∃ racts u, (∀ a ∈ racts, a.recovers) ∧ run Tracked.step t (.crash :: racts) = some u ∧ u.sys.ctl = .idle) ∧
      (∀ racts u, (∀ a ∈ racts, a.recovers) → run Tracked.step t (.crash :: racts) = some u → u.sys.ctl = .idle →
        ∀ b, b < start ∨ start + nlog ≤ b → u.sys.disk b = contents d t.spec.committed.flatten b) ∧
      ∀ o, t.spec.Atomic o := by
  obtain ⟨hi, ho⟩ := reachable_inv (by decide) hh (careful_along le_rfl hc) hr
  refine ⟨run_recovery hi, fun racts u hrec hru hidle b hb => ?_, ho.atomic⟩
  have hall : ∀ a ∈ Act.crash :: racts, a.recovers := by
    intro a ha
    rcases List.mem_cons.mp ha with rfl | ha
    · rfl
    · exact hrec a ha
  obtain ⟨hiu, hcom⟩ := run_recovers hi hall hru
  have hhome : u.sys.home b := by
    obtain ⟨hst, hsz⟩ := run_area hr
    obtain ⟨hst', hsz'⟩ := run_area hru
    rw [Sys.home, hst', hsz', hst, hsz]
    exact hb
  rw [hiu.disk_idle hidle hhome, committedDisk, hcom]

theorem crash_atomicity_headerWritten : ∃ t u, run Tracked.step (Tracked.boot 2 nlog (fun _ _ => 0)) [.readHead, .clear,
        .beginOp 0, .logWrite 0 100 (fun _ => 1), .logAppend 0, .endOp 0, .writeLog, .writeHead] = some t ∧
      run Tracked.step t [.crash, .readHead, .crash, .readHead, .install, .clear] = some u ∧ u.sys.disk 100 = fun _ => 1 := by
  refine ⟨_, _, rfl, rfl, ?_⟩
  have hc : ∀ p b v, Act.logWrite p b v ∈ [Act.readHead, .clear, .beginOp 0, .logWrite 0 100 (fun _ => 1), .logAppend 0,
      .endOp 0, .writeLog, .writeHead] → b < 2 ∨ 2 + nlog ≤ b := by
    intro p b v hmem
    obtain ⟨_, rfl, _⟩ : p = 0 ∧ b = 100 ∧ v = fun _ => 1 := by simpa using hmem
    decide
  refine ((crash_atomicity (d := fun _ _ => 0) (by decide) hc rfl).2.1 [.readHead, .crash, .readHead, .install, .clear]
    _ (by decide) rfl rfl 100 (by decide)).trans ?_
  rfl

theorem bread_last_write {start size : ℕ} {acts : List Act} {t : Tracked} (hs : 0 < size) (hh : getHeader (d start) = [])
    (hc : Along Tracked.step (fun t a => Careful t.sys a) (Tracked.boot start size d) acts)
    (hr : run Tracked.step (Tracked.boot start size d) acts = some t) (hidle : t.sys.ctl = .idle) :
    (∀ b, t.sys.home b → (∀ buf, t.sys.cache b = some buf → buf.holder = none) →
        t.sys.view b = contents d (t.spec.committed.flatten ++ t.spec.current) b) ∧
      (∀ b, (∃ buf, t.sys.cache b = some buf ∧ buf.dirty = true) ↔ ∃ w ∈ t.spec.current, w.block = b) ∧
      ∃ A : Finset ℕ, A.card = t.sys.outstanding ∧ ∀ p, p ∈ A ↔ t.sys.pc p ≠ .out := by
  have hphase := (reachable_inv hs hh hc hr).1.phase
  rw [Phase, hidle] at hphase
  refine ⟨fun b hb hfree => ?_, fun b => (hphase.dirty b).symm.trans (hphase.blocks b), hphase.count⟩
  rw [contents_append]
  exact hphase.view b hb hfree

def oneWrite : List Act := [.readHead, .clear, .beginOp 0, .logWrite 0 100 (fun _ => 1), .logAppend 0]

theorem bread_last_write_uncommitted : ∃ t, run Tracked.step (Tracked.boot 2 30 fun _ _ => 0) oneWrite = some t ∧
    t.sys.disk 100 = (fun _ => 0) ∧ t.sys.view 100 = fun _ => 1 := by
  refine ⟨_, rfl, rfl, ?_⟩
  have hc : Along Tracked.step (fun t a => Careful t.sys a) (Tracked.boot 2 30 fun _ _ => 0) oneWrite := by
    refine careful_along le_rfl (fun p b v hmem => ?_)
    obtain ⟨_, rfl, _⟩ : p = 0 ∧ b = 100 ∧ v = fun _ => 1 := by simpa [oneWrite] using hmem
    exact Or.inr (show 2 + 30 ≤ 100 by decide)
  refine ((bread_last_write (by decide) (by decide) hc rfl rfl).1 100 (Or.inr (show 2 + 30 ≤ 100 by decide)) ?_).trans rfl
  rintro _ ⟨⟩
  rfl

end Laboratorio.Log
