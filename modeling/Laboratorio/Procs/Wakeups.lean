import Laboratorio.Procs.Switching

/-!
A process that found the condition false does not sleep through the `wakeup` of one that made it true.
-/

namespace Laboratorio.Procs

open Function Runs

namespace Threads

structure Dozing (ch : Chan) (m : Threads) (p : Slot) : Prop where
  asleep : m.ptable.states p = .sleeping
  chan : m.ptable.chans p = some ch
  loop : .await ∈ m.code p

structure Fresh (lk : Lock) (ch : Chan) (m : Threads) : Prop where
  holder : ∀ c p, m.ctx c = .thread p → ¬ Calm (m.code p) → lk.held (holds m.lock c) (holds m.other p) → m.tested p = m.epoch
  stale : ∀ p, ¬ Calm (m.code p) ∨ m.Dozing ch p → m.tested p = m.epoch ∨ ∃ q, m.owed q = true

variable {lk : Lock} {ch : Chan} {m m' : Threads} {c : ℕ} {p : Slot} {k : List Instr} {q : Slot}

theorem held_congr {d : ℕ} (hl : m'.lock = some d ↔ m.lock = some d) (ho : m'.other = some q ↔ m.other = some q) :
    lk.held (holds m'.lock d) (holds m'.other q) = lk.held (holds m.lock d) (holds m.other q) := by
  rw [holds_congr hl, holds_congr ho]

theorem held_unique (h : Inv lk m) {d : ℕ} (hc : m.ctx c = .thread p) (hd : m.ctx d = .thread q)
    (hp : lk.held (holds m.lock c) (holds m.other p)) (hq : lk.held (holds m.lock d) (holds m.other q)) : p = q := by
  cases lk with
  | ptable =>
    have hcd : c = d := by
      simp only [Lock.held, holds_eq_true] at hp hq
      exact Option.some.inj (hp.symm.trans hq)
    subst hcd
    simpa [hc] using hd
  | other =>
    simp only [Lock.held, holds_eq_true] at hp hq
    exact Option.some.inj (hp.symm.trans hq)

theorem Inv.onCpu_of_not_calm (h : Inv lk m) (hq : ¬ Calm (m.code q)) : ∃ d, m.ctx d = .thread q := by
  by_contra hnone
  push Not at hnone
  have hpark := (h.off q hnone).2
  have hnil : Calm [] := by simp [Calm, drowsy]
  cases hst : m.ptable.states q <;> simp only [hst, Parked] at hpark
  all_goals first | exact hq hpark.1 | exact hq (hpark ▸ hnil)

structure Spares (ch : Chan) (m m' : Threads) (q : Slot) : Prop where
  tested : m'.tested q = m.tested q
  calm : ¬ Calm (m'.code q) → ¬ Calm (m.code q)
  dozing : m'.Dozing ch q → m.Dozing ch q

theorem Fresh.act (h : Fresh lk ch m) (hctx : m'.ctx = m.ctx) (hepoch : m'.epoch = m.epoch)
    (howed : ∀ q, m.owed q = true → m'.owed q = true)
    (hl : ∀ d q, m.ctx d = .thread q → q ≠ p → (m'.lock = some d ↔ m.lock = some d))
    (ho : ∀ q, q ≠ p → (m'.other = some q ↔ m.other = some q)) (hspare : ∀ q, q ≠ p → Spares ch m m' q)
    (hheld : ∀ d, m.ctx d = .thread p → ¬ Calm (m'.code p) → lk.held (holds m'.lock d) (holds m'.other p) →
    m'.tested p = m.epoch)
    (hp : ¬ Calm (m'.code p) ∨ m'.Dozing ch p → m'.tested p = m.epoch ∨ ∃ q, m.owed q = true) : Fresh lk ch m' := by
  constructor
  · intro d q hd hcalm hq
    rw [hctx] at hd
    rw [hepoch]
    by_cases hqp : q = p
    · subst hqp
      exact hheld d hd hcalm hq
    · rw [(hspare q hqp).tested]
      rw [held_congr (hl d q hd hqp) (ho q hqp)] at hq
      exact h.holder d q hd ((hspare q hqp).calm hcalm) hq
  · intro q hq
    rw [hepoch]
    have hold : m'.tested q = m.epoch ∨ ∃ r, m.owed r = true := by
      by_cases hqp : q = p
      · subst hqp
        exact hp hq
      · rw [(hspare q hqp).tested]
        exact h.stale q (hq.imp (hspare q hqp).calm (hspare q hqp).dozing)
    exact hold.imp id (fun ⟨r, hr⟩ => ⟨r, howed r hr⟩)

theorem calm_or_cons {i : Instr} (hi : ∀ st, i ≠ .setState st) (ha : i ≠ .await) (hs : i ≠ .swtch) :
    Calm k ∨ ¬ Calm (i :: k) := by
  rw [or_iff_not_imp_right, not_not]
  intro hc hd
  have hdi : drowsy (i :: k) := by
    cases i <;> simp_all [drowsy]
  have hni := hc hdi
  simp only [List.mem_cons, not_or] at hni
  exact hni.2

theorem Fresh.plain (h : Fresh lk ch m) (hi : Inv lk m) (hc : m.ctx c = .thread p) (hctx : m'.ctx = m.ctx)
    (hepoch : m'.epoch = m.epoch) (htested : m'.tested = m.tested) (howed : ∀ q, m.owed q = true → m'.owed q = true)
    (hl : ∀ d, d ≠ c → (m'.lock = some d ↔ m.lock = some d)) (ho : ∀ q, q ≠ p → (m'.other = some q ↔ m.other = some q))
    (hcode : ∀ q, q ≠ p → m'.code q = m.code q ∨ Calm (m'.code q) ∧ m'.ptable.states q ≠ .sleeping)
    (hst : ∀ q, q ≠ p → m'.ptable.states q = .sleeping → m.ptable.states q = .sleeping)
    (hch : ∀ q, q ≠ p → m'.ptable.chans q = m.ptable.chans q) (hawake : m'.ptable.states p ≠ .sleeping)
    (hp : Calm (m'.code p) ∨ ¬ Calm (m.code p) ∧
      (lk.held (holds m'.lock c) (holds m'.other p) → lk.held (holds m.lock c) (holds m.other p))) : Fresh lk ch m' := by
  have hcpu : ∀ d, m.ctx d = .thread p → d = c := by
    intro d hd
    exact hi.one d c p (by rw [hd]; rfl) (by rw [hc]; rfl)
  refine h.act hctx hepoch howed (fun d q hd hq => hl d ?_) ho (fun q hq => ?_) (fun d hd hcalm hheld => ?_) (fun hq => ?_)
  · rintro rfl
    exact hq (by simpa [hc, eq_comm] using hd)
  · refine ⟨by rw [htested], fun hcalm => ?_, fun hdoze => ?_⟩
    · rcases hcode q hq with hk | ⟨hk, _⟩
      · rwa [hk] at hcalm
      · exact absurd hk hcalm
    · rcases hcode q hq with hk | ⟨_, hs⟩
      · exact ⟨hst q hq hdoze.asleep, (hch q hq).symm.trans hdoze.chan, hk ▸ hdoze.loop⟩
      · exact absurd hdoze.asleep hs
  · obtain rfl := hcpu d hd
    rcases hp with hp | ⟨hp, hheld'⟩
    · exact absurd hp hcalm
    · rw [htested]
      exact h.holder d p hc hp (hheld' hheld)
  · rcases hq with hcalm | hdoze
    · rcases hp with hp | ⟨hp, _⟩
      · exact absurd hp hcalm
      · rw [htested]
        exact h.stale p (Or.inl hp)
    · exact absurd hdoze.asleep hawake

theorem allocproc_chans {t u : Ptable} {i : Slot} (h : allocproc t = some (i, u)) : u.chans = t.chans := by
  obtain ⟨_, rfl⟩ := allocproc_eq h
  exact (Ptable.chans_set _ _ _).trans (update_eq_self _ _)

theorem kill_chans (t : Ptable) (pid : Int32) : (Procs.kill t pid).1.chans = t.chans := by
  unfold Procs.kill
  split
  · rfl
  · next i hi =>
    simp only [Ptable.chans_set]
    split_ifs <;> exact update_eq_self _ _

theorem not_calm_update (hk : Calm k) (hn : ¬ Calm (update m.code p k q)) : q ≠ p ∧ ¬ Calm (m.code q) := by
  have hq : q ≠ p := by
    rintro rfl
    simp [hk] at hn
  exact ⟨hq, by simpa [hq] using hn⟩

section instructions

variable {ok : Bool}

section

variable (h : Fresh lk ch m) (hi : Inv lk m) (hc : m.ctx c = .thread p)

include h hi hc

theorem Fresh.relock {l : Option ℕ} {o : Option Slot} (hl : ∀ d, d ≠ c → (l = some d ↔ m.lock = some d))
    (ho : ∀ q, q ≠ p → (o = some q ↔ m.other = some q)) (hr : m.ptable.states p = .running)
    (hp : Calm k ∨ ¬ Calm (m.code p) ∧ (lk.held (holds l c) (holds o p) → lk.held (holds m.lock c) (holds m.other p))) :
    Fresh lk ch { m.next p k with lock := l, other := o } :=
  h.plain hi hc rfl rfl rfl (fun _ => id) hl ho (fun q hq => Or.inl (by simp [hq])) (fun _ _ => id) (fun _ _ => rfl)
    (by simp [next, hr]) (by simpa using hp)

theorem Fresh.goes {t : Ptable} (hw : ∀ q, q ≠ p → t.states q = .sleeping → m.ptable.states q = .sleeping)
    (hch : ∀ q, q ≠ p → t.chans q = m.ptable.chans q) (hr : t.states p ≠ .sleeping) (hcalm : Calm k ∨ ¬ Calm (m.code p)) :
    Fresh lk ch { m.next p k with ptable := t } := by
  refine h.plain hi hc rfl rfl rfl (fun _ => id) (fun _ _ => Iff.rfl) (fun _ _ => Iff.rfl)
    (fun q hq => Or.inl (by simp [hq])) hw hch hr ?_
  exact hcalm.imp (fun hkc => by simpa using hkc) fun hn => ⟨hn, id⟩

theorem Fresh.setState {st : Procstate} (hk : m.code p = .setState st :: k) :
    Fresh lk ch { m.next p k with ptable := m.ptable.setState p st } := by
  have ht := (hi.cpu c).typed p hc
  rw [hk] at ht
  obtain ⟨_, _, _, hst, hrest⟩ := ht
  obtain ⟨_, _, l, rfl⟩ := hrest.not_running (by rcases hst with rfl | rfl | rfl <;> simp)
  have hcalm : Calm (update m.code p (.swtch :: l) p) := by simp [Calm, drowsy]
  refine h.act (p := p) rfl rfl (fun _ => id) (fun _ _ _ _ => Iff.rfl) (fun _ _ => Iff.rfl) (fun q hq => ?_)
    (fun d hd hn => ?_) (fun hq => ?_)
  · refine ⟨rfl, fun hn => by simpa [hq] using hn, fun hd => ⟨?_, by simpa using hd.chan, by simpa [hq] using hd.loop⟩⟩
    simpa [hq] using hd.asleep
  · exact absurd hcalm hn
  · rcases hq with hn | hd
    · exact absurd hcalm hn
    · have hsl : st = .sleeping := by simpa using hd.asleep
      have hloop : .await ∈ l := by simpa using hd.loop
      apply h.stale p (Or.inl _)
      rw [hk, hsl]
      simp [Calm, drowsy, hloop]

theorem Fresh.swtch (hk : m.code p = .swtch :: k) : Fresh lk ch { m.next p k with ctx := update m.ctx c (.back p) } := by
  have ht := (hi.cpu c).typed p hc
  rw [hk] at ht
  have hcalm : Calm k := by
    rcases ht.2.2 with ⟨_, hnil⟩ | ⟨_, hcalm, _⟩
    · simp [hnil, Calm, drowsy]
    · exact hcalm
  have hcode : ∀ q, ¬ Calm (update m.code p k q) → q ≠ p ∧ ¬ Calm (m.code q) := fun q => not_calm_update hcalm
  constructor
  · intro d q hd hn hheld
    have hdc : d ≠ c := by
      rintro rfl
      simp at hd
    exact h.holder d q (by simpa [hdc] using hd) (hcode q hn).2 hheld
  · intro q hq
    apply h.stale q
    rcases hq with hn | hd
    · exact Or.inl (hcode q hn).2
    · refine Or.inr ⟨hd.asleep, hd.chan, ?_⟩
      by_cases hqp : q = p
      · subst hqp
        rw [hk]
        simpa using hd.loop
      · simpa [hqp] using hd.loop

theorem Fresh.wakeup1 {owed : Slot → Bool} (hk : m.code p = .wakeup1 ch :: k) :
    Fresh lk ch { m.next p k with ptable := Procs.wakeup1 m.ptable (some ch), owed := owed } := by
  have ht := (hi.cpu c).typed p hc
  rw [hk] at ht
  obtain ⟨hl, _, hnot, _⟩ := ht
  have hlock : m.lock = some c := by simpa using hl
  have hcode : ∀ q, ¬ Calm (update m.code p k q) → q ≠ p ∧ ¬ Calm (m.code q) := fun q => not_calm_update (calm_of_notMem hnot)
  constructor
  · intro d q hd hn hheld
    exact h.holder d q hd (hcode q hn).2 hheld
  · intro q hq
    refine Or.inl ?_
    rcases hq with hn | hd
    · obtain ⟨hqp, hn⟩ := hcode q hn
      obtain ⟨d, hd⟩ := hi.onCpu_of_not_calm hn
      apply h.holder d q hd hn
      have hdc : d ≠ c := by
        rintro rfl
        exact hqp (by simpa [hc, eq_comm] using hd)
      rcases ((hi.cpu d).typed q hd).calm with hcalm | hpt | hheld
      · exact absurd hcalm hn
      · rw [holds_eq_true, hlock] at hpt
        exact absurd (Option.some.inj hpt) hdc.symm
      · exact hheld
    · have hch : m.ptable.chans q = some ch := by simpa using hd.chan
      exact absurd hch (wakeup1_awake _ _ q hd.asleep)

end

theorem fresh_signal (hi : Inv lk m) (hc : m.ctx c = .thread p) (hk : m.code p = .setCond true :: k) :
    Fresh lk ch { m.next p k with cond := true, epoch := m.epoch + 1, owed := update m.owed p true } := by
  have ht := (hi.cpu c).typed p hc
  rw [hk] at ht
  obtain ⟨hheld, _, hnot, _⟩ := ht
  constructor
  · intro d q hd hn hq
    obtain rfl := held_unique hi hc hd hheld hq
    exact absurd (by simpa using calm_of_notMem hnot) hn
  · intro q _
    exact Or.inr ⟨p, by simp⟩

theorem Fresh.tests (h : Fresh lk ch m) {l : List Instr} :
    Fresh lk ch { m.next p l with tested := update m.tested p m.epoch } := by
  refine h.act (p := p) rfl rfl (fun _ => id) (fun _ _ _ _ => Iff.rfl) (fun _ _ => Iff.rfl) (fun q hq => ?_)
    (fun d hd hn _ => by simp) (fun _ => Or.inl (by simp))
  exact ⟨by simp [hq], fun hn => by simpa [hq] using hn, fun hd => ⟨hd.asleep, hd.chan, by simpa [hq] using hd.loop⟩⟩

theorem Fresh.instr (h : Fresh lk ch m) (hi : Inv lk m) (hc : m.ctx c = .thread p) {i : Instr} (hk : m.code p = i :: k)
    (hs : instr lk ch m c p ok k i = some m') : Fresh lk ch m' := by
  have ht := (hi.cpu c).typed p hc
  rw [hk] at ht
  cases i with
  | acquire l =>
    cases l <;> simp only [Threads.instr, guard_some] at hs <;> obtain ⟨hfree, rfl⟩ := hs
    · refine h.relock hi hc (fun d hd => by simp [hfree, Ne.symm hd]) (fun _ _ => Iff.rfl) ht.2.1 ?_
      rw [hk]
      have hor : Calm k ∨ ¬ Calm (.acquire .ptable :: k) := calm_or_cons (by simp) (by simp) (by simp)
      exact or_and_left.mpr ⟨hor, ht.2.2.1.imp_right fun hheld _ => hheld⟩
    · exact h.relock hi hc (fun _ _ => Iff.rfl) (fun q hq => by simp [hfree, Ne.symm hq]) ht.2.2.1 (Or.inl ht.2.2.2.1)
  | release l =>
    cases l <;> simp only [Threads.instr, guard_some] at hs <;> obtain ⟨hheld, rfl⟩ := hs
    · exact h.relock hi hc (fun d hd => by simp [hheld, Ne.symm hd]) (fun _ _ => Iff.rfl) ht.2.1 (Or.inl ht.2.2.1)
    · refine h.relock hi hc (fun _ _ => Iff.rfl) (fun q hq => by simp [hheld, Ne.symm hq]) ht.2.1 ?_
      rw [hk]
      refine (calm_or_cons (by simp) (by simp) (by simp)).imp_right fun hn => ⟨hn, fun hh => ?_⟩
      cases lk with
      | ptable => exact hh
      | other => simp [Lock.held] at hh
  | setChan x =>
    obtain rfl := Option.some.inj hs
    refine h.goes hi hc (by simp) (fun q hq => by simp [hq]) (by simp [ht.2.1]) ?_
    rw [hk]
    exact calm_or_cons (by simp) (by simp) (by simp)
  | setState st =>
    obtain rfl := Option.some.inj hs
    exact h.setState hi hc hk
  | swtch =>
    simp only [Threads.instr, guard_some] at hs
    obtain ⟨_, rfl⟩ := hs
    exact h.swtch hi hc hk
  | wakeup1 x =>
    obtain rfl := Option.some.inj hs
    by_cases hx : x = ch
    · subst hx
      exact h.wakeup1 hi hc hk
    · simp only [if_neg hx]
      have hp : (Procs.wakeup1 m.ptable (some x)).states p = .running :=
        ((states_wakeup1 _ _ p).eq_iff (by simp) (by simp)).mpr ht.2.1
      exact h.goes hi hc (fun q _ => (states_wakeup1 _ _ q).sleeping) (by simp) (by simp [hp])
        (Or.inl (calm_of_notMem ht.2.2.1))
  | kill pid =>
    obtain rfl := Option.some.inj hs
    have hp : (Procs.kill m.ptable pid).1.states p = .running := ((kill_states _ _ p).eq_iff (by simp) (by simp)).mpr ht.2.1
    exact h.goes hi hc (fun q _ => (kill_states _ _ q).sleeping) (by simp [kill_chans]) (by simp [hp])
      (Or.inl (calm_of_notMem ht.2.2.1))
  | allocproc =>
    obtain ⟨_, hr, _, hcalm, _⟩ := ht
    simp only [Threads.instr] at hs
    split at hs
    · obtain rfl := Option.some.inj hs
      exact h.goes hi hc (fun _ _ => id) (fun _ _ => rfl) (by simp [hr]) (Or.inl (calm_cons hcalm (by simp) (by simp)))
    · next np t ha =>
      obtain rfl := Option.some.inj hs
      obtain ⟨hfree, hst⟩ := allocproc_states ha
      refine h.goes hi hc (fun q _ => ?_) (by simp [allocproc_chans ha]) ?_ (Or.inl ?_)
      · by_cases hq : q = np <;> simp [hst, hq]
      · by_cases hp : p = np <;> simp [hst, hp, hr]
      · exact calm_cons (calm_cons hcalm (by simp) (by simp)) (by simp) (by simp)
  | kstack np =>
    obtain ⟨_, hr, _, hcalm, _⟩ := ht
    simp only [Threads.instr] at hs
    split_ifs at hs
    · obtain rfl := Option.some.inj hs
      exact h.goes hi hc (fun _ _ => id) (fun _ _ => rfl) (by simp [hr]) (Or.inl (calm_cons hcalm (by simp) (by simp)))
    · obtain rfl := Option.some.inj hs
      refine h.goes hi hc (fun q _ => ?_) (by simp) ?_ (Or.inl hcalm)
      · by_cases hq : q = np <;> simp [hq]
      · by_cases hp : p = np <;> simp [hp, hr]
  | copyuvm np =>
    obtain ⟨_, hr, _, hcalm, _⟩ := ht
    simp only [Threads.instr] at hs
    split_ifs at hs
    · obtain rfl := Option.some.inj hs
      refine h.goes hi hc (by simp) (by simp) (by simp [hr]) (Or.inl ?_)
      exact calm_cons (calm_cons (calm_cons hcalm (by simp) (by simp)) (by simp) (by simp)) (by simp) (by simp)
    · obtain rfl := Option.some.inj hs
      refine h.goes hi hc (fun q _ => ?_) (by simp) ?_ (Or.inl hcalm)
      · by_cases hq : q = np <;> simp [hq]
      · by_cases hp : p = np <;> simp [hp, hr]
  | setRunnable np =>
    obtain rfl := Option.some.inj hs
    obtain ⟨_, hr, _, _⟩ := ht
    have hne : p ≠ np := by
      rintro rfl
      simp [hi.embryo p p (by rw [hk]; rfl)] at hr
    refine h.plain hi hc rfl rfl rfl (fun _ => id) (fun _ _ => Iff.rfl) (fun _ _ => Iff.rfl) (fun q hq => ?_) (fun q _ => ?_)
      (by simp) (by simp [hne, hr]) ?_
    · by_cases hqn : q = np
      · subst hqn; exact Or.inr (by simp [Calm, drowsy])
      · exact Or.inl (by simp [hq, hqn])
    · by_cases hq : q = np <;> simp [hq]
    · rw [hk]
      exact (calm_or_cons (by simp) (by simp) (by simp)).imp (fun hkc => by simpa [hne] using hkc) fun hn => ⟨hn, id⟩
  | reparent =>
    obtain rfl := Option.some.inj hs
    have hrep := reparentAll_reparented (Procs.wakeup1 m.ptable ((m.ptable.proc p).parent.map .proc)) p m.initproc
    have hw : ∀ q, (m.ptable.states q).wokenTo ((reparentAll _ p m.initproc).states q) :=
      fun q => (states_wakeup1 _ _ q).trans (hrep.state q)
    refine h.goes hi hc (fun q _ => (hw q).sleeping) (by simp [hrep.chans]) ?_ (Or.inl (calm_of_notMem ht.2.2.1))
    rw [((hw p).eq_iff (by simp) (by simp)).mpr ht.2.1]
    simp
  | waitScan =>
    obtain ⟨_, _, hr, ha, _⟩ := ht
    have hcalm : Calm (.release .ptable :: k) := calm_of_notMem (by simp [ha])
    simp only [Threads.instr] at hs
    split at hs
    · next i _ _ hw =>
      obtain rfl := Option.some.inj hs
      obtain ⟨_, hz, _, hst, _, hch, _⟩ := wait_reaped hw
      refine h.goes hi hc (fun q _ => ?_) (by simp [hch]) ?_ (Or.inl hcalm)
      · by_cases hq : q = i <;> simp [hst, hq]
      · by_cases hp : p = i <;> simp [hst, hp, hr]
    · obtain rfl := Option.some.inj hs
      exact h.goes hi hc (fun _ _ => id) (fun _ _ => rfl) (by simp [hr]) (Or.inl hcalm)
    · obtain rfl := Option.some.inj hs
      exact h.goes hi hc (fun _ _ => id) (fun _ _ => rfl) (by simp [hr]) (Or.inl (calm_of_notMem (by simp [sleepCode, ha])))
  | await =>
    obtain ⟨_, _, _, hr, ha, _⟩ := ht
    simp only [Threads.instr] at hs
    split_ifs at hs
    · obtain rfl := Option.some.inj hs
      exact h.goes hi hc (fun _ _ => id) (fun _ _ => rfl) (by simp [hr]) (Or.inl (calm_of_notMem ha))
    · obtain rfl := Option.some.inj hs
      exact h.tests
  | setCond b =>
    obtain rfl := Option.some.inj hs
    cases b with
    | true => exact fresh_signal hi hc hk
    | false =>
      exact h.plain hi hc rfl rfl rfl (fun _ => id) (fun _ _ => Iff.rfl) (fun _ _ => Iff.rfl)
        (fun q hq => Or.inl (by simp [hq])) (fun _ _ => id) (fun _ _ => rfl) (by simp [next, ht.2.1])
        (Or.inl (by simpa using calm_of_notMem ht.2.2.1))

end instructions

theorem Fresh.schedule (h : Fresh lk ch m) (hcode : m'.code = m.code) (htested : m'.tested = m.tested)
    (hepoch : m'.epoch = m.epoch) (howed : m'.owed = m.owed) (hother : m'.other = m.other)
    (hch : m'.ptable.chans = m.ptable.chans) (hst : ∀ q, m'.ptable.states q = .sleeping → m.ptable.states q = .sleeping)
    (hctx : ∀ d q, m'.ctx d = .thread q → ¬ Calm (m.code q) → m.ctx d = .thread q ∧ (m'.lock = some d ↔ m.lock = some d)) :
    Fresh lk ch m' := by
  constructor
  · intro d q hd hn hheld
    rw [hcode] at hn
    obtain ⟨hd', hl⟩ := hctx d q hd hn
    rw [held_congr hl (by rw [hother])] at hheld
    rw [htested, hepoch]
    exact h.holder d q hd' hn hheld
  · intro q hq
    rw [htested, hepoch, howed]
    apply h.stale q
    rw [← hcode]
    exact hq.imp id (fun hd => ⟨hst q hd.asleep, by rw [← hch]; exact hd.chan, by rw [← hcode]; exact hd.loop⟩)

theorem Fresh.scheduler (h : Fresh lk ch m) (hi : Inv lk m) {x : Ctx} (hc : m.ctx c = x) (hs : m.scheduler c x = some m') :
    Fresh lk ch m' := by
  have hold : ∀ y d q, (∀ r, y ≠ .thread r) → update m.ctx c y d = .thread q → m.ctx d = .thread q ∧ d ≠ c := by
    intro y d q hy hd
    by_cases hdc : d = c
    · subst hdc
      exact absurd (by simpa using hd) (hy q)
    · exact ⟨by simpa [hdc] using hd, hdc⟩
  cases x with
  | idle =>
    simp only [Threads.scheduler, guard_some] at hs
    obtain ⟨hfree, rfl⟩ := hs
    refine h.schedule rfl rfl rfl rfl rfl rfl (fun _ => id) (fun d q hd _ => ?_)
    obtain ⟨hd', hdc⟩ := hold _ d q (by simp) hd
    exact ⟨hd', by simp [hfree, Ne.symm hdc]⟩
  | scan i =>
    simp only [Threads.scheduler] at hs
    split_ifs at hs
    · cases hs
      exact h.schedule rfl rfl rfl rfl rfl rfl (fun _ => id) (fun d q hd _ => ⟨(hold _ d q (by simp) hd).1, Iff.rfl⟩)
    · cases hs
      exact h.schedule rfl rfl rfl rfl rfl rfl (fun _ => id) (fun d q hd _ => ⟨(hold _ d q (by simp) hd).1, Iff.rfl⟩)
    · cases hs
      have hlock : m.lock = some c := (hi.cpu c).lock (by simp [hc, Ctx.scheduling])
      refine h.schedule rfl rfl rfl rfl rfl rfl (fun _ => id) (fun d q hd _ => ?_)
      obtain ⟨hd', hdc⟩ := hold _ d q (by simp) hd
      exact ⟨hd', by simp [hlock, Ne.symm hdc]⟩
  | picked p =>
    cases hs
    refine h.schedule rfl rfl rfl rfl rfl (by simp) (fun q => ?_) (fun d q hd _ => ⟨(hold _ d q (by simp) hd).1, Iff.rfl⟩)
    by_cases hq : q = p <;> simp [hq]
  | entering p =>
    cases hs
    refine h.schedule rfl rfl rfl rfl rfl rfl (fun _ => id) (fun d q hd hn => ⟨?_, Iff.rfl⟩)
    by_cases hdc : d = c
    · subst hdc
      obtain rfl : p = q := by simpa using hd
      obtain ⟨e, he⟩ := hi.onCpu_of_not_calm hn
      obtain rfl := hi.one e d p (by rw [he]; rfl) (by rw [hc]; rfl)
      exact he
    · simpa [hdc] using hd
  | back p =>
    cases hs
    exact h.schedule rfl rfl rfl rfl rfl rfl (fun _ => id) (fun d q hd _ => ⟨(hold _ d q (by simp) hd).1, Iff.rfl⟩)
  | thread p => simp [Threads.scheduler] at hs

theorem Fresh.step (h : Fresh lk ch m) (hi : Inv lk m) {a : Move} (hs : m.step lk ch a = some m') : Fresh lk ch m' := by
  cases a with
  | start c f =>
    simp only [Threads.step] at hs
    split at hs
    · next p hc =>
      simp only [guard_some] at hs
      obtain ⟨⟨hnil, _⟩, rfl⟩ := hs
      have ht := (hi.cpu c).typed p hc
      rw [hnil] at ht
      have hcalm : Calm (f.code lk ch) := by
        rcases (f.typed lk ch).calm with hcalm | hpt | hheld
        · exact hcalm
        · simp at hpt
        · cases lk <;> simp [Lock.held] at hheld
      exact h.goes hi hc (fun _ _ => id) (fun _ _ => rfl) (by simp [ht.2.2]) (Or.inl hcalm)
    · simp at hs
  | timer c =>
    simp only [Threads.step] at hs
    split at hs
    · next p hc =>
      simp only [guard_some] at hs
      obtain ⟨⟨hl, _⟩, rfl⟩ := hs
      have hawake : m.ptable.states p ≠ .sleeping := by
        intro hsl
        exact hl (by simpa using (((hi.cpu c).typed p hc).not_running (by simp [hsl])).1)
      exact h.goes hi hc (fun _ _ => id) (fun _ _ => rfl) hawake (Or.inl (by simp [yieldCode, Calm, drowsy]))
    · simp at hs
  | intr x =>
    simp only [Threads.step, guard_some] at hs
    obtain ⟨_, rfl⟩ := hs
    exact h.schedule rfl rfl rfl rfl rfl (by simp) (fun q => (states_wakeup1 _ _ q).sleeping) (fun d q hd _ => ⟨hd, Iff.rfl⟩)
  | run c ok =>
    simp only [Threads.step] at hs
    split at hs
    · next p hc =>
      split at hs
      · simp at hs
      · next i k hk => exact h.instr hi hc hk hs
    · next x hx => exact h.scheduler hi rfl hs

theorem bootThreads_fresh (lk : Lock) (ch : Chan) : Fresh lk ch bootThreads := by
  refine ⟨fun c p hc => by simp [bootThreads] at hc, fun p _ => Or.inl rfl⟩

/-- When every process that made the condition true has called `wakeup1`, a process asleep in the loop around the test has found
the condition false since it was last made true. -/
theorem no_lost_wakeup {as : List Move} (hr : run (step lk ch) bootThreads as = some m) (hdone : ∀ q, m.owed q = false)
    (hp : m.ptable.states p = .sleeping) (hch : m.ptable.chans p = some ch) (hloop : .await ∈ m.code p) :
    m.tested p = m.epoch := by
  have h : Inv lk m ∧ Fresh lk ch m :=
    invariant (I := fun m => Inv lk m ∧ Fresh lk ch m) (fun _ _ _ h hs => ⟨h.1.step hs, h.2.step h.1 hs⟩)
      ⟨bootThreads_inv lk, bootThreads_fresh lk ch⟩ hr
  rcases h.2.stale p (Or.inr ⟨hp, hch, hloop⟩) with ht | ⟨q, hq⟩
  · exact ht
  · simp [hdone q] at hq

/-- Process 0 sleeps; its child makes the condition true, wakes it up
and makes the condition false again before it can test it. -/
def wakeRun : List Move :=
  [List.replicate 5 (.run 0 true), [.start 0 .fork], List.replicate 8 (.run 0 true), [.start 0 (.await false)],
    List.replicate 12 (.run 0 false), [.start 0 (.signal true)], List.replicate 6 (.run 0 true), [.start 0 .reset],
    List.replicate 3 (.run 0 true), List.replicate 13 (.run 1 false)].flatten

theorem no_lost_wakeup_signalled : ∃ m, run (step .other (.other 0)) bootThreads wakeRun = some m ∧ (∀ q, m.owed q = false) ∧
    m.ptable.states 0 = .sleeping ∧ m.ptable.chans 0 = some (.other 0) ∧ m.epoch = 1 ∧ m.tested 0 = m.epoch := by
  have hend : (run (step .other (.other 0)) bootThreads wakeRun).map (fun m => (m.ptable.states 0, m.ptable.chans 0, m.epoch,
      decide (∀ q, m.owed q = false), decide (.await ∈ m.code 0))) = some (.sleeping, some (.other 0), 1, true, true) := by
    decide +kernel
  obtain ⟨m, hr, hm⟩ := Option.map_eq_some_iff.mp hend
  simp only [Prod.mk.injEq, decide_eq_true_eq] at hm
  obtain ⟨hs, hch, hepoch, hdone, hloop⟩ := hm
  exact ⟨m, hr, hdone, hs, hch, hepoch, no_lost_wakeup hr hdone hs hch hloop⟩

end Threads

end Laboratorio.Procs
