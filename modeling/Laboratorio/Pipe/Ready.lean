import Laboratorio.Pipe.Fifo

namespace Laboratorio.Pipe

open Function Runs

namespace Pc

def dozing : Pc → Option Chan
  | .writeDoze .. => some .nwrite
  | .readDoze .. => some .nread
  | _ => none

def resolved : Pc → Option Chan
  | .writeWakeup .. | .writeSleep .. | .writeDrop .. => some .nwrite
  | .readSleep .. | .readDrop .. => some .nread
  | _ => none

def owes : Pc → Chan → Bool
  | .writeLoop _ _ fresh, .nread | .writeFull _ _ fresh, .nread | .writeWakeup _ _ fresh,
    .nread | .writeLast _ fresh, .nread => fresh
  | .readCopy _ i, .nwrite | .readLast _ i, .nwrite => i != 0
  | .closeWakeup writable, .nread => writable
  | .closeWakeup writable, .nwrite => !writable
  | _, _ => false

variable {l : Pc}

theorem locked_of_resolved {ch : Chan} (h : l.resolved = some ch) : l.locked = true := by
  cases l <;> simp_all [resolved, locked]

theorem ptlocked_of_dozing {ch : Chan} (h : l.dozing = some ch) : l.ptlocked = true := by
  cases l <;> simp_all [dozing, ptlocked]

theorem dozing_of_locked (h : l.locked = true) : l.dozing = none := by
  cases l <;> simp_all [dozing, locked]

end Pc

def State.blocked (s : State) : Chan → Prop
  | .nread => s.nread = s.nwrite ∧ s.writeopen = true
  | .nwrite => s.full ∧ s.readopen = true

def State.waits (s : State) (q : ℕ) (ch : Chan) : Prop := s.asleep q = some ch ∨ (s.pc q).dozing = some ch

structure Ready (s : State) : Prop where
  locks : Locks s
  waits : ∀ q ch, s.waits q ch → s.blocked ch ∨ ∃ r, s.lock = some r ∧ (s.pc r).owes ch = true
  resolved : ∀ q ch, (s.pc q).resolved = some ch → s.blocked ch
  full : ∀ q src i fresh, s.pc q = .writeFull src i fresh → s.full

namespace Ready

variable {s s' : State} {p : ℕ} {l : Pc} {ch : Chan}

section

variable (h : Ready s)

include h

theorem held (hp : (s.pc p).locked = true) {q : ℕ} (hq : s.waits q ch) : s.blocked ch ∨ (s.pc p).owes ch = true := by
  apply (h.waits q ch hq).imp_right
  rintro ⟨r, hr, howes⟩
  obtain rfl : r = p := Option.some.inj (hr.symm.trans ((h.locks.lock p).mp hp))
  exact howes

theorem inside (hl : Locks s') (hp : (s.pc p).locked = true) (hp' : l.locked = true) (hpc : s'.pc = update s.pc p l)
    (hasleep : ∀ q ch, s'.asleep q = some ch → s.asleep q = some ch)
    (howes : ∀ q ch, s'.waits q ch → s.blocked ch ∨ (s.pc p).owes ch = true → s'.blocked ch ∨ l.owes ch = true)
    (hres : ∀ ch, l.resolved = some ch → s'.blocked ch)
    (hfull : ∀ src i fresh, l = .writeFull src i fresh → s'.full) : Ready s' := by
  have hsame : s'.pc p = l := by simp [hpc]
  have hother : ∀ {q}, q ≠ p → s'.pc q = s.pc q := fun hq => by simp [hpc, hq]
  refine ⟨hl, fun q ch hq => ?_, fun q ch hq => ?_, fun q src i fresh hq => ?_⟩
  · have hold : s.waits q ch := by
      rcases hq with hq | hq
      · exact Or.inl (hasleep q ch hq)
      · have hqp : q ≠ p := by
          rintro rfl
          rw [hsame, Pc.dozing_of_locked hp'] at hq
          simp at hq
        exact Or.inr (by rwa [hother hqp] at hq)
    apply (howes q ch hq (h.held hp hold)).imp_right
    intro ho
    exact ⟨p, (hl.lock p).mp (by rw [hsame, hp']), by rw [hsame, ho]⟩
  · by_cases hqp : q = p
    · subst hqp
      exact hres ch (by rw [← hsame, hq])
    · rw [hother hqp] at hq
      have := h.locks.other hp hqp
      simp [Pc.locked_of_resolved hq] at this
  · by_cases hqp : q = p
    · subst hqp
      exact hfull src i fresh (by rw [← hsame, hq])
    · rw [hother hqp] at hq
      have := h.locks.other hp hqp
      simp [hq, Pc.locked] at this

theorem looks (hl : Locks (s.goto p l)) (hp : (s.pc p).locked = true) (hp' : l.locked = true)
    (howes : ∀ q ch, s.waits q ch → (s.pc p).owes ch = true → l.owes ch = true)
    (hres : ∀ ch, l.resolved = some ch → s.blocked ch) (hfull : ∀ src i fresh, l = .writeFull src i fresh → s.full) :
    Ready (s.goto p l) := by
  refine h.inside hl hp hp' rfl (fun _ _ hq => hq) (fun q ch hq hor => ?_) hres hfull
  refine hor.imp_right (howes q ch (hq.imp_right fun hd => ?_))
  have hqp : q ≠ p := by
    rintro rfl
    simp [State.goto, Pc.dozing_of_locked hp'] at hd
  simpa [State.goto, hqp] using hd

theorem acquire (hl : Locks s') (hs : s.acquire p l = some s') (hb : l.dozing = none) (hres : l.resolved = none)
    (hfull : ∀ src i fresh, l ≠ .writeFull src i fresh) : Ready s' := by
  simp only [State.acquire, guard_some] at hs
  obtain ⟨hfree, rfl⟩ := hs
  refine ⟨hl, fun q ch hq => ?_, fun q ch hq => ?_, fun q src i fresh hq => ?_⟩
  · have hold : s.waits q ch := by
      refine hq.imp_right fun hd => ?_
      by_cases hqp : q = p
      · simp [State.goto, hqp, hb] at hd
      · simpa [State.goto, hqp] using hd
    refine (h.waits q ch hold).imp_right fun hheld => ?_
    obtain ⟨r, hr, -⟩ := hheld
    simp [hfree] at hr
  · by_cases hqp : q = p
    · simp [State.goto, hqp, hres] at hq
    · exact h.resolved q ch (by simpa [State.goto, hqp] using hq)
  · by_cases hqp : q = p
    · exact absurd (by simpa [State.goto, hqp] using hq) (hfull src i fresh)
    · exact h.full q src i fresh (by simpa [State.goto, hqp] using hq)

theorem release (hl : Locks (s.release p l)) (hp : (s.pc p).locked = true) (hp' : l.locked = false)
    (howes : ∀ ch, (s.pc p).owes ch = false) (hdoze : ∀ ch, l.dozing = some ch → s.blocked ch) : Ready (s.release p l) := by
  have hother : ∀ q, ((s.release p l).pc q).locked = false := by
    intro q
    by_cases hq : q = p
    · simpa [State.release, State.goto, hq] using hp'
    · simpa [State.release, State.goto, hq] using h.locks.other hp hq
  refine ⟨hl, fun q ch hq => Or.inl ?_, fun q ch hq => ?_, fun q src i fresh hq => ?_⟩
  · by_cases hd : q = p ∧ l.dozing = some ch
    · exact hdoze ch hd.2
    · have hold : s.waits q ch := by
        refine hq.imp_right fun hdq => ?_
        by_cases hqp : q = p
        · exact absurd ⟨hqp, by simpa [State.release, State.goto, hqp] using hdq⟩ hd
        · simpa [State.release, State.goto, hqp] using hdq
      exact (h.held hp hold).resolve_right (by simp [howes])
  · have := hother q
    simp [Pc.locked_of_resolved hq] at this
  · have := hother q
    simp [hq, Pc.locked] at this

theorem outside (hl : Locks s') (hp : (s.pc p).locked = false) (hp' : l.locked = false) (hpc : s'.pc = update s.pc p l)
    (hblocked : ∀ ch, s.blocked ch → s'.blocked ch) (hfull : s.full → s'.full) (hlock : s'.lock = s.lock)
    (hwaits : ∀ q ch, s'.waits q ch → s.waits q ch) : Ready s' := by
  have hother : ∀ {q}, (s'.pc q).locked = true → s'.pc q = s.pc q := by
    intro q hq
    have hqp : q ≠ p := by
      rintro rfl
      simp [hpc, hp'] at hq
    simp [hpc, hqp]
  refine ⟨hl, fun q ch hq => ?_, fun q ch hq => ?_, fun q src i fresh hq => ?_⟩
  · refine (h.waits q ch (hwaits q ch hq)).imp (hblocked ch) fun ⟨r, hr, howes⟩ => ⟨r, hlock.trans hr, ?_⟩
    rwa [hother ((hl.lock r).mpr (hlock.trans hr))]
  · rw [hother (Pc.locked_of_resolved hq)] at hq
    exact hblocked ch (h.resolved q ch hq)
  · rw [hother (by rw [hq]; rfl)] at hq
    exact hfull (h.full q src i fresh hq)

theorem wakeup (hl : Locks s') (hs : s.wakeup p ch l = some s') (hp : (s.pc p).locked = true) (hp' : l.locked = true)
    (howes : ∀ c, c ≠ ch → (s.pc p).owes c = true → l.owes c = true) (hres : ∀ c, l.resolved = some c → s.blocked c)
    (hfull : ∀ src i fresh, l ≠ .writeFull src i fresh) : Ready s' := by
  simp only [State.wakeup, guard_some] at hs
  obtain ⟨hfree, rfl⟩ := hs
  refine h.inside hl hp hp' rfl (fun q c hq => ?_) (fun q c hq hor => ?_) hres (fun _ _ _ he => absurd he (hfull _ _ _))
  · simp only [ite_eq_iff, reduceCtorEq, and_false, false_or] at hq
    exact hq.2
  · refine hor.imp_right (howes c ?_)
    rintro rfl
    rcases hq with hq | hq
    · simp only [ite_eq_iff, reduceCtorEq, and_false, false_or] at hq
      exact hq.1 hq.2
    · have := (hl.ptable q).mp (Pc.ptlocked_of_dozing hq)
      simp [State.goto, hfree] at this

theorem sleepAcquire (hl : Locks s') (hs : s.sleepAcquire p l = some s') (hp : (s.pc p).locked = true) (hp' : l.locked = true)
    (howes : ∀ ch, (s.pc p).owes ch = false) (hres : l.resolved = (s.pc p).resolved)
    (hfull : ∀ src i fresh, l ≠ .writeFull src i fresh) : Ready s' := by
  simp only [State.sleepAcquire, guard_some] at hs
  obtain ⟨_, rfl⟩ := hs
  refine h.inside hl hp hp' rfl (fun _ _ hq => hq) (fun q ch _ hor => ?_) (fun ch hc => h.resolved p ch (hres ▸ hc))
    (fun _ _ _ he => absurd he (hfull _ _ _))
  exact Or.inl (hor.resolve_right (by simp [howes]))

theorem doze (hl : Locks (s.doze p ch l)) (hp : (s.pc p).locked = false) (hp' : l.locked = false)
    (hd : (s.pc p).dozing = some ch) (hd' : l.dozing = none) : Ready (s.doze p ch l) := by
  refine h.outside hl hp hp' rfl (fun _ hb => hb) (fun hb => hb) rfl (fun q c hq => ?_)
  by_cases hqp : q = p
  · subst hqp
    refine Or.inr ?_
    rcases hq with hq | hq
    · obtain rfl : ch = c := by simpa [State.doze] using hq
      exact hd
    · simp [State.doze, State.goto, hd'] at hq
  · simpa [State.waits, State.doze, State.goto, hqp] using hq

end

end Ready

def GivesUpClean (s : State) : Act → Prop
  | .step p => ∀ src i, s.pc p = .writeFull src i true → s.readopen = false ∨ s.killed p = true → ∀ q, ¬ s.waits q .nread
  | _ => True

namespace Ready

variable {s s' : State} {p : ℕ} {l : Pc}

section

variable (h : Ready s)

include h

theorem store {src : List UInt8} {i : ℕ} {fresh : Bool} (hpc : s.pc p = .writeLoop src i fresh) (hfull : ¬ s.full) (b : UInt8)
    (hl : Locks ((s.store b).goto p (.writeLoop src (i + 1) true))) :
    Ready ((s.store b).goto p (.writeLoop src (i + 1) true)) := by
  refine h.inside hl (by rw [hpc]; rfl) rfl rfl (fun _ _ hq => hq) (fun q ch _ hor => ?_) (by simp [Pc.resolved]) (by simp)
  cases ch with
  | nread => exact Or.inr rfl
  | nwrite =>
    rcases hor with hb | ho
    · exact absurd hb.1 hfull
    · simp [hpc, Pc.owes] at ho

theorem deliver {n i : ℕ} (hpc : s.pc p = .readCopy n i) (hne : s.nread ≠ s.nwrite)
    (hl : Locks (s.deliver.goto p (.readCopy n (i + 1)))) : Ready (s.deliver.goto p (.readCopy n (i + 1))) := by
  refine h.inside hl (by rw [hpc]; rfl) rfl rfl (fun _ _ hq => hq) (fun q ch _ hor => ?_) (by simp [Pc.resolved]) (by simp)
  cases ch with
  | nread =>
    rcases hor with hb | ho
    · exact absurd hb.1 hne
    · simp [hpc, Pc.owes] at ho
  | nwrite => exact Or.inr rfl

theorem closeSet {writable : Bool} (hpc : s.pc p = .closeSet writable) (hs : s.next p (.closeSet writable) = some s')
    (hl : Locks s') : Ready s' := by
  cases hs
  have howes : ∀ ch, (s.pc p).owes ch = false := by simp [hpc, Pc.owes]
  cases writable with
  | true =>
    refine h.inside hl (by rw [hpc]; rfl) rfl rfl (fun _ _ hq => hq) (fun q ch _ hor => ?_) (by simp [Pc.resolved]) (by simp)
    cases ch with
    | nread => exact Or.inr rfl
    | nwrite => exact Or.inl (hor.resolve_right (by simp [howes]))
  | false =>
    refine h.inside hl (by rw [hpc]; rfl) rfl rfl (fun _ _ hq => hq) (fun q ch _ hor => ?_) (by simp [Pc.resolved]) (by simp)
    cases ch with
    | nread => exact Or.inl (hor.resolve_right (by simp [howes]))
    | nwrite => exact Or.inr rfl

theorem next (hc : GivesUpClean s (.step p)) (hs : s.next p (s.pc p) = some s') : Ready s' := by
  have hl := h.locks.next hs
  cases hpc : s.pc p <;> simp only [hpc, State.next] at hs
  case idle => simp at hs
  case writeAcquire | readAcquire | closeAcquire => exact h.acquire hl hs rfl rfl (by simp)
  case writeBack | readBack =>
    simp only [Option.ite_none_right_eq_some] at hs
    exact h.acquire hl hs.2 rfl rfl (by simp)
  case writeLoop src i fresh =>
    split at hs
    · cases hs
      refine h.looks hl (by rw [hpc]; rfl) rfl (fun q ch _ => ?_) (by simp [Pc.resolved]) (by simp)
      cases ch <;> simp [hpc, Pc.owes]
    · split_ifs at hs with hfull
      · cases hs
        refine h.looks hl (by rw [hpc]; rfl) rfl (fun q ch _ => ?_) (by simp [Pc.resolved]) (fun _ _ _ _ => hfull)
        cases ch <;> simp [hpc, Pc.owes]
      · cases hs
        exact h.store hpc hfull _ hl
  case writeFull src i fresh =>
    split_ifs at hs with hstop
    · cases hs
      refine h.looks hl (by rw [hpc]; rfl) rfl (fun q ch hq => ?_) (by simp [Pc.resolved]) (by simp)
      cases ch with
      | nwrite => simp [hpc, Pc.owes]
      | nread =>
        cases fresh with
        | false => simp [hpc, Pc.owes]
        | true => exact absurd hq (hc src i hpc hstop q)
    · cases hs
      refine h.looks hl (by rw [hpc]; rfl) rfl (fun q ch _ => ?_) (fun ch hr => ?_) (by simp)
      · cases ch <;> simp [hpc, Pc.owes]
      · obtain rfl : .nwrite = ch := by simpa [Pc.resolved] using hr
        exact ⟨h.full p src i fresh hpc, by simpa using (not_or.mp hstop).1⟩
  case writeWakeup src i fresh =>
    refine h.wakeup hl hs (by rw [hpc]; rfl) rfl (fun ch hne => ?_)
      (fun ch hr => h.resolved p ch (by rw [hpc]; exact hr)) (by simp)
    cases ch <;> simp_all [Pc.owes]
  case writeLast | readLast =>
    refine h.wakeup hl hs (by rw [hpc]; rfl) rfl (fun ch hne => ?_) (by simp [Pc.resolved]) (by simp)
    cases ch <;> simp_all [Pc.owes]
  case closeWakeup writable =>
    refine h.wakeup hl hs (by rw [hpc]; rfl) rfl (fun ch hne => ?_) (by simp [Pc.resolved]) (by simp)
    cases ch <;> cases writable <;> simp_all [Pc.owes]
  case writeSleep | readSleep =>
    exact h.sleepAcquire hl hs (by rw [hpc]; rfl) rfl (by simp [hpc, Pc.owes]) (by rw [hpc]; rfl) (by simp)
  case readTest n =>
    split_ifs at hs with htest hk
    · cases hs
      exact h.looks hl (by rw [hpc]; rfl) rfl (by simp [hpc, Pc.owes]) (by simp [Pc.resolved]) (by simp)
    · cases hs
      refine h.looks hl (by rw [hpc]; rfl) rfl (by simp [hpc, Pc.owes]) (fun ch hr => ?_) (by simp)
      obtain rfl : .nread = ch := by simpa [Pc.resolved] using hr
      exact htest
    · cases hs
      exact h.looks hl (by rw [hpc]; rfl) rfl (by simp [hpc, Pc.owes]) (by simp [Pc.resolved]) (by simp)
  case readCopy n i =>
    split_ifs at hs with hmore
    · cases hs
      exact h.deliver hpc hmore.2 hl
    · cases hs
      refine h.looks hl (by rw [hpc]; rfl) rfl (fun q ch _ => ?_) (by simp [Pc.resolved]) (by simp)
      cases ch <;> simp [hpc, Pc.owes]
  case closeSet => exact h.closeSet hpc hs hl
  case writeDrop | readDrop =>
    cases hs
    refine h.release hl (by rw [hpc]; rfl) rfl (by simp [hpc, Pc.owes]) (fun ch hd => h.resolved p ch (by rw [hpc]; exact hd))
  case writeRelease | readRelease | closeRelease =>
    cases hs
    exact h.release hl (by rw [hpc]; rfl) rfl (by simp [hpc, Pc.owes]) (by simp [Pc.dozing])
  case writeDoze | readDoze =>
    cases hs
    exact h.doze hl (by rw [hpc]; rfl) rfl (by rw [hpc]; rfl) rfl

theorem call (hl : Locks s') (hs : s.call p l = some s') (hp' : l.locked = false) (hd : l.dozing = none) : Ready s' := by
  simp only [State.call, guard_some] at hs
  obtain ⟨hidle, rfl⟩ := hs
  refine h.outside hl (by rw [hidle]; rfl) hp' rfl (fun _ hb => hb) (fun hb => hb) rfl
    (fun q ch hq => hq.imp_right fun hq => ?_)
  by_cases hqp : q = p
  · simp [State.goto, hqp, hd] at hq
  · simpa [State.goto, hqp] using hq

theorem act {a : Act} (hc : GivesUpClean s a) (hs : s.step a = some s') : Ready s' := by
  have hl := h.locks.act hs
  cases a with
  | write p src | read p n | close p writable => exact h.call hl hs rfl rfl
  | kill p =>
    simp only [State.step, guard_some] at hs
    obtain ⟨_, rfl⟩ := hs
    refine ⟨hl, fun q ch hq => h.waits q ch (hq.imp_left fun hq => ?_), h.resolved, h.full⟩
    by_cases hqp : q = p
    · simp [hqp] at hq
    · simpa [hqp] using hq
  | step p => exact h.next hc hs

end

theorem start (data : ℕ → UInt8) : Ready (start data) :=
  ⟨(Fifo.start data).locks, by simp [State.waits, Pipe.start, Pc.dozing],
    by simp [Pipe.start, Pc.resolved], by simp [Pipe.start]⟩

end Ready

theorem asleep_not_ready {data : ℕ → UInt8} {as : List Act} {s : State} (hc : Along State.step GivesUpClean (start data) as)
    (hr : run State.step (start data) as = some s) (hfree : s.lock = none) (q : ℕ) :
    (s.asleep q = some .nread → s.nread = s.nwrite ∧ s.writeopen = true) ∧
      (s.asleep q = some .nwrite → s.nwrite = s.nread + UInt32.ofNat pipesize ∧ s.readopen = true) := by
  have h : Ready s := invariant_along (fun _ _ _ h hc hs => h.act hc hs) (Ready.start data) hc hr
  have hblocked : ∀ ch, s.asleep q = some ch → s.blocked ch := by
    intro ch hq
    refine (h.waits q ch (Or.inl hq)).resolve_right ?_
    rintro ⟨r, hr, _⟩
    simp [hfree] at hr
  exact ⟨hblocked .nread, hblocked .nwrite⟩

def readerSleeps : List Act := .read 0 1 :: List.replicate 5 (.step 0)

theorem asleep_not_ready_reader : ∃ s, run State.step (start fun _ => 0) readerSleeps = some s ∧ s.lock = none ∧
    s.asleep 0 = some .nread ∧ s.nread = s.nwrite ∧ s.writeopen = true := by
  let r := run State.step (start fun _ => 0) readerSleeps
  have hr : run State.step (start fun _ => 0) readerSleeps = some (r.get rfl) := rfl
  have hc : Along State.step GivesUpClean (start fun _ => 0) readerSleeps := by
    simp [readerSleeps, List.replicate, Along, GivesUpClean, State.step, State.call, State.next, State.acquire, State.goto,
      State.sleepAcquire, State.release, State.doze, start]
  exact ⟨r.get rfl, hr, rfl, rfl, (asleep_not_ready hc hr rfl 0).1 rfl⟩

def writerKilled : List Act :=
  readerSleeps ++ .write 1 (List.replicate (pipesize + 1) 0) :: .kill 1 :: List.replicate (pipesize + 4) (.step 1)

theorem asleep_on_full_pipe : ∃ s, run State.step (start fun _ => 0) writerKilled = some s ∧ s.lock = none ∧ s.pc 1 = .idle ∧
    s.asleep 0 = some .nread ∧ s.nread = 0 ∧ s.nwrite = 512 ∧ s.writeopen = true := by
  have h : (run State.step (start fun _ => 0) writerKilled).any (fun s => s.lock = none ∧ s.pc 1 = .idle ∧
    s.asleep 0 = some .nread ∧ s.nread = 0 ∧ s.nwrite = 512 ∧ s.writeopen = true) = true := by decide +kernel
  simpa [Option.any_eq_true] using h

end Laboratorio.Pipe
