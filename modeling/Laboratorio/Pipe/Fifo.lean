import Laboratorio.Lib.Ring
import Laboratorio.Pipe.Machine

namespace Laboratorio.Pipe

open Function Runs

namespace Pc

def locked : Pc → Bool
  | .writeLoop .. | .writeFull .. | .writeWakeup .. | .writeSleep .. | .writeDrop .. | .writeLast .. | .writeRelease .. => true
  | .readTest .. | .readSleep .. | .readDrop .. | .readCopy .. | .readLast .. | .readRelease .. => true
  | .closeSet .. | .closeWakeup .. | .closeRelease => true
  | _ => false

def ptlocked : Pc → Bool
  | .writeDrop .. | .writeDoze .. | .readDrop .. | .readDoze .. => true
  | _ => false

def bed : Pc → Option Chan
  | .writeBack .. => some .nwrite
  | .readBack .. => some .nread
  | _ => none

end Pc

structure Locks (s : State) : Prop where
  lock : ∀ p, (s.pc p).locked = true ↔ s.lock = some p
  ptable : ∀ p, (s.pc p).ptlocked = true ↔ s.ptable = some p
  bed : ∀ p ch, s.asleep p = some ch → (s.pc p).bed = some ch

namespace Locks

variable {s s' : State} {p q : ℕ} {l : Pc}

section

variable (h : Locks s)

include h

theorem other (hp : (s.pc p).locked = true) (hq : q ≠ p) : (s.pc q).locked = false := by
  by_contra hn
  have hq' := (h.lock q).mp (by simpa using hn)
  exact hq (Option.some.inj (hq'.symm.trans ((h.lock p).mp hp)))

theorem step (hpc : s'.pc = update s.pc p l)
    (hlock : ∀ q, s'.lock = some q ↔ if q = p then l.locked = true else s.lock = some q)
    (hpt : ∀ q, s'.ptable = some q ↔ if q = p then l.ptlocked = true else s.ptable = some q)
    (hbed : ∀ q ch, s'.asleep q = some ch → if q = p then l.bed = some ch else s.asleep q = some ch) : Locks s' := by
  constructor
  · intro q
    rw [hlock, hpc]
    by_cases hq : q = p
    · simp [hq]
    · simp [hq, h.lock]
  · intro q
    rw [hpt, hpc]
    by_cases hq : q = p
    · simp [hq]
    · simp [hq, h.ptable]
  · intro q ch hs
    have hb := hbed q ch hs
    rw [hpc]
    by_cases hq : q = p
    · simpa [hq] using hb
    · simpa [hq] using h.bed q ch (by simpa [hq] using hb)

theorem same_lock (hl : l.locked = (s.pc p).locked) (q : ℕ) :
    s.lock = some q ↔ if q = p then l.locked = true else s.lock = some q := by
  by_cases hq : q = p
  · simp [hq, hl, h.lock]
  · simp [hq]

theorem same_ptable (hl : l.ptlocked = (s.pc p).ptlocked) (q : ℕ) :
    s.ptable = some q ↔ if q = p then l.ptlocked = true else s.ptable = some q := by
  by_cases hq : q = p
  · simp [hq, hl, h.ptable]
  · simp [hq]

theorem awake (hp : (s.pc p).bed = none) (q : ℕ) (ch : Chan) (hq : s.asleep q = some ch) :
    if q = p then l.bed = some ch else s.asleep q = some ch := by
  have hqp : q ≠ p := by
    rintro rfl
    simp [h.bed q ch hq] at hp
  simpa [hqp] using hq

theorem asleep_none (hp : (s.pc p).bed = none) : s.asleep p = none := by
  cases hs : s.asleep p with
  | none => rfl
  | some ch => simp [h.bed p ch hs] at hp

theorem goto (hpc : s'.pc = update s.pc p l) (hlock : s'.lock = s.lock) (hpt : s'.ptable = s.ptable)
    (hs : s'.asleep = s.asleep) (hl : l.locked = (s.pc p).locked) (hl' : l.ptlocked = (s.pc p).ptlocked)
    (hb : (s.pc p).bed = none) : Locks s' := by
  refine h.step hpc ?_ ?_ ?_
  · rw [hlock]
    exact h.same_lock hl
  · rw [hpt]
    exact h.same_ptable hl'
  · rw [hs]
    exact h.awake hb

theorem acquire (hs : s.acquire p l = some s') (hl : l.locked = true) (hl' : l.ptlocked = (s.pc p).ptlocked)
    (hb : s.asleep p = none) : Locks s' := by
  simp only [State.acquire, guard_some] at hs
  obtain ⟨hfree, rfl⟩ := hs
  refine h.step rfl (fun q => ?_) (h.same_ptable hl') (fun q ch hq => ?_)
  · by_cases hq : q = p
    · simp [hq, hl]
    · simp [hq, hfree, Ne.symm hq]
  · have hqp : q ≠ p := by
      rintro rfl
      simp [State.goto, hb] at hq
    rw [if_neg hqp]
    exact hq

theorem release (hp : (s.pc p).locked = true) (hl : l.locked = false) (hl' : l.ptlocked = (s.pc p).ptlocked)
    (hb : (s.pc p).bed = none) : Locks (s.release p l) := by
  refine h.step rfl (fun q => ?_) (h.same_ptable hl') (h.awake hb)
  by_cases hq : q = p
  · simp [State.release, hq, hl]
  · simp [State.release, hq, (h.lock p).mp hp, Ne.symm hq]

theorem wakeup {ch : Chan} (hs : s.wakeup p ch l = some s') (hl : l.locked = (s.pc p).locked)
    (hl' : l.ptlocked = (s.pc p).ptlocked) (hb : (s.pc p).bed = none) : Locks s' := by
  simp only [State.wakeup, guard_some] at hs
  obtain ⟨_, rfl⟩ := hs
  refine h.step rfl (h.same_lock hl) (h.same_ptable hl') (fun q ch' hq => ?_)
  apply h.awake hb
  simp only [ite_eq_iff, reduceCtorEq, and_false, false_or] at hq
  exact hq.2

theorem sleepAcquire (hs : s.sleepAcquire p l = some s') (hl : l.locked = (s.pc p).locked) (hl' : l.ptlocked = true)
    (hb : (s.pc p).bed = none) : Locks s' := by
  simp only [State.sleepAcquire, guard_some] at hs
  obtain ⟨hfree, rfl⟩ := hs
  refine h.step rfl (h.same_lock hl) (fun q => ?_) (h.awake hb)
  by_cases hq : q = p
  · simp [hq, hl']
  · simp [hq, hfree, Ne.symm hq]

theorem doze {ch : Chan} (hp : (s.pc p).ptlocked = true) (hl : l.locked = (s.pc p).locked) (hl' : l.ptlocked = false)
    (hb : l.bed = some ch) : Locks (s.doze p ch l) := by
  refine h.step rfl (h.same_lock hl) (fun q => ?_) (fun q ch' hq => ?_)
  · by_cases hq : q = p
    · simp [State.doze, hq, hl']
    · simp [State.doze, hq, (h.ptable p).mp hp, Ne.symm hq]
  · by_cases hqp : q = p
    · subst hqp
      simpa [State.doze, hb] using hq
    · simpa [State.doze, hqp] using hq

theorem next (hs : s.next p (s.pc p) = some s') : Locks s' := by
  cases hpc : s.pc p <;> simp only [hpc, State.next] at hs
  case idle => simp at hs
  case writeAcquire | readAcquire | closeAcquire => exact h.acquire hs rfl (by rw [hpc]; rfl) (h.asleep_none (by rw [hpc]; rfl))
  case writeBack | readBack =>
    simp only [Option.ite_none_right_eq_some] at hs
    exact h.acquire hs.2 rfl (by rw [hpc]; rfl) hs.1
  case writeLoop src i fresh =>
    split at hs
    · cases hs
      exact h.goto rfl rfl rfl rfl (by rw [hpc]; rfl) (by rw [hpc]; rfl) (by rw [hpc]; rfl)
    · split_ifs at hs <;> cases hs <;>
        exact h.goto rfl rfl rfl rfl (by rw [hpc]; rfl) (by rw [hpc]; rfl) (by rw [hpc]; rfl)
  case writeFull | readTest | readCopy =>
    split_ifs at hs <;> cases hs <;>
      exact h.goto rfl rfl rfl rfl (by rw [hpc]; rfl) (by rw [hpc]; rfl) (by rw [hpc]; rfl)
  case closeSet writable =>
    cases hs
    cases writable <;> exact h.goto rfl rfl rfl rfl (by rw [hpc]; rfl) (by rw [hpc]; rfl) (by rw [hpc]; rfl)
  case writeWakeup | writeLast | readLast | closeWakeup =>
    exact h.wakeup hs (by rw [hpc]; rfl) (by rw [hpc]; rfl) (by rw [hpc]; rfl)
  case writeSleep | readSleep => exact h.sleepAcquire hs (by rw [hpc]; rfl) rfl (by rw [hpc]; rfl)
  case writeDoze | readDoze =>
    cases hs
    exact h.doze (by rw [hpc]; rfl) (by rw [hpc]; rfl) rfl rfl
  all_goals
    cases hs
    exact h.release (by rw [hpc]; rfl) rfl (by rw [hpc]; rfl) (by rw [hpc]; rfl)

theorem call (hs : s.call p l = some s') (hl : l.locked = false) (hl' : l.ptlocked = false) : Locks s' := by
  simp only [State.call, guard_some] at hs
  obtain ⟨hidle, rfl⟩ := hs
  exact h.goto rfl rfl rfl rfl (by rw [hidle, hl]; rfl) (by rw [hidle, hl']; rfl) (by rw [hidle]; rfl)

theorem act {a : Act} (hs : s.step a = some s') : Locks s' := by
  cases a with
  | write p src | read p n | close p writable => exact h.call hs rfl rfl
  | kill p =>
    simp only [State.step, guard_some] at hs
    obtain ⟨_, rfl⟩ := hs
    refine ⟨h.lock, h.ptable, fun q ch hq => h.bed q ch ?_⟩
    by_cases hqp : q = p
    · simp [hqp] at hq
    · simpa [hqp] using hq
  | step p => exact h.next hs

end

end Locks

def Served (s : State) : Pc → Prop
  | .readCopy _ 0 => s.nread ≠ s.nwrite ∨ s.writeopen = false
  | .readLast n 0 => 0 < n → s.nread = s.nwrite ∧ s.writeopen = false
  | .readRelease n (some 0) => 0 < n → s.nread = s.nwrite ∧ s.writeopen = false
  | _ => True

theorem served_of_unlocked (s : State) {l : Pc} (hl : l.locked = false) : Served s l := by
  cases l <;> simp_all [Pc.locked, Served]

structure Fifo (s : State) : Prop where
  locks : Locks s
  ring : Ring pipesize s.data s.sent s.got
  nread : s.nread = UInt32.ofNat s.got.length
  nwrite : s.nwrite = UInt32.ofNat s.sent.length
  served : ∀ p, Served s (s.pc p)

namespace Fifo

variable {s s' : State} {p : ℕ} {l : Pc}

theorem empty_iff (h : Fifo s) : s.nread = s.nwrite ↔ s.got = s.sent := h.ring.empty_iff h.nread h.nwrite (by decide)

theorem quiet (h : Fifo s) (hl : Locks s') (hpc : s'.pc = update s.pc p l) (hd : s'.data = s.data) (hr : s'.nread = s.nread)
    (hw : s'.nwrite = s.nwrite) (ho : s'.writeopen = s.writeopen) (hs : s'.sent = s.sent) (hg : s'.got = s.got)
    (hserved : Served s l) : Fifo s' := by
  have hsame : ∀ x, Served s x → Served s' x := by
    intro x hx
    unfold Served at hx ⊢
    split <;> simp_all
  refine ⟨hl, by rw [hd, hs, hg]; exact h.ring, by rw [hr, hg]; exact h.nread, by rw [hw, hs]; exact h.nwrite, fun q => ?_⟩
  rw [hpc]
  by_cases hq : q = p
  · simpa [hq] using hsame l hserved
  · simpa [hq] using hsame _ (h.served q)

theorem served_others (h : Fifo s) (hp : (s.pc p).locked = true) (hpc : s'.pc = update s.pc p l) (hl : Served s' l) (q : ℕ) :
    Served s' (s'.pc q) := by
  rw [hpc]
  by_cases hq : q = p
  · simpa [hq] using hl
  · simpa [hq] using served_of_unlocked s' (h.locks.other hp hq)

theorem toNat_mod (n : ℕ) : (UInt32.ofNat n).toNat % pipesize = n % pipesize := by
  rw [UInt32.toNat_ofNat']
  unfold pipesize
  omega

theorem ofNat_succ (n : ℕ) : UInt32.ofNat n + 1 = UInt32.ofNat (n + 1) := by
  rw [UInt32.ofNat_add]
  rfl

theorem store (h : Fifo s) (hp : (s.pc p).locked = true) (hfull : ¬ s.full) (b : UInt8) (hl : Locks ((s.store b).goto p l))
    (hserved : ∀ t, Served t l) : Fifo ((s.store b).goto p l) := by
  have hroom : s.sent.length < s.got.length + pipesize := by
    apply lt_of_le_of_ne h.ring.room
    intro heq
    exact hfull ((h.ring.full_iff h.nread h.nwrite (by decide)).mpr heq)
  refine ⟨hl, ?_, h.nread, ?_, h.served_others hp rfl (hserved _)⟩
  · change Ring pipesize (update s.data (s.nwrite.toNat % pipesize) b) (s.sent ++ [b]) s.got
    rw [h.nwrite, toNat_mod]
    exact h.ring.push b hroom
  · change s.nwrite + 1 = UInt32.ofNat (s.sent ++ [b]).length
    rw [h.nwrite, ofNat_succ]
    simp

theorem deliver (h : Fifo s) (hp : (s.pc p).locked = true) (hne : s.nread ≠ s.nwrite) (hl : Locks (s.deliver.goto p l))
    (hserved : ∀ t, Served t l) : Fifo (s.deliver.goto p l) := by
  have hlt : s.got.length < s.sent.length := by
    apply lt_of_le_of_ne h.ring.length_le
    intro heq
    exact hne (h.empty_iff.mpr (h.ring.taken.eq_of_length heq))
  refine ⟨hl, ?_, ?_, h.nwrite, h.served_others hp rfl (hserved _)⟩
  · change Ring pipesize s.data s.sent (s.got ++ [s.data (s.nread.toNat % pipesize)])
    rw [h.nread, toNat_mod]
    exact h.ring.pop hlt
  · change s.nread + 1 = UInt32.ofNat (s.got ++ [s.data (s.nread.toNat % pipesize)]).length
    rw [h.nread, ofNat_succ]
    simp

theorem next (h : Fifo s) (hs : s.next p (s.pc p) = some s') : Fifo s' := by
  have hl := h.locks.next hs
  have hser := h.served p
  cases hpc : s.pc p <;> simp only [hpc, State.next] at hs
  case idle => simp at hs
  case writeLoop src i fresh =>
    split at hs
    · cases hs
      exact h.quiet hl rfl rfl rfl rfl rfl rfl rfl trivial
    · split_ifs at hs with hfull
      · cases hs
        exact h.quiet hl rfl rfl rfl rfl rfl rfl rfl trivial
      · cases hs
        exact h.store (by rw [hpc]; rfl) hfull _ hl (fun _ => trivial)
  case readTest n =>
    split_ifs at hs with htest hk
    · cases hs
      exact h.quiet hl rfl rfl rfl rfl rfl rfl rfl trivial
    · cases hs
      exact h.quiet hl rfl rfl rfl rfl rfl rfl rfl trivial
    · cases hs
      refine h.quiet hl rfl rfl rfl rfl rfl rfl rfl ?_
      by_cases he : s.nread = s.nwrite
      · exact Or.inr (by simpa [he] using htest)
      · exact Or.inl he
  case readCopy n i =>
    split_ifs at hs with hmore
    · cases hs
      exact h.deliver (by rw [hpc]; rfl) hmore.2 hl (fun _ => trivial)
    cases hs
    refine h.quiet hl rfl rfl rfl rfl rfl rfl rfl ?_
    cases i with
    | succ i => trivial
    | zero =>
      intro hn
      have he : s.nread = s.nwrite := by
        by_contra hne
        exact hmore ⟨hn, hne⟩
      rw [hpc] at hser
      exact ⟨he, hser.resolve_left (fun hne => hne he)⟩
  case readLast n i =>
    simp only [State.wakeup, Option.ite_none_right_eq_some, Option.some.injEq] at hs
    obtain ⟨_, rfl⟩ := hs
    refine h.quiet hl rfl rfl rfl rfl rfl rfl rfl ?_
    rw [hpc] at hser
    cases i with
    | zero => exact hser
    | succ i => trivial
  case closeSet writable =>
    cases hs
    cases writable with
    | true | false => exact ⟨hl, h.ring, h.nread, h.nwrite, h.served_others (by rw [hpc]; rfl) rfl trivial⟩
  case writeFull =>
    split_ifs at hs <;> cases hs <;> exact h.quiet hl rfl rfl rfl rfl rfl rfl rfl trivial
  case writeBack | readBack =>
    simp only [State.acquire, Option.ite_none_right_eq_some, Option.some.injEq] at hs
    obtain ⟨_, _, rfl⟩ := hs
    exact h.quiet hl rfl rfl rfl rfl rfl rfl rfl trivial
  case writeDrop | writeDoze | writeRelease | readDrop | readDoze | readRelease | closeRelease =>
    cases hs
    exact h.quiet hl rfl rfl rfl rfl rfl rfl rfl trivial
  all_goals
    simp only [State.acquire, State.wakeup, State.sleepAcquire, Option.ite_none_right_eq_some, Option.some.injEq] at hs
    obtain ⟨_, rfl⟩ := hs
    exact h.quiet hl rfl rfl rfl rfl rfl rfl rfl trivial

theorem act (h : Fifo s) {a : Act} (hs : s.step a = some s') : Fifo s' := by
  have hl := h.locks.act hs
  have hcall : ∀ {p l}, s.call p l = some s' → l.locked = false → Fifo s' := by
    intro p l hs hlock
    simp only [State.call, guard_some] at hs
    obtain ⟨_, rfl⟩ := hs
    exact h.quiet hl rfl rfl rfl rfl rfl rfl rfl (served_of_unlocked s hlock)
  cases a with
  | write p src | read p n | close p writable => exact hcall hs rfl
  | kill p =>
    simp only [State.step, guard_some] at hs
    obtain ⟨_, rfl⟩ := hs
    exact ⟨hl, h.ring, h.nread, h.nwrite, h.served⟩
  | step p => exact h.next hs

theorem start (data : ℕ → UInt8) : Fifo (start data) :=
  ⟨⟨by simp [Pipe.start, Pc.locked], by simp [Pipe.start, Pc.ptlocked], by simp [Pipe.start]⟩, Ring.empty _ _, rfl, rfl,
    fun _ => trivial⟩

end Fifo

theorem pipe_fifo {data : ℕ → UInt8} {as : List Act} {s : State} (hr : run State.step (start data) as = some s) :
    s.got <+: s.sent ∧ (s.nwrite - s.nread).toNat = s.sent.length - s.got.length ∧ (s.nwrite - s.nread).toNat ≤ pipesize ∧
      (∀ j, s.got.length ≤ j → j < s.sent.length → s.sent[j]? = some (s.data (j % pipesize))) ∧
      ∀ p n, 0 < n → s.pc p = .readRelease n (some 0) → s.writeopen = false ∧ s.got = s.sent := by
  have h : Fifo s := invariant (fun _ _ _ h hs => h.act hs) (Fifo.start data) hr
  have hsub := h.ring.toNat_sub h.nread h.nwrite (by decide)
  refine ⟨h.ring.taken, hsub, ?_, h.ring.held, fun p n hn hpc => ?_⟩
  · have := h.ring.room
    omega
  · have hser := h.served p
    rw [hpc] at hser
    obtain ⟨he, ho⟩ := hser hn
    exact ⟨ho, h.empty_iff.mp he⟩

def byteThenEnd : List Act :=
  .write 0 [7] :: List.replicate 5 (.step 0) ++ .read 1 4 :: List.replicate 6 (.step 1) ++ .close 0 true :: List.replicate 4
    (.step 0) ++ .read 1 4 :: List.replicate 4 (.step 1)

theorem pipe_fifo_byteThenEnd : ∃ s, run State.step (start fun _ => 0) byteThenEnd = some s ∧ s.got = [7] ∧
    s.pc 1 = .readRelease 4 (some 0) ∧ s.writeopen = false ∧ s.got = s.sent := by
  let r := run State.step (start fun _ => 0) byteThenEnd
  have hr : run State.step (start fun _ => 0) byteThenEnd = some (r.get rfl) := rfl
  exact ⟨r.get rfl, hr, rfl, rfl, (pipe_fifo hr).2.2.2.2 1 4 (by decide) rfl⟩

end Laboratorio.Pipe
