import Laboratorio.Console.Machine
import Laboratorio.Lib.Ring

namespace Laboratorio.Console

open Function Runs State

variable {P : Type} {s t : State P} {consumed edit : List UInt8}

/-- `consumed` are the committed characters that `input.r` has passed, and `edit` the line being edited. -/
structure Holds (s : State P) (consumed edit : List UInt8) : Prop where
  ring : Ring inputBuf s.buf (s.committed ++ edit) consumed
  passed : consumed <+: s.committed
  r : s.r = UInt32.ofNat consumed.length
  w : s.w = UInt32.ofNat s.committed.length
  e : s.e = UInt32.ofNat (s.committed ++ edit).length
  stored : s.stored = consumed.filter (· ≠ ctrl 'D')

theorem index_ofNat (n : ℕ) : index (UInt32.ofNat n) = n % inputBuf := by
  exact Nat.mod_mod_of_dvd n (by decide)

theorem window_ofNat (s : State P) {a b : ℕ} (hab : a ≤ b) (hlt : b - a < 2 ^ 32) :
    s.window (UInt32.ofNat a) (UInt32.ofNat b) = (List.range (b - a)).map fun i => s.buf ((a + i) % inputBuf) := by
  have hsub : (UInt32.ofNat b - UInt32.ofNat a).toNat = b - a := by
    rw [UInt32.toNat_sub, UInt32.toNat_ofNat', UInt32.toNat_ofNat']
    omega
  rw [State.window, hsub]
  simp only [← UInt32.ofNat_add, index_ofNat]

inductive Round [DecidableEq P] (s : State P) (p : P) (target : UInt32) (n : Int32) (got : List UInt8) : State P → Prop
  | done (hn : n ≤ 0) : Round s p target n got (s.finish p target n got)
  | killed (hn : ¬ n ≤ 0) : Round s p target n got { s.goto p (.returned target (-1) got) with lock := none }
  | sleeps (hn : ¬ n ≤ 0) : Round s p target n got { s.goto p (.asleep target n got) with lock := none }
  | eof (hn : ¬ n ≤ 0) (hne : s.r ≠ s.w) (hd : s.buf (index s.r) = ctrl 'D') (hfirst : ¬ n.toUInt32 < target) :
      Round s p target n got (State.finish { s with r := s.r + 1 } p target n got)
  | unread (hn : ¬ n ≤ 0) (hne : s.r ≠ s.w) (hd : s.buf (index s.r) = ctrl 'D') (hlater : n.toUInt32 < target) :
      Round s p target n got (s.finish p target n got)
  | line (hn : ¬ n ≤ 0) (hne : s.r ≠ s.w) (hd : s.buf (index s.r) ≠ ctrl 'D') :
      Round s p target n got (State.finish { s with r := s.r + 1, stored := s.stored ++ [s.buf (index s.r)] } p target (n - 1)
        (got ++ [s.buf (index s.r)]))
  | char (hn : ¬ n ≤ 0) (hne : s.r ≠ s.w) (hd : s.buf (index s.r) ≠ ctrl 'D') :
      Round s p target n got (State.goto { s with r := s.r + 1, stored := s.stored ++ [s.buf (index s.r)] } p
        (.loop target (n - 1) (got ++ [s.buf (index s.r)])))

theorem round_cases [DecidableEq P] (s : State P) (p : P) (target : UInt32) (n : Int32) (got : List UInt8) :
    Round s p target n got (s.round p target n got) := by
  unfold State.round
  by_cases hn : n ≤ 0
  · rw [if_pos hn]
    exact .done hn
  by_cases hrw : s.r = s.w
  · split_ifs
    · exact .killed hn
    · exact .sleeps hn
  by_cases hd : s.buf (index s.r) = ctrl 'D'
  · simp only [if_pos hd]
    split_ifs with hlater
    · rw [UInt32.add_sub_cancel]
      exact .unread hn hrw hd hlater
    · exact .eof hn hrw hd hlater
  · simp only [if_neg hd]
    split_ifs
    · exact .line hn hrw hd
    · exact .char hn hrw hd

namespace Holds

theorem room (h : Holds s consumed edit) :
    consumed.length ≤ s.committed.length ∧ s.committed.length + edit.length ≤ consumed.length + 128 := by
  have hroom := h.ring.room
  rw [List.length_append] at hroom
  exact ⟨h.passed.length_le, hroom⟩

theorem boot (buf : ℕ → UInt8) : Holds (boot buf : State P) [] [] :=
  ⟨Ring.empty _ _, List.prefix_rfl, rfl, rfl, rfl, rfl⟩

section

variable (h : Holds s consumed edit)

include h

theorem congr (hb : t.buf = s.buf) (hr : t.r = s.r) (hw : t.w = s.w) (he : t.e = s.e)
    (hc : t.committed = s.committed) (hs : t.stored = s.stored) : Holds t consumed edit := by
  refine ⟨?_, ?_, ?_, ?_, ?_, ?_⟩
  · rw [hb, hc]
    exact h.ring
  · rw [hc]
    exact h.passed
  · rw [hr, h.r]
  · rw [hw, hc, h.w]
  · rw [he, hc, h.e]
  · rw [hs, h.stored]

theorem w_sub_r : (s.w - s.r).toNat = s.committed.length - consumed.length := by
  have := h.room
  rw [h.w, h.r, UInt32.toNat_sub, UInt32.toNat_ofNat', UInt32.toNat_ofNat']
  omega

theorem e_sub_r : (s.e - s.r).toNat = s.committed.length + edit.length - consumed.length := by
  rw [h.ring.toNat_sub h.r h.e (by decide), List.length_append]

theorem e_ne_w : s.e ≠ s.w ↔ edit ≠ [] := by
  have hroom := h.room
  rw [← List.length_pos_iff_ne_nil, h.e, h.w, Ne, ← UInt32.toNat_inj, UInt32.toNat_ofNat', UInt32.toNat_ofNat',
    List.length_append]
  omega

theorem r_ne_w : s.r ≠ s.w ↔ consumed.length < s.committed.length := by
  have hroom := h.room
  rw [h.r, h.w, Ne, ← UInt32.toNat_inj, UInt32.toNat_ofNat', UInt32.toNat_ofNat']
  omega

theorem unread : s.window s.r s.w = s.committed.drop consumed.length := by
  have hroom := h.room
  rw [h.r, h.w, window_ofNat s hroom.1 (by omega)]
  rw [h.ring.window le_rfl (by simp), List.take_left]

theorem editing : s.window s.w s.e = edit := by
  have hroom := h.room
  rw [h.w, h.e, window_ofNat s (by simp) (by simp; omega), h.ring.window hroom.1 le_rfl, List.take_length, List.drop_left]

theorem backspace (hne : edit ≠ []) : Holds { s with e := s.e - 1 } consumed edit.dropLast := by
  obtain ⟨l, x, rfl⟩ := (List.eq_nil_or_concat' edit).resolve_left hne
  have hring := h.ring
  rw [← List.append_assoc] at hring
  rw [List.dropLast_concat]
  refine ⟨hring.undo ?_, h.passed, h.r, h.w, ?_, h.stored⟩
  · rw [List.length_append]
    have := h.room
    omega
  · rw [h.e, ← List.append_assoc, List.length_append, List.length_singleton, UInt32.ofNat_add]
    exact UInt32.add_sub_cancel _ _

theorem killLine (k : ℕ) : ∃ edit', Holds (s.killLine k) consumed edit' := by
  induction k generalizing s edit with
  | zero => exact ⟨edit, h⟩
  | succ k ih =>
    rw [State.killLine]
    split_ifs with hc
    · exact ih (h.backspace (h.e_ne_w.mp hc.1))
    · exact ⟨edit, h⟩

theorem type (hroom : s.e - s.r < 128) (c : UInt8) :
    Holds { s with buf := update s.buf (index s.e) c, e := s.e + 1 } consumed (edit ++ [c]) := by
  have hlt : (s.committed ++ edit).length < consumed.length + inputBuf := by
    rw [UInt32.lt_iff_toNat_lt, h.e_sub_r] at hroom
    simp only [List.length_append, inputBuf]
    simp at hroom
    omega
  have hpush := h.ring.push c hlt
  rw [List.append_assoc] at hpush
  refine ⟨?_, h.passed, h.r, h.w, ?_, h.stored⟩
  · rw [h.e, index_ofNat]
    exact hpush
  · have hlen : (s.committed ++ (edit ++ [c])).length = (s.committed ++ edit).length + 1 := by
      rw [← List.append_assoc, List.length_append, List.length_singleton]
    rw [h.e, hlen, UInt32.ofNat_add]
    rfl

theorem commit : Holds s.commit consumed [] ∧ s.commit.committed = s.committed ++ edit := by
  have hc : s.commit.committed = s.committed ++ edit := by
    change s.committed ++ s.window s.w s.e = _
    rw [h.editing]
  refine ⟨⟨?_, ?_, h.r, ?_, ?_, h.stored⟩, hc⟩
  · rw [hc, List.append_nil]
    exact h.ring
  · exact h.passed.trans (List.prefix_append _ _)
  · rw [hc]
    exact h.e
  · rw [hc, List.append_nil]
    exact h.e

end

theorem killLine_frame (s : State P) (k : ℕ) : ∃ e, s.killLine k = { s with e := e } := by
  induction k generalizing s with
  | zero => exact ⟨s.e, rfl⟩
  | succ k ih =>
    rw [State.killLine]
    split_ifs
    · exact ih { s with e := s.e - 1 }
    · exact ⟨s.e, rfl⟩

section

variable (h : Holds s consumed edit)

include h

theorem commitIf (q : Prop) [Decidable q] : ∃ edit', Holds (if q then s.commit else s) consumed edit' ∧
    s.committed <+: (if q then s.commit else s).committed := by
  split_ifs
  · obtain ⟨hc, heq⟩ := h.commit
    exact ⟨[], hc, heq ▸ List.prefix_append _ _⟩
  · exact ⟨edit, h, List.prefix_rfl⟩

theorem key (c : UInt8) : ∃ edit', Holds (s.key c) consumed edit' ∧ s.committed <+: (s.key c).committed ∧
    (c = ctrl 'U' ∨ c = ctrl 'H' ∨ c = 0x7f → (s.key c).committed = s.committed) := by
  unfold State.key
  by_cases hp : c = ctrl 'P'
  · rw [if_pos hp]
    exact ⟨edit, h, List.prefix_rfl, fun _ => rfl⟩
  rw [if_neg hp]
  by_cases hu : c = ctrl 'U'
  · rw [if_pos hu]
    obtain ⟨edit', h'⟩ := h.killLine (s.e - s.w).toNat
    obtain ⟨e, he⟩ := killLine_frame s (s.e - s.w).toNat
    have hc : (s.killLine (s.e - s.w).toNat).committed = s.committed := by rw [he]
    exact ⟨edit', h', hc ▸ List.prefix_rfl, fun _ => hc⟩
  rw [if_neg hu]
  by_cases hbs : c = ctrl 'H' ∨ c = 0x7f
  · split_ifs with hne
    · exact ⟨_, h.backspace (h.e_ne_w.mp hne), List.prefix_rfl, fun _ => rfl⟩
    · exact ⟨edit, h, List.prefix_rfl, fun _ => rfl⟩
  have hno : ¬ (c = ctrl 'U' ∨ c = ctrl 'H' ∨ c = 0x7f) := by
    rintro (hc | hc)
    · exact hu hc
    · exact hbs hc
  rw [if_neg hbs]
  by_cases hput : c ≠ 0 ∧ s.e - s.r < 128
  · rw [if_pos hput]
    let c' := if c = '\r'.toUInt8 then newline else c
    obtain ⟨edit', h', hpre⟩ := (h.type hput.2 c').commitIf (c' = newline ∨ c' = ctrl 'D' ∨ s.e + 1 = s.r + 128)
    exact ⟨edit', h', hpre, fun hc => absurd hc hno⟩
  · rw [if_neg hput]
    exact ⟨edit, h, List.prefix_rfl, fun _ => rfl⟩

theorem keys (cs : List UInt8) : ∃ edit', Holds (cs.foldl State.key s) consumed edit' ∧
    s.committed <+: (cs.foldl State.key s).committed ∧
    ((∀ c ∈ cs, c = ctrl 'U' ∨ c = ctrl 'H' ∨ c = 0x7f) → (cs.foldl State.key s).committed = s.committed) := by
  induction cs generalizing s edit with
  | nil => exact ⟨edit, h, List.prefix_rfl, fun _ => rfl⟩
  | cons c cs ih =>
    obtain ⟨edit₁, h₁, hpre₁, heq₁⟩ := h.key c
    obtain ⟨edit₂, h₂, hpre₂, heq₂⟩ := ih h₁
    refine ⟨edit₂, h₂, hpre₁.trans hpre₂, fun hall => ?_⟩
    rw [List.foldl_cons, heq₂ fun d hd => hall d (by simp [hd]), heq₁ (hall c (by simp))]

theorem take (hne : s.r ≠ s.w) : ∃ rest, s.committed = consumed ++ s.buf (index s.r) :: rest ∧
    ∀ u : State P, u.buf = s.buf → u.r = s.r + 1 → u.w = s.w → u.e = s.e → u.committed = s.committed →
      u.stored = (consumed ++ [s.buf (index s.r)]).filter (· ≠ ctrl 'D') → Holds u (consumed ++ [s.buf (index s.r)]) edit := by
  have hlt := h.r_ne_w.mp hne
  have hpop := h.ring.pop (by rw [List.length_append]; omega)
  rw [← index_ofNat, ← h.r] at hpop
  have hpre : consumed ++ [s.buf (index s.r)] <+: s.committed := by
    apply List.prefix_of_prefix_length_le hpop.taken (List.prefix_append _ _)
    rw [List.length_append, List.length_singleton]
    omega
  obtain ⟨rest, hrest⟩ := hpre
  refine ⟨rest, by rw [← hrest]; simp, fun u hb hr hw he hc hs => ⟨?_, ?_, ?_, ?_, ?_, hs⟩⟩
  · rw [hb, hc]
    exact hpop
  · rw [hc]
    exact ⟨rest, hrest⟩
  · rw [hr, h.r, List.length_append, List.length_singleton, UInt32.ofNat_add]
    rfl
  · rw [hw, hc, h.w]
  · rw [he, hc, h.e]

end

variable [DecidableEq P]

theorem round (h : Holds s consumed edit) {p : P} {target : UInt32} {n : Int32} {got : List UInt8}
    (hs : Round s p target n got t) : ∃ consumed', Holds t consumed' edit := by
  cases hs with
  | done | killed | sleeps => exact ⟨consumed, h.congr rfl rfl rfl rfl rfl rfl⟩
  | eof hn hne hd =>
    obtain ⟨_, _, htake⟩ := h.take hne
    exact ⟨_, htake _ rfl rfl rfl rfl rfl (by simp [State.finish, State.goto, h.stored, hd])⟩
  | unread => exact ⟨consumed, h.congr rfl rfl rfl rfl rfl rfl⟩
  | line hn hne hd =>
    obtain ⟨_, _, htake⟩ := h.take hne
    exact ⟨_, htake _ rfl rfl rfl rfl rfl (by simp [State.finish, State.goto, h.stored, hd])⟩
  | char hn hne hd =>
    obtain ⟨_, _, htake⟩ := h.take hne
    exact ⟨_, htake _ rfl rfl rfl rfl rfl (by simp [State.goto, h.stored, hd])⟩

theorem step (h : Holds s consumed edit) {a : Act P} (hs : s.step a = some t) : ∃ consumed' edit', Holds t consumed' edit' := by
  cases a with
  | consoleintr cs =>
    simp only [State.step, Option.ite_none_right_eq_some, Option.some.injEq] at hs
    obtain ⟨_, rfl⟩ := hs
    obtain ⟨edit', h', _⟩ := h.keys cs
    exact ⟨consumed, edit', h'⟩
  | consoleread p n =>
    simp only [State.step] at hs
    split at hs
    · cases hs
      exact ⟨consumed, edit, h.congr rfl rfl rfl rfl rfl rfl⟩
    · cases hs
      exact ⟨consumed, edit, h.congr rfl rfl rfl rfl rfl rfl⟩
    · simp at hs
  | kill p =>
    cases hs
    exact ⟨consumed, edit, h.congr rfl rfl rfl rfl rfl rfl⟩
  | step p =>
    simp only [State.step] at hs
    cases hp : s.pc p <;> rw [hp] at hs <;> simp only [State.next, Option.ite_none_right_eq_some, Option.some.injEq,
      reduceCtorEq] at hs
    case acquire =>
      obtain ⟨_, rfl⟩ := hs
      exact ⟨consumed, edit, h.congr rfl rfl rfl rfl rfl rfl⟩
    case loop target n got =>
      subst hs
      obtain ⟨consumed', h'⟩ := h.round (round_cases s p target n got)
      exact ⟨consumed', edit, h'⟩

end Holds

def Pc.call : Pc → Option (UInt32 × Int32 × List UInt8)
  | .acquire target n got | .loop target n got | .asleep target n got => some (target, n, got)
  | _ => none

structure Counts (target : UInt32) (n : Int32) (got : List UInt8) : Prop where
  sum : n.toInt + got.length = target.toInt32.toInt
  nonneg : got ≠ [] → 0 ≤ n.toInt

namespace Counts

variable {target : UInt32} {n : Int32} {got : List UInt8}

theorem start (n : Int32) : Counts n.toUInt32 n [] := ⟨by simp, by simp⟩

theorem store (h : Counts target n got) (hn : ¬ n ≤ 0) (c : UInt8) : Counts target (n - 1) (got ++ [c]) := by
  have hpos : 0 < n.toInt := by
    rw [Int32.le_iff_toInt_le] at hn
    simpa using hn
  have hlt := Int32.toInt_lt n
  have hsub : (n - 1).toInt = n.toInt - 1 := by
    rw [Int32.toInt_sub, Int32.toInt_one, Int.bmod_def]
    split_ifs <;> omega
  have hsum := h.sum
  refine ⟨?_, fun _ => ?_⟩
  · rw [hsub, List.length_append, List.length_singleton]
    omega
  · omega

theorem value (h : Counts target n got) : (target - n.toUInt32).toInt32.toInt = got.length := by
  have hsum := h.sum
  have hlt := Int32.toInt_lt target.toInt32
  have hlen : (got.length : ℤ) < 2 ^ 31 := by
    by_cases hg : got = []
    · simp [hg]
    · have := h.nonneg hg
      omega
  have hsub : (target - n.toUInt32).toInt32 = target.toInt32 - n := by simp
  rw [hsub, Int32.toInt_sub, Int.bmod_def]
  split_ifs <;> omega

end Counts

def Pc.wokenTo (l l' : Pc) : Prop := l' = l ∨ ∃ target n got, l = .asleep target n got ∧ l' = .acquire target n got

variable {a b : Pc}

theorem Pc.wokenTo.trans {c : Pc} (h : a.wokenTo b) (h' : b.wokenTo c) : a.wokenTo c := by
  rcases h' with rfl | ⟨target, n, got, rfl, rfl⟩
  · exact h
  · rcases h with rfl | ⟨_, _, _, _, h⟩
    · exact Or.inr ⟨target, n, got, rfl, rfl⟩
    · simp at h

theorem Pc.wokenTo.call (h : a.wokenTo b) : b.call = a.call := by
  rcases h with rfl | ⟨_, _, _, rfl, rfl⟩ <;> rfl

variable {target : UInt32} {got : List UInt8}

theorem Pc.wokenTo.returned (h : a.wokenTo b) {v : Int32} (hb : b = .returned target v got) : a = .returned target v got := by
  rcases h with rfl | ⟨_, _, _, rfl, rfl⟩
  · exact hb
  · simp at hb

theorem wakeup_woken (s : State P) (p : P) : (s.pc p).wokenTo (s.wakeup.pc p) := by
  simp only [State.wakeup]
  split
  · next target n got hp => exact Or.inr ⟨target, n, got, hp, rfl⟩
  · exact Or.inl rfl

theorem commitIf_woken (s : State P) (q : Prop) [Decidable q] (p : P) :
    (s.pc p).wokenTo ((if q then s.commit else s).pc p) := by
  split_ifs
  · exact wakeup_woken s p
  · exact Or.inl rfl

theorem key_woken (s : State P) (c : UInt8) (p : P) : (s.pc p).wokenTo ((s.key c).pc p) := by
  unfold State.key
  split
  · exact Or.inl rfl
  split
  · obtain ⟨e, he⟩ := Holds.killLine_frame s (s.e - s.w).toNat
    rw [he]
    exact Or.inl rfl
  split
  · split_ifs <;> exact Or.inl rfl
  split
  · exact commitIf_woken { s with buf := update s.buf (index s.e) _, e := s.e + 1 } _ p
  · exact Or.inl rfl

theorem keys_woken (s : State P) (cs : List UInt8) (p : P) : (s.pc p).wokenTo ((cs.foldl State.key s).pc p) := by
  induction cs generalizing s with
  | nil => exact Or.inl rfl
  | cons c cs ih => exact (key_woken s c p).trans (ih (s.key c))

variable [DecidableEq P] {p : P}

theorem kill_woken (hs : s.step (.kill p) = some t) (q : P) : (s.pc q).wokenTo (t.pc q) := by
  cases hs
  cases hp : s.pc p
  case asleep target n got =>
    by_cases hq : q = p
    · subst hq
      exact Or.inr ⟨target, n, got, hp, by simp⟩
    · exact Or.inl (by simp [hq])
  all_goals exact Or.inl rfl

def Counted (s : State P) : Prop := ∀ p target n got, (s.pc p).call = some (target, n, got) → Counts target n got

omit [DecidableEq P] in
theorem Counted.woken (h : Counted s) (hw : ∀ p, (s.pc p).wokenTo (t.pc p)) : Counted t := by
  intro p target n got hp
  rw [(hw p).call] at hp
  exact h p target n got hp

theorem Counted.goto (h : Counted s) {l : Pc} (hpc : t.pc = update s.pc p l)
    (hl : ∀ target n got, l.call = some (target, n, got) → Counts target n got) : Counted t := by
  intro q target n got hq
  rw [hpc] at hq
  by_cases hqp : q = p
  · subst hqp
    exact hl target n got (by simpa using hq)
  · exact h q target n got (by simpa [hqp] using hq)

variable {n : Int32}

theorem Counted.round (h : Counted s) (hp : s.pc p = .loop target n got) (hs : Round s p target n got t) : Counted t := by
  have hc : Counts target n got := h p target n got (by rw [hp]; rfl)
  cases hs with
  | sleeps =>
    apply h.goto rfl
    intro target' n' got' hl
    obtain ⟨rfl, rfl, rfl⟩ : target = target' ∧ n = n' ∧ got = got' := by simpa [Pc.call] using hl
    exact hc
  | char hn =>
    apply h.goto rfl
    intro target' n' got' hl
    obtain ⟨rfl, rfl, rfl⟩ : target = target' ∧ n - 1 = n' ∧ got ++ [s.buf (index s.r)] = got' := by simpa [Pc.call] using hl
    exact hc.store hn _
  | _ => exact h.goto rfl (by simp [Pc.call])

theorem Counted.step (h : Counted s) {a : Act P} (hs : s.step a = some t) : Counted t := by
  cases a with
  | consoleintr cs =>
    simp only [State.step, Option.ite_none_right_eq_some, Option.some.injEq] at hs
    obtain ⟨_, rfl⟩ := hs
    exact h.woken (keys_woken s cs)
  | consoleread p n =>
    have hstart : ∀ target n' got', (Pc.acquire n.toUInt32 n []).call = some (target, n', got') → Counts target n' got' := by
      rintro target n' got' hl
      obtain ⟨rfl, rfl, rfl⟩ : n.toUInt32 = target ∧ n = n' ∧ [] = got' := by simpa [Pc.call] using hl
      exact Counts.start n
    simp only [State.step] at hs
    split at hs
    · cases hs
      exact h.goto rfl hstart
    · cases hs
      exact h.goto rfl hstart
    · simp at hs
  | kill p => exact h.woken (kill_woken hs)
  | step p =>
    simp only [State.step] at hs
    cases hp : s.pc p <;> rw [hp] at hs <;> simp only [State.next, Option.ite_none_right_eq_some, Option.some.injEq,
      reduceCtorEq] at hs
    case acquire target n got =>
      obtain ⟨_, rfl⟩ := hs
      apply h.goto rfl
      intro target' n' got' hl
      exact h p target' n' got' (by rw [hp]; exact hl)
    case loop target n got =>
      subst hs
      exact h.round hp (round_cases s p target n got)

theorem Round.pc_of_ne {q : P} (hs : Round s q target n got t) (hpq : p ≠ q) : t.pc p = s.pc p := by
  cases hs <;> simp [State.finish, State.goto, hpq]

theorem Round.eof_of_zero {target' : UInt32} {got' : List UInt8} (hs : Round s p target n got t)
    (hc : Counts target n got) (ht : t.pc p = .returned target' 0 got') (hpos : 0 < target'.toInt32) :
    got' = [] ∧ s.r ≠ s.w ∧ s.buf (index s.r) = ctrl 'D' ∧ t.r = s.r + 1 := by
  have hzero : ∀ n' got'', Counts target n' got'' → (target - n'.toUInt32).toInt32 = 0 → got'' = [] := by
    intro n' got'' hc' hv
    have := hc'.value
    rw [hv] at this
    exact List.eq_nil_of_length_eq_zero (by simpa using this.symm)
  cases hs with
  | done hn =>
    obtain ⟨rfl, hv, rfl⟩ : target = target' ∧ (target - n.toUInt32).toInt32 = 0 ∧
      got = got' := by simpa [State.finish, State.goto] using ht
    obtain rfl := hzero n got hc hv
    have hsum := hc.sum
    rw [Int32.le_iff_toInt_le] at hn
    rw [Int32.lt_iff_toInt_lt] at hpos
    simp only [List.length_nil, Int32.toInt_zero] at hsum hn hpos
    omega
  | killed | sleeps => simp [State.goto] at ht
  | eof hn hne hd hfirst =>
    obtain ⟨rfl, hv, rfl⟩ : target = target' ∧ (target - n.toUInt32).toInt32 = 0 ∧
      got = got' := by simpa [State.finish, State.goto] using ht
    exact ⟨hzero n got hc hv, hne, hd, rfl⟩
  | unread hn hne hd hlater =>
    obtain ⟨rfl, hv, rfl⟩ : target = target' ∧ (target - n.toUInt32).toInt32 = 0 ∧
      got = got' := by simpa [State.finish, State.goto] using ht
    obtain rfl := hzero n got hc hv
    have hn' : n = target.toInt32 := Int32.toInt_inj.mp (by simpa using hc.sum)
    simp [hn'] at hlater
  | line hn hne hd =>
    obtain ⟨rfl, hv, rfl⟩ : target = target' ∧ (target - (n - 1).toUInt32).toInt32 = 0 ∧ got ++ [s.buf (index s.r)] = got' := by
      simpa [State.finish, State.goto] using ht
    have hnil := hzero (n - 1) _ (hc.store hn (s.buf (index s.r))) hv
    simp at hnil
  | char => simp [State.goto] at ht

theorem step_eof (h : Counted s) {a : Act P} (hs : s.step a = some t)
    (hold : s.pc p ≠ .returned target 0 got) (ht : t.pc p = .returned target 0 got) (hpos : 0 < target.toInt32) :
    got = [] ∧ s.r ≠ s.w ∧ s.buf (index s.r) = ctrl 'D' ∧ t.r = s.r + 1 := by
  have hgoto : ∀ q l, t.pc = update s.pc q l → l.call ≠ none → False := by
    intro q l hpc hl
    rw [hpc] at ht
    by_cases hpq : p = q
    · subst hpq
      rw [update_self] at ht
      simp [ht, Pc.call] at hl
    · rw [update_of_ne hpq] at ht
      exact hold ht
  cases a with
  | consoleintr cs =>
    simp only [State.step, Option.ite_none_right_eq_some, Option.some.injEq] at hs
    obtain ⟨_, rfl⟩ := hs
    exact absurd ((keys_woken s cs p).returned ht) hold
  | consoleread q n =>
    simp only [State.step] at hs
    split at hs
    · cases hs
      exact (hgoto q _ rfl (by simp [Pc.call])).elim
    · cases hs
      exact (hgoto q _ rfl (by simp [Pc.call])).elim
    · simp at hs
  | kill q => exact absurd ((kill_woken hs p).returned ht) hold
  | step q =>
    simp only [State.step] at hs
    cases hq : s.pc q <;> rw [hq] at hs <;> simp only [State.next, Option.ite_none_right_eq_some, Option.some.injEq,
      reduceCtorEq] at hs
    case acquire target' n got' =>
      obtain ⟨_, rfl⟩ := hs
      exact (hgoto q (.loop target' n got') rfl (by simp [Pc.call])).elim
    case loop target' n got' =>
      subst hs
      have hround := round_cases s q target' n got'
      by_cases hpq : p = q
      · subst hpq
        exact hround.eof_of_zero (h p target' n got' (by rw [hq]; rfl)) ht hpos
      · rw [hround.pc_of_ne hpq] at ht
        exact absurd ht hold

theorem console_input {buf : ℕ → UInt8} {as : List (Act P)} (hr : run State.step (boot buf) as = some s) :
    ((s.w - s.r).toNat ≤ (s.e - s.r).toNat ∧ (s.e - s.r).toNat ≤ inputBuf) ∧
    (∀ cs t, s.step (.consoleintr cs) = some t → s.window s.r s.w <+: t.window t.r t.w ∧ s.committed <+: t.committed ∧
      ((∀ c ∈ cs, c = ctrl 'U' ∨ c = ctrl 'H' ∨ c = 0x7f) → t.window t.r t.w = s.window s.r s.w ∧ t.committed = s.committed)) ∧
    s.committed.filter (· ≠ ctrl 'D') = s.stored ++ (s.window s.r s.w).filter (· ≠ ctrl 'D') ∧
    ∀ a t p target got, s.step a = some t → s.pc p ≠ .returned target 0 got → t.pc p = .returned target 0 got →
      0 < target.toInt32 → got = [] ∧ s.r ≠ s.w ∧ s.buf (index s.r) = ctrl 'D' ∧ t.r = s.r + 1 := by
  obtain ⟨⟨consumed, edit, h⟩, hcount⟩ : (∃ consumed edit, Holds s consumed edit) ∧ Counted s := by
    refine invariant (I := fun s : State P => (∃ consumed edit, Holds s consumed edit) ∧ Counted s) ?_
      ⟨⟨[], [], Holds.boot buf⟩, ?_⟩ hr
    · rintro s a t ⟨⟨_, _, h⟩, hc⟩ hs
      exact ⟨h.step hs, hc.step hs⟩
    · simp [Counted, Console.boot, Pc.call]
  refine ⟨?_, fun cs t hs => ?_, ?_, fun a t p target got hs hold ht hpos => step_eof hcount hs hold ht hpos⟩
  · have hroom := h.room
    rw [h.w_sub_r, h.e_sub_r, inputBuf]
    omega
  · simp only [State.step, guard_some] at hs
    obtain ⟨_, rfl⟩ := hs
    obtain ⟨edit', h', hpre, heq⟩ := h.keys cs
    rw [h.unread, h'.unread]
    refine ⟨?_, hpre, fun hall => ⟨by rw [heq hall], heq hall⟩⟩
    obtain ⟨more, hmore⟩ := hpre
    rw [← hmore, List.drop_append_of_le_length h.passed.length_le]
    exact List.prefix_append _ _
  · rw [h.unread, h.stored, ← List.filter_append]
    congr 1
    obtain ⟨rest, hrest⟩ := h.passed
    rw [← hrest, List.drop_left]

def editedLine : List (Act (Fin 1)) :=
  [.consoleintr [97, ctrl 'H', 98, newline, ctrl 'D'], .consoleread 0 10, .step 0, .step 0, .step 0]

theorem console_input_editedLine : ∃ s, run State.step (boot fun _ => 0) editedLine = some s ∧ s.stored = [98, newline] ∧
    s.committed.filter (· ≠ ctrl 'D') = s.stored ++ (s.window s.r s.w).filter (· ≠ ctrl 'D') ∧
      (s.e - s.r).toNat ≤ inputBuf := by
  have hrun : (run State.step (boot fun _ => 0) editedLine).any (fun s => s.stored = [98, newline]) = true := by decide +kernel
  obtain ⟨s, hs, hstored⟩ := (Option.any_eq_true _ _).mp hrun
  have h := console_input hs
  exact ⟨s, hs, by simpa using hstored, h.2.2.1, h.1.2⟩

end Laboratorio.Console
