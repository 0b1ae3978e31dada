import Laboratorio.Paging.Frames

/-!
The loop in which `main` of `sim.c` reads its references with `scanf`.
-/

namespace Laboratorio.Paging

def isspace (c : UInt8) : Bool := c = 32 || (9 ≤ c && c ≤ 13)

def isdigit (c : UInt8) : Bool := 48 ≤ c && c ≤ 57

def decimal (ds : List UInt8) : ℤ := ds.foldl (fun v c => 10 * v + (c.toNat - 48 : ℕ)) 0

inductive Conversion
  | value (v : ℤ) (rest : List UInt8)
  | mismatch (rest : List UInt8)
  | eof
  deriving DecidableEq

def scanInt (input : List UInt8) : Conversion :=
  match input.dropWhile isspace with
  | [] => .eof
  | c :: l =>
    let digits := if c = '-'.toUInt8 ∨ c = '+'.toUInt8 then l else c :: l
    if digits.takeWhile isdigit = [] then .mismatch (c :: l)
    else .value (if c = '-'.toUInt8 then - decimal (digits.takeWhile isdigit) else decimal (digits.takeWhile isdigit))
      (digits.dropWhile isdigit)

/-- The call `scanf("%d %d", &pid, &page)`: the two variables and the input afterwards, `none` for `EOF`. -/
def scanf (input : List UInt8) (pid page : ℤ) : Option (ℤ × ℤ × List UInt8) :=
  match scanInt input with
  | .eof => none
  | .mismatch rest => some (pid, page, rest)
  | .value pid rest =>
    match scanInt rest with
    | .eof => some (pid, page, [])
    | .mismatch rest => some (pid, page, rest)
    | .value page rest => some (pid, page, rest)

structure Reading where
  input : List UInt8
  pid : ℤ
  page : ℤ
  memory : State
  calls : List Frame

inductive Ending
  | eof
  | stop (e : Stop)
  deriving DecidableEq

/-- The loop of `main`; no value when it does not end within `n` rounds. -/
def readLoop (algorithm : Algorithm) : ℕ → Reading → Option (Ending × Reading)
  | 0, _ => none
  | n + 1, r =>
    match scanf r.input r.pid r.page with
    | none => some (.eof, r)
    | some (pid, page, rest) =>
      match allocatePage algorithm ⟨pid, page⟩ r.memory with
      | .error e => some (.stop e, ⟨rest, pid, page, r.memory, r.calls ++ [⟨pid, page⟩]⟩)
      | .ok (_, s) => readLoop algorithm n ⟨rest, pid, page, s, r.calls ++ [⟨pid, page⟩]⟩

def Reading.start (input : List UInt8) (pid page : ℤ) : Reading := ⟨input, pid, page, initialized, []⟩

theorem dropWhile_lt {p : UInt8 → Bool} {l : List UInt8} (h : l.takeWhile p ≠ []) : (l.dropWhile p).length < l.length := by
  have hlen := congrArg List.length (List.takeWhile_append_dropWhile (p := p) (l := l))
  have hpos : 0 < (l.takeWhile p).length := List.length_pos_iff.mpr h
  rw [List.length_append] at hlen
  omega

theorem scanInt_length {input rest : List UInt8} {v : ℤ} (h : scanInt input = .value v rest) : rest.length < input.length := by
  have hdrop := (List.dropWhile_suffix isspace (l := input)).length_le
  unfold scanInt at h
  split at h
  · cases h
  next c l hl =>
  have hdigits : (if c = '-'.toUInt8 ∨ c = '+'.toUInt8 then l else c :: l).length ≤ (c :: l).length := by
    split_ifs
    · exact Nat.le_succ _
    · exact Nat.le_refl _
  rw [hl] at hdrop
  generalize (if c = '-'.toUInt8 ∨ c = '+'.toUInt8 then l else c :: l) = digits at h hdigits
  by_cases hno : digits.takeWhile isdigit = []
  · simp [hno] at h
  · simp only [if_neg hno, Conversion.value.injEq] at h
    have hlt := dropWhile_lt hno
    rw [← h.2]
    omega

def scanPair (input : List UInt8) : Option (Frame × List UInt8) :=
  match scanInt input with
  | .value pid rest =>
    match scanInt rest with
    | .value page rest => some (⟨pid, page⟩, rest)
    | _ => none
  | _ => none

theorem scanPair_length {input rest : List UInt8} {x : Frame} (h : scanPair input = some (x, rest)) :
    rest.length < input.length := by
  unfold scanPair at h
  split at h
  · next pid mid h1 =>
    split at h
    · next page rest' h2 =>
      obtain ⟨-, rfl⟩ := Prod.mk.inj (Option.some.inj h)
      exact (scanInt_length h2).trans (scanInt_length h1)
    · cases h
  · cases h

def readPairs (input : List UInt8) : List Frame × List UInt8 :=
  match _h : scanPair input with
  | none => ([], input)
  | some (x, rest) => (x :: (readPairs rest).1, (readPairs rest).2)
termination_by input.length
decreasing_by
  apply scanPair_length
  assumption

section readPairs

variable {input rest : List UInt8} {x : Frame}

theorem readPairs_none (h : scanPair input = none) : readPairs input = ([], input) := by
  rw [readPairs]
  split
  · rfl
  · next h' => simp [h] at h'

theorem readPairs_some (h : scanPair input = some (x, rest)) :
    readPairs input = (x :: (readPairs rest).1, (readPairs rest).2) := by
  rw [readPairs]
  split
  · next h' => simp [h] at h'
  · next y rest' h' =>
    obtain ⟨rfl, rfl⟩ := Prod.mk.inj (Option.some.inj (h.symm.trans h'))
    rfl

theorem scanf_pair (h : scanPair input = some (x, rest)) (pid page : ℤ) :
    scanf input pid page = some (x.pid, x.pageNumber, rest) := by
  unfold scanPair at h
  split at h
  · next pid' mid h1 =>
    split at h
    · next page' rest' h2 =>
      cases h
      rw [scanf, h1]
      simp only [h2]
    · cases h
  · cases h

theorem scanInt_eof_iff : scanInt input = .eof ↔ ∀ c ∈ input, isspace c = true := by
  rw [← List.dropWhile_eq_nil_iff]
  unfold scanInt
  split
  · next h => simp [h]
  · next c l h =>
    simp only [h, reduceCtorEq, iff_false]
    split_ifs <;> simp

theorem scanf_eof_iff {pid page : ℤ} : scanf input pid page = none ↔ ∀ c ∈ input, isspace c = true := by
  rw [← scanInt_eof_iff, scanf]
  split
  · next h => simp [h]
  · next h => simp [h]
  · next h =>
    simp only [h, reduceCtorEq, iff_false]
    split <;> simp

end readPairs

section loop

variable {algorithm : Algorithm} {n : ℕ} {r r' : Reading} {ending : Ending}

section

variable (h : readLoop algorithm n r = some (ending, r'))

include h

theorem readLoop_mono (k : ℕ) : readLoop algorithm (n + k) r = some (ending, r') := by
  induction n generalizing r with
  | zero => cases h
  | succ n ih =>
    rw [Nat.add_right_comm]
    rw [readLoop] at h ⊢
    cases hs : scanf r.input r.pid r.page with
    | none =>
      rw [hs] at h
      exact h
    | some p =>
      rw [hs] at h
      simp only at h ⊢
      split at h
      · exact h
      · exact ih h

theorem length_calls_le : r.calls.length ≤ r'.calls.length := by
  induction n generalizing r with
  | zero => cases h
  | succ n ih =>
    rw [readLoop] at h
    split at h
    · obtain ⟨-, rfl⟩ := Prod.mk.inj (Option.some.inj h)
      exact Nat.le_refl _
    · split at h
      · obtain ⟨-, rfl⟩ := Prod.mk.inj (Option.some.inj h)
        simp
      · have := ih h
        simp only [List.length_append, List.length_singleton] at this
        omega

theorem length_calls_lt (hs : scanf r.input r.pid r.page ≠ none) : r.calls.length < r'.calls.length := by
  cases n with
  | zero => cases h
  | succ n =>
    rw [readLoop] at h
    split at h
    · next h' => exact absurd h' hs
    · split at h
      · obtain ⟨-, rfl⟩ := Prod.mk.inj (Option.some.inj h)
        simp
      · have := length_calls_le h
        simp only [List.length_append, List.length_singleton] at this
        omega

end

theorem readLoop_pair {x : Frame} {rest : List UInt8} (hp : scanPair r.input = some (x, rest)) : readLoop algorithm (n + 1) r =
    match allocatePage algorithm x r.memory with
    | .error e => some (.stop e, ⟨rest, x.pid, x.pageNumber, r.memory, r.calls ++ [x]⟩)
    | .ok (_, s) => readLoop algorithm n ⟨rest, x.pid, x.pageNumber, s, r.calls ++ [x]⟩ := by
  rw [readLoop, scanf_pair hp]

variable {s : State}

theorem readLoop_serves (hrun : run algorithm (readPairs r.input).1 r.memory = .ok ((), s)) (n : ℕ) :
    ∃ pid page, readLoop algorithm ((readPairs r.input).1.length + n) r =
      readLoop algorithm n ⟨(readPairs r.input).2, pid, page, s, r.calls ++ (readPairs r.input).1⟩ := by
  induction hk : r.input.length using Nat.strongRecOn generalizing r with
  | ind k ih =>
    cases hp : scanPair r.input with
    | none =>
      rw [readPairs_none hp] at hrun ⊢
      obtain rfl : r.memory = s := (Prod.mk.inj (Except.ok.inj hrun)).2
      exact ⟨r.pid, r.page, by simp⟩
    | some p =>
      obtain ⟨x, rest⟩ := p
      rw [readPairs_some hp] at hrun ⊢
      obtain ⟨⟨⟩, u, hu, hrest⟩ := bind_eq_ok.mp hrun
      obtain ⟨pid, page, hloop⟩ := ih rest.length (hk ▸ scanPair_length hp)
        (r := ⟨rest, x.pid, x.pageNumber, u, r.calls ++ [x]⟩) hrest rfl
      refine ⟨pid, page, ?_⟩
      rw [List.length_cons, Nat.add_right_comm, readLoop_pair hp, hu]
      simpa using hloop

theorem readLoop_stops {pre post : List Frame} {x : Frame} {e : Stop} (hps : (readPairs r.input).1 = pre ++ x :: post)
    (hpre : run algorithm pre r.memory = .ok ((), s)) (hx : allocatePage algorithm x s = .error e) :
    ∃ r', readLoop algorithm (pre.length + 1) r = some (.stop e, r') ∧ r'.calls = r.calls ++ (pre ++ [x]) := by
  induction pre generalizing r with
  | nil =>
    obtain rfl : r.memory = s := (Prod.mk.inj (Except.ok.inj hpre)).2
    cases hp : scanPair r.input with
    | none => simp [readPairs_none hp] at hps
    | some p =>
      rw [readPairs_some hp] at hps
      obtain ⟨rfl, -⟩ := List.cons.inj hps
      rw [readLoop_pair hp, hx]
      exact ⟨_, rfl, rfl⟩
  | cons y pre ih =>
    cases hp : scanPair r.input with
    | none => simp [readPairs_none hp] at hps
    | some p =>
      obtain ⟨z, rest⟩ := p
      rw [readPairs_some hp, List.cons_append] at hps
      obtain ⟨rfl, hrefs⟩ := List.cons.inj hps
      obtain ⟨⟨⟩, u, hu, hrest⟩ := bind_eq_ok.mp hpre
      obtain ⟨r', hloop, hcalls⟩ := ih (r := ⟨rest, z.pid, z.pageNumber, u, r.calls ++ [z]⟩) hrefs hrest
      refine ⟨r', ?_, ?_⟩
      · rw [List.length_cons, readLoop_pair hp, hu]
        exact hloop
      · rw [hcalls]
        simp

theorem run_error {refs : List Frame} {e : Stop} (h : run algorithm refs s = .error e) :
    ∃ pre x post t, refs = pre ++ x :: post ∧ run algorithm pre s = .ok ((), t) ∧ allocatePage algorithm x t = .error e := by
  induction refs generalizing s with
  | nil => cases h
  | cons x xs ih =>
    cases hx : allocatePage algorithm x s with
    | error e' =>
      have he : run algorithm (x :: xs) s = .error e' := bind_of_error hx
      obtain rfl : e' = e := Except.error.inj (he.symm.trans h)
      exact ⟨[], x, xs, s, rfl, rfl, hx⟩
    | ok p =>
      obtain ⟨⟨⟩, u⟩ := p
      have hrest : run algorithm (x :: xs) s = run algorithm xs u := bind_of_ok hx
      obtain ⟨pre, y, post, t, rfl, hpre, hy⟩ := ih (hrest.symm.trans h)
      exact ⟨x :: pre, y, post, t, rfl, (bind_of_ok hx).trans hpre, hy⟩

end loop

theorem allocatePage_resident {algorithm : Algorithm} {x : Frame} {s : State} (hx : x.InRange)
    (hmem : (s.processes x.pid x.pageNumber).inMemory ≠ 0) : allocatePage algorithm x s = .ok ((), s) := by
  have h : wp (allocatePage algorithm x) s (fun _ t => t = s) fun _ => False := by
    unfold allocatePage
    rw [wp_bind]
    apply wp_entry hx
    rw [if_pos hmem]
    exact wp_ret rfl
  obtain ⟨⟨⟩, t, ht, rfl⟩ := exists_of_wp h
  exact ht

theorem readLoop_stuck {algorithm : Algorithm} {r : Reading}
    (hscan : scanf r.input r.pid r.page = some (r.pid, r.page, r.input))
    (hcall : allocatePage algorithm ⟨r.pid, r.page⟩ r.memory = .ok ((), r.memory)) (n : ℕ) : readLoop algorithm n r = none := by
  induction n generalizing r with
  | zero => rfl
  | succ n ih =>
    rw [readLoop, hscan]
    simp only [hcall]
    exact ih hscan hcall

def ReadsPairs (algorithm : Algorithm) (input : List UInt8) (pid page : ℤ) : Prop :=
  ∃ n ending r, readLoop algorithm n (.start input pid page) = some (ending, r) ∧ r.calls = (readPairs input).1 ∧
    (∀ x ∈ r.calls, x.InRange) ∧ ending ≠ .stop .bounds

theorem readsPairs_iff (algorithm : Algorithm) (input : List UInt8) (pid page : ℤ) :
    ReadsPairs algorithm input pid page ↔ (∀ x ∈ (readPairs input).1, x.InRange) ∧
      (((∃ s, run algorithm (readPairs input).1 initialized = .ok ((), s)) ∧ ∀ c ∈ (readPairs input).2, isspace c = true) ∨
        ∃ pre x s, (readPairs input).1 = pre ++ [x] ∧ run algorithm pre initialized = .ok ((), s) ∧
          allocatePage algorithm x s = .error .exit) := by
  constructor
  · rintro ⟨n, ending, r, hloop, hcalls, hrange, hend⟩
    refine ⟨by rwa [hcalls] at hrange, ?_⟩
    cases hrun : run algorithm (readPairs input).1 initialized with
    | ok p =>
      obtain ⟨⟨⟩, s⟩ := p
      refine .inl ⟨⟨s, rfl⟩, ?_⟩
      obtain ⟨pid', page', hserves⟩ := readLoop_serves (r := .start input pid page) hrun n
      have hmore := readLoop_mono hloop (readPairs input).1.length
      rw [Nat.add_comm] at hmore
      have hlast := hserves.symm.trans hmore
      by_contra hrest
      have hlt := length_calls_lt hlast (fun h => hrest (scanf_eof_iff.mp h))
      rw [hcalls] at hlt
      simp [Reading.start] at hlt
    | error e =>
      obtain ⟨pre, x, post, s, hps, hpre, hx⟩ := run_error hrun
      obtain ⟨r', hstop, hcalls'⟩ := readLoop_stops (r := .start input pid page) hps hpre hx
      have hmore := readLoop_mono hloop (pre.length + 1)
      rw [Nat.add_comm, readLoop_mono hstop n] at hmore
      cases hmore
      have hpost : post = [] := by
        have hlen := congrArg List.length (hcalls'.symm.trans hcalls)
        rw [hps] at hlen
        simpa [Reading.start] using hlen
      subst hpost
      cases e with
      | exit => exact .inr ⟨pre, x, s, hps, hpre, hx⟩
      | bounds => exact absurd rfl hend
  · rintro ⟨hrange, ⟨⟨s, hrun⟩, hrest⟩ | ⟨pre, x, s, hps, hpre, hx⟩⟩
    · obtain ⟨pid', page', hserves⟩ := readLoop_serves (r := .start input pid page) hrun 1
      refine ⟨(readPairs input).1.length + 1, .eof, ⟨(readPairs input).2, pid', page', s, (readPairs input).1⟩, ?_, rfl,
        hrange, by simp⟩
      have hend : ∀ calls, readLoop algorithm 1 ⟨(readPairs input).2, pid', page', s, calls⟩ =
        some (.eof, ⟨(readPairs input).2, pid', page', s, calls⟩) := by
        intro calls
        rw [readLoop, scanf_eof_iff.mpr hrest]
      exact hserves.trans (hend _)
    · obtain ⟨r', hstop, hcalls⟩ := readLoop_stops (r := .start input pid page) hps hpre hx
      have hall : r'.calls = (readPairs input).1 := by
        rw [hcalls, hps]
        rfl
      exact ⟨_, .stop .exit, r', hstop, hall, by rwa [hall], by simp⟩

theorem reading_goes_wrong : (∀ n, readLoop .fifo n (.start [48, 32, 48, 32, 120] 0 0) = none) ∧
    (readLoop .fifo 3 (.start [48, 32, 48, 32, 49] 0 0)).map (fun p => (p.1, p.2.calls)) = some (.eof, [⟨0, 0⟩, ⟨1, 0⟩]) := by
  refine ⟨fun n => ?_, by decide +kernel⟩
  cases n with
  | zero => rfl
  | succ n =>
    have hpair : scanPair [48, 32, 48, 32, 120] = some (⟨0, 0⟩, [32, 120]) := by decide +kernel
    have hload : ∃ s, allocatePage .fifo ⟨0, 0⟩ initialized = .ok ((), s) ∧ (s.processes 0 0).inMemory ≠ 0 :=
      ⟨_, rfl, by decide⟩
    obtain ⟨s, hs, hmem⟩ := hload
    rw [readLoop_pair hpair, Reading.start]
    simp only [hs]
    cases n with
    | zero => rfl
    | succ n =>
      have hscan : scanf [32, 120] 0 0 = some (0, 0, [120]) ∧ scanf [120] 0 0 = some (0, 0, [120]) := by decide +kernel
      have hcall : allocatePage .fifo ⟨0, 0⟩ s = .ok ((), s) := allocatePage_resident (by decide) hmem
      rw [readLoop]
      simp only [hscan.1, hcall]
      exact readLoop_stuck hscan.2 hcall n

end Laboratorio.Paging
