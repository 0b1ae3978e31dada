import Laboratorio.Shell.Simplified

/-!
What the shells do with a command: redirections, and the call of `exec`.
-/

namespace Laboratorio.Shell

variable {σ φ : Type}

abbrev Fds (φ : Type) := List (Option φ)

namespace Fds

def close (t : Fds φ) (fd : ℕ) : Fds φ := t.set fd none

/-- The file gets the lowest free descriptor. Nothing changes when `open` fails. -/
def openLowest (t : Fds φ) : Option φ → Fds φ
  | none => t
  | some x => t.set (t.findIdx Option.isNone) (some x)

end Fds

/-- The shell exits, or it calls `exec`. When that returns, a text is printed and the shell exits. -/
inductive Ended (σ φ : Type)
  | exits (printed : List String) (status : Int)
  | execs (printed : List String) (argv : List σ) (fds : Fds φ)
  deriving DecidableEq

def Ended.after (text : String) : Ended σ φ → Ended σ φ
  | exits printed status => exits (text :: printed) status
  | execs printed argv fds => execs (text :: printed) argv fds

section runcmd

-- the outcome of call number `k` of `open`, for a file and a mode
variable (opens : ℕ → σ → ℕ → Option φ)

def runcmd : Cmd σ → Fds φ → ℕ → Ended σ φ
  | .exec [], _, _ => .exits [] 0
  | .exec argv, t, _ => .execs [] argv t
  | .redir cmd file mode fd, t, k => runcmd cmd ((t.close fd).openLowest (opens k file mode)) (k + 1)
  | .list left _, t, k => (runcmd left t k).after "list not implemented\n"
  | .pipe left _, t, k => (runcmd left t k).after "pipe not implemented\n"
  | .back cmd, t, k => (runcmd cmd t k).after "background not implemented\n"

def Simplified.runcmd : Cmd σ → Fds φ → ℕ → Ended σ φ
  | .exec [], _, _ => .exits [] 0
  | .exec argv, t, _ => .execs [] argv t
  | .redir cmd file mode fd, t, k => runcmd cmd ((t.close fd).openLowest (opens k file mode)) (k + 1)
  | .pipe left _, t, k => (runcmd left t k).after "pipe not implemented\n"
  | _, _, _ => .exits ["unknown runcmd\n"] (-1)

end runcmd

structure Redirection (σ : Type) where
  file : σ
  mode : ℕ
  input : Bool
  deriving DecidableEq

def Redirection.fd (r : Redirection σ) : ℕ := if r.input then 0 else 1

def nest : List (Redirection σ) → List σ → Cmd σ
  | [], argv => .exec argv
  | r :: rs, argv => .redir (nest rs argv) r.file r.mode r.fd

theorem wrap_exec (rs : List Redir) (argv : List (List UInt8)) :
    wrap rs (.exec argv) = nest (rs.reverse.map fun r => ⟨r.2, r.1.mode, r.1.fd = 0⟩) argv := by
  induction rs using List.reverseRecOn with
  | nil => rfl
  | append_singleton rs r ih =>
    obtain ⟨op, file⟩ := r
    have hwrap : wrap (rs ++ [(op, file)]) (.exec argv) = .redir (wrap rs (.exec argv)) file op.mode op.fd := by simp [wrap]
    rw [hwrap, ih, List.reverse_append, List.reverse_singleton, List.singleton_append, List.map_cons]
    cases op <;> rfl

section redirect

variable (opens : ℕ → σ → ℕ → Option φ)

def redirect : List (Redirection σ) → ℕ → Fds φ → Fds φ
  | [], _, t => t
  | r :: rs, k, t => redirect rs (k + 1) ((t.close r.fd).openLowest (opens k r.file r.mode))

variable {opens} {rs : List (Redirection σ)} {argv : List σ} {t : Fds φ} {k : ℕ}

theorem runcmd_nest (h : argv ≠ []) : runcmd opens (nest rs argv) t k = .execs [] argv (redirect opens rs k t) := by
  induction rs generalizing t k with
  | nil =>
    obtain ⟨a, l, rfl⟩ := List.exists_cons_of_ne_nil h
    rfl
  | cons r rs ih => exact ih

theorem runcmd_nest_nil : runcmd opens (nest rs []) t k = .exits [] 0 := by
  induction rs generalizing t k with
  | nil => rfl
  | cons r rs ih => exact ih

theorem Simplified.runcmd_nest : Simplified.runcmd opens (nest rs argv) t k = Shell.runcmd opens (nest rs argv) t k := by
  induction rs generalizing t k with
  | nil => cases argv <;> rfl
  | cons r rs ih => exact ih

theorem Redirection.fd_cases (r : Redirection σ) : r.fd = 0 ∨ r.fd = 1 := by
  cases h : r.input <;> simp [fd, h]

theorem openLowest_close {a b x : φ} (r : Redirection σ) :
    Fds.openLowest (Fds.close (some a :: some b :: t) r.fd) (some x) = (some a :: some b :: t).set r.fd (some x) := by
  rcases r.fd_cases with h | h <;> simp [h, Fds.close, Fds.openLowest, List.findIdx_cons]

def Opens (opens : ℕ → σ → ℕ → Option φ) (rs : List (Redirection σ)) (k : ℕ) : Prop :=
  ∀ i (h : i < rs.length), (opens (k + i) rs[i].file rs[i].mode).isSome

theorem redirect_spec {a b : φ} (h : Opens opens rs k) {t' : Fds φ} (ht' : redirect opens rs k (some a :: some b :: t) = t') :
    (∀ n, (∀ r ∈ rs, r.fd ≠ n) → t'[n]? = (some a :: some b :: t)[n]?) ∧
      ∀ n, (∃ r ∈ rs, r.fd = n) → ∃ i, ∃ hi : i < rs.length, rs[i].fd = n ∧
        t'[n]? = some (opens (k + i) rs[i].file rs[i].mode) := by
  induction rs generalizing a b k with
  | nil =>
    subst ht'
    exact ⟨fun _ _ => rfl, by simp⟩
  | cons r rs ih =>
    obtain ⟨x, hx⟩ := Option.isSome_iff_exists.mp (h 0 (by simp))
    have hx : opens k r.file r.mode = some x := hx
    have hrest : Opens opens rs (k + 1) := by
      intro i hi
      rw [Nat.add_right_comm]
      exact h (i + 1) (by simpa using hi)
    rw [redirect, hx, openLowest_close] at ht'
    have hstep : ∃ a' b', (some a :: some b :: t).set r.fd (some x) = some a' :: some b' :: t := by
      rcases r.fd_cases with h | h
      · exact ⟨x, b, by rw [h]; rfl⟩
      · exact ⟨a, x, by rw [h]; rfl⟩
    obtain ⟨a', b', hset⟩ := hstep
    have hlen : r.fd < (some a :: some b :: t).length := by
      rcases r.fd_cases with h | h <;> simp [h]
    rw [hset] at ht'
    obtain ⟨hkept, hnew⟩ := ih hrest ht'
    rw [← hset] at hkept
    constructor
    · intro n hn
      rw [hkept n fun q hq => hn q (by simp [hq]), List.getElem?_set_ne (hn r (by simp))]
    · intro n hn
      by_cases hlater : ∃ q ∈ rs, q.fd = n
      · obtain ⟨i, hi, hfd, hfile⟩ := hnew n hlater
        refine ⟨i + 1, by simpa using hi, hfd, ?_⟩
        rw [hfile, Nat.add_right_comm]
        rfl
      have hr : r.fd = n := by
        obtain ⟨q, hq, hqn⟩ := hn
        rcases List.mem_cons.mp hq with rfl | hq
        · exact hqn
        · exact absurd ⟨q, hq, hqn⟩ hlater
      refine ⟨0, by simp, hr, ?_⟩
      push Not at hlater
      rw [hkept n hlater, ← hr, List.getElem?_set_self hlen]
      exact congrArg some hx.symm

end redirect

/-- `exec` is called only after every `open` has succeeded. Each descriptor of a
redirection then has the file of one, and the others are as they were. -/
def RedirectsFirst (opens : ℕ → σ → ℕ → Option φ) (rs : List (Redirection σ)) (t : Fds φ) (e : Ended σ φ) : Prop :=
  ∀ printed argv t', e = .execs printed argv t' → Opens opens rs 0 ∧
    (∀ n, (∀ r ∈ rs, r.fd ≠ n) → t'[n]? = t[n]?) ∧
    ∀ n, (∃ r ∈ rs, r.fd = n) → ∃ i, ∃ hi : i < rs.length, rs[i].fd = n ∧ t'[n]? = some (opens i rs[i].file rs[i].mode)

theorem redirectsFirst_iff {opens : ℕ → σ → ℕ → Option φ} {rs : List (Redirection σ)} {argv : List σ} {a b : φ} {t : Fds φ} :
    RedirectsFirst opens rs (some a :: some b :: t) (.execs [] argv (redirect opens rs 0 (some a :: some b :: t))) ↔
      Opens opens rs 0 := by
  constructor
  · intro hfirst
    exact (hfirst [] argv _ rfl).1
  · rintro hopens printed argv' t' he
    obtain ⟨_, _, ht'⟩ : [] = printed ∧ argv = argv' ∧ redirect opens rs 0 (some a :: some b :: t) = t' := by simpa using he
    have hspec := redirect_spec hopens ht'
    simp only [Nat.zero_add] at hspec
    exact ⟨hopens, hspec⟩

/-- In both shells the redirections of a command take effect before `exec` unless an `open` fails, which nobody looks at. -/
theorem redirections_iff (opens : ℕ → σ → ℕ → Option φ) (rs : List (Redirection σ)) (argv : List σ) (a b c : φ) (t : Fds φ) :
    (RedirectsFirst opens rs (some a :: some b :: some c :: t)
    (runcmd opens (nest rs argv) (some a :: some b :: some c :: t) 0) ↔
      argv = [] ∨ Opens opens rs 0) ∧
    (RedirectsFirst opens rs (some a :: some b :: some c :: t)
    (Simplified.runcmd opens (nest rs argv) (some a :: some b :: some c :: t) 0) ↔
      argv = [] ∨ Opens opens rs 0) := by
  rw [Simplified.runcmd_nest]
  by_cases h : argv = []
  · subst h
    rw [runcmd_nest_nil]
    simp [RedirectsFirst]
  · rw [runcmd_nest h, redirectsFirst_iff]
    simp [h]

theorem exec_without_input : ¬ RedirectsFirst (fun _ _ _ => none) [⟨"f", oRdonly, true⟩] [some 0, some 1, some 2]
      (runcmd (fun _ _ _ => none) (nest [⟨"f", oRdonly, true⟩] ["cat"]) [some 0, some 1, some 2] 0) ∧
    ¬ RedirectsFirst (fun _ _ _ => none) [⟨"f", oRdonly, true⟩] [some 0, some 1, some 2]
      (Simplified.runcmd (fun _ _ _ => none) (nest [⟨"f", oRdonly, true⟩] ["cat"]) [some 0, some 1, some 2] 0) ∧
    runcmd (fun _ _ _ => none) (nest [⟨"f", oRdonly, true⟩] ["cat"]) [some 0, some 1, some 2] 0 = .execs [] ["cat"]
      [none, some 1, some 2] := by
  have hfails : ¬ Opens (φ := ℕ) (fun _ _ _ => none) [⟨"f", oRdonly, true⟩] 0 := fun h => by simpa using h 0 (by simp)
  refine ⟨fun h => ?_, fun h => ?_, rfl⟩
  · exact hfails (h [] ["cat"] [none, some 1, some 2] rfl).1
  · exact hfails (h [] ["cat"] [none, some 1, some 2] rfl).1

end Laboratorio.Shell
