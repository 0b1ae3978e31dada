import Laboratorio.Lib.Rotation

/-!
The user threads of `xv6/uthreadlib.c`: the states of `all_thread`, whose places stand for the pointers to them.
-/

namespace Laboratorio.Uthread

open Function

def maxThread : ℕ := 8

instance : NeZero maxThread := ⟨by decide⟩

inductive Status
  | free | running | runnable
  deriving DecidableEq, Repr

structure Threads where
  state : Fin maxThread → Status
  current : Fin maxThread
  ultimoIndice : Fin maxThread

def main : Fin maxThread := ⟨0, by decide⟩

def indiceActual (ultimoIndice : Fin maxThread) (i : ℕ) : Fin maxThread :=
    ⟨(ultimoIndice + i) % maxThread, Nat.mod_lt _ (by decide)⟩

namespace Threads

def threadInit : Threads where
  state := update (fun _ => .free) main .running
  current := main
  ultimoIndice := main

def scan (s : Threads) : Option (Fin maxThread) :=
  ((List.range' 1 (maxThread - 1)).find? fun i => s.state (indiceActual s.ultimoIndice i) = .runnable ∧
    indiceActual s.ultimoIndice i ≠ s.current).map (indiceActual s.ultimoIndice)

def switchTo (s : Threads) (next : Fin maxThread) : Threads :=
  if s.current ≠ next then { s with state := update s.state next .running, current := next } else s

def threadSchedule (s : Threads) : Threads :=
  match s.scan with
  | some t => { s with ultimoIndice := t }.switchTo t
  | none =>
    if s.state main ≠ .running then { s with state := update s.state main .running }.switchTo main
    else s.switchTo main

/-- Without a free slot the pointer leaves the array. -/
def threadCreate (s : Threads) : Option Threads :=
  ((List.finRange maxThread).find? fun t => s.state t = .free).map fun t => { s with state := update s.state t .runnable }

def threadYield (s : Threads) : Threads := { s with state := update s.state s.current .runnable }.threadSchedule

def threadExit (s : Threads) : Threads := { s with state := update s.state s.current .free }.threadSchedule

def creates (s : Threads) : ℕ → Option Threads
  | 0 => some s
  | n + 1 => s.threadCreate.bind fun t => t.creates n

end Threads

inductive Call
  | schedule | yield | exit | create
  deriving DecidableEq, Repr

def Threads.step (s : Threads) : Call → Option Threads
  | .schedule => some s.threadSchedule
  | .yield => some s.threadYield
  | .exit => some s.threadExit
  | .create => s.threadCreate

/-- `main` creates `n` threads and calls `thread_schedule`; then the current threads make the calls `c`, one after the other. -/
structure Run (n : ℕ) (c : ℕ → Call) (f : ℕ → Threads) (len : ℕ) : Prop where
  created : Threads.threadInit.creates n = some (f 0)
  schedule : c 0 = .schedule
  later : ∀ k, 0 < k → k < len → c k ≠ .schedule
  step : ∀ k < len, (f k).step (c k) = some (f (k + 1))

variable {s : Threads} {q r : Fin maxThread}

theorem ahead_indiceActual (a : Fin maxThread) {i : ℕ} (hi : i < maxThread) : ahead maxThread a (indiceActual a i) = i :=
  ahead_add_mod a.isLt hi

theorem indiceActual_ahead (a b : Fin maxThread) : indiceActual a (ahead maxThread a b) = b :=
    Fin.ext (add_ahead_mod a.isLt b.isLt)

theorem ahead_of_ne (h : r ≠ q) : 1 ≤ ahead maxThread q r ∧ ahead maxThread q r < maxThread :=
  ahead_pos q.isLt r.isLt fun he => h (Fin.ext he)

namespace Threads

theorem scan_eq_some (h : s.scan = some q) : s.state q = .runnable ∧ q ≠ s.current ∧
    ∀ r, r ≠ s.ultimoIndice → r ≠ s.current → s.state r = .runnable →
      ahead maxThread s.ultimoIndice q ≤ ahead maxThread s.ultimoIndice r := by
  obtain ⟨i, hi, rfl⟩ := Option.map_eq_some_iff.mp h
  rw [List.find?_range'_eq_some] at hi
  obtain ⟨hready, hmem, hfirst⟩ := hi
  rw [List.mem_range'_1] at hmem
  obtain ⟨hrun, hne⟩ := of_decide_eq_true hready
  refine ⟨hrun, hne, fun r hr hrc hrr => ?_⟩
  rw [ahead_indiceActual _ (by omega)]
  by_contra hlt
  have hno := hfirst (ahead maxThread s.ultimoIndice r) (ahead_of_ne hr).1 (by omega)
  rw [indiceActual_ahead] at hno
  simp [hrr, hrc] at hno

theorem scan_eq_none (h : s.scan = none) (hr : r ≠ s.ultimoIndice) (hrc : r ≠ s.current) : s.state r ≠ .runnable := by
  rw [scan, Option.map_eq_none_iff, List.find?_eq_none] at h
  have hpos := ahead_of_ne hr
  have hno := h (ahead maxThread s.ultimoIndice r) (by rw [List.mem_range'_1]; omega)
  rw [indiceActual_ahead] at hno
  simpa [hrc] using hno

theorem threadSchedule_selects (s : Threads) : (∃ q, s.scan = some q ∧ s.threadSchedule = ⟨update s.state q .running, q, q⟩) ∨
    s.scan = none ∧ s.threadSchedule = ⟨update s.state main .running, main, s.ultimoIndice⟩ := by
  unfold threadSchedule
  cases hscan : s.scan with
  | some q =>
    refine .inl ⟨q, rfl, ?_⟩
    simp only [switchTo]
    rw [if_pos (scan_eq_some hscan).2.1.symm]
  | none =>
    by_cases hrunning : s.state main = .running
    · have hsame : update s.state main .running = s.state := by rw [← hrunning, update_eq_self]
      rw [hsame]
      by_cases hc : s.current = main
      · simp [switchTo, ← hc]
      · simp [hrunning, switchTo, hc, hsame]
    · by_cases hc : s.current = main
      · simp [hrunning, switchTo, hc]
      · simp [hrunning, switchTo, hc]

theorem threadSchedule_cases (h : s.ultimoIndice = s.current) (hmain : s.state main ≠ .runnable) :
    (∃ q, q ≠ main ∧ s.state q = .runnable ∧
    Next maxThread (fun r => ∀ hr : r < maxThread, s.state ⟨r, hr⟩ = .runnable) s.current q ∧
      s.threadSchedule = ⟨update s.state q .running, q, q⟩) ∨
    ((∀ r, r ≠ s.current → s.state r ≠ .runnable) ∧
    s.threadSchedule = ⟨update s.state main .running, main, s.ultimoIndice⟩) := by
  obtain ⟨q, hscan, hs⟩ | ⟨hscan, hs⟩ := s.threadSchedule_selects
  · obtain ⟨hrun, hne, hfirst⟩ := scan_eq_some hscan
    refine .inl ⟨q, ?_, hrun, ⟨fun he => hne (Fin.ext he), fun r hr hrc hready => ?_⟩, hs⟩
    · rintro rfl
      exact hmain hrun
    · have hrc' : (⟨r, hr⟩ : Fin maxThread) ≠ s.current := fun he => hrc (congrArg Fin.val he)
      rw [← h]
      exact hfirst ⟨r, hr⟩ (h ▸ hrc') hrc' (hready hr)
  · exact .inr ⟨fun r hr => scan_eq_none hscan (h ▸ hr) hr, hs⟩

end Threads

end Laboratorio.Uthread
