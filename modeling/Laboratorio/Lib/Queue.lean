import Mathlib

/-!
Singly linked queues: a pointer to the first node and a pointer in each node, edited through pointers to pointers.
-/

namespace Laboratorio

open Function

variable {ι : Type}

structure Queue (ι : Type) where
  head : Option ι
  next : ι → Option ι

namespace Queue

inductive Place (ι : Type)
  | head
  | next (x : ι)

variable {q : Queue ι} {l : List ι} {b x : ι}

def get (q : Queue ι) : Place ι → Option ι
  | .head => q.head
  | .next x => q.next x

def set [DecidableEq ι] (q : Queue ι) (v : Option ι) : Place ι → Queue ι
  | .head => { q with head := v }
  | .next x => { q with next := update q.next x v }

/-- `for (; *pp; pp = &(*pp)->next) ;`, for fewer than `n` nodes. -/
def last (q : Queue ι) : ℕ → Place ι → Option (Place ι)
  | 0, _ => none
  | n + 1, pp =>
    match q.get pp with
    | none => some pp
    | some x => last q n (.next x)

def Lists (next : ι → Option ι) : Option ι → List ι → Prop
  | h, [] => h = none
  | h, x :: l => h = some x ∧ Lists next (next x) l

variable {next : ι → Option ι} {h : Option ι}

theorem Lists.congr {next' : ι → Option ι} (hl : Lists next h l) (hn : ∀ x ∈ l, next' x = next x) : Lists next' h l := by
  induction l generalizing h with
  | nil => exact hl
  | cons x l ih =>
    refine ⟨hl.1, ?_⟩
    rw [hn x (by simp)]
    exact ih hl.2 fun y hy => hn y (by simp [hy])

theorem Lists.head_eq (hl : Lists next h l) : h = l.head? := by
  cases l with
  | nil => exact hl
  | cons x l => exact hl.1

theorem Lists.last_eq (pp : Place ι) (hl : Lists q.next (q.get pp) l) {n : ℕ} (hn : l.length < n) :
    q.last n pp = some (l.getLast?.elim pp .next) := by
  induction l generalizing pp n with
  | nil =>
    obtain ⟨n, rfl⟩ := Nat.exists_eq_succ_of_ne_zero (Nat.ne_of_gt hn)
    simp [last, show q.get pp = none from hl]
  | cons x l ih =>
    obtain ⟨n, rfl⟩ := Nat.exists_eq_succ_of_ne_zero (Nat.ne_of_gt (Nat.zero_lt_of_lt hn))
    simp only [last, hl.1]
    rw [ih (.next x) hl.2 (by simpa using hn)]
    cases l with
    | nil => rfl
    | cons y l => simp [List.getLast?_cons]

variable [DecidableEq ι]

def push (q : Queue ι) (n : ℕ) (b : ι) : Option (Queue ι) :=
  let q : Queue ι := { q with next := update q.next b none }
  (q.last n .head).map (q.set (some b))

theorem Lists.snoc (hl : Lists next h (l ++ [x])) (hx : x ∉ l) (hbx : b ≠ x)
    (hb : next b = none) : Lists (update next x (some b)) h (l ++ [x] ++ [b]) := by
  induction l generalizing h with
  | nil => exact ⟨hl.1, by simp [Lists, hbx, hb]⟩
  | cons y l ih =>
    have hyx : y ≠ x := by
      rintro rfl
      simp at hx
    refine ⟨hl.1, ?_⟩
    rw [update_of_ne hyx]
    exact ih hl.2 fun hm => hx (by simp [hm])

theorem Lists.push (hl : Lists q.next q.head l) (hnd : l.Nodup) (hb : b ∉ l) {n : ℕ} (hn : l.length < n) :
    ∃ q', q.push n b = some q' ∧ Lists q'.next q'.head (l ++ [b]) := by
  have hl' : Lists (update q.next b none) q.head l := by
    refine hl.congr fun x hx => ?_
    have hxb : x ≠ b := by
      rintro rfl
      exact hb hx
    exact update_of_ne hxb _ _
  have hlast := Lists.last_eq (q := ⟨q.head, update q.next b none⟩) .head hl' hn
  refine ⟨_, by rw [Queue.push, hlast]; rfl, ?_⟩
  rcases List.eq_nil_or_concat' l with rfl | ⟨l, x, rfl⟩
  · simp [Queue.set, Lists]
  · have hne : b ≠ x := by
      rintro rfl
      simp at hb
    have hx : x ∉ l := fun hm => List.disjoint_left.mp (List.disjoint_of_nodup_append hnd) hm (by simp)
    simpa [Queue.set] using hl'.snoc hx hne (update_self b none q.next)

end Queue

end Laboratorio
