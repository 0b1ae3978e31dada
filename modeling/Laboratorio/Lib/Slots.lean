import Mathlib

/-!
A finite map in slots: a key is looked up in one after the other, and a new one goes to the first that is free.
-/

namespace Laboratorio

open Function

@[ext] structure Slots (κ ν : Type) where
  size : ℕ
  slot : ℕ → Option (κ × ν)

namespace Slots

variable {κ ν : Type} [DecidableEq κ]

def find (t : Slots κ ν) (x : κ) : Option ℕ := (List.range' 0 t.size).find? fun k => (t.slot k).any fun e => e.1 = x

def lookup (t : Slots κ ν) (x : κ) : Option ν := (t.find x).bind fun k => (t.slot k).map Prod.snd

def vacant (t : Slots κ ν) : ℕ := ((List.range' 0 t.size).find? fun k => (t.slot k).isNone).getD t.size

def put (t : Slots κ ν) (k : ℕ) (e : Option (κ × ν)) : Slots κ ν := ⟨max t.size (k + 1), update t.slot k e⟩

def insert (t : Slots κ ν) (x : κ) (v : ν) : Slots κ ν := t.put t.vacant (some (x, v))

def Distinct (t : Slots κ ν) : Prop :=
  ∀ j k x v w, j < t.size → k < t.size → t.slot j = some (x, v) → t.slot k = some (x, w) → j = k

variable {t : Slots κ ν} {x y : κ} {v : ν} {k : ℕ}

theorem find_eq_some (h : t.find x = some k) : k < t.size ∧ ∃ v, t.slot k = some (x, v) := by
  have hmem := List.mem_range'_1.mp (List.mem_of_find?_eq_some h)
  have hany := List.find?_some h
  obtain ⟨⟨y, v⟩, he, hy⟩ := (Option.any_eq_true _ _).mp hany
  obtain rfl : y = x := by simpa using hy
  exact ⟨by omega, v, he⟩

theorem find_eq_none : t.find x = none ↔ ∀ k < t.size, ∀ v, t.slot k ≠ some (x, v) := by
  constructor
  · intro h k hk v he
    have hno := List.find?_eq_none.mp h k (List.mem_range'_1.mpr ⟨Nat.zero_le k, by omega⟩)
    rw [he] at hno
    simp at hno
  · intro h
    refine List.find?_eq_none.mpr fun k hk hany => ?_
    obtain ⟨⟨y, v⟩, he, hy⟩ := (Option.any_eq_true _ _).mp hany
    obtain rfl : y = x := by simpa using hy
    exact h k (by have := List.mem_range'_1.mp hk; omega) v he

theorem lookup_eq_none : t.lookup x = none ↔ ∀ k < t.size, ∀ v, t.slot k ≠ some (x, v) := by
  rw [← find_eq_none]
  unfold lookup
  cases h : t.find x with
  | none => simp
  | some k =>
    obtain ⟨-, v, he⟩ := find_eq_some h
    simp [he]

theorem lookup_of_find (h : t.find x = some k) : ∃ v, t.slot k = some (x, v) ∧ t.lookup x = some v := by
  obtain ⟨-, v, he⟩ := find_eq_some h
  exact ⟨v, he, by simp [lookup, h, he]⟩

theorem Distinct.lookup_eq_some (h : t.Distinct) : t.lookup x = some v ↔ ∃ k < t.size, t.slot k = some (x, v) := by
  constructor
  · intro hl
    cases hf : t.find x with
    | none => simp [lookup, hf] at hl
    | some k =>
      obtain ⟨w, he, hw⟩ := lookup_of_find hf
      obtain rfl : w = v := Option.some.inj (hw.symm.trans hl)
      exact ⟨k, (find_eq_some hf).1, he⟩
  · rintro ⟨k, hk, he⟩
    cases hf : t.find x with
    | none => exact absurd he (find_eq_none.mp hf k hk v)
    | some j =>
      obtain ⟨w, hj, hw⟩ := lookup_of_find hf
      have hjk := h j k x w v (find_eq_some hf).1 hk hj he
      subst hjk
      rw [hj] at he
      rw [hw, (Prod.mk.inj (Option.some.inj he)).2]

theorem Distinct.lookup_congr {t' : Slots κ ν} (h : t.Distinct) (h' : t'.Distinct)
    (he : ∀ v, (∃ k < t'.size, t'.slot k = some (y, v)) ↔ ∃ k < t.size, t.slot k = some (y, v)) : t'.lookup y = t.lookup y := by
  ext v
  rw [h'.lookup_eq_some, h.lookup_eq_some, he]

omit [DecidableEq κ] in
theorem vacant_cases (t : Slots κ ν) : (t.vacant < t.size ∧ t.slot t.vacant = none) ∨ t.vacant = t.size ∧ ∀ k < t.size,
    t.slot k ≠ none := by
  unfold vacant
  cases hf : (List.range' 0 t.size).find? fun k => (t.slot k).isNone with
  | some k =>
    have hmem := List.mem_range'_1.mp (List.mem_of_find?_eq_some hf)
    exact .inl ⟨by simp only [Option.getD_some]; omega, by simpa using List.find?_some hf⟩
  | none =>
    refine .inr ⟨rfl, fun k hk he => ?_⟩
    have hno := List.find?_eq_none.mp hf k (List.mem_range'_1.mpr ⟨Nat.zero_le k, by omega⟩)
    simp [he] at hno

omit [DecidableEq κ] in
theorem vacant_le (t : Slots κ ν) : t.vacant ≤ t.size := by
  rcases t.vacant_cases with h | h <;> omega

section insert

variable (h : t.Distinct) (hx : t.lookup x = none) (v : ν)

omit [DecidableEq κ] in
theorem slot_insert {w : ν} : (∃ k < (t.insert x v).size, (t.insert x v).slot k = some (y, w)) ↔
    (y = x ∧ w = v) ∨ ∃ k < t.size, t.slot k = some (y, w) := by
  simp only [insert, put]
  constructor
  · rintro ⟨k, hk, he⟩
    by_cases hkv : k = t.vacant
    · subst hkv
      rw [update_self, Option.some.injEq, Prod.mk.injEq] at he
      exact .inl ⟨he.1.symm, he.2.symm⟩
    · rw [update_of_ne hkv] at he
      have := t.vacant_le
      exact .inr ⟨k, by omega, he⟩
  · rintro (⟨rfl, rfl⟩ | ⟨k, hk, he⟩)
    · exact ⟨t.vacant, by omega, update_self _ _ _⟩
    · have hkv : k ≠ t.vacant := by
        rintro rfl
        rcases t.vacant_cases with ⟨-, h0⟩ | ⟨hv, -⟩
        · rw [h0] at he
          cases he
        · omega
      exact ⟨k, by omega, by rw [update_of_ne hkv, he]⟩

include h hx

theorem Distinct.insert : (t.insert x v).Distinct := by
  have hno := lookup_eq_none.mp hx
  have hle := t.vacant_le
  intro j k y w w' hj hk hej hek
  simp only [Slots.insert, put] at hj hk hej hek
  by_cases hjv : j = t.vacant <;> by_cases hkv : k = t.vacant
  · rw [hjv, hkv]
  · subst hjv
    rw [update_self] at hej
    rw [update_of_ne hkv, ← (Prod.mk.inj (Option.some.inj hej)).1] at hek
    exact absurd hek (hno k (by omega) w')
  · subst hkv
    rw [update_self] at hek
    rw [update_of_ne hjv, ← (Prod.mk.inj (Option.some.inj hek)).1] at hej
    exact absurd hej (hno j (by omega) w)
  · rw [update_of_ne hjv] at hej
    rw [update_of_ne hkv] at hek
    exact h j k y w w' (by omega) (by omega) hej hek

theorem Distinct.lookup_insert (y : κ) : (t.insert x v).lookup y = if y = x then some v else t.lookup y := by
  have h' := h.insert hx v
  split_ifs with hy
  · exact h'.lookup_eq_some.mpr ((slot_insert v).mpr (.inl ⟨hy, rfl⟩))
  · refine h.lookup_congr h' fun w => ?_
    rw [slot_insert]
    simp [hy]

end insert

omit [DecidableEq κ] in
theorem slot_clear (i : ℕ) : (t.put k none).slot i = if i = k then none else t.slot i := update_apply _ _ _ _

omit [DecidableEq κ] in
theorem size_clear (hk : k < t.size) : (t.put k none).size = t.size := Nat.max_eq_left hk

variable (h : t.Distinct) (hk : k < t.size)
include h hk

omit [DecidableEq κ] in
theorem Distinct.clear : (t.put k none).Distinct := by
  intro i j y w w' hi hj hei hej
  rw [size_clear hk] at hi hj
  rw [slot_clear] at hei hej
  split_ifs at hei hej with hik hjk
  exact h i j y w w' hi hj hei hej

theorem Distinct.lookup_clear (he : t.slot k = some (x, v)) (y : κ) :
    (t.put k none).lookup y = if y = x then none else t.lookup y := by
  split_ifs with hy
  · subst hy
    refine lookup_eq_none.mpr fun i hi w hw => ?_
    rw [size_clear hk] at hi
    rw [slot_clear] at hw
    split_ifs at hw with hik
    exact hik (h i k y w v hi hk hw he)
  · refine h.lookup_congr (h.clear hk) fun w => ?_
    rw [size_clear hk]
    refine exists_congr fun i => and_congr_right fun _ => ?_
    rw [slot_clear]
    split_ifs with hik
    · subst hik
      rw [he]
      simp [Ne.symm hy]
    · rfl

end Slots

end Laboratorio
