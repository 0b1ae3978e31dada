import Mathlib

/-!
A pointer that goes round `n` places and stops at the next one that is ready.
-/

namespace Laboratorio

def ahead (n a b : ℕ) : ℕ := if a ≤ b then b - a else b + n - a

section ahead

variable {n a b i : ℕ}

theorem ahead_add_mod (ha : a < n) (hi : i < n) : ahead n a ((a + i) % n) = i := by
  unfold ahead
  by_cases hlt : a + i < n
  · rw [Nat.mod_eq_of_lt hlt, if_pos (by omega)]
    omega
  · rw [Nat.mod_eq_sub_mod (by omega), Nat.mod_eq_of_lt (by omega), if_neg (by omega)]
    omega

theorem add_ahead_mod (ha : a < n) (hb : b < n) : (a + ahead n a b) % n = b := by
  unfold ahead
  split_ifs with hle
  · rw [Nat.add_sub_cancel' hle, Nat.mod_eq_of_lt hb]
  · rw [Nat.add_sub_cancel' (by omega), Nat.add_mod_right, Nat.mod_eq_of_lt hb]

theorem ahead_pos (ha : a < n) (hb : b < n) (h : b ≠ a) : 1 ≤ ahead n a b ∧ ahead n a b < n := by
  unfold ahead
  split_ifs <;> omega

end ahead

structure Next (n : ℕ) (ready : ℕ → Prop) (a b : ℕ) : Prop where
  ne : b ≠ a
  first : ∀ r < n, r ≠ a → ready r → ahead n a b ≤ ahead n a r

def Arrives (p : ℕ → ℕ) (k x : ℕ) : Prop := 0 < k ∧ p k = x ∧ p (k - 1) ≠ x

variable {n : ℕ} {p : ℕ → ℕ} {ready : ℕ → ℕ → Prop} {i j k t u : ℕ}

theorem Next.lt_of_ready {ready : ℕ → Prop} {a b : ℕ} (h : Next n ready a b) (ha : a < n) (ht : t < n) (hbt : b ≠ t)
    (hready : a ≠ t → ready t) : ahead n t a < ahead n t b := by
  have hne := h.ne
  by_cases hat : a = t
  · unfold ahead
    split_ifs <;> omega
  · have hle := h.first t ht (Ne.symm hat) (hready hat)
    unfold ahead at hle ⊢
    split_ifs at hle ⊢ <;> omega

theorem Next.le_of_ready {ready : ℕ → Prop} {a b : ℕ} (h : Next n ready a b) (ha : a < n) (hb : b < n) (ht : t < n) (hu : u < n)
    (hbt : b ≠ t) (hreadyt : a ≠ t → ready t) (hlt : ahead n t a < ahead n t u) (hready : a ≠ u → ready u) :
    ahead n t b ≤ ahead n t u := by
  have hmono := h.lt_of_ready ha ht hbt hreadyt
  have hau : a ≠ u := by
    rintro rfl
    omega
  have hle := h.first u hu (Ne.symm hau) (hready hau)
  unfold ahead at hle hlt hmono ⊢
  split_ifs at hle hlt hmono ⊢ <;> omega

theorem not_arrives_of_eq {x : ℕ} (h : p (k + 1) = p k) : ¬ Arrives p (k + 1) x := by
  rintro ⟨-, h1, h2⟩
  rw [Nat.add_sub_cancel] at h2
  omega

def Since (n : ℕ) (p : ℕ → ℕ) (i t u k : ℕ) : Prop :=
  (ahead n t (p k) < ahead n t u ∧ ∀ m, i < m → m ≤ k → ¬ Arrives p m u) ∨
    (ahead n t u ≤ ahead n t (p k) ∧ ∃! m, i < m ∧ m ≤ k ∧ Arrives p m u)

theorem Since.of_eq (h : Since n p i t u k) (hp : p (k + 1) = p k) : Since n p i t u (k + 1) := by
  have hno : ¬ Arrives p (k + 1) u := not_arrives_of_eq hp
  rcases h with ⟨hlt, hnone⟩ | ⟨hle, m, ⟨him, hmk, hm⟩, huniq⟩
  · refine .inl ⟨by rw [hp]; exact hlt, fun m him hmk => ?_⟩
    by_cases hlast : m = k + 1
    · rw [hlast]
      exact hno
    · exact hnone m him (by omega)
  · refine .inr ⟨by rw [hp]; exact hle, m, ⟨him, by omega, hm⟩, ?_⟩
    rintro m' ⟨him', hmk', hm'⟩
    by_cases hlast : m' = k + 1
    · rw [hlast] at hm'
      exact absurd hm' hno
    · exact huniq m' ⟨him', by omega, hm'⟩

theorem Since.next (h : Since n p i t u k) (hik : i ≤ k) (hnext : Next n (ready k) (p k) (p (k + 1))) (hk : p k < n)
    (hk' : p (k + 1) < n) (ht : t < n) (hu : u < n) (hne : p (k + 1) ≠ t) (hreadyt : p k ≠ t → ready k t)
    (hreadyu : p k ≠ u → ready k u) : Since n p i t u (k + 1) := by
  have hmono := hnext.lt_of_ready hk ht hne hreadyt
  rcases h with ⟨hlt, hnone⟩ | ⟨hle, m, ⟨him, hmk, hm⟩, huniq⟩
  · have hbound := hnext.le_of_ready hk hk' ht hu hne hreadyt hlt hreadyu
    by_cases hat : p (k + 1) = u
    · refine .inr ⟨hat ▸ le_rfl, k + 1, ⟨by omega, le_rfl, by omega, hat, ?_⟩, ?_⟩
      · rw [Nat.add_sub_cancel]
        rintro he
        rw [he] at hlt
        omega
      · rintro m ⟨him, hmk, hm⟩
        by_contra hlast
        exact hnone m him (by omega) hm
    · refine .inl ⟨lt_of_le_of_ne hbound fun he => hat ?_, fun m him hmk hm => ?_⟩
      · unfold ahead at he
        split_ifs at he <;> omega
      · by_cases hlast : m = k + 1
        · rw [hlast] at hm
          exact hat hm.2.1
        · exact hnone m him (by omega) hm
  · refine .inr ⟨by omega, m, ⟨him, by omega, hm⟩, ?_⟩
    rintro m' ⟨him', hmk', hm'⟩
    by_cases hlast : m' = k + 1
    · rw [hlast] at hm'
      rw [hm'.2.1] at hmono
      omega
    · exact huniq m' ⟨him', by omega, hm'⟩

theorem arrives_once (hp : ∀ k, p k < n) (hstep : ∀ k, i ≤ k → k < j → p (k + 1) = p k ∨ Next n (ready k) (p k) (p (k + 1)))
    (hij : i < j) (hi : p i = t) (hj : Arrives p j t) (hno : ∀ k, i < k → k < j → ¬ Arrives p k t)
    (ht : ∀ k, i ≤ k → k < j → p k ≠ t → ready k t) (hu : u < n) (hut : u ≠ t)
    (hready : ∀ k, i ≤ k → k < j → p k ≠ u → ready k u) : ∃! k, i < k ∧ k < j ∧ Arrives p k u := by
  have htn : t < n := hi ▸ hp i
  have hrun : ∀ d, i + d < j → Since n p i t u (i + d) := by
    intro d
    induction d with
    | zero =>
      intro _
      refine .inl ⟨?_, fun m him hmk => by omega⟩
      rw [Nat.add_zero, hi]
      unfold ahead
      split_ifs <;> omega
    | succ d ih =>
      intro hd
      have hsince := ih (by omega)
      rcases hstep (i + d) (by omega) (by omega) with heq | hnext
      · exact hsince.of_eq heq
      · refine hsince.next (by omega) hnext (hp _) (hp _) htn hu ?_ (ht _ (by omega) (by omega))
          (hready _ (by omega) (by omega))
        intro he
        by_cases hfrom : p (i + d) = t
        · exact hnext.ne (he.trans hfrom.symm)
        · exact hno (i + d + 1) (by omega) hd ⟨by omega, he, by rwa [Nat.add_sub_cancel]⟩
  obtain ⟨l, rfl⟩ : ∃ l, j = l + 1 := Nat.exists_eq_succ_of_ne_zero (by omega)
  obtain ⟨-, hlast, hbefore⟩ := hj
  rw [Nat.add_sub_cancel] at hbefore
  have hsince := hrun (l - i) (by omega)
  rw [Nat.add_sub_cancel' (by omega)] at hsince
  rcases hsince with ⟨hlt, -⟩ | ⟨-, m, ⟨him, hml, hm⟩, huniq⟩
  · -- the pointer would have stopped at `u` first
    have hlu : p l ≠ u := by
      rintro he
      rw [he] at hlt
      omega
    rcases hstep l (by omega) (by omega) with heq | hnext
    · exact absurd (heq.symm.trans hlast) hbefore
    · have hle := hnext.first u hu (Ne.symm hlu) (hready l (by omega) (by omega) hlu)
      unfold ahead at hle hlt
      split_ifs at hle hlt <;> omega
  · refine ⟨m, ⟨him, by omega, hm⟩, ?_⟩
    rintro m' ⟨him', hml', hm'⟩
    exact huniq m' ⟨him', by omega, hm'⟩

end Laboratorio
