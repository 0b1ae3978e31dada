import Laboratorio.Lib.Strings

namespace Laboratorio.Ulib

open Bytes Function

def strchr (m : Bytes) (c : UInt8) : ℕ → ℕ → Option ℕ
  | 0, _ => none
  | n + 1, s => if m s = 0 then none else if m s = c then some s else strchr m c n (s + 1)

def memmove : ℕ → Bytes → ℕ → ℕ → Bytes
  | 0, m, _, _ => m
  | n + 1, m, dst, src => memmove n (update m dst (m src)) (dst + 1) (src + 1)

variable {m : Bytes} {c : UInt8} {n s : ℕ} {w l : List UInt8}

theorem strchr_bounds {q : ℕ} (h : strchr m c n s = some q) : s ≤ q ∧ q < s + n := by
  induction n generalizing s with
  | zero => simp [strchr] at h
  | succ n ih =>
    rw [strchr] at h
    split_ifs at h with h0 hc
    · obtain rfl : s = q := Option.some.inj h
      omega
    · have := ih h
      omega

theorem strchr_found (hw : At m s (w ++ c :: l)) (h0 : (0 : UInt8) ∉ w) (hc : c ∉ w) (hc0 : c ≠ 0) (hn : w.length < n) :
    strchr m c n s = some (s + w.length) := by
  induction w generalizing n s with
  | nil =>
    obtain ⟨n, rfl⟩ : ∃ k, n = k + 1 := ⟨n - 1, by omega⟩
    have hs : m s = c := hw.1
    rw [strchr, hs, if_neg hc0, if_pos rfl, List.length_nil, Nat.add_zero]
  | cons x w ih =>
    obtain ⟨n, rfl⟩ : ∃ k, n = k + 1 := ⟨n - 1, by omega⟩
    rw [List.mem_cons, not_or] at h0 hc
    obtain ⟨hx, hw⟩ := hw
    rw [strchr, hx, if_neg (Ne.symm h0.1), if_neg (Ne.symm hc.1), ih hw h0.2 hc.2 (by simpa using hn), List.length_cons]
    congr 1
    omega

theorem strchr_none (hw : StringAt m s w) (hc : c ∉ w) : strchr m c n s = none := by
  induction n generalizing s w with
  | zero => rfl
  | succ n ih =>
    cases w with
    | nil =>
      have hs : m s = 0 := hw.nul
      rw [strchr, if_pos hs]
    | cons x w =>
      have hx : m s = x := hw.chars.1
      have h0 : x ≠ 0 := fun h => hw.nonzero (by simp [h])
      rw [List.mem_cons, not_or] at hc
      rw [strchr, hx, if_neg h0, if_neg (Ne.symm hc.1), ih hw.tail hc.2]

theorem memmove_eq {dst src : ℕ} (h : dst ≤ src ∨ src + n ≤ dst) : memmove n m dst src = Bytes.memmove m dst src n := by
  induction n generalizing m dst src with
  | zero =>
    funext x
    rw [Bytes.memmove, store_of_notMem (by omega)]
    rfl
  | succ n ih =>
    rw [memmove, ih (by omega)]
    funext x
    by_cases hx : dst ≤ x ∧ x < dst + (n + 1)
    · have hmoved : store m dst (n + 1) (fun i => m (src + i)) x = m (src + (x - dst)) := store_of_mem hx.1 hx.2
      rw [Bytes.memmove, Bytes.memmove, hmoved]
      rcases Nat.eq_or_lt_of_le hx.1 with rfl | hlt
      · rw [store_of_notMem (by omega), update_self, Nat.sub_self, Nat.add_zero]
      · rw [store_of_mem (by omega) (by omega), update_of_ne (by omega)]
        congr 1
        omega
    · rw [Bytes.memmove, Bytes.memmove, store_of_notMem (by omega), store_of_notMem (by omega), update_of_ne (by omega)]

end Laboratorio.Ulib
