import Laboratorio.Ulib

/-!
The two functions `memmove`: that of the kernel in `string.c` and that of the user library in `ulib.c`.
-/

namespace Laboratorio.Memmove

open Bytes Function

def backward : ℕ → Bytes → ℕ → ℕ → Bytes
  | 0, m, _, _ => m
  | n + 1, m, d, s => backward n (update m (d - 1) (m (s - 1))) (d - 1) (s - 1)

/-- `memmove` of `string.c`; its loop upwards is that of the user library. -/
def kernel (m : Bytes) (dst src n : ℕ) : Bytes :=
  if src < dst ∧ dst < (src + n) % 2 ^ 32 then backward n m (dst + n) (src + n) else Ulib.memmove n m dst src

/-- `memmove` of `ulib.c`, whose parameter `n` is an `int`. -/
def user (m : Bytes) (dst src n : ℕ) : Bytes := Ulib.memmove (Int.bmod n (2 ^ 32)).toNat m dst src

structure Moved (m : Bytes) (dst src n : ℕ) (r : Bytes) : Prop where
  moved : ∀ i < n, r (dst + i) = m (src + i)
  kept : ∀ x, x < dst ∨ dst + n ≤ x → r x = m x

variable {m r : Bytes} {dst src n : ℕ}

theorem moved_iff : Moved m dst src n r ↔ r = Bytes.memmove m dst src n := by
  constructor
  · intro h
    funext x
    by_cases hx : dst ≤ x ∧ x < dst + n
    · obtain ⟨i, rfl⟩ := Nat.exists_eq_add_of_le hx.1
      rw [h.moved i (by omega), Bytes.memmove, store_of_mem (by omega) (by omega), Nat.add_sub_cancel_left]
    · rw [h.kept x (by omega), Bytes.memmove, store_of_notMem (by omega)]
  · rintro rfl
    refine ⟨fun i hi => ?_, fun x hx => store_of_notMem hx⟩
    rw [Bytes.memmove, store_of_mem (by omega) (by omega), Nat.add_sub_cancel_left]

theorem backward_eq (h : src ≤ dst) : backward n m (dst + n) (src + n) = Bytes.memmove m dst src n := by
  induction n generalizing m with
  | zero => exact moved_iff.mp ⟨nofun, fun _ _ => rfl⟩
  | succ n ih =>
    have hstep : backward (n + 1) m (dst + (n + 1)) (src + (n + 1)) =
      Bytes.memmove (update m (dst + n) (m (src + n))) dst src n := ih
    rw [hstep]
    apply moved_iff.mp
    refine ⟨fun i hi => ?_, fun x hx => ?_⟩
    · rcases Nat.lt_succ_iff_lt_or_eq.mp hi with hlt | rfl
      · rw [Bytes.memmove, store_of_mem (by omega) (by omega), Nat.add_sub_cancel_left, update_of_ne (by omega)]
      · rw [Bytes.memmove, store_of_notMem (by omega), update_self]
    · rw [Bytes.memmove, store_of_notMem (by omega), update_of_ne (by omega)]

theorem kernel_eq (hdst : dst + n ≤ 2 ^ 32) : kernel m dst src n = Bytes.memmove m dst src n := by
  unfold kernel
  split_ifs with h
  · exact backward_eq (Nat.le_of_lt h.1)
  · apply Ulib.memmove_eq
    omega

theorem memmove_below {x : ℕ} (hx : x < dst) : Ulib.memmove n m dst src x = m x := by
  induction n generalizing m dst src with
  | zero => rfl
  | succ n ih => rw [Ulib.memmove, ih (by omega), update_of_ne (by omega)]

theorem memmove_above {x : ℕ} (hx : dst + n ≤ x) : Ulib.memmove n m dst src x = m x := by
  induction n generalizing m dst src with
  | zero => rfl
  | succ n ih => rw [Ulib.memmove, ih (by omega), update_of_ne (by omega)]

theorem memmove_overlap (h : src < dst) {i : ℕ} (hi : i < n) :
    Ulib.memmove n m dst src (dst + i) = m (src + i % (dst - src)) := by
  induction n generalizing m dst src i with
  | zero => omega
  | succ n ih =>
    rw [Ulib.memmove]
    cases i with
    | zero => rw [memmove_below (by omega), Nat.add_zero, update_self, Nat.zero_mod, Nat.add_zero]
    | succ i =>
      have hrest : Ulib.memmove n (update m dst (m src)) (dst + 1) (src + 1) (dst + 1 + i) = _ := ih (by omega) (by omega)
      rw [Nat.add_sub_add_right, Nat.add_assoc, Nat.add_comm 1 i] at hrest
      rw [hrest, ← Nat.mod_add_mod i (dst - src) 1]
      have hmod := Nat.mod_lt i (show 0 < dst - src by omega)
      by_cases hlast : i % (dst - src) + 1 = dst - src
      · have hat : src + 1 + i % (dst - src) = dst := by omega
        rw [hat, update_self, hlast, Nat.mod_self, Nat.add_zero]
      · rw [update_of_ne (by omega), Nat.mod_eq_of_lt (show i % (dst - src) + 1 < dst - src by omega),
          Nat.add_assoc, Nat.add_comm 1]

def Repeats (m : Bytes) (src n d : ℕ) : Prop := ∀ i, i + d < n → m (src + (i + d)) = m (src + i)

theorem Repeats.mod {d i : ℕ} (h : Repeats m src n d) (hi : i < n) : m (src + i % d) = m (src + i) := by
  induction i using Nat.strongRecOn with
  | ind i ih =>
    by_cases hlt : i < d
    · rw [Nat.mod_eq_of_lt hlt]
    · rcases Nat.eq_zero_or_pos d with rfl | hd
      · rw [Nat.mod_zero]
      · have hstep := h (i - d) (by omega)
        rw [Nat.sub_add_cancel (by omega)] at hstep
        rw [hstep, ← ih (i - d) (by omega) (by omega), Nat.mod_eq_sub_mod (by omega)]

theorem memmove_moved_iff (h : src < dst) : Moved m dst src n (Ulib.memmove n m dst src) ↔ Repeats m src n (dst - src) := by
  constructor
  · intro hm i hi
    have hmod : ∀ j < n, m (src + j % (dst - src)) = m (src + j) := fun j hj =>
      (memmove_overlap h hj).symm.trans (hm.moved j hj)
    rw [← hmod _ hi, Nat.add_mod_right, hmod i (by omega)]
  · intro hr
    refine ⟨fun i hi => ?_, fun x hx => ?_⟩
    · rw [memmove_overlap h hi, hr.mod hi]
    · rcases hx with hx | hx
      · exact memmove_below hx
      · exact memmove_above hx

theorem memmove_agree_iff {m : Bytes} {dst src n : ℕ} (hn : n < 2 ^ 31) (hdst : dst + n ≤ 2 ^ 32) (_hsrc : src + n ≤ 2 ^ 32) :
    Moved m dst src n (kernel m dst src n) ∧
      (user m dst src n = kernel m dst src n ↔ dst ≤ src ∨ src + n ≤ dst ∨ Repeats m src n (dst - src)) := by
  have hint : (Int.bmod n (2 ^ 32)).toNat = n := by
    rw [Int.bmod_eq_of_le (by omega) (by omega)]
    rfl
  rw [user, hint, kernel_eq hdst, ← moved_iff]
  refine ⟨moved_iff.mpr rfl, ?_⟩
  by_cases hover : dst ≤ src ∨ src + n ≤ dst
  · rw [← or_assoc]
    exact iff_of_true (moved_iff.mpr (Ulib.memmove_eq hover)) (.inl hover)
  · rw [memmove_moved_iff (by omega), ← or_assoc]
    exact (or_iff_right hover).symm

theorem memmove_agree_apart : user (fun i => UInt8.ofNat i) 0 1 2 = kernel (fun i => UInt8.ofNat i) 0 1 2 :=
  (memmove_agree_iff (by decide) (by decide) (by decide)).2.mpr (.inl (by decide))

theorem user_copies_twice : user (fun i => UInt8.ofNat i) 1 0 2 2 = 0 ∧ kernel (fun i => UInt8.ofNat i) 1 0 2 2 = 1 := by
  decide

end Laboratorio.Memmove
