import Mathlib

/-!
Ring buffers as a window on the list of all values ever stored.
-/

namespace Laboratorio

variable {α : Type}

structure Ring (size : ℕ) (slot : ℕ → α) (sent got : List α) : Prop where
  taken : got <+: sent
  room : sent.length ≤ got.length + size
  held : ∀ j, got.length ≤ j → j < sent.length → sent[j]? = some (slot (j % size))

namespace Ring

variable {size : ℕ} {slot : ℕ → α} {sent got : List α}

theorem empty (size : ℕ) (slot : ℕ → α) : Ring size slot [] [] :=
  ⟨List.prefix_rfl, by simp, by simp⟩

theorem undo {x : α} (h : Ring size slot (sent ++ [x]) got) (hle : got.length ≤ sent.length) : Ring size slot sent got := by
  have hroom := h.room
  rw [List.length_append, List.length_singleton] at hroom
  refine ⟨List.prefix_of_prefix_length_le h.taken (List.prefix_append _ _) hle, by omega, fun j hj hlt => ?_⟩
  have hheld := h.held j hj (by simp only [List.length_append, List.length_singleton]; omega)
  rwa [List.getElem?_append_left hlt] at hheld

section

variable (h : Ring size slot sent got)

include h

theorem length_le : got.length ≤ sent.length := h.taken.length_le

theorem push (x : α) (hroom : sent.length < got.length + size) :
    Ring size (Function.update slot (sent.length % size) x) (sent ++ [x]) got := by
  refine ⟨h.taken.trans (List.prefix_append _ _), by simp; omega, fun j hj hlt => ?_⟩
  by_cases hlast : j = sent.length
  · subst hlast; simp
  have hj' : j < sent.length := by
    simp only [List.length_append, List.length_cons, List.length_nil] at hlt
    omega
  have hslot : j % size ≠ sent.length % size := by
    intro heq
    have hdvd : size ∣ sent.length - j := (Nat.modEq_iff_dvd' hj'.le).mp heq
    have hle := Nat.le_of_dvd (by omega) hdvd
    omega
  rw [List.getElem?_append_left hj', h.held j hj hj']
  simp [hslot]

theorem pop (hne : got.length < sent.length) : Ring size slot sent (got ++ [slot (got.length % size)]) := by
  obtain ⟨rest, hrest⟩ := h.taken
  have hnext := h.held got.length le_rfl hne
  cases rest with
  | nil =>
    rw [← hrest] at hne
    simp at hne
  | cons y ys =>
    have hy : y = slot (got.length % size) := by
      rw [← hrest] at hnext
      simpa using hnext
    refine ⟨⟨ys, by rw [← hrest, hy]; simp⟩, ?_, fun j hj hlt => h.held j ?_ hlt⟩
    · have := h.room
      simp only [List.length_append, List.length_cons, List.length_nil]
      omega
    · simp only [List.length_append, List.length_cons, List.length_nil] at hj
      omega

theorem window {a b : ℕ} (ha : got.length ≤ a) (hb : b ≤ sent.length) :
    (List.range (b - a)).map (fun i => slot ((a + i) % size)) = (sent.take b).drop a := by
  apply List.ext_getElem?
  intro i
  by_cases hi : i < b - a
  · rw [List.getElem?_map, List.getElem?_range hi, List.getElem?_drop, List.getElem?_take_of_lt (by omega),
      h.held (a + i) (by omega) (by omega)]
    rfl
  · rw [List.getElem?_eq_none (by simpa using hi), List.getElem?_eq_none (by simp; omega)]

end

variable {r w : UInt32} (hr : r = UInt32.ofNat got.length) (hw : w = UInt32.ofNat sent.length)

include hr hw

variable (h : Ring size slot sent got) (hsize : size < 2 ^ 32)

include h hsize

theorem toNat_sub : (w - r).toNat = sent.length - got.length := by
  have hle := h.length_le
  have hroom := h.room
  rw [hw, hr, UInt32.toNat_sub, UInt32.toNat_ofNat', UInt32.toNat_ofNat']
  omega

theorem full_iff : w = r + UInt32.ofNat size ↔ sent.length = got.length + size := by
  have hle := h.length_le
  have hroom := h.room
  rw [hw, hr, ← UInt32.ofNat_add, ← UInt32.toNat_inj, UInt32.toNat_ofNat', UInt32.toNat_ofNat']
  omega

theorem empty_iff : r = w ↔ got = sent := by
  have hle := h.length_le
  have hroom := h.room
  have hlen : r = w ↔ got.length = sent.length := by
    rw [hw, hr, ← UInt32.toNat_inj, UInt32.toNat_ofNat', UInt32.toNat_ofNat']
    omega
  rw [hlen]
  exact ⟨h.taken.eq_of_length, fun heq => by rw [heq]⟩

end Ring

end Laboratorio
