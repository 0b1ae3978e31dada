import Laboratorio.Lib.Bytes

/-!
Lists of bytes in a byte memory, and the strings that a zero ends.
-/

namespace Laboratorio.Bytes

def At (m : Bytes) : ℕ → List UInt8 → Prop
  | _, [] => True
  | a, x :: l => m a = x ∧ At m (a + 1) l

variable {m m' : Bytes} {a n : ℕ} {l l' : List UInt8}

theorem at_append : At m a (l ++ l') ↔ At m a l ∧ At m (a + l.length) l' := by
  induction l generalizing a with
  | nil => simp [At]
  | cons x l ih => simp only [List.cons_append, At, ih, List.length_cons, and_assoc, Nat.add_assoc, Nat.add_comm 1]

theorem at_singleton {x : UInt8} : At m a [x] ↔ m a = x := by
  simp [At]

theorem At.congr (h : At m a l) (hm : ∀ x, a ≤ x → x < a + l.length → m' x = m x) : At m' a l := by
  induction l generalizing a with
  | nil => trivial
  | cons x l ih =>
    rw [List.length_cons] at hm
    refine ⟨(hm a (by omega) (by omega)).trans h.1, ih h.2 fun y h1 h2 => hm y (by omega) (by omega)⟩

theorem at_iff : At m a l ↔ ∀ i, i < l.length → m (a + i) = l.getD i 0 := by
  induction l generalizing a with
  | nil => simp [At]
  | cons x l ih =>
    rw [At, ih]
    constructor
    · rintro ⟨hx, hl⟩ i hi
      cases i with
      | zero => exact hx
      | succ i =>
        rw [List.getD_cons_succ, ← hl i (by simpa using hi)]
        congr 1
        omega
    · intro h
      refine ⟨h 0 (by simp), fun i hi => ?_⟩
      rw [Nat.add_assoc, Nat.add_comm 1, h (i + 1) (by simpa using hi), List.getD_cons_succ]

theorem at_store (m : Bytes) (a : ℕ) (l : List UInt8) : At (store m a l.length fun x => l.getD x 0) a l := by
  rw [at_iff]
  intro i hi
  rw [store_of_mem (by omega) (by omega), Nat.add_sub_cancel_left]

theorem At.map_range (h : At m a l) : (List.range l.length).map (fun i => m (a + i)) = l := by
  apply List.ext_getElem
  · simp
  · intro i h1 h2
    simp only [List.getElem_map, List.getElem_range]
    rw [at_iff.mp h i h2, List.getD_eq_getElem?_getD, List.getElem?_eq_getElem h2, Option.getD_some]

structure StringAt (m : Bytes) (a : ℕ) (w : List UInt8) : Prop where
  chars : At m a w
  nul : m (a + w.length) = 0
  nonzero : (0 : UInt8) ∉ w

theorem StringAt.tail {x : UInt8} {w : List UInt8} (h : StringAt m a (x :: w)) : StringAt m (a + 1) w := by
  obtain ⟨hchars, hnul, hne⟩ := h
  rw [List.length_cons, Nat.add_comm w.length, ← Nat.add_assoc] at hnul
  exact ⟨hchars.2, hnul, fun hw => hne (List.mem_cons_of_mem x hw)⟩

def cstring (m : Bytes) : ℕ → ℕ → List UInt8
  | 0, _ => []
  | n + 1, a => if m a = 0 then [] else m a :: cstring m n (a + 1)

theorem StringAt.cstring_eq {w : List UInt8} (h : StringAt m a w) (hn : w.length < n) : cstring m n a = w := by
  induction w generalizing a n with
  | nil =>
    obtain ⟨n, rfl⟩ : ∃ k, n = k + 1 := ⟨n - 1, by omega⟩
    have hnul : m a = 0 := h.nul
    rw [cstring, if_pos hnul]
  | cons x w ih =>
    obtain ⟨n, rfl⟩ : ∃ k, n = k + 1 := ⟨n - 1, by omega⟩
    have hx : m a = x := h.chars.1
    have hne : x ≠ 0 := fun h0 => h.nonzero (by simp [h0])
    rw [cstring, hx, if_neg hne, ih h.tail (by simpa using hn)]

end Laboratorio.Bytes
