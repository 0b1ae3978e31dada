import Mathlib

/-!
Byte memories and the little-endian numbers stored in them.
-/

namespace Laboratorio

abbrev Bytes := ℕ → UInt8

namespace Bytes

def store (m : Bytes) (a n : ℕ) (src : Bytes) : Bytes := fun x => if a ≤ x ∧ x < a + n then src (x - a) else m x

def memset (m : Bytes) (a : ℕ) (c : UInt8) (n : ℕ) : Bytes := store m a n (fun _ => c)

def memmove (m : Bytes) (dst src n : ℕ) : Bytes := store m dst n (fun i => m (src + i))

def rd : ℕ → Bytes → ℕ → ℕ
  | 0, _, _ => 0
  | n + 1, m, a => (m a).toNat + 256 * rd n m (a + 1)

def wr (n : ℕ) (m : Bytes) (a v : ℕ) : Bytes := store m a n (fun i => UInt8.ofNat (v / 256 ^ i))

abbrev rd16 (m : Bytes) (a : ℕ) : ℕ := rd 2 m a

abbrev rd32 (m : Bytes) (a : ℕ) : ℕ := rd 4 m a

abbrev wr16 (m : Bytes) (a v : ℕ) : Bytes := wr 2 m a v

abbrev wr32 (m : Bytes) (a v : ℕ) : Bytes := wr 4 m a v

variable {m src : Bytes} {a n : ℕ}

theorem store_of_mem {x : ℕ} (h1 : a ≤ x) (h2 : x < a + n) : store m a n src x = src (x - a) :=
  if_pos ⟨h1, h2⟩

theorem store_of_notMem {x : ℕ} (h : x < a ∨ a + n ≤ x) : store m a n src x = m x := by
  apply if_neg
  omega

variable {b k : ℕ}

theorem store_comm {src' : Bytes} (h : a + n ≤ b ∨ b + k ≤ a) :
    store (store m a n src) b k src' = store (store m b k src') a n src := by
  funext x
  unfold store
  by_cases h1 : a ≤ x ∧ x < a + n
  · have h2 : ¬ (b ≤ x ∧ x < b + k) := by omega
    rw [if_neg h2, if_pos h1, if_pos h1]
  · rw [if_neg h1, if_neg h1]

theorem rd_congr {m' : Bytes} (h : ∀ x, a ≤ x → x < a + n → m x = m' x) : rd n m a = rd n m' a := by
  induction n generalizing a with
  | zero => rfl
  | succ n ih =>
    have ha : m a = m' a := h a (by omega) (by omega)
    have hrest : rd n m (a + 1) = rd n m' (a + 1) := by
      apply ih
      intro x h1 h2
      apply h <;> omega
    simp only [rd, ha, hrest]

theorem rd_lt (n : ℕ) (m : Bytes) (a : ℕ) : rd n m a < 256 ^ n := by
  induction n generalizing a with
  | zero => simp [rd]
  | succ n ih =>
    have hb : (m a).toNat < 256 := (m a).toNat_lt
    have hr := ih (a + 1)
    simp only [rd, Nat.pow_succ]
    omega

theorem rd_store_of_disjoint (h : b + k ≤ a ∨ a + n ≤ b) : rd k (store m a n src) b = rd k m b := by
  apply rd_congr
  intro x h1 h2
  apply store_of_notMem
  omega

theorem rd_wr_of_disjoint {v : ℕ} (h : b + k ≤ a ∨ a + n ≤ b) : rd k (wr n m a v) b = rd k m b :=
  rd_store_of_disjoint h

theorem rd_store_inside (m src : Bytes) {o : ℕ} (h : o + k ≤ n) : rd k (store m a n src) (a + o) = rd k src o := by
  induction k generalizing o with
  | zero => rfl
  | succ k ih =>
    have hb : store m a n src (a + o) = src o := by
      rw [store_of_mem (by omega) (by omega)]
      congr 1
      omega
    have hrest : rd k (store m a n src) (a + o + 1) = rd k src (o + 1) := ih (o := o + 1) (by omega)
    simp only [rd, hb, hrest]

theorem rd_wr {v : ℕ} (m : Bytes) (a : ℕ) (h : v < 256 ^ n) : rd n (wr n m a v) a = v := by
  induction n generalizing m a v with
  | zero =>
    have hv : v = 0 := by simpa using h
    rw [hv]
    rfl
  | succ n ih =>
    have hq : v / 256 < 256 ^ n := by
      apply Nat.div_lt_of_lt_mul
      rwa [Nat.pow_succ, Nat.mul_comm] at h
    have hbyte : (wr (n + 1) m a v a).toNat = v % 256 := by
      have hb : wr (n + 1) m a v a = UInt8.ofNat v := by
        rw [wr, store_of_mem (by omega) (by omega)]
        simp
      rw [hb]
      simp
    have hrest : rd n (wr (n + 1) m a v) (a + 1) = v / 256 := by
      rw [← ih m (a + 1) hq]
      apply rd_congr
      intro x h1 h2
      rw [wr, wr, store_of_mem (by omega) (by omega), store_of_mem h1 h2]
      have hx : x - a = x - (a + 1) + 1 := by omega
      rw [hx, Nat.pow_succ, Nat.mul_comm, Nat.div_div_eq_div_mul]
    rw [rd, hbyte, hrest]
    omega

theorem rd_eq_zero (h : ∀ x, a ≤ x → x < a + n → m x = 0) : rd n m a = 0 := by
  induction n generalizing a with
  | zero => rfl
  | succ n ih =>
    have ha : m a = 0 := h a (by omega) (by omega)
    have hrest : rd n m (a + 1) = 0 := ih fun x h1 h2 => h x (by omega) (by omega)
    simp [rd, ha, hrest]

theorem rd_memset_zero (h1 : a ≤ b) (h2 : b + n ≤ a + k) : rd n (memset m a 0 k) b = 0 :=
  rd_eq_zero fun _ h3 h4 => store_of_mem (by omega) (by omega)

end Bytes

end Laboratorio
