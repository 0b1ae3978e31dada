import Laboratorio.Fs.Inode

namespace Laboratorio.Fs

theorem strncpy_succ (s : Name) (n : ℕ) :
    strncpy s (n + 1) = if s.headD 0 = 0 then List.replicate (n + 1) 0 else s.headD 0 :: strncpy s.tail n := by
  cases s with
  | nil => rfl
  | cons x xs =>
    by_cases hx : x = 0
    · simp [strncpy, hx]
    · simp [strncpy, hx]

theorem length_strncpy (s : Name) (n : ℕ) : (strncpy s n).length = n := by
  simp only [strncpy, List.length_append, List.length_replicate]
  have : ((s.takeWhile (· ≠ 0)).take n).length ≤ n := List.length_take_le _ _
  omega

theorem strncmpEq_iff (n : ℕ) (p q : Name) : strncmpEq n p q = true ↔ strncpy p n = strncpy q n := by
  induction n generalizing p q with
  | zero => simp [strncmpEq, strncpy]
  | succ n ih =>
    rw [strncmpEq, strncpy_succ, strncpy_succ]
    by_cases hpq : p.headD 0 = q.headD 0
    · rw [if_neg (not_not_intro hpq), hpq]
      by_cases hq : q.headD 0 = 0
      · rw [if_pos hq, if_pos hq, if_pos hq]
        simp
      · rw [if_neg hq, if_neg hq, if_neg hq, ih]
        simp
    · rw [if_pos hpq]
      refine ⟨fun h => (by cases h), fun h => absurd ?_ hpq⟩
      split_ifs at h with hp hq hq
      · rw [hp, hq]
      · rw [hp]
        exact (List.cons.inj h).1
      · rw [hq]
        exact (List.cons.inj h).1
      · exact (List.cons.inj h).1

theorem strncpy_strncpy (s : Name) (n : ℕ) : strncpy (strncpy s n) n = strncpy s n := by
  induction n generalizing s with
  | zero => rfl
  | succ n ih =>
    rw [strncpy_succ s n]
    split_ifs with h
    · rw [strncpy_succ, if_pos (by simp [List.replicate_succ])]
    · rw [strncpy_succ, List.headD_cons, if_neg h, List.tail_cons, ih]

theorem namecmp_iff (p q : Name) : namecmp p q = true ↔ strncpy p dirsiz = strncpy q dirsiz := strncmpEq_iff dirsiz p q

end Laboratorio.Fs
