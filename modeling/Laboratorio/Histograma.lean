import Mathlib

/-!
The loop of `lab-01/histograma.c` that reads its input and counts words by their lengths.
-/

namespace Laboratorio.Histograma

open Function

def maxWordLength : ℕ := 20

def isalpha (c : UInt8) : Bool := (65 ≤ c && c ≤ 90) || (97 ≤ c && c ≤ 122)

structure State where
  wordLengths : Fin (maxWordLength + 1) → ℕ
  longitudActual : ℕ

/-- `++` on an `int`, which must not overflow. -/
def increment (n : ℕ) : Option ℕ := if n + 1 < 2 ^ 31 then some (n + 1) else none

theorem increment_of_lt {n : ℕ} (h : n + 1 < 2 ^ 31) : increment n = some (n + 1) := if_pos h

theorem increment_eq_none {n : ℕ} (h : ¬ n + 1 < 2 ^ 31) : increment n = none := if_neg h

def State.read (s : State) (c : UInt8) : Option State :=
  if isalpha c then (increment s.longitudActual).map fun n => { s with longitudActual := n }
  else if 0 < s.longitudActual then
    if h : s.longitudActual ≤ maxWordLength then
      (increment (s.wordLengths ⟨s.longitudActual, Nat.lt_succ_of_le h⟩)).map fun n =>
        ⟨update s.wordLengths ⟨s.longitudActual, Nat.lt_succ_of_le h⟩ n, 0⟩
    else some { s with longitudActual := 0 }
  else some s

def main (input : List UInt8) : Option State := input.foldlM State.read ⟨fun _ => 0, 0⟩

def runs (input : List UInt8) : List ℕ := (input.splitOnP fun c => !isalpha c).map List.length

def runsFrom (n : ℕ) (input : List UInt8) : List ℕ := (runs input).modifyHead (n + ·)

variable {w : Fin (maxWordLength + 1) → ℕ} {n : ℕ} {c : UInt8} {l : List UInt8} {t : State}

theorem runs_ne_nil (l : List UInt8) : runs l ≠ [] := by
  simp [runs, List.splitOnP_ne_nil]

theorem runsFrom_ne_nil (n : ℕ) (l : List UInt8) : runsFrom n l ≠ [] := by
  simp [runsFrom, runs_ne_nil]

theorem runsFrom_zero (l : List UInt8) : runsFrom 0 l = runs l := by
  rw [runsFrom]
  cases runs l with
  | nil => rfl
  | cons x xs => simp

theorem runsFrom_letter (hc : isalpha c = true) (n : ℕ) (l : List UInt8) : runsFrom n (c :: l) = runsFrom (n + 1) l := by
  simp only [runsFrom, runs, List.splitOnP_cons_eq_if_modifyHead, hc]
  cases List.splitOnP (fun c => !isalpha c) l with
  | nil => rfl
  | cons x xs => simp [Nat.add_assoc, Nat.add_comm 1]

theorem runsFrom_other (hc : isalpha c = false) (n : ℕ) (l : List UInt8) : runsFrom n (c :: l) = n :: runsFrom 0 l := by
  rw [runsFrom_zero]
  simp [runsFrom, runs, List.splitOnP_cons_eq_if_modifyHead, hc]

theorem exists_runsFrom_ge (n : ℕ) (l : List UInt8) : ∃ x ∈ runsFrom n l, n ≤ x := by
  obtain ⟨x, xs, hx⟩ := List.exists_cons_of_ne_nil (runs_ne_nil l)
  exact ⟨n + x, by simp [runsFrom, hx], Nat.le_add_right n x⟩

structure Fits (w : Fin (maxWordLength + 1) → ℕ) (rs : List ℕ) : Prop where
  lengths : ∀ r ∈ rs, r < 2 ^ 31
  counts : ∀ k, k ≠ 0 → w k + rs.dropLast.count k.val < 2 ^ 31

structure Counted (w : Fin (maxWordLength + 1) → ℕ) (rs : List ℕ) (t : State) : Prop where
  counts : ∀ k, k ≠ 0 → t.wordLengths k = w k + rs.dropLast.count k.val
  last : rs.getLast? = some t.longitudActual

theorem fits_cons {w' : Fin (maxWordLength + 1) → ℕ} {rs : List ℕ} (hrs : rs ≠ []) (hn : n < 2 ^ 31)
    (hw : ∀ k, k ≠ 0 → w' k = w k + if n = k.val then 1 else 0) : Fits w (n :: rs) ↔ Fits w' rs := by
  constructor
  · intro h
    refine ⟨fun r hr => h.lengths r (List.mem_cons_of_mem n hr), fun k hk => ?_⟩
    have hcount := h.counts k hk
    rw [List.dropLast_cons_of_ne_nil hrs, List.count_cons] at hcount
    simp only [beq_iff_eq] at hcount
    have := hw k hk
    omega
  · intro h
    refine ⟨fun r hr => ?_, fun k hk => ?_⟩
    · rcases List.mem_cons.mp hr with rfl | hr
      · exact hn
      · exact h.lengths r hr
    · have hcount := h.counts k hk
      rw [List.dropLast_cons_of_ne_nil hrs, List.count_cons]
      simp only [beq_iff_eq]
      have := hw k hk
      omega

theorem Counted.cons {w' : Fin (maxWordLength + 1) → ℕ} {rs : List ℕ} (h : Counted w' rs t) (hrs : rs ≠ [])
    (hw : ∀ k, k ≠ 0 → w' k = w k + if n = k.val then 1 else 0) : Counted w (n :: rs) t := by
  refine ⟨fun k hk => ?_, ?_⟩
  · rw [h.counts k hk, hw k hk, List.dropLast_cons_of_ne_nil hrs, List.count_cons]
    simp only [beq_iff_eq]
    omega
  · rw [List.getLast?_cons, h.last]
    rfl

theorem read_all (l : List UInt8) (hn : n < 2 ^ 31) (hw : ∀ k, w k < 2 ^ 31) :
    (∃ t, l.foldlM State.read ⟨w, n⟩ = some t ∧ Fits w (runsFrom n l) ∧ Counted w (runsFrom n l) t) ∨
      l.foldlM State.read ⟨w, n⟩ = none ∧ ¬ Fits w (runsFrom n l) := by
  induction l generalizing w n with
  | nil =>
    refine .inl ⟨⟨w, n⟩, rfl, ⟨fun r hr => ?_, fun k _ => ?_⟩, ⟨fun k _ => ?_, ?_⟩⟩
    · obtain rfl : r = n := by simpa [runsFrom, runs] using hr
      exact hn
    · simpa [runsFrom, runs] using hw k
    · simp [runsFrom, runs]
    · simp [runsFrom, runs]
  | cons c l ih =>
    -- a run of `n` letters ends here and the counts become `w'`
    have hother : ∀ w' : Fin (maxWordLength + 1) → ℕ, isalpha c = false → State.read ⟨w, n⟩ c = some ⟨w', 0⟩ →
        (∀ k, k ≠ 0 → w' k = w k + if n = k.val then 1 else 0) → (∀ k, w' k < 2 ^ 31) →
        (∃ t, (c :: l).foldlM State.read ⟨w, n⟩ = some t ∧ Fits w (runsFrom n (c :: l)) ∧ Counted w (runsFrom n (c :: l)) t) ∨
          (c :: l).foldlM State.read ⟨w, n⟩ = none ∧ ¬ Fits w (runsFrom n (c :: l)) := by
      intro w' hc hread hcount hw'
      have hrs := runsFrom_ne_nil 0 l
      rw [List.foldlM_cons, hread, runsFrom_other hc, fits_cons hrs hn hcount]
      refine (ih (Nat.two_pow_pos 31) hw').imp (fun ⟨t, ht, hfits, hcounted⟩ => ?_) id
      exact ⟨t, ht, hfits, hcounted.cons hrs hcount⟩
    cases hc : isalpha c with
    | true =>
      rw [List.foldlM_cons, runsFrom_letter hc]
      by_cases hlt : n + 1 < 2 ^ 31
      · have hread : State.read ⟨w, n⟩ c = some ⟨w, n + 1⟩ := by simp [State.read, hc, increment_of_lt hlt]
        rw [hread]
        exact ih hlt hw
      · have hread : State.read ⟨w, n⟩ c = none := by simp [State.read, hc, increment_eq_none hlt]
        refine .inr ⟨by rw [hread]; rfl, fun hfits => ?_⟩
        obtain ⟨x, hx, hle⟩ := exists_runsFrom_ge (n + 1) l
        have := hfits.lengths x hx
        omega
    | false =>
      by_cases hpos : 0 < n
      · by_cases hmax : n ≤ maxWordLength
        · by_cases hlt : w ⟨n, Nat.lt_succ_of_le hmax⟩ + 1 < 2 ^ 31
          · refine hother (update w ⟨n, Nat.lt_succ_of_le hmax⟩ (w ⟨n, Nat.lt_succ_of_le hmax⟩ + 1)) hc ?_
              (fun k _ => ?_) fun k => ?_
            · simp [State.read, hc, hpos, hmax, increment_of_lt hlt]
            · by_cases hk : k = ⟨n, Nat.lt_succ_of_le hmax⟩
              · simp [hk]
              · have hne : ¬ n = k.val := fun he => hk (Fin.ext he.symm)
                simp [hk, hne]
            · by_cases hk : k = ⟨n, Nat.lt_succ_of_le hmax⟩
              · rwa [hk, update_self]
              · rw [update_of_ne hk]
                exact hw k
          · have hread : State.read ⟨w, n⟩ c = none := by simp [State.read, hc, hpos, hmax, increment_eq_none hlt]
            refine .inr ⟨by rw [List.foldlM_cons, hread]; rfl, fun hfits => ?_⟩
            have hcount := hfits.counts ⟨n, Nat.lt_succ_of_le hmax⟩ (by simp [Fin.ext_iff]; omega)
            rw [runsFrom_other hc, List.dropLast_cons_of_ne_nil (runsFrom_ne_nil 0 l), List.count_cons_self] at hcount
            omega
        · refine hother w hc (by simp [State.read, hc, hpos, hmax]) (fun k _ => ?_) hw
          have hne : ¬ n = k.val := by
            omega
          simp [hne]
      · obtain rfl : n = 0 := by omega
        refine hother w hc (by simp [State.read, hc]) (fun k hk => ?_) hw
        have hne : ¬ 0 = k.val := fun he => hk (Fin.ext he.symm)
        simp [hne]

theorem histogram_exact_iff {input : List UInt8} {k : Fin (maxWordLength + 1)} (hk : k ≠ 0) :
    (∃ t, main input = some t ∧ t.wordLengths k = (runs input).count k.val) ↔
      (∀ r ∈ runs input, r < 2 ^ 31) ∧ (∀ j : Fin (maxWordLength + 1), j ≠ 0 → (runs input).dropLast.count j.val < 2 ^ 31) ∧
        (runs input).getLast? ≠ some k.val := by
  have hall := read_all input (Nat.two_pow_pos 31) fun _ => Nat.two_pow_pos 31
  rw [runsFrom_zero] at hall
  rcases hall with ⟨t, ht, hfits, hcounted⟩ | ⟨hnone, hno⟩
  · have hsplit : (runs input).count k.val = (runs input).dropLast.count k.val + if t.longitudActual = k.val then 1 else 0 := by
      conv_lhs => rw [← List.dropLast_append_getLast? _ hcounted.last]
      rw [List.count_append, List.count_singleton]
      simp only [beq_iff_eq]
    have hcount := hcounted.counts k hk
    rw [hcounted.last, Ne, Option.some.injEq]
    constructor
    · rintro ⟨t', ht', heq⟩
      obtain rfl : t = t' := Option.some.inj (ht.symm.trans ht')
      refine ⟨hfits.lengths, fun j hj => by simpa using hfits.counts j hj, fun hlast => ?_⟩
      rw [if_pos hlast] at hsplit
      omega
    · rintro ⟨-, -, hlast⟩
      refine ⟨t, ht, ?_⟩
      rw [if_neg hlast] at hsplit
      omega
  · constructor
    · rintro ⟨t, ht, -⟩
      rw [main, hnone] at ht
      cases ht
    · rintro ⟨hlengths, hcounts, -⟩
      exact absurd ⟨hlengths, fun j hj => by simpa using hcounts j hj⟩ hno

theorem histogram_exact_two : ∃ t, main [97, 98, 32, 99, 46] = some t ∧
    t.wordLengths 2 = (runs [97, 98, 32, 99, 46]).count 2 := by
  have hruns : runs [97, 98, 32, 99, 46] = [2, 1, 0] := by decide
  refine (histogram_exact_iff (k := 2) (by decide)).mpr ?_
  rw [hruns]
  decide

theorem last_word_not_counted : (main [97, 98]).map (fun t => t.wordLengths 2) = some 0 ∧ runs [97, 98] = [2] := by
  decide

end Laboratorio.Histograma
