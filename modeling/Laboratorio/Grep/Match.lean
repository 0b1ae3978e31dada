import Mathlib

/-!
The pattern matcher of `grep.c`. A string is the list of its characters before the NUL.
-/

namespace Laboratorio.Grep

open Computability

mutual

def matchhere (re text : List UInt8) : Bool :=
  match re with
  | [] => true
  | c :: re =>
    if re.head? = some '*'.toUInt8 then matchstar c re.tail text
    else if c = '$'.toUInt8 ∧ re = [] then text.isEmpty
    else
      match text with
      | [] => false
      | t :: text => if c = '.'.toUInt8 ∨ c = t then matchhere re text else false
termination_by (re.length, text.length, 0)

def matchstar (c : UInt8) (re text : List UInt8) : Bool :=
  if matchhere re text then true
  else
    match text with
    | [] => false
    | t :: text => if t = c ∨ c = '.'.toUInt8 then matchstar c re text else false
termination_by (re.length, text.length, 1)

end

def matchLoop (re : List UInt8) : List UInt8 → Bool
  | [] => matchhere re []
  | t :: text => if matchhere re (t :: text) then true else matchLoop re text

/-- The function `match` of the source. -/
def matchText (re text : List UInt8) : Bool :=
  if re.head? = some '^'.toUInt8 then matchhere re.tail text else matchLoop re text

inductive Item
  | one (c : UInt8)
  | many (c : UInt8)
  deriving DecidableEq

def symbol (c : UInt8) : Language UInt8 := {w | ∃ t, (c = '.'.toUInt8 ∨ c = t) ∧ w = [t]}

def Item.language : Item → Language UInt8
  | .one c => symbol c
  | .many c => (symbol c)∗

structure Pattern where
  atStart : Bool
  items : List Item
  atEnd : Bool
  deriving DecidableEq

def readItems : List UInt8 → List Item × Bool
  | [] => ([], false)
  | [c] => if c = '$'.toUInt8 then ([], true) else ([.one c], false)
  | c :: d :: re =>
    if d = '*'.toUInt8 then (.many c :: (readItems re).1, (readItems re).2)
    else (.one c :: (readItems (d :: re)).1, (readItems (d :: re)).2)

def readPattern : List UInt8 → Pattern
  | [] => ⟨false, [], false⟩
  | c :: re =>
    if c = '^'.toUInt8 then ⟨true, (readItems re).1, (readItems re).2⟩
    else ⟨false, (readItems (c :: re)).1, (readItems (c :: re)).2⟩

namespace Pattern

def language (p : Pattern) : Language UInt8 := (p.items.map Item.language).prod

def Occurs (p : Pattern) (text : List UInt8) : Prop :=
  ∃ before w behind, text = before ++ w ++ behind ∧ (p.atStart → before = []) ∧ w ∈ p.language ∧ (p.atEnd → behind = [])

end Pattern

variable {c : UInt8}

theorem cons_mem_kstar_symbol {t : UInt8} {w : List UInt8} :
    t :: w ∈ (symbol c)∗ ↔ (c = '.'.toUInt8 ∨ c = t) ∧ w ∈ (symbol c)∗ := by
  constructor
  · intro h
    rw [← Language.one_add_self_mul_kstar_eq_kstar] at h
    rcases h with h | h
    · exact absurd ((Language.mem_one _).mp h) (List.cons_ne_nil t w)
    · obtain ⟨a, ⟨t', ht, rfl⟩, b, hb, hab⟩ := Language.mem_mul.mp h
      obtain ⟨rfl, rfl⟩ : t' = t ∧ b = w := by simpa using hab
      exact ⟨ht, hb⟩
  · rintro ⟨ht, hw⟩
    rw [← Language.one_add_self_mul_kstar_eq_kstar]
    exact .inr (Language.append_mem_mul (a := [t]) ⟨t, ht, rfl⟩ hw)

variable {re text : List UInt8}

theorem matchstar_iff :
    matchstar c re text = true ↔ ∃ w rest, text = w ++ rest ∧ w ∈ (symbol c)∗ ∧ matchhere re rest = true := by
  induction text with
  | nil =>
    rw [matchstar]
    constructor
    · intro h
      refine ⟨[], [], rfl, Language.nil_mem_kstar _, by simpa using h⟩
    · rintro ⟨w, rest, h, -, hre⟩
      obtain ⟨rfl, rfl⟩ := List.append_eq_nil_iff.mp h.symm
      simp [hre]
  | cons t text ih =>
    rw [matchstar]
    by_cases hhere : matchhere re (t :: text) = true
    · simp only [if_pos hhere, true_iff]
      exact ⟨[], t :: text, rfl, Language.nil_mem_kstar _, hhere⟩
    rw [if_neg hhere]
    constructor
    · intro h
      split_ifs at h with ht
      obtain ⟨w, rest, rfl, hw, hre⟩ := ih.mp h
      exact ⟨t :: w, rest, rfl, cons_mem_kstar_symbol.mpr ⟨by tauto, hw⟩, hre⟩
    · rintro ⟨w, rest, h, hw, hre⟩
      cases w with
      | nil =>
        obtain rfl : t :: text = rest := h
        exact absurd hre hhere
      | cons t' w =>
        obtain ⟨rfl, rfl⟩ := List.cons.inj h
        obtain ⟨ht, hw⟩ := cons_mem_kstar_symbol.mp hw
        rw [if_pos (by tauto)]
        exact ih.mpr ⟨w, rest, rfl, hw, hre⟩

def Begins (p : List Item × Bool) (text : List UInt8) : Prop :=
  ∃ w behind, text = w ++ behind ∧ w ∈ (p.1.map Item.language).prod ∧ (p.2 → behind = [])

variable {e : Bool}

theorem begins_nil : Begins ([], e) text ↔ (e → text = []) := by
  simp [Begins, Language.mem_one]

theorem begins_cons {i : Item} {l : List Item} :
    Begins (i :: l, e) text ↔ ∃ w rest, text = w ++ rest ∧ w ∈ i.language ∧ Begins (l, e) rest := by
  constructor
  · rintro ⟨w, behind, rfl, hw, he⟩
    obtain ⟨a, ha, b, hb, rfl⟩ := Language.mem_mul.mp hw
    exact ⟨a, b ++ behind, by simp, ha, b, behind, rfl, hb, he⟩
  · rintro ⟨a, -, rfl, ha, b, behind, rfl, hb, he⟩
    refine ⟨a ++ b, behind, by simp, ?_, he⟩
    exact Language.append_mem_mul ha hb

theorem begins_one {l : List Item} :
    Begins (.one c :: l, e) text ↔ ∃ t rest, text = t :: rest ∧ (c = '.'.toUInt8 ∨ c = t) ∧ Begins (l, e) rest := by
  rw [begins_cons]
  constructor
  · rintro ⟨-, rest, rfl, ⟨t, ht, rfl⟩, h⟩
    exact ⟨t, rest, rfl, ht, h⟩
  · rintro ⟨t, rest, rfl, ht, h⟩
    exact ⟨[t], rest, rfl, ⟨t, ht, rfl⟩, h⟩

theorem matchhere_star : matchhere (c :: '*'.toUInt8 :: re) text = matchstar c re text := by
  rw [matchhere.eq_def]
  simp

theorem matchhere_end : matchhere ['$'.toUInt8] text = text.isEmpty := by
  rw [matchhere.eq_def]
  simp

theorem matchhere_one (hstar : re.head? ≠ some '*'.toUInt8) (hend : ¬ (c = '$'.toUInt8 ∧ re = [])) :
    matchhere (c :: re) text = true ↔ ∃ t rest, text = t :: rest ∧ (c = '.'.toUInt8 ∨ c = t) ∧ matchhere re rest = true := by
  rw [matchhere.eq_def]
  simp only [if_neg hstar, if_neg hend]
  cases text with
  | nil => simp
  | cons t text => simp

theorem matchhere_iff (re text : List UInt8) : matchhere re text = true ↔ Begins (readItems re) text := by
  induction re using readItems.induct generalizing text with
  | case1 => simp [matchhere, readItems, begins_nil]
  | case2 => simp [matchhere_end, readItems, begins_nil]
  | case3 c hc =>
    rw [matchhere_one (by simp) (by simp [hc]), readItems, if_neg hc, begins_one]
    simp [matchhere, begins_nil]
  | case4 c re ih =>
    rw [matchhere_star, matchstar_iff, readItems, if_pos rfl, begins_cons]
    simp only [ih]
    rfl
  | case5 c d re hd ih =>
    rw [matchhere_one (by simpa using hd) (by simp), readItems, if_neg hd, begins_one]
    simp only [ih]

theorem matchLoop_iff : matchLoop re text = true ↔ ∃ before rest, text = before ++ rest ∧ matchhere re rest = true := by
  induction text with
  | nil =>
    rw [matchLoop]
    constructor
    · exact fun h => ⟨[], [], rfl, h⟩
    · rintro ⟨before, rest, h, hre⟩
      obtain ⟨rfl, rfl⟩ := List.append_eq_nil_iff.mp h.symm
      exact hre
  | cons t text ih =>
    rw [matchLoop]
    constructor
    · intro h
      split_ifs at h with hhere
      · exact ⟨[], t :: text, rfl, hhere⟩
      · obtain ⟨before, rest, rfl, hre⟩ := ih.mp h
        exact ⟨t :: before, rest, rfl, hre⟩
    · rintro ⟨before, rest, h, hre⟩
      split_ifs with hhere
      · rfl
      · cases before with
        | nil =>
          obtain rfl : t :: text = rest := h
          exact absurd hre hhere
        | cons t' before =>
          obtain ⟨-, rfl⟩ := List.cons.inj h
          exact ih.mpr ⟨before, rest, rfl, hre⟩

theorem match_correct (re text : List UInt8) : matchText re text = true ↔ (readPattern re).Occurs text := by
  cases re with
  | nil =>
    rw [matchText, if_neg (by simp), matchLoop_iff]
    simp only [matchhere, Pattern.Occurs, readPattern]
    constructor
    · rintro ⟨before, rest, rfl, -⟩
      exact ⟨before, [], rest, by simp, by simp, Language.nil_mem_one, by simp⟩
    · exact fun _ => ⟨[], text, rfl, trivial⟩
  | cons c re =>
    by_cases hc : c = '^'.toUInt8
    · rw [matchText, if_pos (by simp [hc]), readPattern, if_pos hc, List.tail_cons, matchhere_iff]
      constructor
      · rintro ⟨w, behind, rfl, hw, he⟩
        exact ⟨[], w, behind, rfl, fun _ => rfl, hw, he⟩
      · rintro ⟨before, w, behind, rfl, hs, hw, he⟩
        obtain rfl := hs rfl
        exact ⟨w, behind, rfl, hw, he⟩
    · rw [matchText, if_neg (by simpa using hc), readPattern, if_neg hc, matchLoop_iff]
      simp only [matchhere_iff]
      constructor
      · rintro ⟨before, -, rfl, w, behind, rfl, hw, he⟩
        exact ⟨before, w, behind, by simp, by simp, hw, he⟩
      · rintro ⟨before, w, behind, rfl, -, hw, he⟩
        exact ⟨before, w ++ behind, by simp, w, behind, rfl, hw, he⟩

end Laboratorio.Grep
