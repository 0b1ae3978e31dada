import Mathlib

/-!
The lines of a list: what stands before each separator, and the rest behind the last one.
-/

namespace Laboratorio

variable {α : Type} [DecidableEq α] {sep : α}

def lines (sep : α) (l : List α) : List (List α) := (l.splitOn sep).dropLast

def rest (sep : α) (l : List α) : List α := (l.splitOn sep).getLast (List.splitOn_ne_nil sep l)

variable {w l l' : List α}

theorem lines_of_notMem (h : sep ∉ l) : lines sep l = [] := by
  simp [lines, List.splitOn_eq_singleton h]

theorem rest_of_notMem (h : sep ∉ l) : rest sep l = l := by
  simp [rest, List.splitOn_eq_singleton h]

theorem lines_cons (h : sep ∉ w) : lines sep (w ++ sep :: l) = w :: lines sep l := by
  rw [lines, List.splitOn_append_cons_self_of_not_mem h, List.dropLast_cons_of_ne_nil (List.splitOn_ne_nil sep l)]
  rfl

theorem rest_cons (h : sep ∉ w) : rest sep (w ++ sep :: l) = rest sep l := by
  simp only [rest, List.splitOn_append_cons_self_of_not_mem h]
  exact List.getLast_cons (List.splitOn_ne_nil sep l)

theorem lines_induction {P : List α → Prop} (sep : α) (hrest : ∀ w, sep ∉ w → P w)
    (hline : ∀ w l, sep ∉ w → P l → P (w ++ sep :: l)) (l : List α) : P l := by
  induction hn : l.length using Nat.strongRecOn generalizing l with
  | ind n ih =>
    by_cases h : sep ∈ l
    · obtain ⟨w, l', rfl, hw⟩ := List.eq_append_cons_of_mem h
      apply hline w l' hw
      apply ih l'.length _ l' rfl
      rw [← hn, List.length_append, List.length_cons]
      omega
    · exact hrest l h

theorem notMem_rest (sep : α) (l : List α) : sep ∉ rest sep l := by
  induction l using lines_induction sep with
  | hrest w hw => rwa [rest_of_notMem hw]
  | hline w l hw ih => rwa [rest_cons hw]

theorem lines_append (sep : α) (l l' : List α) : lines sep (l ++ l') = lines sep l ++ lines sep (rest sep l ++ l') := by
  induction l using lines_induction sep with
  | hrest w hw => rw [lines_of_notMem hw, rest_of_notMem hw, List.nil_append]
  | hline w l hw ih =>
    rw [List.append_assoc, List.cons_append, lines_cons hw, lines_cons hw, rest_cons hw, ih, List.cons_append]

theorem rest_append (sep : α) (l l' : List α) : rest sep (l ++ l') = rest sep (rest sep l ++ l') := by
  induction l using lines_induction sep with
  | hrest w hw => rw [rest_of_notMem hw]
  | hline w l hw ih => rw [List.append_assoc, List.cons_append, rest_cons hw, rest_cons hw, ih]

theorem rest_append_of_mem (h : sep ∈ l') : rest sep (l ++ l') = rest sep l' := by
  obtain ⟨w, l₂, rfl, hw⟩ := List.eq_append_cons_of_mem h
  have hpart : sep ∉ rest sep l ++ w := by
    rw [List.mem_append, not_or]
    exact ⟨notMem_rest sep l, hw⟩
  rw [rest_append, ← List.append_assoc, rest_cons hpart, rest_cons hw]

theorem length_lines (sep : α) (l : List α) :
    ((lines sep l).map fun w => w.length + 1).sum + (rest sep l).length = l.length := by
  induction l using lines_induction sep with
  | hrest w hw => simp [lines_of_notMem hw, rest_of_notMem hw]
  | hline w l hw ih =>
    rw [lines_cons hw, rest_cons hw, List.map_cons, List.sum_cons, List.length_append, List.length_cons]
    omega

end Laboratorio
