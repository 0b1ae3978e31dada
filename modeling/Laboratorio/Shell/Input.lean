import Laboratorio.Lib.Lines
import Laboratorio.Lib.Strings

namespace Laboratorio.Shell.Simplified

open Bytes Function

def nbuf : ℕ := 100

def newline : UInt8 := '\n'.toUInt8

def fgets : ℕ → List UInt8 → List UInt8 × List UInt8
  | 0, input => ([], input)
  | _ + 1, [] => ([], [])
  | n + 1, c :: input => if c = newline then ([c], input) else (c :: (fgets n input).1, (fgets n input).2)

def getcmd (buf : Bytes) (input : List UInt8) : Option (Bytes × List UInt8) :=
  let buf := memset buf 0 0 nbuf
  let line := fgets (nbuf - 1) input
  let buf := if line.1 = [] then buf else store buf 0 (line.1.length + 1) fun i => line.1.getD i 0
  if buf 0 = 0 then none else some (buf, line.2)

inductive Event
  | chdir (dir : List UInt8)
  | parsecmd (text : List UInt8)
  deriving DecidableEq

def event (buf : Bytes) : Event :=
  if buf 0 = 'c'.toUInt8 ∧ buf 1 = 'd'.toUInt8 ∧ buf 2 = ' '.toUInt8 then
    let buf := update buf ((cstring buf nbuf 0).length - 1) 0
    .chdir (cstring buf (nbuf - 3) 3)
  else .parsecmd (cstring buf nbuf 0)

theorem fgets_append (n : ℕ) (input : List UInt8) : (fgets n input).1 ++ (fgets n input).2 = input := by
  induction n generalizing input with
  | zero => rfl
  | succ n ih =>
    cases input with
    | nil => rfl
    | cons c input =>
      rw [fgets]
      split_ifs
      · rfl
      · rw [List.cons_append, ih]

theorem length_fgets_le (n : ℕ) (input : List UInt8) : (fgets n input).1.length ≤ n := by
  induction n generalizing input with
  | zero => simp [fgets]
  | succ n ih =>
    cases input with
    | nil => simp [fgets]
    | cons c input =>
      rw [fgets]
      split_ifs
      · simp
      · simpa using ih input

theorem getcmd_length {buf buf' : Bytes} {input rest : List UInt8} (h : getcmd buf input = some (buf', rest)) :
    rest.length < input.length := by
  have hlen := congrArg List.length (fgets_append (nbuf - 1) input)
  rw [List.length_append] at hlen
  unfold getcmd at h
  by_cases hnil : (fgets (nbuf - 1) input).1 = []
  · have hzero : memset buf 0 0 nbuf 0 = 0 := store_of_mem (Nat.le_refl 0) (by decide)
    simp only [if_pos hnil, if_pos hzero] at h
    cases h
  · simp only [if_neg hnil] at h
    split_ifs at h with h0
    obtain ⟨-, rfl⟩ := Prod.mk.inj (Option.some.inj h)
    have : 0 < (fgets (nbuf - 1) input).1.length := List.length_pos_iff.mpr hnil
    omega

def mainLoop (buf : Bytes) (input : List UInt8) : List Event :=
  match _h : getcmd buf input with
  | none => []
  | some (buf, rest) => event buf :: mainLoop buf rest
termination_by input.length
decreasing_by
  apply getcmd_length
  assumption

section round

variable {buf : Bytes} {input : List UInt8}

theorem getcmd_nil : getcmd buf [] = none := by
  have hzero : memset buf 0 0 nbuf 0 = 0 := store_of_mem (Nat.le_refl 0) (by decide)
  have hline : fgets (nbuf - 1) [] = ([], []) := rfl
  simp only [getcmd, hline, if_true, if_pos hzero]

theorem fgets_ne_nil {n : ℕ} (hn : 0 < n) (hne : input ≠ []) : (fgets n input).1 ≠ [] := by
  obtain ⟨n, rfl⟩ : ∃ k, n = k + 1 := ⟨n - 1, by omega⟩
  obtain ⟨c, input, rfl⟩ := List.exists_cons_of_ne_nil hne
  rw [fgets]
  split_ifs <;> simp

theorem getcmd_spec (buf : Bytes) (h0 : (0 : UInt8) ∉ input) (hne : input ≠ []) :
    ∃ buf', getcmd buf input = some (buf', (fgets (nbuf - 1) input).2) ∧ StringAt buf' 0 (fgets (nbuf - 1) input).1 := by
  have hline := fgets_ne_nil (n := nbuf - 1) (by decide) hne
  have hnonzero : (0 : UInt8) ∉ (fgets (nbuf - 1) input).1 := by
    intro hmem
    apply h0
    rw [← fgets_append (nbuf - 1) input]
    exact List.mem_append_left _ hmem
  unfold getcmd
  generalize fgets (nbuf - 1) input = line at *
  have hat : StringAt (store (memset buf 0 0 nbuf) 0 (line.1.length + 1) fun i => line.1.getD i 0) 0 line.1 := by
    refine ⟨at_iff.mpr fun i hi => ?_, ?_, hnonzero⟩
    · rw [store_of_mem (Nat.zero_le _) (by omega), Nat.zero_add, Nat.sub_zero]
    · rw [store_of_mem (Nat.zero_le _) (by omega)]
      simp
  have hfirst : (store (memset buf 0 0 nbuf) 0 (line.1.length + 1) fun i => line.1.getD i 0) 0 ≠ 0 := by
    obtain ⟨c, l, hl⟩ := List.exists_cons_of_ne_nil hline
    rw [hl] at hat hnonzero ⊢
    rw [hat.chars.1]
    exact fun h => hnonzero (by simp [h])
  exact ⟨_, by simp only [if_neg hline, if_neg hfirst], hat⟩

def cd : List UInt8 := ['c', 'd', ' '].map Char.toUInt8

def eventOf (text : List UInt8) : Event := if cd <+: text then .chdir (text.dropLast.drop 3) else .parsecmd text

theorem starts_cd_iff {text : List UInt8} (h : StringAt buf 0 text) :
    (buf 0 = 'c'.toUInt8 ∧ buf 1 = 'd'.toUInt8 ∧ buf 2 = ' '.toUInt8) ↔ cd <+: text := by
  have hnul := h.nul
  match text, h.chars with
  | [], _ =>
    have h0 : buf 0 ≠ 'c'.toUInt8 := ne_of_eq_of_ne hnul (by decide)
    simp [h0, cd]
  | [c], _ =>
    have h1 : buf 1 ≠ 'd'.toUInt8 := ne_of_eq_of_ne hnul (by decide)
    simp [h1, cd]
  | [c, d], _ =>
    have h2 : buf 2 ≠ ' '.toUInt8 := ne_of_eq_of_ne hnul (by decide)
    simp [h2, cd]
  | c :: d :: e :: text, ⟨h0, h1, h2, _⟩ =>
    have h1' : buf 1 = d := h1
    have h2' : buf 2 = e := h2
    simp [h0, h1', h2', cd, eq_comm]

theorem chopped_eq {t : List UInt8} (h : StringAt buf 0 (cd ++ t)) (hlen : t.length + 3 < nbuf) :
    cstring (update buf (t.length + 2) 0) (nbuf - 3) 3 = t.dropLast := by
  obtain ⟨hchars, hnul, hne⟩ := h
  have ht : At buf 3 t := (at_append.mp hchars).2
  apply StringAt.cstring_eq
  · rcases List.eq_nil_or_concat t with rfl | ⟨t, x, rfl⟩
    · exact ⟨trivial, (update_of_ne (by decide) _ _).trans hnul, List.not_mem_nil⟩
    · rw [List.concat_eq_append] at ht hne ⊢
      rw [List.dropLast_concat, List.length_append, List.length_singleton]
      rw [List.mem_append, List.mem_append, not_or, not_or] at hne
      refine ⟨((at_append.mp ht).1).congr fun y h1 h2 => update_of_ne ?_ _ _, ?_, hne.2.1⟩
      · omega
      · rw [Nat.add_comm 3, Nat.add_right_comm]
        exact update_self _ _ _
  · rw [List.length_dropLast]
    omega

theorem event_eq {text : List UInt8} (h : StringAt buf 0 text) (hlen : text.length < nbuf) : event buf = eventOf text := by
  unfold event eventOf
  by_cases hcd : cd <+: text
  · rw [if_pos ((starts_cd_iff h).mpr hcd), if_pos hcd, h.cstring_eq hlen]
    obtain ⟨t, rfl⟩ := hcd
    have hdrop : (cd ++ t).dropLast.drop 3 = t.dropLast := by
      rcases List.eq_nil_or_concat t with rfl | ⟨t, x, rfl⟩
      · rfl
      · rw [List.concat_eq_append, ← List.append_assoc, List.dropLast_concat, List.dropLast_concat]
        rfl
    rw [hdrop]
    exact congrArg Event.chdir (chopped_eq h hlen)
  · rw [if_neg (fun hc => hcd ((starts_cd_iff h).mp hc)), if_neg hcd, h.cstring_eq hlen]

def chunks (input : List UInt8) : List (List UInt8) :=
  if _h : input = [] then [] else (fgets (nbuf - 1) input).1 :: chunks (fgets (nbuf - 1) input).2
termination_by input.length
decreasing_by
  have hlen := congrArg List.length (fgets_append (nbuf - 1) input)
  have hpos := List.length_pos_iff.mpr (fgets_ne_nil (n := nbuf - 1) (by decide) _h)
  rw [List.length_append] at hlen
  omega

theorem chunks_nil : chunks [] = [] := by
  rw [chunks, dif_pos rfl]

theorem chunks_of_ne_nil (h : input ≠ []) : chunks input = (fgets (nbuf - 1) input).1 :: chunks (fgets (nbuf - 1) input).2 := by
  rw [chunks, dif_neg h]

theorem mainLoop_eq (buf : Bytes) (h0 : (0 : UInt8) ∉ input) : mainLoop buf input = (chunks input).map eventOf := by
  induction input using chunks.induct generalizing buf with
  | case1 =>
    rw [chunks_nil, mainLoop]
    split
    · rfl
    · next h => simp [getcmd_nil] at h
  | case2 input hne ih =>
    obtain ⟨buf', hget, hat⟩ := getcmd_spec buf h0 hne
    have hrest : (0 : UInt8) ∉ (fgets (nbuf - 1) input).2 := by
      intro hmem
      apply h0
      rw [← fgets_append (nbuf - 1) input]
      exact List.mem_append_right _ hmem
    have hlen := length_fgets_le (nbuf - 1) input
    rw [chunks_of_ne_nil hne, mainLoop]
    split
    · next h => simp [hget] at h
    · next h =>
      obtain ⟨rfl, rfl⟩ := Prod.mk.inj (Option.some.inj (hget.symm.trans h))
      rw [List.map_cons, ih _ hrest, event_eq hat (by simp only [nbuf] at hlen ⊢; omega)]

end round

def command (line ending : List UInt8) : Event := if cd <+: line then .chdir (line.drop 3) else .parsecmd (line ++ ending)

def commands (input : List UInt8) : List Event :=
  (lines newline input).map (command · [newline]) ++ if rest newline input = [] then [] else [command (rest newline input) []]

def Fits (input : List UInt8) : Prop := (∀ w ∈ lines newline input, w.length + 1 < nbuf) ∧ (rest newline input).length < nbuf

variable {w l input : List UInt8} {n : ℕ}

section

variable (hw : newline ∉ w)

include hw

theorem fgets_line (hn : w.length < n) : fgets n (w ++ newline :: l) = (w ++ [newline], l) := by
  induction w generalizing n with
  | nil =>
    obtain ⟨n, rfl⟩ : ∃ k, n = k + 1 := ⟨n - 1, by omega⟩
    rfl
  | cons c w ih =>
    obtain ⟨n, rfl⟩ : ∃ k, n = k + 1 := ⟨n - 1, by omega⟩
    rw [List.mem_cons, not_or] at hw
    rw [List.cons_append, fgets, if_neg (Ne.symm hw.1), ih hw.2 (by simpa using hn)]
    rfl

theorem fgets_full (hn : w.length = n) : fgets n (w ++ l) = (w, l) := by
  induction w generalizing n with
  | nil =>
    obtain rfl : n = 0 := hn.symm
    rfl
  | cons c w ih =>
    obtain rfl : n = w.length + 1 := hn.symm
    rw [List.mem_cons, not_or] at hw
    rw [List.cons_append, fgets, if_neg (Ne.symm hw.1), ih hw.2 rfl]

theorem fgets_rest (hn : w.length ≤ n) : fgets n w = (w, []) := by
  induction w generalizing n with
  | nil => cases n <;> rfl
  | cons c w ih =>
    obtain ⟨n, rfl⟩ : ∃ k, n = k + 1 := ⟨n - 1, by simp at hn; omega⟩
    rw [List.mem_cons, not_or] at hw
    rw [fgets, if_neg (Ne.symm hw.1), ih hw.2 (by simpa using hn)]

theorem chunks_line (hfits : w.length + 1 < nbuf) : chunks (w ++ newline :: l) = (w ++ [newline]) :: chunks l := by
  rw [chunks_of_ne_nil (by simp), fgets_line hw (by omega)]

theorem chunks_rest (hne : w ≠ []) (hfits : w.length < nbuf) : chunks w = [w] := by
  rw [chunks_of_ne_nil hne, fgets_rest hw (by omega), chunks_nil]

theorem chunks_long (hlong : nbuf ≤ w.length + 1) (l : List UInt8) :
    chunks (w ++ l) = w.take (nbuf - 1) :: chunks (w.drop (nbuf - 1) ++ l) := by
  have hne : w ++ l ≠ [] := by
    have : 0 < w.length := by simp only [nbuf] at hlong; omega
    intro h
    simp [(List.append_eq_nil_iff.mp h).1] at this
  have hsplit : w ++ l = w.take (nbuf - 1) ++ (w.drop (nbuf - 1) ++ l) := by
    rw [← List.append_assoc, List.take_append_drop]
  have hget := fgets_full (n := nbuf - 1) (w := w.take (nbuf - 1)) (l := w.drop (nbuf - 1) ++ l)
    (fun h => hw (List.mem_of_mem_take h)) (by rw [List.length_take]; omega)
  rw [chunks_of_ne_nil hne, hsplit, hget]

theorem commands_line : commands (w ++ newline :: l) = command w [newline] :: commands l := by
  rw [commands, lines_cons hw, rest_cons hw]
  rfl

theorem commands_rest : commands w = if w = [] then [] else [command w []] := by
  rw [commands, lines_of_notMem hw, rest_of_notMem hw]
  rfl

theorem fits_line : Fits (w ++ newline :: l) ↔ w.length + 1 < nbuf ∧ Fits l := by
  rw [Fits, lines_cons hw, rest_cons hw, List.forall_mem_cons, and_assoc]
  rfl

theorem length_chunks_line (hl : (commands l).length ≤ (chunks l).length) :
    (commands l).length < (chunks (w ++ newline :: l)).length := by
  induction hn : w.length using Nat.strongRecOn generalizing w with
  | ind n ih =>
    by_cases hfits : w.length + 1 < nbuf
    · rw [chunks_line hw hfits, List.length_cons]
      omega
    · have hdrop := ih (w.drop (nbuf - 1)).length (by rw [List.length_drop]; simp only [nbuf] at hfits ⊢; omega)
        (fun h => hw (List.mem_of_mem_drop h)) rfl
      rw [chunks_long hw (by omega), List.length_cons]
      omega

end

theorem length_commands_le (input : List UInt8) : (commands input).length ≤ (chunks input).length := by
  induction input using lines_induction newline with
  | hrest w hw =>
    rw [commands_rest hw]
    split_ifs with hne
    · simp
    · rw [chunks_of_ne_nil hne]
      simp
  | hline w l hw ih =>
    rw [commands_line hw, List.length_cons]
    exact length_chunks_line hw ih

theorem length_commands_lt (hlong : ¬ Fits input) : (commands input).length < (chunks input).length := by
  induction input using lines_induction newline with
  | hrest w hw =>
    have hlen : nbuf ≤ w.length := by
      rw [Fits, lines_of_notMem hw, rest_of_notMem hw] at hlong
      simpa using hlong
    have hne : w ≠ [] := by
      rintro rfl
      exact absurd hlen (by decide)
    have hrest : w.drop (nbuf - 1) ≠ [] := by
      intro h
      have := congrArg List.length h
      rw [List.length_drop, List.length_nil] at this
      simp only [nbuf] at this hlen
      omega
    have hchunks := chunks_long hw (by omega) []
    rw [List.append_nil, List.append_nil, chunks_of_ne_nil hrest] at hchunks
    rw [commands_rest hw, if_neg hne, hchunks]
    simp
  | hline w l hw ih =>
    rw [fits_line hw, not_and_or] at hlong
    rw [commands_line hw, List.length_cons]
    by_cases hfits : w.length + 1 < nbuf
    · rw [chunks_line hw hfits, List.length_cons]
      exact Nat.succ_lt_succ (ih (hlong.resolve_left (not_not.mpr hfits)))
    · have hdrop := length_chunks_line (w := w.drop (nbuf - 1)) (fun h => hw (List.mem_of_mem_drop h)) (length_commands_le l)
      rw [chunks_long hw (by omega), List.length_cons]
      omega

theorem eventOf_line (w : List UInt8) : eventOf (w ++ [newline]) = command w [newline] := by
  have hcd : cd <+: w ++ [newline] ↔ cd <+: w := by
    constructor
    · intro h
      rcases List.prefix_concat_iff.mp h with h | h
      · have hlast := congrArg List.getLast? h
        simp [cd] at hlast
        exact absurd hlast (by decide)
      · exact h
    · exact fun h => h.trans (List.prefix_append w [newline])
  unfold eventOf command
  by_cases h : cd <+: w
  · rw [if_pos (hcd.mpr h), if_pos h, List.dropLast_concat]
  · rw [if_neg (fun h' => h (hcd.mp h')), if_neg h]

theorem eventOf_rest_iff : eventOf w = command w [] ↔ ∀ dir, w = cd ++ dir → dir = [] := by
  unfold eventOf command
  by_cases h : cd <+: w
  · obtain ⟨dir, rfl⟩ := h
    constructor
    · intro hdir dir' hd
      obtain rfl := List.append_cancel_left hd
      have hlen := congrArg List.length (Event.chdir.inj hdir)
      have hcd : cd.length = 3 := rfl
      rw [List.length_drop, List.length_drop, List.length_dropLast, List.length_append] at hlen
      apply List.length_eq_zero_iff.mp
      omega
    · intro hdir
      rw [hdir dir rfl]
      rfl
  · rw [if_neg h, if_neg h, List.append_nil]
    refine ⟨fun _ dir hw => absurd ⟨dir, hw.symm⟩ h, fun _ => rfl⟩

theorem main_reads_lines_iff (buf : Bytes) (h0 : (0 : UInt8) ∉ input) : mainLoop buf input = commands input ↔
    (∀ w ∈ lines newline input, w.length + 1 < nbuf) ∧ (rest newline input).length < nbuf ∧ ∀ dir,
    rest newline input = cd ++ dir → dir = [] := by
  rw [mainLoop_eq buf h0, ← and_assoc]
  change _ ↔ Fits input ∧ _
  clear h0
  by_cases hfits : Fits input
  · simp only [hfits, true_and]
    induction input using lines_induction newline with
    | hrest w hw =>
      rw [rest_of_notMem hw, ← eventOf_rest_iff, commands_rest hw]
      split_ifs with hne
      · subst hne
        rw [chunks_nil]
        exact ⟨fun _ => rfl, fun _ => rfl⟩
      · rw [Fits, rest_of_notMem hw] at hfits
        rw [chunks_rest hw hne hfits.2]
        simp
    | hline w l hw ih =>
      rw [fits_line hw] at hfits
      rw [rest_cons hw, commands_line hw, chunks_line hw hfits.1, List.map_cons, eventOf_line, ← ih hfits.2]
      simp
  · have hlt := length_commands_lt hfits
    simp only [hfits, false_and, iff_false]
    intro h
    rw [← h, List.length_map] at hlt
    exact absurd hlt (Nat.lt_irrefl _)

theorem main_reads_lines_two : mainLoop (fun _ => 0) [99, 100, 32, 97, 10, 108, 115] = [.chdir [97], .parsecmd [108, 115]] := by
  apply (main_reads_lines_iff _ (by decide)).mpr
  have hrest : rest newline [99, 100, 32, 97, 10, 108, 115] = [108, 115] := by decide
  refine ⟨by decide, by decide, fun dir h => ?_⟩
  rw [hrest] at h
  simp [cd] at h

theorem main_cuts_directory : mainLoop (fun _ => 0) [99, 100, 32, 97, 98] = [.chdir [97]] ∧ commands [99, 100, 32, 97, 98] =
    [.chdir [97, 98]] := by
  rw [mainLoop_eq _ (by decide), chunks_rest (by decide) (by decide) (by decide)]
  decide

end Laboratorio.Shell.Simplified
