import Laboratorio.Grep.Match
import Laboratorio.Lib.Lines
import Laboratorio.Ulib

/-!
The loop of `grep`, which looks for lines in the buffer after each `read`.
-/

namespace Laboratorio.Grep

open Bytes Function

def bufSize : ℕ := 1024

def newline : UInt8 := '\n'.toUInt8

/-- The loop over the lines in the buffer from `p` on; its result has the position where no line begins any more. -/
def scan (pattern : List UInt8) (buf : Bytes) (p : ℕ) (out : List (List UInt8)) : Bytes × ℕ × List (List UInt8) :=
  match h : Ulib.strchr buf newline (bufSize - p) p with
  | none => (buf, p, out)
  | some q =>
    let buf := update buf q 0
    if matchText pattern (cstring buf (bufSize - p) p) then
      let buf := update buf q newline
      scan pattern buf (q + 1) (out ++ [(List.range (q + 1 - p)).map fun i => buf (p + i)])
    else scan pattern buf (q + 1) out
termination_by bufSize - p
decreasing_by all_goals
  have := Ulib.strchr_bounds h
  omega

structure State where
  buf : Bytes
  m : ℕ
  out : List (List UInt8)

namespace State

def initial : State := ⟨fun _ => 0, 0, []⟩

def request (s : State) : ℕ := bufSize - s.m - 1

def round (pattern : List UInt8) (s : State) (chunk : List UInt8) : State :=
  let buf := store s.buf s.m chunk.length fun i => chunk.getD i 0
  let m := s.m + chunk.length
  let buf := update buf m 0
  let (buf, p, out) := scan pattern buf 0 s.out
  let m := if p = 0 then 0 else m
  if 0 < m then ⟨Ulib.memmove (m - p) buf 0 p, m - p, out⟩ else ⟨buf, m, out⟩

def Served (pattern : List UInt8) : State → List (List UInt8) → Prop
  | _, [] => True
  | s, chunk :: chunks => chunk ≠ [] ∧ chunk.length ≤ s.request ∧ Served pattern (s.round pattern chunk) chunks

end State

def grep (pattern : List UInt8) (chunks : List (List UInt8)) : List (List UInt8) :=
  (chunks.foldl (State.round pattern) State.initial).out

def matching (pattern : List UInt8) (l : List UInt8) : List (List UInt8) :=
  ((lines newline l).filter (matchText pattern)).map (· ++ [newline])

section scan

variable {pattern : List UInt8} {buf : Bytes} {p : ℕ} {out : List (List UInt8)}

theorem scan_rest {w : List UInt8} (hw : StringAt buf p w) (hline : newline ∉ w) : scan pattern buf p out = (buf, p, out) := by
  rw [scan]
  split
  · rfl
  · next q h =>
    rw [Ulib.strchr_none hw hline] at h
    simp at h

theorem scan_line (pattern : List UInt8) (out : List (List UInt8)) {w l : List UInt8} (hat : StringAt buf p (w ++ newline :: l))
    (hline : newline ∉ w) (hp : p + w.length < bufSize) : ∃ buf', StringAt buf' (p + w.length + 1) l ∧ scan pattern buf p out =
      scan pattern buf' (p + w.length + 1) (out ++ if matchText pattern w then [w ++ [newline]] else []) := by
  obtain ⟨hchars, hnul, h0⟩ := hat
  rw [List.mem_append, not_or, List.mem_cons, not_or] at h0
  have hfound : Ulib.strchr buf newline (bufSize - p) p = some (p + w.length) :=
    Ulib.strchr_found hchars h0.1 hline (by decide) (by omega)
  obtain ⟨hw, hq, hl⟩ := at_append.mp hchars
  have hcut : StringAt (update buf (p + w.length) 0) p w := by
    refine ⟨hw.congr fun x _ _ => update_of_ne (by omega) _ _, update_self _ _ _, h0.1⟩
  have hbehind : ∀ v, StringAt (update buf (p + w.length) v) (p + w.length + 1) l := by
    intro v
    refine ⟨hl.congr fun x _ _ => update_of_ne (by omega) _ _, ?_, h0.2.2⟩
    rw [update_of_ne (by omega), ← hnul, List.length_append, List.length_cons]
    congr 1
    omega
  rw [scan]
  split
  · next h =>
    rw [hfound] at h
    simp at h
  next q h =>
  obtain rfl : p + w.length = q := Option.some.inj (hfound.symm.trans h)
  simp only [hcut.cstring_eq (show w.length < bufSize - p by omega)]
  by_cases hm : matchText pattern w = true
  · have hline : At (update buf (p + w.length) newline) p (w ++ [newline]) :=
      at_append.mpr ⟨hw.congr fun x _ _ => update_of_ne (by omega) _ _, at_singleton.mpr (update_self _ _ _)⟩
    have hlen : p + w.length + 1 - p = (w ++ [newline]).length := by
      rw [List.length_append, List.length_singleton]
      omega
    simp only [if_pos hm, update_idem, hlen, hline.map_range]
    exact ⟨_, hbehind newline, rfl⟩
  · simp only [if_neg hm, List.append_nil]
    exact ⟨_, hbehind 0, rfl⟩

theorem scan_spec (pattern : List UInt8) (out : List (List UInt8)) {text : List UInt8} (hat : StringAt buf p text)
    (hp : p + text.length < bufSize) :
    ∃ buf', StringAt buf' (p + (text.length - (rest newline text).length)) (rest newline text) ∧
      scan pattern buf p out = (buf', p + (text.length - (rest newline text).length), out ++ matching pattern text) := by
  induction text using lines_induction newline generalizing buf p out with
  | hrest w hw =>
    rw [rest_of_notMem hw, Nat.sub_self, Nat.add_zero, matching, lines_of_notMem hw]
    exact ⟨buf, hat, by simpa using scan_rest hat hw⟩
  | hline w l hw ih =>
    rw [List.length_append, List.length_cons] at hp ⊢
    obtain ⟨buf₁, hat₁, hrun₁⟩ := scan_line pattern out hat hw (by omega)
    obtain ⟨buf', hat', hrun⟩ := ih (out ++ if matchText pattern w then [w ++ [newline]] else []) hat₁ (by omega)
    have hle := length_lines newline l
    have hp' : p + (w.length + (l.length + 1) - (rest newline l).length) =
      p + w.length + 1 + (l.length - (rest newline l).length) := by
      omega
    rw [rest_cons hw, hp', hrun₁, hrun]
    refine ⟨buf', hat', ?_⟩
    unfold matching
    rw [lines_cons hw, List.filter_cons]
    split_ifs <;> simp

end scan

def kept (part chunk : List UInt8) : List UInt8 := if newline ∈ chunk then rest newline (part ++ chunk) else []

theorem notMem_kept (part chunk : List UInt8) : newline ∉ kept part chunk := by
  unfold kept
  split_ifs
  · exact notMem_rest _ _
  · exact List.not_mem_nil

def seen : List UInt8 → List (List UInt8) → List (List UInt8)
  | _, [] => []
  | part, chunk :: chunks => lines newline (part ++ chunk) ++ seen (kept part chunk) chunks

namespace State

variable {pattern part chunk : List UInt8} {chunks : List (List UInt8)} {s : State}

structure Holds (s : State) (part : List UInt8) : Prop where
  chars : At s.buf 0 part
  m : s.m = part.length
  nonzero : (0 : UInt8) ∉ part
  line : newline ∉ part

theorem holds_initial : Holds initial [] := ⟨trivial, rfl, List.not_mem_nil, List.not_mem_nil⟩

theorem round_spec (pattern : List UInt8) (hs : Holds s part) (h0 : (0 : UInt8) ∉ chunk) (hne : chunk ≠ [])
    (hroom : chunk.length ≤ s.request) :
    Holds (s.round pattern chunk) (kept part chunk) ∧ (s.round pattern chunk).out = s.out ++ matching pattern
      (part ++ chunk) := by
  obtain ⟨hchars, hm, hpart0, hline⟩ := hs
  have hpos : 0 < chunk.length := List.length_pos_iff.mpr hne
  have htext : StringAt (update (store s.buf s.m chunk.length fun i => chunk.getD i 0) (s.m + chunk.length) 0) 0
    (part ++ chunk) := by
    refine ⟨?_, ?_, by simp [hpart0, h0]⟩
    · have hall : At (store s.buf s.m chunk.length fun i => chunk.getD i 0) 0 (part ++ chunk) := by
        refine at_append.mpr ⟨hchars.congr fun x _ hx => store_of_notMem (by omega), ?_⟩
        rw [Nat.zero_add, ← hm]
        exact at_store _ _ _
      apply hall.congr
      intro x _ hx
      rw [List.length_append] at hx
      exact update_of_ne (by omega) _ _
    · rw [List.length_append, Nat.zero_add, ← hm, update_self]
  have hlen : (part ++ chunk).length = s.m + chunk.length := by rw [List.length_append, hm]
  have hreq : s.request = 1024 - s.m - 1 := rfl
  obtain ⟨buf', hat, hscan⟩ := scan_spec pattern s.out htext (by simp only [bufSize]; omega)
  rw [Nat.zero_add] at hat hscan
  have hsizes := length_lines newline (part ++ chunk)
  unfold round
  simp only [hscan]
  by_cases hc : newline ∈ chunk
  · have hlines : 0 < ((lines newline (part ++ chunk)).map fun w => w.length + 1).sum := by
      obtain ⟨w, l, rfl, hw⟩ := List.eq_append_cons_of_mem hc
      have hw' : newline ∉ part ++ w := by simp [hline, hw]
      rw [← List.append_assoc, lines_cons hw', List.map_cons, List.sum_cons]
      omega
    have hp : (part ++ chunk).length - (rest newline (part ++ chunk)).length ≠ 0 := by omega
    have hleft : s.m + chunk.length - ((part ++ chunk).length - (rest newline (part ++ chunk)).length) =
      (rest newline (part ++ chunk)).length := by
      omega
    rw [if_neg hp, if_pos (by omega), kept, if_pos hc, hleft, Ulib.memmove_eq (.inl (Nat.zero_le _))]
    refine ⟨⟨?_, rfl, hat.nonzero, notMem_rest _ _⟩, rfl⟩
    rw [at_iff]
    intro i hi
    simp only [Bytes.memmove]
    rw [store_of_mem (Nat.zero_le _) (by omega), at_iff.mp hat.chars _ (by omega), Nat.zero_add, Nat.sub_zero]
  · have hrest : rest newline (part ++ chunk) = part ++ chunk := rest_of_notMem (by simp [hline, hc])
    rw [hrest, Nat.sub_self, if_pos rfl, if_neg (by omega), kept, if_neg hc]
    exact ⟨⟨trivial, rfl, List.not_mem_nil, List.not_mem_nil⟩, rfl⟩

theorem run_spec (hs : Holds s part) (hserved : Served pattern s chunks) (h0 : (0 : UInt8) ∉ chunks.flatten) :
    (chunks.foldl (round pattern) s).out = s.out ++ ((seen part chunks).filter (matchText pattern)).map (· ++ [newline]) := by
  induction chunks generalizing s part with
  | nil => simp [seen]
  | cons chunk chunks ih =>
    rw [List.flatten_cons, List.mem_append, not_or] at h0
    obtain ⟨hne, hroom, hserved⟩ := hserved
    obtain ⟨hs', hout⟩ := round_spec pattern hs h0.1 hne hroom
    rw [List.foldl_cons, ih hs' hserved h0.2, hout, seen, List.filter_append, List.map_append, List.append_assoc]
    rfl

theorem ne_nil_of_served (hserved : Served pattern s chunks) : ∀ chunk ∈ chunks, chunk ≠ [] := by
  induction chunks generalizing s with
  | nil => simp
  | cons chunk chunks ih => exact List.forall_mem_cons.mpr ⟨hserved.1, ih hserved.2.2⟩

def Fits : List UInt8 → List (List UInt8) → Prop
  | _, [] => True
  | part, chunk :: chunks => chunk ≠ [] ∧ part.length + chunk.length < bufSize ∧ Fits (kept part chunk) chunks

theorem served_iff (hs : Holds s part) (h0 : (0 : UInt8) ∉ chunks.flatten) : Served pattern s chunks ↔ Fits part chunks := by
  induction chunks generalizing s part with
  | nil => exact Iff.rfl
  | cons chunk chunks ih =>
    rw [List.flatten_cons, List.mem_append, not_or] at h0
    have hroom : chunk ≠ [] → (chunk.length ≤ s.request ↔ part.length + chunk.length < bufSize) := by
      intro hne
      have hpos : 0 < chunk.length := List.length_pos_iff.mpr hne
      rw [request, hs.m]
      omega
    apply and_congr_right
    intro hne
    rw [hroom hne]
    apply and_congr_right
    intro hlt
    exact ih (round_spec pattern hs h0.1 hne ((hroom hne).mpr hlt)).1 h0.2

end State

theorem grep_eq {pattern : List UInt8} {chunks : List (List UInt8)} (hserved : State.Served pattern State.initial chunks)
    (h0 : (0 : UInt8) ∉ chunks.flatten) :
    grep pattern chunks = ((seen [] chunks).filter (matchText pattern)).map (· ++ [newline]) :=
  State.run_spec State.holds_initial hserved h0

def Unbroken (chunks : List (List UInt8)) : Prop :=
  ∀ before chunk behind, chunks = before ++ chunk :: behind → newline ∈ behind.flatten → newline ∈ chunk

theorem unbroken_nil : Unbroken [] := by
  intro before chunk behind h
  simp at h

theorem unbroken_cons {chunk : List UInt8} {chunks : List (List UInt8)} :
    Unbroken (chunk :: chunks) ↔ (newline ∈ chunks.flatten → newline ∈ chunk) ∧ Unbroken chunks := by
  constructor
  · intro h
    refine ⟨h [] chunk chunks rfl, fun before c behind hc => h (chunk :: before) c behind ?_⟩
    rw [hc, List.cons_append]
  · rintro ⟨hchunk, hrest⟩ before c behind hc hnl
    cases before with
    | nil =>
      obtain ⟨rfl, rfl⟩ := List.cons.inj hc
      exact hchunk hnl
    | cons b before =>
      obtain ⟨rfl, rfl⟩ := List.cons.inj hc
      exact hrest before c behind rfl hnl

def size (ls : List (List UInt8)) : ℕ := (ls.map fun w => w.length + 1).sum

theorem size_append (ls ls' : List (List UInt8)) : size (ls ++ ls') = size ls + size ls' := by
  simp [size]

theorem size_lines (l : List UInt8) : size (lines newline l) + (rest newline l).length = l.length := length_lines newline l

section seen

variable {part : List UInt8} {chunks : List (List UInt8)}

theorem seen_eq (hchunks : Unbroken chunks) (hpart : newline ∉ part) :
    seen part chunks = lines newline (part ++ chunks.flatten) := by
  induction chunks generalizing part with
  | nil => simp [seen, lines_of_notMem hpart]
  | cons chunk chunks ih =>
    obtain ⟨hchunk, hrest⟩ := unbroken_cons.mp hchunks
    rw [seen, ih hrest (notMem_kept part chunk), List.flatten_cons, ← List.append_assoc part,
      lines_append newline (part ++ chunk)]
    by_cases hc : newline ∈ chunk
    · rw [kept, if_pos hc]
    · have hnone : newline ∉ chunks.flatten := fun h => hc (hchunk h)
      have hall : newline ∉ rest newline (part ++ chunk) ++ chunks.flatten := by
        simp [hnone, notMem_rest]
      rw [kept, if_neg hc, lines_of_notMem hall, List.nil_append, lines_of_notMem hnone]

theorem size_lines_le (l l' : List UInt8) : size (lines newline l') ≤ size (lines newline (l ++ l')) := by
  by_cases h : newline ∈ l'
  · have h1 := size_lines l'
    have h2 := size_lines (l ++ l')
    rw [rest_append_of_mem h, List.length_append] at h2
    omega
  · simp [lines_of_notMem h, size]

theorem size_lines_lt {l l' : List UInt8} (hl : l ≠ []) (h : newline ∈ l') :
    size (lines newline l') < size (lines newline (l ++ l')) := by
  have h1 := size_lines l'
  have h2 := size_lines (l ++ l')
  have h3 : 0 < l.length := List.length_pos_iff.mpr hl
  rw [rest_append_of_mem h, List.length_append] at h2
  omega

theorem size_seen_le (part : List UInt8) (chunks : List (List UInt8)) :
    size (seen part chunks) ≤ size (lines newline (part ++ chunks.flatten)) := by
  induction chunks generalizing part with
  | nil => simp [seen, size]
  | cons chunk chunks ih =>
    have hle := ih (kept part chunk)
    rw [seen, size_append, List.flatten_cons, ← List.append_assoc part, lines_append newline (part ++ chunk), size_append]
    by_cases hc : newline ∈ chunk
    · rw [kept, if_pos hc] at hle ⊢
      omega
    · rw [kept, if_neg hc, List.nil_append] at hle
      rw [kept, if_neg hc]
      have := size_lines_le (rest newline (part ++ chunk)) chunks.flatten
      omega

theorem size_seen_lt (hpart : newline ∉ part) (hne : ∀ chunk ∈ chunks, chunk ≠ []) (hchunks : ¬ Unbroken chunks) :
    size (seen part chunks) < size (lines newline (part ++ chunks.flatten)) := by
  induction chunks generalizing part with
  | nil => exact absurd unbroken_nil hchunks
  | cons chunk chunks ih =>
    rw [List.forall_mem_cons] at hne
    rw [seen, size_append, List.flatten_cons, ← List.append_assoc part, lines_append newline (part ++ chunk), size_append]
    by_cases hc : newline ∈ chunk
    · have hrest : ¬ Unbroken chunks := fun h => hchunks (unbroken_cons.mpr ⟨fun _ => hc, h⟩)
      have hlt := ih (notMem_kept part chunk) hne.2 hrest
      rw [kept, if_pos hc] at hlt ⊢
      omega
    have hle := size_seen_le (kept part chunk) chunks
    rw [kept, if_neg hc, List.nil_append] at hle
    rw [kept, if_neg hc]
    by_cases hnl : newline ∈ chunks.flatten
    · have hlost : rest newline (part ++ chunk) ≠ [] := by
        rw [rest_of_notMem (by simp [hpart, hc])]
        simp [hne.1]
      have := size_lines_lt hlost hnl
      omega
    · have hrest : ¬ Unbroken chunks := fun h => hchunks (unbroken_cons.mpr ⟨fun h => absurd h hnl, h⟩)
      have hlt := @ih [] List.not_mem_nil hne.2 hrest
      rw [lines_of_notMem (by simpa using hnl)] at hlt
      simp [size] at hlt

end seen

theorem matchText_nil (text : List UInt8) : matchText [] text = true := by
  cases text <;> simp [matchText, matchLoop, matchhere]

theorem grep_lines_iff {chunks : List (List UInt8)} (hserved : ∀ pattern, State.Served pattern State.initial chunks)
    (h0 : (0 : UInt8) ∉ chunks.flatten) : (∀ pattern, grep pattern chunks = matching pattern chunks.flatten) ↔
      ∀ before chunk behind, chunks = before ++ chunk :: behind → newline ∈ behind.flatten → newline ∈ chunk := by
  constructor
  · intro h
    by_contra hbroken
    have hne : ∀ chunk ∈ chunks, chunk ≠ [] := State.ne_nil_of_served (hserved [])
    have hlt := size_seen_lt List.not_mem_nil hne hbroken
    -- the empty pattern is found in every line
    have hall : ∀ ls : List (List UInt8), ls.filter (matchText []) = ls := fun ls => List.filter_eq_self.mpr
      fun w _ => matchText_nil w
    have hlines := h []
    rw [grep_eq (hserved []) h0, matching, hall, hall] at hlines
    have hinj : Function.Injective fun w : List UInt8 => w ++ [newline] := fun v w hvw => List.append_cancel_right hvw
    rw [List.map_injective_iff.mpr hinj hlines] at hlt
    exact absurd hlt (Nat.lt_irrefl _)
  · intro h pattern
    rw [grep_eq (hserved pattern) h0, seen_eq h List.not_mem_nil]
    rfl

theorem grep_lines_whole : grep [98] [[97, 10], [98, 10, 99]] = matching [98] [97, 10, 98, 10, 99] := by
  refine (grep_lines_iff (fun pattern => ?_) (by decide)).mpr ?_ [98]
  · exact (State.served_iff State.holds_initial (by decide)).mpr ⟨by decide, by decide, by decide, by decide, trivial⟩
  · exact unbroken_cons.mpr ⟨fun _ => by decide, unbroken_cons.mpr ⟨fun _ => by decide, unbroken_nil⟩⟩

theorem grep_line_lost : State.Served [97] State.initial [[97], [98, 10]] ∧ grep [97] [[97], [98, 10]] = [] ∧
    matching [97] [97, 98, 10] = [[97, 98, 10]] := by
  have hserved : State.Served [97] State.initial [[97], [98, 10]] :=
    (State.served_iff State.holds_initial (by decide)).mpr ⟨by decide, by decide, by decide, by decide, trivial⟩
  have hseen : seen [] [[97], [98, 10]] = [[98]] := by decide
  have hlines : lines newline [97, 98, 10] = [[97, 98]] := by decide
  have hb : matchText [97] [98] = false := by
    simp [matchText, matchLoop, matchhere]
    decide
  have hab : matchText [97] [97, 98] = true := by
    simp [matchText, matchLoop, matchhere]
    decide
  refine ⟨hserved, ?_, ?_⟩
  · rw [grep_eq hserved (by decide), hseen, List.filter_cons_of_neg (by simp [hb])]
    rfl
  · rw [matching, hlines, List.filter_cons_of_pos hab]
    rfl

end Laboratorio.Grep
