import Laboratorio.Shell.Simplified

namespace Laboratorio.Shell

variable {m : Bytes} {es s : ℕ}

theorem scan_congr {p p' : UInt8 → Bool} (h : ∀ x, s ≤ x → x < es → p (m x) = p' (m x)) : scan m es p s = scan m es p' s := by
  have hloop : ∀ k s, (∀ x, s ≤ x → x < s + k → p (m x) = p' (m x)) → scan.loop m p k s = scan.loop m p' k s := by
    intro k
    induction k with
    | zero => exact fun _ _ => rfl
    | succ k ih =>
      intro s h
      rw [scan.loop, scan.loop, h s (Nat.le_refl _) (by omega), ih (s + 1) fun x h1 h2 => h x (by omega) (by omega)]
  exact hloop _ s fun x h1 h2 => h x h1 (by omega)

theorem scan_scan (p : UInt8 → Bool) (h : s ≤ es) : scan m es p (scan m es p s) = scan m es p s := by
  obtain ⟨-, h2, -, -, -, h6⟩ := scan_spec m p h
  generalize scan m es p s = e at *
  rcases Nat.eq_or_lt_of_le h2 with rfl | hlt
  · rw [scan, Nat.sub_self, scan.loop]
  · obtain ⟨k, hk⟩ : ∃ k, es - e = k + 1 := ⟨es - e - 1, by omega⟩
    rw [scan, hk, scan.loop, if_neg (h6 hlt)]

theorem peek_scan (h : s ≤ es) (toks : List UInt8) : peek m es (scan m es (strchr whitespace) s) toks = peek m es s toks := by
  simp only [peek, scan_scan (strchr whitespace) h]

structure Plain (m : Bytes) (es s : ℕ) : Prop where
  le : s ≤ es
  nul : m es = 0
  nonzero : ∀ x, s ≤ x → x < es → m x ≠ 0
  plain : ∀ x, s ≤ x → x < es → m x ∉ ['&', ';', '(', ')'].map Char.toUInt8
  single : ∀ x, s ≤ x → x < es → m x = '>'.toUInt8 → m (x + 1) ≠ '>'.toUInt8

namespace Plain

theorem mono {s' : ℕ} (h : Plain m es s) (hs : s ≤ s') (hs' : s' ≤ es) : Plain m es s' :=
  ⟨hs', h.nul, fun x hx => h.nonzero x (by omega), fun x hx => h.plain x (by omega), fun x hx => h.single x (by omega)⟩

section

variable (h : Plain m es s)

include h

theorem scan_whitespace : scan m es (Simplified.strchr whitespace) s = scan m es (strchr whitespace) s := by
  apply scan_congr
  intro x hx hx'
  simp [Simplified.strchr, strchr, h.nonzero x hx hx']

theorem scan_word : scan m es (fun c => !Simplified.strchr whitespace c && !Simplified.strchr Simplified.symbols c) s =
    scan m es (fun c => !strchr whitespace c && !strchr symbols c) s := by
  apply scan_congr
  intro x hx hx'
  have hplain := h.plain x hx hx'
  simp only [List.map_cons, List.map_nil, List.mem_cons, List.not_mem_nil, or_false, not_or] at hplain
  simp [Simplified.strchr, strchr, h.nonzero x hx hx', symbols, Simplified.symbols, hplain]

theorem skip : Plain m es (scan m es (strchr whitespace) s) := by
  obtain ⟨h1, h2, -⟩ := scan_spec m (strchr whitespace) h.le
  exact h.mono h1 h2

theorem peek_special {c : UInt8} (hc : c ∈ ['&', ';', '(', ')'].map Char.toUInt8) :
    peek m es s [c] = (false, scan m es (strchr whitespace) s) := by
  have hq := h.skip
  unfold peek
  generalize scan m es (strchr whitespace) s = q at *
  rcases Nat.eq_or_lt_of_le hq.le with rfl | hlt
  · simp [hq.nul]
  · have hne : m q ≠ c := fun he => hq.plain q (Nat.le_refl _) hlt (he ▸ hc)
    simp [strchr, hne]

theorem peek_eq (toks toks' : List UInt8) (htoks : ∀ x, s ≤ x → x < es → (m x ∈ toks' ↔ m x ∈ toks)) :
    ∃ b s', Plain m es s' ∧ peek m es s toks = (b, s') ∧ Simplified.peek m es s toks' = (b, s') := by
  refine ⟨_, _, h.skip, rfl, ?_⟩
  have hq := h.skip
  have h1 := (scan_spec m (strchr whitespace) h.le).1
  simp only [Simplified.peek, h.scan_whitespace]
  generalize scan m es (strchr whitespace) s = q at *
  rcases Nat.eq_or_lt_of_le hq.le with rfl | hlt
  · simp [hq.nul]
  · have hc := hq.nonzero q (Nat.le_refl _) hlt
    simp [Simplified.strchr, strchr, hc, htoks q h1 hlt]

theorem gettoken_eq : Simplified.gettoken m es s = gettoken m es s ∧ Plain m es (gettoken m es s).s ∧
    (gettoken m es s).ret ≠ '+'.toUInt8 := by
  have hq := h.skip
  unfold gettoken Simplified.gettoken
  rw [h.scan_whitespace]
  generalize scan m es (strchr whitespace) s = q at hq
  rcases Nat.eq_or_lt_of_le hq.le with rfl | hlt
  · simp only [hq.nul, if_true, hq.scan_whitespace]
    exact ⟨trivial, hq.skip, by decide⟩
  have hc := hq.nonzero q (Nat.le_refl _) hlt
  have hplain := hq.plain q (Nat.le_refl _) hlt
  have hnext := hq.mono (Nat.le_add_right q 1) hlt
  simp only [List.map_cons, List.map_nil, List.mem_cons, List.not_mem_nil, or_false, not_or] at hplain
  simp only [if_neg hc, hplain, false_or]
  by_cases h1 : m q = '|'.toUInt8 ∨ m q = '<'.toUInt8
  · simp only [if_pos h1, hnext.scan_whitespace]
    refine ⟨trivial, hnext.skip, ?_⟩
    rcases h1 with h1 | h1
    · rw [h1]
      decide
    · rw [h1]
      decide
  · by_cases h2 : m q = '>'.toUInt8
    · have hsingle := hq.single q (Nat.le_refl _) hlt h2
      simp only [if_neg h1, if_pos h2, if_neg hsingle, hnext.scan_whitespace]
      refine ⟨trivial, hnext.skip, ?_⟩
      rw [h2]
      decide
    · simp only [if_neg h1, if_neg h2, hq.scan_word]
      obtain ⟨h3, h4, -⟩ := scan_spec m (fun c => !strchr whitespace c && !strchr symbols c) hq.le
      have hend := hq.mono h3 h4
      rw [hend.scan_whitespace]
      exact ⟨rfl, hend.skip, by decide⟩

end

end Plain

section modes

variable {σ τ : Type}

def Cmd.eraseMode : Cmd σ → Cmd σ
  | .exec argv => .exec argv
  | .redir cmd file _ fd => .redir cmd.eraseMode file 0 fd
  | .pipe left right => .pipe left.eraseMode right.eraseMode
  | .list left right => .list left.eraseMode right.eraseMode
  | .back cmd => .back cmd.eraseMode

theorem Cmd.eraseMode_push (a : σ) (c : Cmd σ) : (c.push a).eraseMode = c.eraseMode.push a := by
  induction c with
  | exec argv => rfl
  | redir cmd file mode fd ih => rw [push, eraseMode, eraseMode, push, ih]
  | pipe left right => rfl
  | list left right => rfl
  | back cmd => rfl

theorem Cmd.eraseMode_map (f : σ → τ) (c : Cmd σ) : (c.map f).eraseMode = c.eraseMode.map f := by
  induction c with
  | exec argv => rfl
  | redir cmd file mode fd ih => rw [map, eraseMode, eraseMode, map, ih]
  | pipe left right ihl ihr | list left right ihl ihr => rw [map, eraseMode, eraseMode, map, ihl, ihr]
  | back cmd ih => rw [map, eraseMode, eraseMode, map, ih]

theorem Cmd.map_map {υ : Type} (f : σ → τ) (g : τ → υ) (c : Cmd σ) : (c.map f).map g = c.map (g ∘ f) := by
  induction c with
  | exec argv => simp [map]
  | redir cmd file mode fd ih => rw [map, map, map, ih, Function.comp_apply]
  | pipe left right ihl ihr | list left right ihl ihr => rw [map, map, map, ihl, ihr]
  | back cmd ih => rw [map, map, map, ih]

theorem Cmd.map_congr {f g : σ → τ} {c : Cmd σ} (h : ∀ a ∈ c.strings, f a = g a) : c.map f = c.map g := by
  induction c with
  | exec argv => exact congrArg exec (List.map_congr_left h)
  | redir cmd file mode fd ih =>
    rw [map, map, ih fun a ha => h a (List.mem_append_left _ ha), h file (by simp [strings])]
  | pipe left right ihl ihr | list left right ihl ihr =>
    rw [map, map, ihl fun a ha => h a (List.mem_append_left _ ha), ihr fun a ha => h a (List.mem_append_right _ ha)]
  | back cmd ih => rw [map, map, ih h]

end modes

def Same (m : Bytes) (c : Cmd Span) (t : Cmd (List UInt8)) :
    Prop := (c.map fun a => Simplified.mkcopy m a.1 a.2).eraseMode = t.eraseMode

namespace Same

variable {c c' : Cmd Span} {t t' : Cmd (List UInt8)} {q eq : ℕ}

theorem push (h : Same m c t) : Same m (c.push (q, eq)) (t.push (Simplified.mkcopy m q eq)) := by
  unfold Same at h ⊢
  rw [Cmd.map_push, Cmd.eraseMode_push, Cmd.eraseMode_push, h]

theorem redir (h : Same m c t) {mode mode' fd : ℕ} :
    Same m (.redir c (q, eq) mode fd) (.redir t (Simplified.mkcopy m q eq) mode' fd) := by
  unfold Same at h ⊢
  rw [Cmd.map, Cmd.eraseMode, Cmd.eraseMode, h]

theorem pipe (h : Same m c t) (h' : Same m c' t') : Same m (.pipe c c') (.pipe t t') := by
  unfold Same at h h' ⊢
  rw [Cmd.map, Cmd.eraseMode, Cmd.eraseMode, h, h']

end Same

def Sim (m : Bytes) (es : ℕ) : Except Stop (Cmd Span × ℕ) → Except Stop (Cmd (List UInt8) × ℕ) → Prop
  | .ok (c, s), .ok (t, s') => Same m c t ∧ s' = s ∧ Plain m es s
  | .error (.panic _), .error (.panic _) => True
  | .error .rounds, .error .rounds => True
  | _, _ => False

theorem Sim.cases {r : Except Stop (Cmd Span × ℕ)} {r' : Except Stop (Cmd (List UInt8) × ℕ)} (h : Sim m es r r') :
    r = .error .rounds ∨ (∃ e e', r = .error (.panic e) ∧ r' = .error (.panic e')) ∨
      ∃ c t s, r = .ok (c, s) ∧ r' = .ok (t, s) ∧ Same m c t ∧ Plain m es s := by
  match r, r', h with
  | .error .rounds, .error .rounds, _ => exact .inl rfl
  | .error (.panic e), .error (.panic e'), _ => exact .inr (.inl ⟨e, e', rfl, rfl⟩)
  | .ok (c, s), .ok (t, _), ⟨hct, rfl, hp⟩ => exact .inr (.inr ⟨c, t, s, rfl, rfl, hct, hp⟩)

theorem Sim.bind {r : Except Stop (Cmd Span × ℕ)} {r' : Except Stop (Cmd (List UInt8) × ℕ)} {f f'} (h : Sim m es r r')
    (hf : ∀ c t s, Same m c t → Plain m es s → Sim m es (f (c, s)) (f' (t, s))) : Sim m es (r >>= f) (r' >>= f') := by
  match r, r', h with
  | .ok (c, s), .ok (t, s'), ⟨h1, h2, h3⟩ =>
    subst h2
    exact hf c t s' h1 h3
  | .error (.panic _), .error (.panic _), _ => trivial
  | .error .rounds, .error .rounds, _ => trivial

variable {n : ℕ} {c : Cmd Span} {t : Cmd (List UInt8)}

theorem sim_parseredirs (h : Plain m es s) (hct : Same m c t) :
    Sim m es (parseredirs m es n c s) (Simplified.parseredirs m es n t s) := by
  induction n generalizing c t s with
  | zero => trivial
  | succ n ih =>
    obtain ⟨b, s₁, h₁, hpeek, hpeek'⟩ := h.peek_eq ['<'.toUInt8, '>'.toUInt8] _ fun _ _ _ => Iff.rfl
    rw [parseredirs, Simplified.parseredirs, hpeek, hpeek']
    cases b with
    | false => exact ⟨hct, rfl, h₁⟩
    | true =>
      obtain ⟨hget, h₂, hne⟩ := h₁.gettoken_eq
      obtain ⟨hget', h₃, -⟩ := h₂.gettoken_eq
      simp only [hget, hget']
      generalize gettoken m es s₁ = tok at *
      generalize gettoken m es tok.s = file at *
      by_cases hfile : file.ret ≠ 'a'.toUInt8
      · rw [if_pos hfile, if_pos hfile]
        trivial
      · rw [if_neg hfile, if_neg hfile]
        apply ih h₃
        split_ifs
        · exact hct.redir
        · exact hct.redir
        · exact hct

theorem sim_parseargs {argc : ℕ} (h : Plain m es s) (hct : Same m c t) :
    Sim m es (parseargs m es n c argc s) (Simplified.parseargs m es n t argc s) := by
  induction n generalizing c t s argc with
  | zero => trivial
  | succ n ih =>
    have htoks : ∀ x, s ≤ x → x < es → (m x ∈ ['|'.toUInt8] ↔ m x ∈ ['|'.toUInt8, ')'.toUInt8, '&'.toUInt8, ';'.toUInt8]) := by
      intro x hx hx'
      have hplain := h.plain x hx hx'
      simp only [List.map_cons, List.map_nil, List.mem_cons, List.not_mem_nil, or_false, not_or] at hplain ⊢
      simp [hplain]
    obtain ⟨b, s₁, h₁, hpeek, hpeek'⟩ := h.peek_eq _ _ htoks
    rw [parseargs, Simplified.parseargs, hpeek, hpeek']
    cases b with
    | true => exact ⟨hct, rfl, h₁⟩
    | false =>
      obtain ⟨hget, h₂, -⟩ := h₁.gettoken_eq
      simp only [hget]
      split_ifs
      · exact ⟨hct, rfl, h₂⟩
      · trivial
      · trivial
      · exact (sim_parseredirs h₂ hct.push).bind fun c t s hct h => ih h hct

theorem parseredirs_scan (h : s ≤ es) (n : ℕ) (c : Cmd Span) : parseredirs m es n c (scan m es (strchr whitespace) s) =
    parseredirs m es n c s := by
  cases n with
  | zero => rfl
  | succ n => rw [parseredirs, parseredirs, peek_scan h]

theorem sim_parseexec (h : Plain m es s) : Sim m es (parseexec m es n s) (Simplified.parseexec m es n s) := by
  cases n with
  | zero =>
    rw [parseexec, Simplified.parseexec]
    trivial
  | succ n =>
    rw [parseexec, Simplified.parseexec, h.peek_special (by decide)]
    simp only [parseredirs_scan h.le]
    exact (sim_parseredirs h rfl).bind fun c t s hct h => sim_parseargs h hct

theorem sim_parsepipe (h : Plain m es s) : Sim m es (parsepipe m es n s) (Simplified.parsepipe m es n s) := by
  induction n generalizing s with
  | zero =>
    rw [parsepipe, Simplified.parsepipe]
    trivial
  | succ n ih =>
    rw [parsepipe, Simplified.parsepipe]
    refine (sim_parseexec h).bind fun c t s hct h => ?_
    obtain ⟨b, s₁, h₁, hpeek, hpeek'⟩ := h.peek_eq ['|'.toUInt8] _ fun _ _ _ => Iff.rfl
    simp only [hpeek, hpeek']
    cases b with
    | false => exact ⟨hct, rfl, h₁⟩
    | true =>
      obtain ⟨hget, h₂, -⟩ := h₁.gettoken_eq
      simp only [hget]
      exact (ih h₂).bind fun c' t' s hct' h => ⟨hct.pipe hct', rfl, h⟩

def cstring (bs : List UInt8) : List UInt8 := bs.takeWhile (· ≠ 0)

theorem cstring_strncpy (k q : ℕ) (h : ∀ x, q ≤ x → x < q + k → m x ≠ 0) :
    cstring (Simplified.strncpy m q k ++ [0]) = chars m q (q + k) := by
  induction k generalizing q with
  | zero =>
    rw [Nat.add_zero, chars_of_le (Nat.le_refl _)]
    rfl
  | succ k ih =>
    have hq := h q (Nat.le_refl _) (by omega)
    rw [← Nat.add_assoc, Nat.add_right_comm] at h ⊢
    rw [Simplified.strncpy, if_neg hq, chars_of_lt (by omega), List.cons_append, cstring, List.takeWhile_cons,
      if_pos (by simpa using hq)]
    exact congrArg _ (ih (q + 1) fun x hx hx' => h x (by omega) hx')

theorem cstring_mkcopy {a : Span} (h : WordSpan m es a) : cstring (Simplified.mkcopy m a.1 a.2) = text m a := by
  have hle := h.le
  have hend : a.1 + (a.2 - a.1) = a.2 := by omega
  rw [Simplified.mkcopy, cstring_strncpy _ _ fun x hx hx' => h.nonzero x hx (by omega), hend, text]

def Agrees (m : Bytes) (c : Cmd Span) (t : Cmd (List UInt8)) :
    Prop := ∃ u, Reads m c u ∧ u.eraseMode = (t.map cstring).eraseMode

theorem Spells.agrees {u : Cmd (List UInt8)} (hc : Spells m es c u) (hct : Same m c t) : Agrees (nulterminate c m) c t := by
  refine ⟨u, hc.reads, ?_⟩
  rw [Cmd.eraseMode_map, ← show _ = t.eraseMode from hct, ← Cmd.eraseMode_map, Cmd.map_map, ← hc.map_eq]
  exact congrArg _ (Cmd.map_congr fun a ha => (cstring_mkcopy (hc.words a ha)).symm)

theorem IsString.getElem? {w : List UInt8} (h : IsString m s w) {i : ℕ} (hi : i < w.length) : w[i]? = some (m (s + i)) := by
  induction w generalizing s i with
  | nil => cases hi
  | cons c w ih =>
    obtain ⟨rfl, -, hline⟩ := h
    cases i with
    | zero => rfl
    | succ i =>
      rw [List.getElem?_cons_succ, ih hline (by simpa using hi)]
      congr 2
      omega

def IsPlain (w : List UInt8) : Prop :=
  (∀ c ∈ w, c ∉ ['&', ';', '(', ')'].map Char.toUInt8) ∧ ∀ i, w[i]? = some '>'.toUInt8 → w[i + 1]? ≠ some '>'.toUInt8

theorem plain_of_isString {w : List UInt8} (h : IsString m s w) (hp : IsPlain w) : Plain m (s + w.length) s := by
  have hv := view_of_isString h
  have hget : ∀ x, s ≤ x → x < s + w.length → w[x - s]? = some (m x) := by
    intro x hx hx'
    rw [h.getElem? (by omega)]
    congr 2
    omega
  refine ⟨hv.le, hv.nul, hv.nonzero, fun x hx hx' => ?_, fun x hx hx' hgt hgt' => ?_⟩
  · exact hp.1 _ (List.mem_of_getElem? (hget x hx hx'))
  have hlt : x + 1 < s + w.length := by
    by_contra hge
    obtain he : x + 1 = s + w.length := by omega
    rw [he, hv.nul] at hgt'
    exact absurd hgt' (by decide)
  apply hp.2 (x - s)
  · rw [hget x hx hx', hgt]
  · rw [← hgt', ← hget (x + 1) (by omega) hlt]
    congr 1
    omega

theorem parsecmd_agree {line : List UInt8} {n : ℕ} (hline : IsString m s line) (hplain : IsPlain line)
    (hn : 4 * line.length + 4 ≤ n) :
    ((∃ e, parsecmd m n s = .error (.panic e)) ∧ ∃ e, Simplified.parsecmd m n s = .error (.panic e)) ∨
    ∃ c m' t, parsecmd m n s = .ok (c, m') ∧ Simplified.parsecmd m n s = .ok t ∧ Agrees m' c t := by
  have hp := plain_of_isString hline hplain
  have hlen := length_tokens_le line
  obtain ⟨n, rfl⟩ : ∃ j, n = j + 2 := ⟨n - 2, by omega⟩
  have hends := (parse_ends (n + 1) (view_of_isString hline)).2.1 (by omega)
  have hsim := sim_parsepipe (n := n + 1) hp
  simp only [parsecmd, Simplified.parsecmd, strlen_eq hline (show line.length < n + 2 by omega), ok_bind, parseline,
    Simplified.parseline]
  generalize parsepipe m (s + line.length) (n + 1) s = r at *
  generalize Simplified.parsepipe m (s + line.length) (n + 1) s = r' at *
  rcases hsim.cases with rfl | ⟨e, e', rfl, rfl⟩ | ⟨c, t, s', rfl, rfl, hct, hp₁⟩
  · exact absurd rfl hends
  · exact .inl ⟨⟨e, rfl⟩, ⟨e', rfl⟩⟩
  · obtain ⟨-, -, u, -, -, hc, -⟩ := hends
    have hskip := hp₁.skip
    -- the shell of xv6 looks for `&` and `;` in vain
    have hbacks : parsebacks m (s + line.length) (n + 1) c s' = .ok (c, scan m (s + line.length) (strchr whitespace) s') := by
      rw [parsebacks, hp₁.peek_special (by decide)]
    have hsemi := hskip.peek_special (c := ';'.toUInt8) (by decide)
    have hend : (peek m (s + line.length) (scan m (s + line.length) (strchr whitespace) s') []).2 =
        (Simplified.peek m (s + line.length) s' []).2 := by
      rw [peek_scan hp₁.le]
      exact hp₁.scan_whitespace.symm
    rw [scan_scan _ hp₁.le] at hsemi
    simp only [ok_bind, hbacks, hsemi, hend]
    by_cases hes : (Simplified.peek m (s + line.length) s' []).2 = s + line.length
    · rw [if_neg (not_not_intro hes), if_neg (not_not_intro hes)]
      exact .inr ⟨c, _, t, rfl, rfl, hc.agrees hct⟩
    · rw [if_pos hes, if_pos hes]
      exact .inl ⟨⟨_, rfl⟩, ⟨_, rfl⟩⟩

def plainLine : List UInt8 := ['l', 's', '<', 'a', '|', 'w', 'c', ' ', '>', 'b'].map Char.toUInt8

def plainMemory : Bytes := fun x => (plainLine[x - 100]?).getD 0

theorem isString_plainMemory : IsString plainMemory 100 plainLine := by
  simp only [plainLine, List.map_cons, List.map_nil, IsString]
  decide

theorem isPlain_plainLine : IsPlain plainLine := by
  refine ⟨by decide +kernel, fun i hi => ?_⟩
  have hlt : i < plainLine.length := by
    by_contra hge
    rw [List.getElem?_eq_none (by omega)] at hi
    cases hi
  have hall : ∀ i < plainLine.length, plainLine[i]? = some '>'.toUInt8 → plainLine[i + 1]? ≠ some '>'.toUInt8 := by decide
  exact hall i hlt hi

theorem parsecmd_agree_plainMemory : ∃ c m' t, parsecmd plainMemory 60 100 = .ok (c, m') ∧
    Simplified.parsecmd plainMemory 60 100 = .ok t ∧ Agrees m' c t := by
  have hok : (parsecmd plainMemory 60 100).isOk = true := by decide +kernel
  rcases parsecmd_agree (n := 60) isString_plainMemory isPlain_plainLine (by decide) with ⟨⟨e, he⟩, -⟩ | h
  · rw [he] at hok
    cases hok
  · exact h

end Laboratorio.Shell
