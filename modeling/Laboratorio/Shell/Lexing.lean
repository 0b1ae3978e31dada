import Laboratorio.Shell.Parser

/-!
What is left of the line at a cursor, as tokens; how `gettoken` and `peek` move the cursor.
-/

namespace Laboratorio.Shell

variable {m : Bytes} {es s : ℕ} {ts : List Token} {p : UInt8 → Bool}

def chars (m : Bytes) (s es : ℕ) : List UInt8 := (List.range' s (es - s)).map m

theorem chars_of_le (h : es ≤ s) : chars m s es = [] := by
  rw [chars, Nat.sub_eq_zero_of_le h, List.range'_zero, List.map_nil]

theorem chars_of_lt (h : s < es) : chars m s es = m s :: chars m (s + 1) es := by
  obtain ⟨k, rfl⟩ := Nat.exists_eq_add_of_lt h
  rw [chars, chars, Nat.add_assoc, Nat.add_sub_cancel_left, List.range'_succ, List.map_cons]
  congr 3
  omega

theorem scan_spec (m : Bytes) (p : UInt8 → Bool) (h : s ≤ es) : s ≤ scan m es p s ∧ scan m es p s ≤ es ∧
    (chars m s es).takeWhile p = chars m s (scan m es p s) ∧ (chars m s es).dropWhile p = chars m (scan m es p s) es ∧
    (∀ x, s ≤ x → x < scan m es p s → p (m x)) ∧ (scan m es p s < es → ¬ p (m (scan m es p s))) := by
  obtain ⟨k, rfl⟩ := Nat.exists_eq_add_of_le h
  unfold scan
  rw [Nat.add_sub_cancel_left]
  clear h
  induction k generalizing s with
  | zero =>
    have hnil : chars m s s = [] := chars_of_le (Nat.le_refl s)
    refine ⟨Nat.le_refl _, Nat.le_refl _, ?_, ?_, fun x h1 h2 => ?_, fun h => ?_⟩
    · simp only [Nat.add_zero, scan.loop, hnil, List.takeWhile_nil]
    · simp only [Nat.add_zero, scan.loop, hnil, List.dropWhile_nil]
    · simp only [scan.loop] at h2
      omega
    · simp only [scan.loop] at h
      omega
  | succ k ih =>
    rw [chars_of_lt (show s < s + (k + 1) by omega)]
    by_cases hp : p (m s)
    · obtain ⟨h1, h2, h3, h4, h5, h6⟩ := ih (s := s + 1)
      rw [Nat.add_right_comm, Nat.add_assoc] at h2 h3 h4 h6
      simp only [scan.loop, if_pos hp]
      refine ⟨by omega, h2, ?_, ?_, fun x hx1 hx2 => ?_, h6⟩
      · rw [List.takeWhile_cons, if_pos hp, h3, chars_of_lt (s := s) (by omega)]
      · rw [List.dropWhile_cons, if_pos hp, h4]
      · rcases Nat.eq_or_lt_of_le hx1 with rfl | hlt
        · exact hp
        · exact h5 x hlt hx2
    · simp only [scan.loop, if_neg hp]
      refine ⟨Nat.le_refl _, by omega, ?_, ?_, fun x h1 h2 => by omega, fun _ => hp⟩
      · rw [List.takeWhile_cons, if_neg hp, chars_of_le (Nat.le_refl _)]
      · rw [List.dropWhile_cons, if_neg hp, ← chars_of_lt (by omega)]

structure View (m : Bytes) (es s : ℕ) (ts : List Token) : Prop where
  le : s ≤ es
  nul : m es = 0
  nonzero : ∀ x, s ≤ x → x < es → m x ≠ 0
  tokens_eq : tokens (chars m s es) = ts

structure WordSpan (m : Bytes) (es : ℕ) (a : Span) : Prop where
  le : a.1 ≤ a.2
  end_le : a.2 ≤ es
  nonzero : ∀ x, a.1 ≤ x → x < a.2 → m x ≠ 0
  isWord : ∀ x, a.1 ≤ x → x < a.2 → isWord (m x)
  end_not : a.2 < es → ¬ Shell.isWord (m a.2)

theorem tokens_dropWhile (cs : List UInt8) : tokens (cs.dropWhile (strchr whitespace)) = tokens cs := by
  induction cs with
  | nil => rfl
  | cons c cs ih =>
    by_cases hc : c ∈ whitespace
    · have hp : strchr whitespace c = true := by simpa [strchr] using hc
      rw [List.dropWhile_cons, if_pos hp, ih, tokens, if_pos hc]
    · have hp : ¬ strchr whitespace c = true := by simpa [strchr] using hc
      rw [List.dropWhile_cons, if_neg hp]

theorem View.skip (h : View m es s ts) : View m es (scan m es (strchr whitespace) s) ts ∧
    (scan m es (strchr whitespace) s < es → m (scan m es (strchr whitespace) s) ∉ whitespace) := by
  obtain ⟨h1, h2, -, h4, -, h6⟩ := scan_spec m (strchr whitespace) h.le
  refine ⟨⟨h2, h.nul, fun x hx => h.nonzero x (by omega), ?_⟩, fun hlt => ?_⟩
  · rw [← h4, tokens_dropWhile, h.tokens_eq]
  · simpa [strchr] using h6 hlt

namespace Token

def code : Token → UInt8
  | word _ => 'a'.toUInt8
  | less => '<'.toUInt8
  | greater => '>'.toUInt8
  | append => '+'.toUInt8
  | bar => '|'.toUInt8
  | amp => '&'.toUInt8
  | semi => ';'.toUInt8
  | lparen => '('.toUInt8
  | rparen => ')'.toUInt8

def among (toks : List UInt8) : Token → Bool
  | word _ => false
  | append => toks.contains '>'.toUInt8
  | t => toks.contains t.code

theorem ofSymbol_of_symbols : ∀ c ∈ symbols, ofSymbol c ≠ none := by decide +kernel

variable {c : UInt8} {t : Token}

theorem of_ofSymbol (h : ofSymbol c = some t) : t.code = c ∧ (∀ toks, t.among toks = toks.contains c) ∧ (∀ w, t ≠ word w) ∧
    (c = '>'.toUInt8 ∨ (c = '|'.toUInt8 ∨ c = '('.toUInt8 ∨ c = ')'.toUInt8 ∨ c = ';'.toUInt8 ∨ c = '&'.toUInt8 ∨
    c = '<'.toUInt8) ∧ c ≠ '>'.toUInt8) := by
  unfold ofSymbol at h
  split_ifs at h <;> cases h <;> simp_all [code, among]
  all_goals decide

theorem not_of_ofSymbol (h : ofSymbol c = none) : c ≠ '>'.toUInt8 ∧ c ∉ symbols ∧
    ¬ (c = '|'.toUInt8 ∨ c = '('.toUInt8 ∨ c = ')'.toUInt8 ∨ c = ';'.toUInt8 ∨ c = '&'.toUInt8 ∨ c = '<'.toUInt8) := by
  refine ⟨?_, fun hc => ofSymbol_of_symbols c hc h, ?_⟩
  · rintro rfl
    exact absurd h (by decide)
  · rintro (rfl | rfl | rfl | rfl | rfl | rfl) <;> exact absurd h (by decide)

end Token

theorem isWord_eq : (fun c => !strchr whitespace c && !strchr symbols c) = isWord := by
  funext c
  simp [isWord, strchr]

theorem head?_chars : (chars m s es).head? = if s < es then some (m s) else none := by
  split_ifs with h
  · rw [chars_of_lt h, List.head?_cons]
  · rw [chars_of_le (by omega), List.head?_nil]

theorem View.cases {q : ℕ} (h : View m es q ts) (hq : q < es → m q ∉ whitespace) : (q = es ∧ ts = []) ∨
    (q < es ∧ m q = '>'.toUInt8 ∧ m (q + 1) = '>'.toUInt8 ∧ ∃ ts', ts = .append :: ts' ∧ View m es (q + 2) ts') ∨
    (q < es ∧ ¬ (m q = '>'.toUInt8 ∧ m (q + 1) = '>'.toUInt8) ∧ ∃ t ts', Token.ofSymbol (m q) = some t ∧ ts = t :: ts' ∧
    View m es (q + 1) ts') ∨
    (q < es ∧ Token.ofSymbol (m q) = none ∧ ∃ ts', ts = .word (chars m q (scan m es isWord q)) :: ts' ∧
    View m es (scan m es isWord q) ts' ∧
      WordSpan m es (q, scan m es isWord q)) := by
  obtain ⟨hle, hnul, hnonzero, htokens⟩ := h
  rcases Nat.eq_or_lt_of_le hle with rfl | hlt
  · rw [chars_of_le (Nat.le_refl _), tokens] at htokens
    exact .inl ⟨rfl, htokens.symm⟩
  right
  have hw := hq hlt
  rw [chars_of_lt hlt, tokens, if_neg hw, head?_chars] at htokens
  by_cases happ : m q = '>'.toUInt8 ∧ m (q + 1) = '>'.toUInt8
  · have hlt' : q + 1 < es := by
      by_contra hge
      obtain rfl : q + 1 = es := by omega
      rw [hnul] at happ
      exact absurd happ.2 (by decide)
    rw [if_pos ⟨happ.1, by rw [if_pos hlt', happ.2]⟩, chars_of_lt hlt', List.tail_cons] at htokens
    exact .inl ⟨hlt, happ.1, happ.2, _, htokens.symm, ⟨by omega, hnul, fun x hx => hnonzero x (by omega), rfl⟩⟩
  right
  have happ' : ¬ (m q = '>'.toUInt8 ∧ (if q + 1 < es then some (m (q + 1)) else none) = some '>'.toUInt8) := by
    rintro ⟨h1, h2⟩
    split_ifs at h2
    exact happ ⟨h1, by simpa using h2⟩
  rw [if_neg happ'] at htokens
  cases hs : Token.ofSymbol (m q) with
  | some t =>
    rw [hs] at htokens
    exact .inl ⟨hlt, happ, t, _, rfl, htokens.symm, ⟨by omega, hnul, fun x hx => hnonzero x (by omega), rfl⟩⟩
  | none =>
    rw [hs] at htokens
    have hc : isWord (m q) = true := by simp [isWord, hw, (Token.not_of_ofSymbol hs).2.1]
    obtain ⟨h1, h2, h3, h4, h5, h6⟩ := scan_spec m isWord hle
    rw [chars_of_lt hlt, List.takeWhile_cons, if_pos hc] at h3
    rw [chars_of_lt hlt, List.dropWhile_cons, if_pos hc] at h4
    simp only [h3, h4] at htokens
    exact .inr ⟨hlt, rfl, _, htokens.symm, ⟨h2, hnul, fun x hx => hnonzero x (by omega), rfl⟩,
      ⟨h1, h2, fun x hx hx' => hnonzero x hx (by simp only at hx'; omega), h5, h6⟩⟩

theorem View.peek (h : View m es s ts) {toks : List UInt8} (htoks : ∀ c ∈ toks, c ∈ symbols) :
    ∃ s', View m es s' ts ∧ Shell.peek m es s toks = (ts.head?.any (Token.among toks), s') := by
  obtain ⟨hv, hq⟩ := h.skip
  refine ⟨_, hv, Prod.ext ?_ rfl⟩
  change (decide (m (scan m es (strchr whitespace) s) ≠ 0) && strchr toks (m (scan m es (strchr whitespace) s))) = _
  generalize scan m es (strchr whitespace) s = q at hv hq
  rcases hv.cases hq with ⟨rfl, rfl⟩ | ⟨hlt, h1, -, ts', rfl, -⟩ | ⟨hlt, -, t, ts', hs, rfl, -⟩ | ⟨hlt, hs, ts', rfl, -⟩
  · simp [hv.nul]
  · have hne := hv.nonzero q (Nat.le_refl _) hlt
    rw [h1] at hne
    simp [hne, h1, strchr, Token.among]
  · have hne := hv.nonzero q (Nat.le_refl _) hlt
    simp [hne, strchr, (Token.of_ofSymbol hs).2.1]
  · have hnot : m q ∉ toks := fun hc => (Token.not_of_ofSymbol hs).2.1 (htoks _ hc)
    simp [strchr, Token.among, hnot]

theorem View.gettoken_nil (h : View m es s []) : (gettoken m es s).ret = 0 ∧ View m es (gettoken m es s).s [] := by
  obtain ⟨hv, hq⟩ := h.skip
  unfold gettoken
  generalize scan m es (strchr whitespace) s = q at hv hq
  rcases hv.cases hq with ⟨rfl, -⟩ | ⟨-, -, -, ts', hts, -⟩ | ⟨-, -, t, ts', -, hts, -⟩ | ⟨-, -, ts', hts, -⟩
  · simp only [hv.nul, if_true]
    exact ⟨trivial, hv.skip.1⟩
  · cases hts
  · cases hts
  · cases hts

theorem View.gettoken_cons {t : Token} (h : View m es s (t :: ts)) :
    (gettoken m es s).ret = t.code ∧ View m es (gettoken m es s).s ts ∧
    ∀ w, t = .word w → chars m (gettoken m es s).q (gettoken m es s).eq = w ∧
      WordSpan m es ((gettoken m es s).q, (gettoken m es s).eq) := by
  obtain ⟨hv, hq⟩ := h.skip
  unfold gettoken
  rw [isWord_eq]
  generalize scan m es (strchr whitespace) s = q at hv hq
  rcases hv.cases hq with ⟨-, hts⟩ | ⟨hlt, h1, h2, ts', hts, hv'⟩ | ⟨hlt, hne, t, ts', hs, hts, hv'⟩ | ⟨hlt, hs, ts',
    hts, hv', hword⟩
  · cases hts
  · cases hts
    simp only [h1, h2]
    exact ⟨rfl, hv'.skip.1, fun w hw => nomatch hw⟩
  · cases hts
    have hc := hv.nonzero q (Nat.le_refl _) hlt
    obtain ⟨hcode, -, hnot, hgt | ⟨hsingle, -⟩⟩ := Token.of_ofSymbol hs
    · have hne' : m (q + 1) ≠ '>'.toUInt8 := fun h2 => hne ⟨hgt, h2⟩
      rw [hgt] at hc hcode
      simp only [hgt, if_neg hne']
      exact ⟨hcode.symm, hv'.skip.1, fun w hw => absurd hw (hnot w)⟩
    · simp only [if_neg hc, if_pos hsingle]
      exact ⟨hcode.symm, hv'.skip.1, fun w hw => absurd hw (hnot w)⟩
  · cases hts
    have hc := hv.nonzero q (Nat.le_refl _) hlt
    obtain ⟨hgt, -, hsingle⟩ := Token.not_of_ofSymbol hs
    simp only [if_neg hc, if_neg hsingle, if_neg hgt]
    refine ⟨rfl, hv'.skip.1, fun w hw => ?_⟩
    cases hw
    exact ⟨rfl, hword⟩

theorem length_tokens_le (cs : List UInt8) : (tokens cs).length ≤ cs.length := by
  induction cs using tokens.induct with
  | case1 => simp [tokens]
  | case2 c cs hc ih =>
    rw [tokens, if_pos hc, List.length_cons]
    omega
  | case3 c cs hc happ ih =>
    rw [tokens, if_neg hc, if_pos happ]
    rw [List.length_tail] at ih
    simp only [List.length_cons]
    omega
  | case4 c cs hc happ t ht ih =>
    rw [tokens, if_neg hc, if_neg happ, ht]
    simpa using ih
  | case5 c cs hc happ ht ih =>
    rw [tokens, if_neg hc, if_neg happ, ht]
    have := (List.dropWhile_sublist (p := isWord) (l := cs)).length_le
    simp only [List.length_cons]
    omega

end Laboratorio.Shell
