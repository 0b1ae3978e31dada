import Laboratorio.Shell.Lexing

/-!
The parser accepts what the grammar derives, with the tree of the derivation.
-/

namespace Laboratorio.Shell

def Ends {α : Type} (r : Except Stop α) (P : α → Prop) : Prop :=
  match r with
  | .ok a => P a
  | .error e => e ≠ .rounds

variable {α : Type} {P : α → Prop}

@[simp] theorem ends_ok {a : α} : Ends (.ok a) P ↔ P a := Iff.rfl

@[simp] theorem ends_panic {text : String} : Ends (.error (.panic text)) P := nofun

@[simp] theorem ends_bind {β : Type} {P : β → Prop} {r : Except Stop α} {f : α → Except Stop β} :
    Ends (r >>= f) P ↔ Ends r fun a => Ends (f a) P := by
  cases r <;> rfl

theorem ok_bind {β : Type} (a : α) (f : α → Except Stop β) : (Except.ok a >>= f) = f a := rfl

theorem Ends.mono {Q : α → Prop} {r : Except Stop α} (h : Ends r P) (hPQ : ∀ a, P a → Q a) : Ends r Q := by
  cases r with
  | ok a => exact hPQ a h
  | error e => exact h

variable {m : Bytes} {es s : ℕ} {ts : List Token} {c : Cmd Span} {t : Cmd (List UInt8)}

def text (m : Bytes) (a : Span) : List UInt8 := chars m a.1 a.2

structure Spells (m : Bytes) (es : ℕ) (c : Cmd Span) (t : Cmd (List UInt8)) : Prop where
  map_eq : c.map (text m) = t
  words : ∀ a ∈ c.strings, WordSpan m es a

variable {w : List UInt8}

theorem View.gettoken_word (h : View m es s (.word w :: ts)) :
    ∃ q eq s', gettoken m es s = ⟨'a'.toUInt8, q, eq, s'⟩ ∧ View m es s' ts ∧ text m (q, eq) = w ∧ WordSpan m es (q, eq) := by
  obtain ⟨hret, hv, hw⟩ := h.gettoken_cons
  obtain ⟨hw1, hw2⟩ := hw w rfl
  generalize gettoken m es s = g at *
  obtain ⟨ret, q, eq, s'⟩ := g
  cases hret
  exact ⟨q, eq, s', rfl, hv, hw1, hw2⟩

theorem View.gettoken_ne (h : View m es s ts) (hts : ∀ w ts', ts ≠ .word w :: ts') : (gettoken m es s).ret ≠ 'a'.toUInt8 := by
  cases ts with
  | nil =>
    rw [h.gettoken_nil.1]
    decide
  | cons tok ts =>
    rw [h.gettoken_cons.1]
    cases tok with
    | word w => exact absurd rfl (hts w ts)
    | _ => decide

variable {tok : Token}

theorem among_redir : tok.among ['<'.toUInt8, '>'.toUInt8] = true ↔ ∃ op : RedirOp, tok = op.token := by
  constructor
  · intro h
    cases tok with
    | less => exact ⟨.less, rfl⟩
    | greater => exact ⟨.greater, rfl⟩
    | append => exact ⟨.append, rfl⟩
    | word w => exact absurd h (by simp [Token.among])
    | _ => exact absurd h (by decide)
  · rintro ⟨op, rfl⟩
    cases op <;> decide

theorem symbols_redir : ∀ c ∈ ['<'.toUInt8, '>'.toUInt8], c ∈ symbols := by decide +kernel

theorem parseredirs_succ (op : RedirOp) (w : List UInt8) (n : ℕ) (hv : View m es s (op.token :: .word w :: ts))
    (hc : Spells m es c t) :
    ∃ c' s', parseredirs m es (n + 1) c s = parseredirs m es n c' s' ∧ Spells m es c' (.redir t w op.mode op.fd) ∧
      View m es s' ts := by
  obtain ⟨s₁, hv₁, hpeek⟩ := hv.peek symbols_redir
  have hamong := among_redir.mpr ⟨op, rfl⟩
  obtain ⟨hret, hv₂, -⟩ := hv₁.gettoken_cons
  obtain ⟨q, eq, s₃, hget, hv₃, htext, hspan⟩ := hv₂.gettoken_word
  refine ⟨.redir c (q, eq) op.mode op.fd, s₃, ?_, ⟨?_, ?_⟩, hv₃⟩
  · rw [parseredirs, hpeek]
    simp only [List.head?_cons, Option.any_some, hamong, hget, hret, ne_eq, not_true_eq_false, if_false]
    cases op <;> rfl
  · rw [Cmd.map, htext, hc.map_eq]
  · intro a ha
    rcases List.mem_append.mp ha with ha | ha
    · exact hc.words a ha
    · rw [List.mem_singleton.mp ha]
      exact hspan

variable {n : ℕ}

theorem parseredirs_ends (hv : View m es s ts) (hc : Spells m es c t) (hn : ts.length < n) :
    Ends (parseredirs m es n c s) fun r => ∃ rs ts', ts = redirTokens rs ++ ts' ∧ Spells m es r.1 (wrap rs t) ∧
      View m es r.2 ts' := by
  induction n generalizing c t s ts with
  | zero => omega
  | succ n ih =>
    cases hred : ts.head?.any (Token.among ['<'.toUInt8, '>'.toUInt8]) with
    | false =>
      obtain ⟨s₁, hv₁, hpeek⟩ := hv.peek symbols_redir
      rw [parseredirs, hpeek, hred]
      exact ⟨[], ts, rfl, hc, hv₁⟩
    | true =>
      cases ts with
      | nil => cases hred
      | cons tok ts =>
        obtain ⟨op, rfl⟩ := among_redir.mp hred
        by_cases hword : ∃ w ts', ts = .word w :: ts'
        · obtain ⟨w, ts, rfl⟩ := hword
          obtain ⟨c', s', hrun, hc', hv'⟩ := parseredirs_succ op w n hv hc
          rw [hrun]
          apply (ih hv' hc' (by simp only [List.length_cons] at hn; omega)).mono
          rintro r ⟨rs, ts', rfl, hr, hvr⟩
          exact ⟨(op, w) :: rs, ts', rfl, hr, hvr⟩
        · obtain ⟨s₁, hv₁, hpeek⟩ := hv.peek symbols_redir
          have hfile := hv₁.gettoken_cons.2.1.gettoken_ne fun w ts' h => hword ⟨w, ts', h⟩
          rw [parseredirs, hpeek, hred]
          simp only [if_pos hfile, ends_panic]

def NoRedir (ts : List Token) : Prop := ts.head?.any (Token.among ['<'.toUInt8, '>'.toUInt8]) = false

theorem parseredirs_eq (rs : List Redir) (hv : View m es s (redirTokens rs ++ ts)) (hts : NoRedir ts) (hc : Spells m es c t)
    (hn : rs.length < n) : ∃ c' s', parseredirs m es n c s = .ok (c', s') ∧ Spells m es c' (wrap rs t) ∧ View m es s' ts := by
  induction n generalizing c t s rs with
  | zero => omega
  | succ n ih =>
    cases rs with
    | nil =>
      obtain ⟨s₁, hv₁, hpeek⟩ := hv.peek symbols_redir
      refine ⟨c, s₁, ?_, hc, hv₁⟩
      have hfalse : (redirTokens [] ++ ts).head?.any (Token.among ['<'.toUInt8, '>'.toUInt8]) = false := hts
      rw [parseredirs, hpeek, hfalse]
    | cons r rs =>
      obtain ⟨c', s', hrun, hc', hv'⟩ := parseredirs_succ r.1 r.2 n hv hc
      rw [hrun]
      exact ih rs hv' hc' (by simpa using hn)

section push

variable {σ τ : Type}

theorem Cmd.map_push (f : σ → τ) (a : σ) (c : Cmd σ) : (c.push a).map f = (c.map f).push (f a) := by
  induction c with
  | exec argv => simp [push, map]
  | redir cmd file mode fd ih => rw [push, map, map, push, ih]
  | pipe left right => rfl
  | list left right => rfl
  | back cmd => rfl

theorem Cmd.mem_strings_push {a b : σ} {c : Cmd σ} (h : b ∈ (c.push a).strings) : b ∈ c.strings ∨ b = a := by
  induction c with
  | exec argv => simpa [push, strings] using h
  | redir cmd file mode fd ih =>
    simp only [push, strings, List.mem_append] at h ⊢
    rcases h with h | h
    · exact (ih h).imp_left .inl
    · exact .inl (.inr h)
  | pipe left right | list left right | back cmd => exact .inl h

theorem push_wrap (w : List UInt8) (rs : List Redir) (t : Cmd (List UInt8)) : (wrap rs t).push w = wrap rs (t.push w) := by
  induction rs generalizing t with
  | nil => rfl
  | cons r rs ih => exact ih _

end push

def simpleTree (rs : List Redir) (items : List Item) : Cmd (List UInt8) := wrap (rs ++ items.flatMap Prod.snd)
    (.exec (items.map Prod.fst))

theorem simpleTree_snoc (rs : List Redir) (items : List Item) (w : List UInt8) (rs' : List Redir) :
    wrap rs' ((simpleTree rs items).push w) = simpleTree rs (items ++ [(w, rs')]) := by
  rw [simpleTree, push_wrap, simpleTree, Cmd.push]
  simp [wrap, List.foldl_append]

theorem Spells.push (hc : Spells m es c t) {a : Span} (ha : WordSpan m es a) (hw : text m a = w) :
    Spells m es (c.push a) (t.push w) where
  map_eq := by rw [Cmd.map_push, hc.map_eq, hw]
  words b hb := by
    rcases Cmd.mem_strings_push hb with hb | rfl
    · exact hc.words b hb
    · exact ha

abbrev ends : List UInt8 := ['|'.toUInt8, ')'.toUInt8, '&'.toUInt8, ';'.toUInt8]

theorem symbols_ends : ∀ c ∈ ends, c ∈ symbols := by decide +kernel

theorem parseargs_succ (n argc : ℕ) (hv : View m es s (.word w :: ts)) (hc : Spells m es c t) (hargc : argc + 1 < maxargs) :
    ∃ c' s', parseargs m es (n + 1) c argc s = (do
        let (ret, s) ← parseredirs m es n c' s'
        parseargs m es n ret (argc + 1) s) ∧ Spells m es c' (t.push w) ∧ View m es s' ts := by
  obtain ⟨s₁, hv₁, hpeek⟩ := hv.peek symbols_ends
  obtain ⟨q, eq, s₂, hget, hv₂, htext, hspan⟩ := hv₁.gettoken_word
  refine ⟨c.push (q, eq), s₂, ?_, hc.push hspan htext, hv₂⟩
  have hnot : ¬ argc + 1 ≥ maxargs := by omega
  have hne : 'a'.toUInt8 ≠ 0 := by decide
  rw [parseargs, hpeek]
  simp only [List.head?_cons, Option.any_some, Token.among, hget, if_neg hne, ne_eq, not_true_eq_false, if_false, if_neg hnot]

theorem parseargs_ends {rs : List Redir} {items : List Item} (hv : View m es s ts) (hc : Spells m es c (simpleTree rs items))
    (hitems : items.length ≤ maxargs - 1) (hn : ts.length < n) :
    Ends (parseargs m es n c items.length s) fun r => ∃ items' ts', ts = itemTokens items' ++ ts' ∧
      Spells m es r.1 (simpleTree rs (items ++ items')) ∧ View m es r.2 ts' ∧ (items ++ items').length ≤ maxargs - 1 := by
  induction n generalizing c s ts items with
  | zero => omega
  | succ n ih =>
    obtain ⟨s₁, hv₁, hpeek⟩ := hv.peek symbols_ends
    have hnone : ∀ {s'}, View m es s' ts → ∃ items' ts', ts = itemTokens items' ++ ts' ∧
        Spells m es c (simpleTree rs (items ++ items')) ∧ View m es s' ts' ∧ (items ++ items').length ≤ maxargs - 1 := by
      intro s' hv'
      refine ⟨[], ts, rfl, ?_, hv', ?_⟩
      · rw [List.append_nil]
        exact hc
      · rw [List.append_nil]
        exact hitems
    cases hend : ts.head?.any (Token.among ends) with
    | true =>
      rw [parseargs, hpeek, hend]
      exact hnone hv₁
    | false =>
      cases ts with
      | nil =>
        obtain ⟨hret, hv₂⟩ := hv₁.gettoken_nil
        rw [parseargs, hpeek]
        simp only [List.head?_nil, Option.any_none, hret, if_true]
        exact hnone hv₂
      | cons tok ts =>
        by_cases hword : ∃ w, tok = .word w
        · obtain ⟨w, rfl⟩ := hword
          by_cases hargc : items.length + 1 < maxargs
          · obtain ⟨c', s', hrun, hc', hv'⟩ := parseargs_succ n items.length hv hc hargc
            rw [hrun, ends_bind]
            rw [List.length_cons] at hn
            apply (parseredirs_ends hv' hc' (by omega)).mono
            rintro ⟨ret, s''⟩ ⟨rs', ts', rfl, hret, hvr⟩
            rw [simpleTree_snoc] at hret
            have hlen : (items ++ [(w, rs')]).length = items.length + 1 := by simp
            have hih := ih hvr hret (by omega) (by rw [List.length_append] at hn; omega)
            rw [hlen] at hih
            apply hih.mono
            rintro r ⟨items', ts'', rfl, hr, hvr', hle⟩
            rw [List.append_assoc] at hr hle
            exact ⟨(w, rs') :: items', ts'', by simp [itemTokens], hr, hvr', hle⟩
          · obtain ⟨q, eq, s₂, hget, -⟩ := hv₁.gettoken_word
            have hne : 'a'.toUInt8 ≠ 0 := by decide
            have hge : items.length + 1 ≥ maxargs := by omega
            rw [parseargs, hpeek, hend]
            simp only [hget, if_neg hne, ne_eq, not_true_eq_false, if_false, if_pos hge, ends_panic]
        · have hret := hv₁.gettoken_cons.1
          obtain ⟨hne, hne'⟩ : tok.code ≠ 0 ∧ tok.code ≠ 'a'.toUInt8 := by
            cases tok with
            | word w => exact absurd ⟨w, rfl⟩ hword
            | _ => decide
          rw [parseargs, hpeek, hend]
          simp only [hret, if_neg hne, if_pos hne', ends_panic]

def Nonterminal.followers : Nonterminal → List Token
  | line => [.rparen]
  | pipe => [.rparen, .amp, .semi]
  | exec => [.rparen, .amp, .semi, .bar]

def Follow (X : Nonterminal) (ts : List Token) : Prop := ∀ tok ∈ ts.head?, tok ∈ X.followers

variable {X : Nonterminal}

theorem Follow.peek_eq {toks : List UInt8} {b : Bool} (h : Follow X ts) (hnil : ts = [] → b = false)
    (hX : ∀ tok ∈ X.followers, tok.among toks = b) : ts.head?.any (Token.among toks) = b := by
  cases ts with
  | nil => exact (hnil rfl).symm
  | cons tok ts => exact hX tok (h tok rfl)

theorem Follow.noRedir (h : Follow .exec ts) : NoRedir ts := h.peek_eq (fun _ => rfl) (by decide)

theorem noRedir_items (items : List Item) (h : Follow .exec ts) : NoRedir (itemTokens items ++ ts) := by
  cases items with
  | nil => exact h.noRedir
  | cons i items => rfl

theorem length_redirTokens (rs : List Redir) : (redirTokens rs).length = 2 * rs.length := by
  induction rs with
  | nil => rfl
  | cons r rs ih =>
    rw [redirTokens, List.flatMap_cons, List.length_append, ← redirTokens, ih]
    simp only [List.length_cons, List.length_nil]
    omega

theorem parseargs_eq {rs : List Redir} {items : List Item} (items' : List Item) (hv : View m es s (itemTokens items' ++ ts))
    (hts : Follow .exec ts) (hc : Spells m es c (simpleTree rs items)) (hitems : (items ++ items').length ≤ maxargs - 1)
    (hn : (itemTokens items').length < n) :
    ∃ c' s', parseargs m es n c items.length s = .ok (c', s') ∧ Spells m es c' (simpleTree rs (items ++ items')) ∧
      View m es s' ts := by
  induction n generalizing c s items items' with
  | zero => omega
  | succ n ih =>
    cases items' with
    | nil =>
      obtain ⟨s₁, hv₁, hpeek⟩ := hv.peek symbols_ends
      rw [List.append_nil]
      by_cases hnil : ts = []
      · subst hnil
        obtain ⟨hret, hv₂⟩ := hv₁.gettoken_nil
        refine ⟨c, _, ?_, hc, hv₂⟩
        rw [parseargs, hpeek]
        simp only [itemTokens, List.flatMap_nil, List.append_nil, List.head?_nil, Option.any_none, hret, if_true]
      · refine ⟨c, s₁, ?_, hc, hv₁⟩
        have htrue : (itemTokens [] ++ ts).head?.any (Token.among ends) = true :=
          hts.peek_eq (fun h => absurd h hnil) (by decide)
        rw [parseargs, hpeek, htrue]
    | cons i items' =>
      obtain ⟨w, rs'⟩ := i
      have hlist : itemTokens ((w, rs') :: items') = .word w :: (redirTokens rs' ++ itemTokens items') := rfl
      rw [hlist, List.cons_append, List.append_assoc] at hv
      rw [hlist, List.length_cons, List.length_append, length_redirTokens] at hn
      simp only [List.length_append, List.length_cons] at hitems
      obtain ⟨c', s', hrun, hc', hv'⟩ := parseargs_succ n items.length hv hc (by omega)
      obtain ⟨c₂, s₂, hrun₂, hc₂, hv₂⟩ := parseredirs_eq rs' hv' (noRedir_items items' hts) hc' (show rs'.length < n by omega)
      rw [simpleTree_snoc] at hc₂
      have hlen : (items ++ [(w, rs')]).length = items.length + 1 := by simp
      obtain ⟨c₃, s₃, hrun₃, hc₃, hv₃⟩ :=
        ih items' hv₂ hc₂ (by simp only [List.length_append, List.length_cons, List.length_nil]; omega) (by omega)
      rw [hlen] at hrun₃
      rw [List.append_assoc] at hc₃
      refine ⟨c₃, s₃, ?_, hc₃, hv₃⟩
      rw [hrun, hrun₂]
      exact hrun₃

abbrev singles : List Token := [.bar, .amp, .semi, .lparen, .rparen]

theorem among_singles : ∀ tok₀ ∈ singles, ∀ tok : Token, tok.among [tok₀.code] = decide (tok = tok₀) := by
  intro tok₀ h tok
  simp only [List.mem_cons, List.not_mem_nil, or_false] at h
  rcases h with rfl | rfl | rfl | rfl | rfl <;> cases tok <;> rfl

theorem View.peek_single (hv : View m es s ts) (tok : Token) (c : UInt8) (hc : tok.code = c) (htok : tok ∈ singles) :
    ∃ s', View m es s' ts ∧ Shell.peek m es s [c] = (decide (ts.head? = some tok), s') := by
  subst hc
  have hsymbols : ∀ tok ∈ singles, ∀ c ∈ [tok.code], c ∈ symbols := by decide +kernel
  obtain ⟨s', hv', hpeek⟩ := hv.peek (hsymbols tok htok)
  refine ⟨s', hv', ?_⟩
  rw [hpeek]
  cases ts with
  | nil => rfl
  | cons tok' ts =>
    rw [List.head?_cons, Option.any_some, among_singles tok htok tok']
    simp

theorem View.peek_true (c : UInt8) (hv : View m es s (tok :: ts)) (hc : tok.code = c) (htok : tok ∈ singles) :
    ∃ s', View m es s' (tok :: ts) ∧ Shell.peek m es s [c] = (true, s') := by
  obtain ⟨s', hv', hpeek⟩ := hv.peek_single tok c hc htok
  rw [List.head?_cons, decide_eq_true rfl] at hpeek
  exact ⟨s', hv', hpeek⟩

theorem View.peek_false (tok : Token) (c : UInt8) (hv : View m es s ts) (hts : ts.head? ≠ some tok) (hc : tok.code = c)
    (htok : tok ∈ singles) : ∃ s', View m es s' ts ∧ Shell.peek m es s [c] = (false, s') := by
  obtain ⟨s', hv', hpeek⟩ := hv.peek_single tok c hc htok
  rw [decide_eq_false hts] at hpeek
  exact ⟨s', hv', hpeek⟩

theorem Spells.back (hc : Spells m es c t) : Spells m es (.back c) (.back t) where
  map_eq := by rw [Cmd.map, hc.map_eq]
  words := hc.words

theorem parsebacks_ends (hv : View m es s ts) (hc : Spells m es c t) (hn : ts.length < n) :
    Ends (parsebacks m es n c s) fun r => ∃ k ts', ts = List.replicate k .amp ++ ts' ∧ Spells m es r.1 (Cmd.back^[k] t) ∧
      View m es r.2 ts' := by
  induction n generalizing c t s ts with
  | zero => omega
  | succ n ih =>
    obtain ⟨s₁, hv₁, hpeek⟩ := hv.peek_single .amp '&'.toUInt8 rfl (by decide)
    rw [parsebacks, hpeek]
    by_cases hamp : ts.head? = some .amp
    · obtain ⟨ts, rfl⟩ := List.head?_eq_some_iff.mp hamp
      apply (ih hv₁.gettoken_cons.2.1 hc.back (by simpa using hn)).mono
      rintro r ⟨k, ts', rfl, hr, hvr⟩
      exact ⟨k + 1, ts', rfl, hr, hvr⟩
    · rw [decide_eq_false hamp]
      exact ⟨0, ts, rfl, hc, hv₁⟩

theorem parsebacks_eq (k : ℕ) (hv : View m es s (List.replicate k .amp ++ ts)) (hts : ts.head? ≠ some .amp)
    (hc : Spells m es c t) (hn : k < n) : ∃ c' s', parsebacks m es n c s = .ok (c', s') ∧ Spells m es c' (Cmd.back^[k] t) ∧
    View m es s' ts := by
  induction n generalizing c t s k with
  | zero => omega
  | succ n ih =>
    obtain ⟨s₁, hv₁, hpeek⟩ := hv.peek_single .amp '&'.toUInt8 rfl (by decide)
    rw [parsebacks, hpeek]
    cases k with
    | zero =>
      refine ⟨c, s₁, ?_, hc, hv₁⟩
      rw [List.replicate_zero, List.nil_append, decide_eq_false hts]
    | succ k => exact ih k hv₁.gettoken_cons.2.1 hc.back (by omega)

def Result (m : Bytes) (es : ℕ) (X : Nonterminal) (ts : List Token) (r : Cmd Span × ℕ) : Prop :=
  ∃ ts₁ ts₂ t, ts = ts₁ ++ ts₂ ∧ Derives X ts₁ t ∧ Spells m es r.1 t ∧ View m es r.2 ts₂

theorem spells_exec : Spells m es (.exec []) (simpleTree [] []) := ⟨rfl, by simp [Cmd.strings]⟩

theorem Spells.pair {c' : Cmd Span} {t' : Cmd (List UInt8)} (hc : Spells m es c t) (hc' : Spells m es c' t') :
    Spells m es (.pipe c c') (.pipe t t') ∧ Spells m es (.list c c') (.list t t') := by
  have hwords : ∀ a ∈ c.strings ++ c'.strings, WordSpan m es a := by
    intro a ha
    rcases List.mem_append.mp ha with ha | ha
    · exact hc.words a ha
    · exact hc'.words a ha
  exact ⟨⟨by rw [Cmd.map, hc.map_eq, hc'.map_eq], hwords⟩, ⟨by rw [Cmd.map, hc.map_eq, hc'.map_eq], hwords⟩⟩

theorem parse_ends (n : ℕ) : ∀ {s ts}, View m es s ts →
    (4 * ts.length + 4 ≤ n → Ends (parseline m es n s) (Result m es .line ts)) ∧
    (4 * ts.length + 3 ≤ n → Ends (parsepipe m es n s) (Result m es .pipe ts)) ∧
    (4 * ts.length + 1 ≤ n → Ends (parseblock m es n s) (Result m es .exec ts)) ∧
    (4 * ts.length + 2 ≤ n → Ends (parseexec m es n s) (Result m es .exec ts)) := by
  induction n with
  | zero =>
    intro s ts _
    refine ⟨fun h => ?_, fun h => ?_, fun h => ?_, fun h => ?_⟩ <;> omega
  | succ n ih =>
    intro s ts hv
    refine ⟨fun hn => ?_, fun hn => ?_, fun hn => ?_, fun hn => ?_⟩
    · rw [parseline, ends_bind]
      apply ((ih hv).2.1 (by omega)).mono
      rintro ⟨c, s₁⟩ ⟨ts₁, ts₂, t, rfl, hder, hc, hv₁⟩
      rw [List.length_append] at hn
      rw [ends_bind]
      apply (parsebacks_ends hv₁ hc (by omega)).mono
      rintro ⟨c, s₂⟩ ⟨k, ts₃, rfl, hc, hv₂⟩
      obtain ⟨s₃, hv₃, hpeek⟩ := hv₂.peek_single .semi ';'.toUInt8 rfl (by decide)
      simp only [hpeek]
      by_cases hsemi : ts₃.head? = some .semi
      · obtain ⟨ts₃, rfl⟩ := List.head?_eq_some_iff.mp hsemi
        rw [decide_eq_true hsemi]
        simp only [List.length_append, List.length_cons] at hn
        simp only [ends_bind]
        apply ((ih hv₃.gettoken_cons.2.1).1 (by omega)).mono
        rintro ⟨right, s₄⟩ ⟨ts₄, ts₅, t', rfl, hder', hc', hv₄⟩
        exact ⟨_, ts₅, _, by simp, .list k hder hder', (hc.pair hc').2, hv₄⟩
      · rw [decide_eq_false hsemi]
        exact ⟨_, ts₃, _, by simp, .line k hder, hc, hv₃⟩
    · rw [parsepipe, ends_bind]
      apply ((ih hv).2.2.2 (by omega)).mono
      rintro ⟨c, s₁⟩ ⟨ts₁, ts₂, t, rfl, hder, hc, hv₁⟩
      obtain ⟨s₂, hv₂, hpeek⟩ := hv₁.peek_single .bar '|'.toUInt8 rfl (by decide)
      simp only [hpeek]
      by_cases hbar : ts₂.head? = some .bar
      · obtain ⟨ts₂, rfl⟩ := List.head?_eq_some_iff.mp hbar
        rw [decide_eq_true hbar]
        simp only [List.length_append, List.length_cons] at hn
        simp only [ends_bind]
        apply ((ih hv₂.gettoken_cons.2.1).2.1 (by omega)).mono
        rintro ⟨right, s₃⟩ ⟨ts₃, ts₄, t', rfl, hder', hc', hv₃⟩
        exact ⟨_, ts₄, _, by simp, .pipe hder hder', (hc.pair hc').1, hv₃⟩
      · rw [decide_eq_false hbar]
        exact ⟨ts₁, ts₂, t, rfl, .exec hder, hc, hv₂⟩
    · obtain ⟨s₁, hv₁, hpeek⟩ := hv.peek_single .lparen '('.toUInt8 rfl (by decide)
      rw [parseblock, hpeek]
      by_cases hopen : ts.head? = some .lparen
      · obtain ⟨ts, rfl⟩ := List.head?_eq_some_iff.mp hopen
        rw [decide_eq_true hopen]
        simp only [List.length_cons] at hn
        simp only [ends_bind]
        apply ((ih hv₁.gettoken_cons.2.1).1 (by omega)).mono
        rintro ⟨c, s₂⟩ ⟨ts₁, ts₂, t, rfl, hder, hc, hv₂⟩
        obtain ⟨s₃, hv₃, hpeek⟩ := hv₂.peek_single .rparen ')'.toUInt8 rfl (by decide)
        simp only [hpeek]
        by_cases hclose : ts₂.head? = some .rparen
        · obtain ⟨ts₂, rfl⟩ := List.head?_eq_some_iff.mp hclose
          simp only [List.length_append, List.length_cons] at hn
          apply (parseredirs_ends hv₃.gettoken_cons.2.1 hc (by omega)).mono
          rintro r ⟨rs, ts', rfl, hr, hvr⟩
          exact ⟨_, ts', _, by simp, .block rs hder, hr, hvr⟩
        · rw [decide_eq_false hclose]
          exact ends_panic
      · rw [decide_eq_false hopen]
        exact ends_panic
    · obtain ⟨s₁, hv₁, hpeek⟩ := hv.peek_single .lparen '('.toUInt8 rfl (by decide)
      rw [parseexec, hpeek]
      cases decide (ts.head? = some .lparen) with
      | true => exact (ih hv₁).2.2.1 (by omega)
      | false =>
        simp only [ends_bind]
        apply (parseredirs_ends hv₁ spells_exec (by omega)).mono
        rintro ⟨ret, s₂⟩ ⟨rs, ts', rfl, hret, hv₂⟩
        rw [List.length_append] at hn
        have htree : wrap rs (simpleTree [] []) = simpleTree rs [] := by simp [simpleTree, wrap]
        rw [htree] at hret
        apply (parseargs_ends hv₂ hret (by decide) (by omega)).mono
        rintro r ⟨items, ts'', rfl, hr, hvr, hle⟩
        exact ⟨_, ts'', _, by simp, .simple rs items hle, hr, hvr⟩

def parse (m : Bytes) (es : ℕ) : Nonterminal → ℕ → ℕ → Except Stop (Cmd Span × ℕ)
  | .line => parseline m es
  | .pipe => parsepipe m es
  | .exec => parseexec m es

def Nonterminal.rank : Nonterminal → ℕ
  | line => 4
  | pipe => 3
  | exec => 2

theorem follow_cons (h : tok ∈ X.followers) : Follow X (tok :: ts) := by
  rintro tok' ⟨⟩
  exact h

theorem Follow.head?_ne (h : Follow X ts) (htok : tok ∉ X.followers) : ts.head? ≠ some tok :=
  fun he => htok (h tok he)

theorem Follow.weaken {Y : Nonterminal} (h : Follow X ts) (hXY : ∀ tok ∈ X.followers, tok ∈ Y.followers) : Follow Y ts :=
  fun tok htok => hXY tok (h tok htok)

theorem Follow.backs (h : Follow X ts) (hX : ∀ tok ∈ X.followers, tok ∈ Nonterminal.pipe.followers) (k : ℕ) :
    Follow .pipe (List.replicate k .amp ++ ts) := by
  cases k with
  | zero => exact h.weaken hX
  | succ k => exact follow_cons (by decide)

theorem parse_eq {ts₁ : List Token} (h : Derives X ts₁ t) : ∀ {ts₂ s n}, Follow X ts₂ → View m es s (ts₁ ++ ts₂) →
    4 * (ts₁ ++ ts₂).length + X.rank ≤ n → ∃ c s', parse m es X n s = .ok (c, s') ∧ Spells m es c t ∧ View m es s' ts₂ := by
  induction h with
  | @line ts t k h ih =>
    intro ts₂ s n hts₂ hv hn
    change _ + 4 ≤ n at hn
    obtain ⟨n, rfl⟩ : ∃ j, n = j + 1 := ⟨n - 1, by omega⟩
    rw [List.append_assoc] at hv hn
    obtain ⟨c, s₁, hpipe, hc, hv₁⟩ := ih (hts₂.backs (by decide) k) hv (by change _ + 3 ≤ n; omega)
    change parsepipe m es n s = _ at hpipe
    simp only [List.length_append, List.length_replicate] at hn
    obtain ⟨c', s₂, hbacks, hc', hv₂⟩ := parsebacks_eq k hv₁ (hts₂.head?_ne (by decide)) hc (show k < n by omega)
    obtain ⟨s₃, hv₃, hpeek⟩ := hv₂.peek_false .semi ';'.toUInt8 (hts₂.head?_ne (by decide)) rfl (by decide)
    refine ⟨c', s₃, ?_, hc', hv₃⟩
    change parseline m es (n + 1) s = _
    simp only [parseline, hpipe, ok_bind, hbacks, hpeek]
  | @list ts t ts' t' k h h' ih ih' =>
    intro ts₂ s n hts₂ hv hn
    change _ + 4 ≤ n at hn
    obtain ⟨n, rfl⟩ : ∃ j, n = j + 1 := ⟨n - 1, by omega⟩
    have hlist : ts ++ (List.replicate k .amp ++ .semi :: ts') ++ ts₂ =
      ts ++ (List.replicate k .amp ++ .semi :: (ts' ++ ts₂)) := by simp
    rw [hlist] at hv hn
    have hfollow : Follow .pipe (.semi :: (ts' ++ ts₂)) := follow_cons (by decide)
    obtain ⟨c, s₁, hpipe, hc, hv₁⟩ := ih (hfollow.backs (by decide) k) hv (by change _ + 3 ≤ n; omega)
    change parsepipe m es n s = _ at hpipe
    simp only [List.length_append, List.length_replicate, List.length_cons] at hn
    obtain ⟨c', s₂, hbacks, hc', hv₂⟩ := parsebacks_eq k hv₁ (by simp) hc (show k < n by omega)
    obtain ⟨s₃, hv₃, hpeek⟩ := hv₂.peek_true ';'.toUInt8 rfl (by decide)
    obtain ⟨c₂, s₄, hline, hc₂, hv₄⟩ := ih' hts₂ hv₃.gettoken_cons.2.1 (by change _ + 4 ≤ n; rw [List.length_append]; omega)
    change parseline m es n _ = _ at hline
    refine ⟨.list c' c₂, s₄, ?_, (hc'.pair hc₂).2, hv₄⟩
    change parseline m es (n + 1) s = _
    simp only [parseline, hpipe, ok_bind, hbacks, hpeek, hline]
  | @exec ts t h ih =>
    intro ts₂ s n hts₂ hv hn
    change _ + 3 ≤ n at hn
    obtain ⟨n, rfl⟩ : ∃ j, n = j + 1 := ⟨n - 1, by omega⟩
    obtain ⟨c, s₁, hexec, hc, hv₁⟩ := ih (hts₂.weaken (by decide)) hv (by change _ + 2 ≤ n; omega)
    change parseexec m es n s = _ at hexec
    obtain ⟨s₂, hv₂, hpeek⟩ := hv₁.peek_false .bar '|'.toUInt8 (hts₂.head?_ne (by decide)) rfl (by decide)
    refine ⟨c, s₂, ?_, hc, hv₂⟩
    change parsepipe m es (n + 1) s = _
    simp only [parsepipe, hexec, ok_bind, hpeek]
  | @pipe ts t ts' t' h h' ih ih' =>
    intro ts₂ s n hts₂ hv hn
    change _ + 3 ≤ n at hn
    obtain ⟨n, rfl⟩ : ∃ j, n = j + 1 := ⟨n - 1, by omega⟩
    rw [List.append_assoc, List.cons_append] at hv hn
    obtain ⟨c, s₁, hexec, hc, hv₁⟩ := ih (follow_cons (by decide)) hv (by change _ + 2 ≤ n; omega)
    change parseexec m es n s = _ at hexec
    simp only [List.length_append, List.length_cons] at hn
    obtain ⟨s₂, hv₂, hpeek⟩ := hv₁.peek_true '|'.toUInt8 rfl (by decide)
    obtain ⟨c₂, s₃, hpipe, hc₂, hv₃⟩ := ih' hts₂ hv₂.gettoken_cons.2.1 (by change _ + 3 ≤ n; rw [List.length_append]; omega)
    change parsepipe m es n _ = _ at hpipe
    refine ⟨.pipe c c₂, s₃, ?_, (hc.pair hc₂).1, hv₃⟩
    change parsepipe m es (n + 1) s = _
    simp only [parsepipe, hexec, ok_bind, hpeek, hpipe]
  | @block ts t rs h ih =>
    intro ts₂ s n hts₂ hv hn
    change _ + 2 ≤ n at hn
    obtain ⟨n, rfl⟩ : ∃ j, n = j + 2 := ⟨n - 2, by omega⟩
    have hlist : .lparen :: (ts ++ .rparen :: redirTokens rs) ++ ts₂ =
      .lparen :: (ts ++ .rparen :: (redirTokens rs ++ ts₂)) := by simp
    rw [hlist] at hv hn
    obtain ⟨s₁, hv₁, hpeek₁⟩ := hv.peek_true '('.toUInt8 rfl (by decide)
    obtain ⟨s₂, hv₂, hpeek₂⟩ := hv₁.peek_true '('.toUInt8 rfl (by decide)
    rw [List.length_cons] at hn
    obtain ⟨c, s₃, hline, hc, hv₃⟩ := ih (follow_cons (by decide)) hv₂.gettoken_cons.2.1 (by change _ + 4 ≤ n; omega)
    change parseline m es n _ = _ at hline
    obtain ⟨s₄, hv₄, hpeek₃⟩ := hv₃.peek_true ')'.toUInt8 rfl (by decide)
    simp only [List.length_append, List.length_cons, length_redirTokens] at hn
    obtain ⟨c', s₅, hredirs, hc', hv₅⟩ := parseredirs_eq rs hv₄.gettoken_cons.2.1 hts₂.noRedir hc (show rs.length < n by omega)
    refine ⟨c', s₅, ?_, hc', hv₅⟩
    change parseexec m es (n + 2) s = _
    simp only [parseexec, hpeek₁, parseblock, hpeek₂, hline, ok_bind, hpeek₃, hredirs]
  | simple rs items hitems =>
    intro ts₂ s n hts₂ hv hn
    change _ + 2 ≤ n at hn
    obtain ⟨n, rfl⟩ : ∃ j, n = j + 1 := ⟨n - 1, by omega⟩
    rw [List.append_assoc] at hv hn
    have hopen : (redirTokens rs ++ (itemTokens items ++ ts₂)).head? ≠ some .lparen := by
      cases rs with
      | cons r rs =>
        obtain ⟨op, w⟩ := r
        cases op <;> simp [redirTokens, RedirOp.token]
      | nil =>
        cases items with
        | cons i items => simp [redirTokens, itemTokens]
        | nil => exact hts₂.head?_ne (by decide)
    obtain ⟨s₁, hv₁, hpeek⟩ := hv.peek_false .lparen '('.toUInt8 hopen rfl (by decide)
    simp only [List.length_append, length_redirTokens] at hn
    obtain ⟨c, s₂, hredirs, hc, hv₂⟩ := parseredirs_eq rs hv₁ (noRedir_items items hts₂) spells_exec
      (show rs.length < n by omega)
    have htree : wrap rs (simpleTree [] []) = simpleTree rs [] := by simp [simpleTree, wrap]
    rw [htree] at hc
    obtain ⟨c', s₃, hargs, hc', hv₃⟩ := parseargs_eq items hv₂ hts₂ hc (by simpa using hitems)
      (show (itemTokens items).length < n by omega)
    refine ⟨c', s₃, ?_, hc', hv₃⟩
    change parseexec m es (n + 1) s = _
    rw [parseexec, hpeek]
    simp only [hredirs, ok_bind]
    exact hargs

end Laboratorio.Shell
