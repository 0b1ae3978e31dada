import Laboratorio.Shell.Parsing

/-!
`parsecmd` on a line in memory: it accepts the lines of the grammar, and leaves the words as strings.
-/

namespace Laboratorio.Shell

variable {m m' : Bytes} {es s : ℕ} {c : Cmd Span} {t : Cmd (List UInt8)}

def IsString (m : Bytes) : ℕ → List UInt8 → Prop
  | s, [] => m s = 0
  | s, c :: w => m s = c ∧ c ≠ 0 ∧ IsString m (s + 1) w

theorem strlen_eq {n : ℕ} {line : List UInt8} (h : IsString m s line) (hn : line.length < n) :
    strlen m n s = .ok line.length := by
  induction line generalizing s n with
  | nil =>
    obtain ⟨n, rfl⟩ : ∃ j, n = j + 1 := ⟨n - 1, by omega⟩
    exact if_pos h
  | cons c line ih =>
    obtain ⟨n, rfl⟩ : ∃ j, n = j + 1 := ⟨n - 1, by omega⟩
    obtain ⟨rfl, hc, hline⟩ := h
    rw [strlen, if_neg hc, ih hline (by simpa using hn)]
    rfl

theorem view_of_isString {line : List UInt8} (h : IsString m s line) : View m (s + line.length) s (tokens line) := by
  have hchars : chars m s (s + line.length) = line ∧ m (s + line.length) = 0 ∧ ∀ x, s ≤ x → x < s + line.length → m x ≠ 0 := by
    induction line generalizing s with
    | nil => exact ⟨chars_of_le (Nat.le_refl _), h, fun x h1 h2 => by simp only [List.length_nil] at h2; omega⟩
    | cons c line ih =>
      obtain ⟨rfl, hc, hline⟩ := h
      obtain ⟨h1, h2, h3⟩ := ih hline
      rw [Nat.add_right_comm] at h1 h2 h3
      refine ⟨?_, h2, fun x hx hx' => ?_⟩
      · rw [chars_of_lt (by rw [List.length_cons]; omega)]
        exact congrArg _ h1
      · rcases Nat.eq_or_lt_of_le hx with rfl | hlt
        · exact hc
        · exact h3 x hlt hx'
  obtain ⟨h1, h2, h3⟩ := hchars
  exact ⟨Nat.le_add_right _ _, h2, h3, by rw [h1]⟩

theorem isString_chars {q eq : ℕ} (hle : q ≤ eq) (hmem : ∀ x, q ≤ x → x < eq → m' x = m x ∧ m x ≠ 0) (hend : m' eq = 0) :
    IsString m' q (chars m q eq) := by
  obtain ⟨k, rfl⟩ := Nat.exists_eq_add_of_le hle
  clear hle
  induction k generalizing q with
  | zero =>
    rw [Nat.add_zero] at hend ⊢
    rw [chars_of_le (Nat.le_refl _)]
    exact hend
  | succ k ih =>
    rw [chars_of_lt (by omega)]
    obtain ⟨h1, h2⟩ := hmem q (Nat.le_refl _) (by omega)
    rw [← Nat.add_assoc, Nat.add_right_comm] at hmem hend ⊢
    exact ⟨h1, h2, ih (fun x hx hx' => hmem x (by omega) hx') hend⟩

structure Nulled (as : List Span) (m m' : Bytes) : Prop where
  at_end : ∀ a ∈ as, m' a.2 = 0
  other : ∀ x, (∀ a ∈ as, a.2 ≠ x) → m' x = m x

theorem nulled_single (a : Span) : Nulled [a] m (setNul m a.2) where
  at_end b hb := by rw [List.mem_singleton.mp hb, setNul, Function.update_self]
  other x hx := by rw [setNul, Function.update_of_ne (hx a (by simp)).symm]

theorem Nulled.append {as bs : List Span} {m'' : Bytes} (h : Nulled as m m') (h' : Nulled bs m' m'') :
    Nulled (as ++ bs) m m'' where
  at_end a ha := by
    by_cases hb : ∃ b ∈ bs, b.2 = a.2
    · obtain ⟨b, hb, he⟩ := hb
      rw [← he, h'.at_end b hb]
    · rw [h'.other a.2 fun b hb' he => hb ⟨b, hb', he⟩]
      rcases List.mem_append.mp ha with ha | ha
      · exact h.at_end a ha
      · exact absurd ⟨a, ha, rfl⟩ hb
  other x hx := by
    rw [h'.other x fun b hb => hx b (List.mem_append_right _ hb), h.other x fun a ha => hx a (List.mem_append_left _ ha)]

theorem nulled_nulterminate (c : Cmd Span) (m : Bytes) : Nulled c.strings m (nulterminate c m) := by
  induction c generalizing m with
  | exec argv =>
    rw [Cmd.strings, nulterminate]
    induction argv generalizing m with
    | nil => exact ⟨by simp, fun _ _ => rfl⟩
    | cons a argv ih => exact (nulled_single a).append (ih _)
  | redir cmd file mode fd ih => exact (ih m).append (nulled_single file)
  | pipe left right ihl ihr | list left right ihl ihr => exact (ihl m).append (ihr _)
  | back cmd ih => exact ih m

def Reads (m : Bytes) (c : Cmd Span) (t : Cmd (List UInt8)) : Prop := ∃ f, c.map f = t ∧ ∀ a ∈ c.strings, IsString m a.1 (f a)

theorem Spells.reads (hc : Spells m es c t) : Reads (nulterminate c m) c t := by
  refine ⟨text m, hc.map_eq, fun a ha => ?_⟩
  have hspan := hc.words a ha
  apply isString_chars hspan.le
  · intro x hx hx'
    refine ⟨(nulled_nulterminate c m).other x ?_, hspan.nonzero x hx hx'⟩
    rintro b hb rfl
    have hword := hspan.isWord _ hx hx'
    have := hspan.end_le
    exact (hc.words b hb).end_not (by omega) hword
  · exact (nulled_nulterminate c m).at_end a ha

theorem View.peek_end (h : View m es s []) (toks : List UInt8) : (Shell.peek m es s toks).2 = es := by
  obtain ⟨hv, hq⟩ := h.skip
  rcases hv.cases hq with ⟨he, -⟩ | ⟨-, -, -, ts', hts, -⟩ | ⟨-, -, t, ts', -, hts, -⟩ | ⟨-, -, ts', hts, -⟩
  · exact he
  · cases hts
  · cases hts
  · cases hts

section parsecmd

variable {line : List UInt8} {n : ℕ} (hline : IsString m s line) (hn : 4 * line.length + 4 ≤ n)
include hline hn

theorem parsecmd_ends : Ends (parsecmd m n s) fun r => ∃ t, Derives .line (tokens line) t ∧ Reads r.2 r.1 t := by
  have hv := view_of_isString hline
  have hlen := length_tokens_le line
  simp only [parsecmd, strlen_eq hline (show line.length < n by omega), ends_bind, ends_ok]
  apply ((parse_ends n hv).1 (by omega)).mono
  rintro ⟨c, s₁⟩ ⟨ts₁, ts₂, t, hts, hder, hc, hv₁⟩
  obtain ⟨s₂, hv₂, hpeek⟩ := hv₁.peek (show ∀ c ∈ [], c ∈ symbols by simp)
  simp only [hpeek]
  by_cases hs : s₂ = s + line.length
  · have hnil : ts₂ = [] := by
      rw [← hv₂.tokens_eq, hs, chars_of_le (Nat.le_refl _), tokens]
    rw [if_neg (not_not_intro hs)]
    rw [hnil, List.append_nil] at hts
    exact ⟨t, hts ▸ hder, hc.reads⟩
  · rw [if_pos hs]
    exact ends_panic

theorem parsecmd_eq (hder : Derives .line (tokens line) t) : ∃ c m', parsecmd m n s = .ok (c, m') ∧ Reads m' c t := by
  have hv := view_of_isString hline
  have hlen := length_tokens_le line
  rw [← List.append_nil (tokens line)] at hv
  obtain ⟨c, s₁, hrun, hc, hv₁⟩ := parse_eq hder (n := n) (by simp [Follow]) hv
    (by rw [List.append_nil]; change _ + 4 ≤ n; omega)
  change parseline m (s + line.length) n s = _ at hrun
  refine ⟨c, nulterminate c m, ?_, hc.reads⟩
  have hend := hv₁.peek_end []
  simp only [parsecmd, strlen_eq hline (show line.length < n by omega), ok_bind, hrun]
  rw [if_neg (not_not_intro hend)]

/-- `parsecmd` comes to an end; it returns a tree just when the line is one of the
grammar, and its strings in memory make up the tree of the derivation. -/
theorem parsecmd_accepts_grammar :
    parsecmd m n s ≠ .error .rounds ∧ ((∃ r, parsecmd m n s = .ok r) ↔ ∃ t, Derives .line (tokens line) t) ∧
    ∀ c m', parsecmd m n s = .ok (c, m') → ∀ t, Derives .line (tokens line) t → Reads m' c t := by
  have hends := parsecmd_ends hline hn
  refine ⟨?_, ⟨?_, ?_⟩, ?_⟩
  · intro h
    rw [h] at hends
    exact hends rfl
  · rintro ⟨r, h⟩
    rw [h] at hends
    obtain ⟨t, hder, -⟩ := hends
    exact ⟨t, hder⟩
  · rintro ⟨t, hder⟩
    obtain ⟨c, m', h, -⟩ := parsecmd_eq hline hn hder
    exact ⟨_, h⟩
  · intro c m' h t hder
    obtain ⟨c₁, m₁, h₁, hreads⟩ := parsecmd_eq hline hn hder
    obtain ⟨rfl, rfl⟩ : c = c₁ ∧ m' = m₁ := by simpa [h] using h₁
    exact hreads

end parsecmd

def sampleLine : List UInt8 := ['(', 'l', 's', ' ', 'a', ';', 'w', 'c', ')', '>', 'b', '|', 'c', ' ', '&'].map Char.toUInt8

def sampleMemory : Bytes := fun x => (sampleLine[x - 100]?).getD 0

theorem isString_sampleMemory : IsString sampleMemory 100 sampleLine := by
  simp only [sampleLine, List.map_cons, List.map_nil, IsString]
  decide

theorem parsecmd_sampleMemory : ∃ r, parsecmd sampleMemory 100 100 = .ok r := by
  have hok : (parsecmd sampleMemory 100 100).isOk = true := by decide +kernel
  cases h : parsecmd sampleMemory 100 100 with
  | ok r => exact ⟨r, rfl⟩
  | error e =>
    rw [h] at hok
    cases hok

theorem parsecmd_accepts_grammar_sample : ∃ t, Derives .line (tokens sampleLine) t :=
  (parsecmd_accepts_grammar isString_sampleMemory (by decide)).2.1.mp parsecmd_sampleMemory

end Laboratorio.Shell
