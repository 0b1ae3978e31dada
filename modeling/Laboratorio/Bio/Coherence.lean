import Laboratorio.Bio.Cache

namespace Laboratorio.Bio

open Function Runs Finset

variable {P D : Type} [DecidableEq P] [Fintype P] {disk : Ident → D} {s s' : State P D} {p : P} {b : Buf} {l : Pc}

namespace Pc

def pins : Pc → Buf → ℕ
  | .lock b' _, b | .drop b', b => if b' = b then 1 else 0
  | _, _ => 0

def wants : Pc → Option (Buf × Ident)
  | .lock b id | .fill b id | .ret b id => some (b, id)
  | _ => none

def holds : Pc → Option Buf
  | .fill b _ | .ret b _ | .write b => some b
  | _ => none

end Pc

def held (o : Option P) (p : P) : ℕ := if o = some p then 1 else 0

namespace State

def uses (s : State P D) (b : Buf) (p : P) : ℕ := (s.pc p).pins b + held (s.lock b) p

def latest (s : State P D) (disk : Ident → D) (id : Ident) : D := (s.stored id).getD (disk id)

def Blank (s : State P D) (b : Buf) : Prop := s.refcnt b = 0 ∧ s.valid b = false ∧ s.dirty b = false

def Shadows (s : State P D) (b b' : Buf) : Prop := s.ident b = s.ident b' → s.ident b = (0, 0) ∧ s.Blank b'

end State

structure Inv (disk : Ident → D) (s : State P D) : Prop where
  lists : ∃ l, s.links.Lists l ∧ (∀ b, b ∈ l) ∧ l.Pairwise s.Shadows
  refs : ∀ b, s.refcnt b = ∑ p, s.uses b p
  wants : ∀ p b id, (s.pc p).wants = some (b, id) → s.ident b = id
  holds : ∀ p b, (s.pc p).holds = some b → s.lock b = some p
  filled : ∀ p b, s.lock b = some p → s.valid b = true ∨ ∃ id, s.pc p = .fill b id
  dirty : ∀ b, s.dirty b = true → s.valid b = true
  unsaved : ∀ b, s.unsaved b = true → s.valid b = true ∧ s.lock b ≠ none
  fresh : ∀ b, s.valid b = true → s.data b = s.latest disk (s.ident b)
  clean : ∀ id, (∀ b, s.ident b = id → s.dirty b = false ∧ s.unsaved b = false) → s.disk id = s.latest disk id
  intact : ∀ id, s.stored id = none → s.disk id = disk id

theorem sum_add_of_eq {f g : P → ℕ} (p : P) (h : ∀ q, q ≠ p → f q = g q) : ∑ q, f q + g p = ∑ q, g q + f p := by
  have hf := add_sum_erase univ f (mem_univ p)
  have hg := add_sum_erase univ g (mem_univ p)
  have hrest : ∑ q ∈ univ.erase p, f q = ∑ q ∈ univ.erase p, g q := sum_congr rfl fun q hq => h q (ne_of_mem_erase hq)
  omega

namespace Inv

variable {id : Ident} {b' : Buf}

section

variable (h : Inv disk s)

include h

theorem uses_le (b : Buf) (p : P) : s.uses b p ≤ s.refcnt b := by
  rw [h.refs b]
  exact single_le_sum (fun q _ => Nat.zero_le (s.uses b q)) (mem_univ p)

theorem refcnt_pos_of_lock (hb : s.lock b = some p) : 0 < s.refcnt b := by
  have := h.uses_le b p
  simp only [State.uses, held, if_pos hb] at this
  omega

theorem refcnt_pos_of_pins (hb : 0 < (s.pc p).pins b) : 0 < s.refcnt b := by
  have := h.uses_le b p
  simp only [State.uses] at this
  omega

theorem refcnt_pos_of_wants (hb : (s.pc p).wants = some (b, id)) : 0 < s.refcnt b := by
  cases hpc : s.pc p <;> simp only [hpc, Pc.wants, Option.some.injEq, Prod.mk.injEq, reduceCtorEq] at hb
  case lock => exact h.refcnt_pos_of_pins (p := p) (by simp [hpc, Pc.pins, hb.1])
  case fill | ret => exact h.refcnt_pos_of_lock (h.holds p b (by simp [hpc, Pc.holds, hb.1]))

theorem shadows_or_shadows (hne : b ≠ b') : s.Shadows b b' ∨ s.Shadows b' b := by
  obtain ⟨l, _, hall, hpair⟩ := h.lists
  rw [List.pairwise_iff_getElem] at hpair
  obtain ⟨i, hi, rfl⟩ := List.getElem_of_mem (hall b)
  obtain ⟨j, hj, rfl⟩ := List.getElem_of_mem (hall b')
  rcases Nat.lt_trichotomy i j with hij | rfl | hij
  · exact Or.inl (hpair i j hi hj hij)
  · exact absurd rfl hne
  · exact Or.inr (hpair j i hj hi hij)

theorem blank_of_used (hb : 0 < s.refcnt b) (hne : b ≠ b') (hid : s.ident b' = s.ident b) : s.Blank b' := by
  rcases h.shadows_or_shadows hne with hs | hs
  · exact (hs hid.symm).2
  · exact absurd (hs hid).2.1 hb.ne'

theorem lists_of_blank (s' : State P D) (hl : s'.links = s.links) (hid : s'.ident = s.ident)
    (hb : ∀ b, s.Blank b → s'.Blank b) : ∃ l, s'.links.Lists l ∧ (∀ b, b ∈ l) ∧ l.Pairwise s'.Shadows := by
  obtain ⟨l, hlists, hall, hpair⟩ := h.lists
  refine ⟨l, hl ▸ hlists, hall, hpair.imp fun {x y} hxy he => ?_⟩
  rw [hid] at he ⊢
  exact ⟨(hxy he).1, hb y (hxy he).2⟩

theorem refs_of_step (hother : ∀ b q, q ≠ p → s'.uses b q = s.uses b q)
    (hsame : ∀ b, s'.refcnt b + s.uses b p = s.refcnt b + s'.uses b p) (b : Buf) : s'.refcnt b = ∑ q, s'.uses b q := by
  have hsum := sum_add_of_eq p (hother b)
  have := hsame b
  have := h.refs b
  omega

end

section

variable (h : Inv disk s)

include h

theorem moves {lock : Buf → Option P} {refcnt : Buf → ℕ}
    (hlists : ∃ l, s.links.Lists l ∧ (∀ b, b ∈ l) ∧ l.Pairwise (State.Shadows { s with refcnt := refcnt }))
    (hlock : ∀ b q, q ≠ p → (lock b = some q ↔ s.lock b = some q))
    (hrefs : ∀ b, refcnt b + s.uses b p = s.refcnt b + (l.pins b + held (lock b) p)) (hwants : ∀ b id,
      l.wants = some (b, id) → s.ident b = id)
    (hholds : ∀ b, l.holds = some b → lock b = some p) (hfill : ∀ b, lock b = some p → s.valid b = true ∨ ∃ id, l = .fill b id)
    (hunsaved : ∀ b, s.unsaved b = true → lock b ≠ none) : Inv disk { s.goto p l with lock := lock, refcnt := refcnt } := by
  refine ⟨hlists, h.refs_of_step (p := p) (fun b q hq => ?_) (fun b => ?_), fun q b id hq => ?_, fun q b hq => ?_,
    fun q b hq => ?_, h.dirty, fun b hb => ⟨(h.unsaved b hb).1, hunsaved b hb⟩, h.fresh, h.clean, h.intact⟩
  · simp [State.uses, State.goto, hq, held, hlock b q hq]
  · simpa [State.uses, State.goto] using hrefs b
  · by_cases hqp : q = p
    · exact hwants b id (by simpa [State.goto, hqp] using hq)
    · exact h.wants q b id (by simpa [State.goto, hqp] using hq)
  · by_cases hqp : q = p
    · rw [hqp]
      exact hholds b (by simpa [State.goto, hqp] using hq)
    · exact (hlock b q hqp).mpr (h.holds q b (by simpa [State.goto, hqp] using hq))
  · by_cases hqp : q = p
    · subst hqp
      exact (hfill b hq).imp_right fun ⟨id, hid⟩ => ⟨id, by simp [State.goto, hid]⟩
    · exact (h.filled q b ((hlock b q hqp).mp hq)).imp_right fun ⟨id, hid⟩ => ⟨id, by simpa [State.goto, hqp] using hid⟩

theorem goto (hpins : l.pins = (s.pc p).pins) (hwants : ∀ b id, l.wants = some (b, id) → s.ident b = id)
    (hholds : ∀ b, l.holds = some b → s.lock b = some p) (hfill : ∀ b id, s.pc p = .fill b id → s.valid b = true) :
    Inv disk (s.goto p l) := by
  refine h.moves h.lists (fun _ _ _ => Iff.rfl) (fun b => ?_) hwants hholds (fun b hb => Or.inl ?_) fun b hb =>
    (h.unsaved b hb).2
  · simp [State.uses, hpins]
  · rcases h.filled p b hb with hv | ⟨id, hid⟩
    · exact hv
    · exact hfill b id hid

theorem valid_of_mine (hm : s.mine p b) : s.valid b = true := by
  rcases h.filled p b hm.2 with hv | ⟨id, hid⟩
  · exact hv
  · simp [hm.1] at hid

theorem ident_ne (hb : 0 < s.refcnt b) (hne : b' ≠ b) (hv : s.valid b' = true) : s.ident b' ≠ s.ident b := by
  intro hid
  have := (h.blank_of_used hb hne.symm hid).2.1
  simp [hv] at this

theorem modify (hm : s.mine p b) (x : D) :
    Inv disk { s with
      data := update s.data b x, unsaved := update s.unsaved b true, stored := update s.stored (s.ident b) (some x) } := by
  refine ⟨h.lists, h.refs, h.wants, h.holds, h.filled, h.dirty, fun b' hb' => ?_, fun b' hb' => ?_, fun id hid => ?_,
    fun id hid => ?_⟩
  · by_cases hbb : b' = b
    · subst hbb
      exact ⟨h.valid_of_mine hm, by simp [hm.2]⟩
    · exact h.unsaved b' (by simpa [hbb] using hb')
  · by_cases hbb : b' = b
    · simp [hbb, State.latest]
    · have hne := h.ident_ne (h.refcnt_pos_of_lock hm.2) hbb hb'
      simpa [hbb, hne, State.latest] using h.fresh b' hb'
  · have hne : id ≠ s.ident b := by
      rintro rfl
      simpa using (hid b rfl).2
    have hc := h.clean id fun b' hb' => by
      have hbb : b' ≠ b := by
        rintro rfl
        exact hne hb'.symm
      simpa [hbb] using hid b' hb'
    simpa [State.latest, hne] using hc
  · have hne : id ≠ s.ident b := by
      rintro rfl
      simp at hid
    exact h.intact id (by simpa [hne] using hid)

theorem mark (hb : 0 < s.refcnt b) (hv : s.valid b = true) {u : Buf → Bool} (hu : ∀ b', u b' = true → s.unsaved b' = true)
    (hother : ∀ b', b' ≠ b → u b' = s.unsaved b') : Inv disk { s with dirty := update s.dirty b true, unsaved := u } := by
  refine ⟨h.lists_of_blank _ rfl rfl fun b' hblank => ?_, h.refs, h.wants, h.holds, h.filled, fun b' hb' => ?_,
    fun b' hb' => h.unsaved b' (hu b' hb'), h.fresh, fun id hid => h.clean id fun b' hb' => ?_, h.intact⟩
  · have hbb : b' ≠ b := by
      rintro rfl
      exact hb.ne' hblank.1
    exact ⟨hblank.1, hblank.2.1, by simpa [hbb] using hblank.2.2⟩
  · by_cases hbb : b' = b
    · rw [hbb, hv]
    · exact h.dirty b' (by simpa [hbb] using hb')
  · have hbb : b' ≠ b := by
      rintro rfl
      simpa using (hid b' hb').1
    simpa [hbb, hother b' hbb] using hid b' hb'

theorem logWrite (hm : s.mine p b) :
    Inv disk { s with dirty := update s.dirty b true, unsaved := update s.unsaved b false } := by
  refine h.mark (h.refcnt_pos_of_lock hm.2) (h.valid_of_mine hm) (fun b' hb' => ?_) (fun b' hbb => by simp [hbb])
  by_cases hbb : b' = b
  · simp [hbb] at hb'
  · simpa [hbb] using hb'

theorem bwrite (hm : s.mine p b) : Inv disk { s.goto p (.write b) with dirty := update s.dirty b true } := by
  have hmark := h.mark (h.refcnt_pos_of_lock hm.2) (h.valid_of_mine hm) (fun _ hu => hu) (fun _ _ => rfl)
  refine hmark.goto ?_ (by simp [Pc.wants]) ?_ ?_
  · rw [hm.1]
    rfl
  · rintro b' hb'
    obtain rfl : b = b' := by simpa [Pc.holds] using hb'
    exact hm.2
  · intro b' id hid
    have : s.pc p = .fill b' id := hid
    simp [hm.1] at this

theorem brelse (hm : s.mine p b) (hu : s.unsaved b = false) :
    Inv disk { s.goto p (.drop b) with lock := update s.lock b none } := by
  refine h.moves h.lists (fun b' q hq => ?_) (fun b' => ?_) (by simp [Pc.wants]) (by simp [Pc.holds]) (fun b' hb' => ?_)
    fun b' hb' => ?_
  · by_cases hbb : b' = b
    · simp [hbb, hm.2, Ne.symm hq]
    · simp [hbb]
  · by_cases hbb : b' = b
    · simp [State.uses, State.goto, hbb, hm.1, hm.2, Pc.pins, held]
    · simp [State.uses, State.goto, hbb, hm.1, Pc.pins, Ne.symm hbb]
  · have hbb : b' ≠ b := by
      rintro rfl
      simp at hb'
    exact Or.inl (h.valid_of_mine ⟨hm.1, by simpa [hbb] using hb'⟩)
  · have hbb : b' ≠ b := by
      rintro rfl
      simp [hu] at hb'
    simpa [hbb] using (h.unsaved b' hb').2

theorem locked (hpc : s.pc p = .lock b id) (hfree : s.lock b = none) :
    Inv disk { s.goto p (.fill b id) with lock := update s.lock b (some p) } := by
  refine h.moves h.lists (fun b' q hq => ?_) (fun b' => ?_) (fun b' id' hw => h.wants p b' id' (by rw [hpc]; exact hw))
    (fun b' hb' => ?_) (fun b' hb' => ?_) fun b' hb' => ?_
  · by_cases hbb : b' = b
    · simp [hbb, hfree, Ne.symm hq]
    · simp [hbb]
  · by_cases hbb : b' = b
    · simp [State.uses, State.goto, hbb, hpc, hfree, Pc.pins, held]
    · simp [State.uses, State.goto, hbb, hpc, Pc.pins, Ne.symm hbb]
  · obtain rfl : b = b' := by simpa [Pc.holds] using hb'
    simp
  · by_cases hbb : b' = b
    · exact Or.inr ⟨id, by rw [hbb]⟩
    · refine Or.inl ((h.filled p b' (by simpa [hbb] using hb')).resolve_right ?_)
      simp [hpc]
  · by_cases hbb : b' = b
    · simp [hbb]
    · simpa [hbb] using (h.unsaved b' hb').2

theorem reads (hb : 0 < s.refcnt b) (hv : s.valid b = false) :
    Inv disk { s with data := update s.data b (s.disk (s.ident b)), valid := update s.valid b true } := by
  have hdirty : s.dirty b = false := by
    by_contra hd
    simp [h.dirty b (by simpa using hd)] at hv
  have hunsaved : s.unsaved b = false := by
    by_contra hu
    simp [(h.unsaved b (by simpa using hu)).1] at hv
  have hmono : ∀ {b'}, s.valid b' = true → update s.valid b true b' = true := by
    intro b' hv'
    by_cases hbb : b' = b
    · simp [hbb]
    · simpa [hbb] using hv'
  refine ⟨h.lists_of_blank _ rfl rfl fun b' hblank => ?_, h.refs, h.wants, h.holds,
    fun q b' hq => (h.filled q b' hq).imp_left hmono, fun b' hb' => hmono (h.dirty b' hb'),
    fun b' hb' => ⟨hmono (h.unsaved b' hb').1, (h.unsaved b' hb').2⟩, fun b' hb' => ?_, h.clean, h.intact⟩
  · have hbb : b' ≠ b := by
      rintro rfl
      exact hb.ne' hblank.1
    exact ⟨hblank.1, by simpa [hbb] using hblank.2.1, hblank.2.2⟩
  by_cases hbb : b' = b
  · subst hbb
    have hc := h.clean (s.ident b') fun c hc => by
      by_cases hcb : c = b'
      · rw [hcb]
        exact ⟨hdirty, hunsaved⟩
      · have hblank := h.blank_of_used hb (Ne.symm hcb) hc
        refine ⟨hblank.2.2, ?_⟩
        by_contra hu
        have := (h.unsaved c (by simpa using hu)).1
        simp [hblank.2.1] at this
    simpa [State.latest] using hc
  · simpa [hbb, State.latest] using h.fresh b' (by simpa [hbb] using hb')

theorem writes (hv : s.valid b = true) :
    Inv disk { s with
      disk := update s.disk (s.ident b) (s.data b), dirty := update s.dirty b false, unsaved := update s.unsaved b false } := by
  have hmono : ∀ {f : Buf → Bool} {b'}, update f b false b' = true → f b' = true := by
    intro f b' hb'
    by_cases hbb : b' = b
    · simp [hbb] at hb'
    · simpa [hbb] using hb'
  refine ⟨h.lists_of_blank _ rfl rfl fun b' hblank => ⟨hblank.1, hblank.2.1, ?_⟩, h.refs, h.wants, h.holds, h.filled,
    fun b' hb' => h.dirty b' (hmono hb'), fun b' hb' => h.unsaved b' (hmono hb'), h.fresh, fun id hid => ?_, fun id hid => ?_⟩
  · by_cases hbb : b' = b
    · simp [hbb]
    · simpa [hbb] using hblank.2.2
  · by_cases hb : id = s.ident b
    · subst hb
      simpa [State.latest] using h.fresh b hv
    · have hc := h.clean id fun b' hb' => by
        have hbb : b' ≠ b := by
          rintro rfl
          exact hb hb'.symm
        simpa [hbb] using hid b' hb'
      simpa [State.latest, hb] using hc
  · by_cases hb : id = s.ident b
    · subst hb
      have hf := h.fresh b hv
      rw [State.latest, show s.stored (s.ident b) = none from hid] at hf
      simpa using hf
    · simpa [hb] using h.intact id hid

end

theorem length_of_all {l : List Buf} (hn : l.Nodup) (hall : ∀ b, b ∈ l) : l.length = nbuf := by
  have hperm : l.Perm (List.finRange nbuf) := (List.perm_ext_iff_of_nodup hn (List.nodup_finRange nbuf)).mpr (by simp [hall])
  rw [hperm.length_eq, List.length_finRange]

theorem dropped (h : Inv disk s) (hpc : s.pc p = .drop b) :
    Inv disk { s.goto p .run with refcnt := update s.refcnt b (s.refcnt b - 1) } := by
  have hpos : 0 < s.refcnt b := h.refcnt_pos_of_pins (p := p) (by simp [hpc, Pc.pins])
  refine h.moves ?_ (fun _ _ _ => Iff.rfl) (fun b' => ?_) (by simp [Pc.wants]) (by simp [Pc.holds])
    (fun b' hb' => Or.inl ((h.filled p b' hb').resolve_right (by simp [hpc]))) fun b' hb' => (h.unsaved b' hb').2
  · refine h.lists_of_blank { s with refcnt := update s.refcnt b (s.refcnt b - 1) } rfl rfl fun b' hblank => ⟨?_, hblank.2⟩
    have hbb : b' ≠ b := by
      rintro rfl
      exact hpos.ne' hblank.1
    simpa [hbb] using hblank.1
  · by_cases hbb : b' = b
    · simp [State.uses, State.goto, hbb, hpc, Pc.pins]
      omega
    · simp [State.uses, State.goto, hbb, hpc, Pc.pins, Ne.symm hbb]

theorem moveFront (h : Inv disk s) (hfirst : ∀ b', s.Shadows b' b → s.ident b' ≠ s.ident b) : Inv disk (s.moveFront b) := by
  refine ⟨?_, h.refs, h.wants, h.holds, h.filled, h.dirty, h.unsaved, h.fresh, h.clean, h.intact⟩
  obtain ⟨l, hl, hall, hpair⟩ := h.lists
  obtain ⟨l₁, l₂, rfl⟩ := List.append_of_mem (hall b)
  have hb : b ∉ l₁ ++ l₂ := (List.nodup_middle.mp hl.nodup).notMem
  rw [List.pairwise_append, List.pairwise_cons] at hpair
  obtain ⟨h₁, ⟨hb₂, h₂⟩, h₁₂⟩ := hpair
  refine ⟨b :: (l₁ ++ l₂), hl.remove.insert hb, fun b' => ?_, List.pairwise_cons.mpr ⟨fun b' hb' hid => ?_, ?_⟩⟩
  · have := hall b'
    simp only [List.mem_append, List.mem_cons] at this ⊢
    tauto
  · rcases List.mem_append.mp hb' with hb' | hb'
    · exact absurd hid.symm (hfirst b' (h₁₂ b' hb' b (by simp)))
    · exact hb₂ b' hb' hid
  · exact List.pairwise_append.mpr ⟨h₁, h₂, fun x hx y hy => h₁₂ x hx y (List.mem_cons_of_mem _ hy)⟩

theorem drop (h : Inv disk s) (hpc : s.pc p = .drop b) (hs : s.next p (.drop b) = some s') : Inv disk s' := by
  cases hs
  split_ifs
  · have hpos : 0 < s.refcnt b := h.refcnt_pos_of_pins (p := p) (by simp [hpc, Pc.pins])
    have hfront : Inv disk (s.moveFront b) := h.moveFront fun b' hsh hid => hpos.ne' (hsh hid).2.1
    exact hfront.dropped hpc
  · exact h.dropped hpc

omit [DecidableEq P] [Fintype P] in
theorem cached_eq {l : List Buf} (hl : s.links.Lists l) (hall : ∀ b, b ∈ l) (id : Ident) :
    s.cached id = some (l.find? fun b => s.ident b = id) := by
  rw [State.cached, ← length_of_all hl.nodup hall]
  exact hl.seek_next _

omit [DecidableEq P] [Fintype P] in
theorem unused_eq {l : List Buf} (hl : s.links.Lists l) (hall : ∀ b, b ∈ l) :
    s.unused = some (l.reverse.find? fun b => s.refcnt b = 0 ∧ s.dirty b = false) := by
  rw [State.unused, ← length_of_all hl.nodup hall]
  exact hl.seek_prev _

section

variable (h : Inv disk s)

include h

theorem takes (hpc : s.pc p = .run) (hid : s.ident b = id)
    (hlists : ∃ l, s.links.Lists l ∧ (∀ b, b ∈ l) ∧
    l.Pairwise (State.Shadows { s with refcnt := update s.refcnt b (s.refcnt b + 1) })) :
    Inv disk { s.goto p (.lock b id) with refcnt := update s.refcnt b (s.refcnt b + 1) } := by
  refine h.moves hlists (fun _ _ _ => Iff.rfl) (fun b' => ?_) (fun b' id' hw => ?_) (by simp [Pc.holds])
    (fun b' hb' => Or.inl ((h.filled p b' hb').resolve_right (by simp [hpc]))) fun b' hb' => (h.unsaved b' hb').2
  · by_cases hbb : b' = b
    · simp [State.uses, State.goto, hbb, hpc, Pc.pins]
      omega
    · simp [State.uses, State.goto, hbb, hpc, Pc.pins, Ne.symm hbb]
  · obtain ⟨rfl, rfl⟩ : b = b' ∧ id = id' := by simpa [Pc.wants] using hw
    exact hid

theorem cached (hpc : s.pc p = .run) (hc : s.cached id = some (some b)) :
    Inv disk { s.goto p (.lock b id) with refcnt := update s.refcnt b (s.refcnt b + 1) } := by
  obtain ⟨l, hl, hall, hpair⟩ := h.lists
  rw [cached_eq hl hall, Option.some.injEq, List.find?_eq_some_iff_append] at hc
  obtain ⟨hid, l₁, l₂, rfl, hfirst⟩ := hc
  refine h.takes hpc (by simpa using hid) ⟨l₁ ++ b :: l₂, hl, hall, ?_⟩
  have hkeep : ∀ {x y}, y ≠ b → s.Shadows x y → State.Shadows { s with refcnt := update s.refcnt b (s.refcnt b + 1) } x y := by
    intro x y hy hxy he
    refine ⟨(hxy he).1, ?_, (hxy he).2.2⟩
    simpa [hy] using (hxy he).2.1
  have hmid := List.nodup_middle.mp hl.nodup
  have hne : ∀ {y}, y ∈ l₁ ++ l₂ → y ≠ b := by
    rintro y hy rfl
    exact hmid.notMem hy
  rw [List.pairwise_append, List.pairwise_cons] at hpair ⊢
  obtain ⟨h₁, ⟨hb₂, h₂⟩, h₁₂⟩ := hpair
  refine ⟨h₁.imp_of_mem fun _ hy => hkeep (hne (by simp [hy])), ⟨fun y hy => hkeep (hne (by simp [hy])) (hb₂ y hy),
    h₂.imp_of_mem fun _ hy => hkeep (hne (by simp [hy]))⟩, fun x hx y hy => ?_⟩
  rcases List.mem_cons.mp hy with rfl | hy'
  · intro he
    have hx' := hfirst x hx
    simp only [Bool.not_eq_eq_eq_not, Bool.not_true, decide_eq_false_iff_not] at hx'
    exact absurd (he.trans (by simpa using hid)) hx'
  · exact hkeep (hne (by simp [hy'])) (h₁₂ x hx y hy)

theorem renamed (hid : ∀ b, s.ident b ≠ id) (hb : s.refcnt b = 0) (hd : s.dirty b = false) :
    Inv disk { s with ident := update s.ident b id, valid := update s.valid b false, dirty := update s.dirty b false } := by
  have hlock : s.lock b = none := by
    cases hlock : s.lock b with
    | none => rfl
    | some q => exact absurd hb (h.refcnt_pos_of_lock hlock).ne'
  have hunsaved : s.unsaved b = false := by
    by_contra hu
    exact (h.unsaved b (by simpa using hu)).2 hlock
  have hmono : ∀ {f : Buf → Bool} {b'}, update f b false b' = true → b' ≠ b ∧ f b' = true := by
    intro f b' hb'
    by_cases hbb : b' = b
    · simp [hbb] at hb'
    · exact ⟨hbb, by simpa [hbb] using hb'⟩
  have hvalid : ∀ {b'}, b' ≠ b → s.valid b' = true → update s.valid b false b' = true := by
    intro b' hbb hv
    simpa [hbb] using hv
  refine ⟨?_, h.refs, fun q b' id' hq => ?_, h.holds, fun q b' hq => ?_, fun b' hb' => ?_, fun b' hb' => ?_, fun b' hb' => ?_,
    fun id' hid' => h.clean id' fun b' hb' => ?_, h.intact⟩
  · obtain ⟨l, hl, hall, hpair⟩ := h.lists
    refine ⟨l, hl, hall, (hpair.and hl.nodup).imp fun {x y} hxy he => ?_⟩
    have hx : x ≠ b := by
      rintro rfl
      exact hid y (by simpa [Ne.symm hxy.2] using he.symm)
    have hy : y ≠ b := by
      rintro rfl
      exact hid x (by simpa [hxy.2] using he)
    simpa [State.Blank, hx, hy] using hxy.1 (by simpa [hx, hy] using he)
  · have hbb : b' ≠ b := by
      rintro rfl
      exact absurd hb (h.refcnt_pos_of_wants hq).ne'
    simpa [hbb] using h.wants q b' id' hq
  · have hbb : b' ≠ b := by
      rintro rfl
      exact absurd hb (h.refcnt_pos_of_lock hq).ne'
    exact (h.filled q b' hq).imp_left (hvalid hbb)
  · obtain ⟨hbb, hb'⟩ := hmono hb'
    exact hvalid hbb (h.dirty b' hb')
  · have hbb : b' ≠ b := by
      rintro rfl
      have hb'' : s.unsaved b' = true := hb'
      simp [hunsaved] at hb''
    exact ⟨hvalid hbb (h.unsaved b' hb').1, (h.unsaved b' hb').2⟩
  · obtain ⟨hbb, hb'⟩ := hmono hb'
    simpa [hbb, State.latest] using h.fresh b' hb'
  · by_cases hbb : b' = b
    · rw [hbb]
      exact ⟨hd, hunsaved⟩
    · simpa [hbb] using hid' b' (by simpa [hbb] using hb')

theorem recycled (hpc : s.pc p = .run) (hc : s.cached id = some none) (hu : s.unused = some (some b)) :
    Inv disk { s.goto p (.lock b id) with
      ident := update s.ident b id, valid := update s.valid b false, dirty := update s.dirty b false, refcnt :=
        update s.refcnt b 1 } := by
  obtain ⟨l, hl, hall, _⟩ := h.lists
  rw [cached_eq hl hall, Option.some.injEq, List.find?_eq_none] at hc
  rw [unused_eq hl hall, Option.some.injEq] at hu
  have hid : ∀ b, s.ident b ≠ id := fun b => by simpa using hc b (hall b)
  obtain ⟨hb, hd⟩ : s.refcnt b = 0 ∧ s.dirty b = false := by simpa using List.find?_some hu
  have hr := h.renamed hid hb hd
  have ht := hr.takes hpc (update_self b id s.ident) ?_
  · simpa only [hb, State.goto, Nat.zero_add] using ht
  · obtain ⟨l, hl, hall, hpair⟩ := hr.lists
    refine ⟨l, hl, hall, (hpair.and hl.nodup).imp fun {x y} hxy he => ?_⟩
    have hy : y ≠ b := by
      rintro rfl
      exact hid x (by simpa [hxy.2] using he)
    refine ⟨(hxy.1 he).1, ?_, (hxy.1 he).2.2⟩
    simpa [hy] using (hxy.1 he).2.1

theorem bget (hpc : s.pc p = .run) (hs : s.bget p id = some s') : Inv disk s' := by
  unfold State.bget at hs
  split at hs
  · simp at hs
  · next b hc =>
    cases hs
    exact h.cached hpc hc
  · next hc =>
    split at hs
    · next b hu =>
      cases hs
      exact h.recycled hpc hc hu
    · simp at hs

theorem fill (hpc : s.pc p = .fill b id) (hs : s.next p (.fill b id) = some s') : Inv disk s' := by
  have hlock := h.holds p b (by rw [hpc]; rfl)
  have hwants : ∀ b' id', (Pc.ret b id).wants = some (b', id') → s.ident b' = id' := fun b' id' hw =>
    h.wants p b' id' (by rw [hpc]; exact hw)
  have hholds : ∀ b', (Pc.ret b id).holds = some b' → s.lock b' = some p := fun b' hb' => h.holds p b' (by rw [hpc]; exact hb')
  simp only [State.next] at hs
  split_ifs at hs with hv
  · cases hs
    refine h.goto (by rw [hpc]; rfl) hwants hholds fun b' id' hid => ?_
    obtain ⟨rfl, _⟩ : b = b' ∧ id = id' := by simpa [hpc] using hid
    exact hv
  have hv' : s.valid b = false := by simpa using hv
  have hd : s.dirty b = false := by
    by_contra hd
    exact hv (h.dirty b (by simpa using hd))
  have hr := h.reads (h.refcnt_pos_of_lock hlock) hv'
  have hiderw : s.iderw b = some { s with data := update s.data b (s.disk (s.ident b)), valid := update s.valid b true } := by
    simp [State.iderw, hv', hd, (update_eq_self_iff (f := s.dirty)).mpr hd.symm]
  rw [hiderw, Option.map_some] at hs
  cases hs
  refine hr.goto (by change (Pc.ret b id).pins = (s.pc p).pins; rw [hpc]; rfl) hwants hholds fun b' id' hid => ?_
  obtain ⟨rfl, _⟩ : b = b' ∧ id = id' := by simpa [hpc] using hid
  simp

theorem write (hpc : s.pc p = .write b) (hs : s.next p (.write b) = some s') : Inv disk s' := by
  have hv : s.valid b = true := by
    rcases h.filled p b (h.holds p b (by rw [hpc]; rfl)) with hv | ⟨id, hid⟩
    · exact hv
    · simp [hpc] at hid
  have hw := h.writes hv
  simp only [State.next, State.iderw, hv, true_and, Option.map_eq_some_iff, Option.ite_none_left_eq_some,
    Option.some.injEq] at hs
  obtain ⟨t, ⟨hd, rfl⟩, rfl⟩ := hs
  have hd' : s.dirty b = true := by simpa using hd
  have hg := hw.goto (by change Pc.run.pins = (s.pc p).pins; rw [hpc]; rfl) (by simp [Pc.wants]) (by simp [Pc.holds])
    (fun b' id hid => by simp [hpc] at hid)
  simpa [hd', State.goto, (update_eq_self_iff (f := s.valid)).mpr hv.symm] using hg

theorem next (hs : s.next p (s.pc p) = some s') : Inv disk s' := by
  cases hpc : s.pc p <;> rw [hpc] at hs
  case run => simp [State.next] at hs
  case lock b id =>
    simp only [State.next, guard_some] at hs
    obtain ⟨hfree, rfl⟩ := hs
    exact h.locked hpc hfree
  case fill => exact h.fill hpc hs
  case ret =>
    cases hs
    exact h.goto (by rw [hpc]; rfl) (by simp [Pc.wants]) (by simp [Pc.holds]) (fun b id hid => by simp [hpc] at hid)
  case write => exact h.write hpc hs
  case drop => exact h.drop hpc hs

theorem step {a : Act P D} (hs : s.step a = some s') : Inv disk s' := by
  cases a <;> simp only [State.step, Option.ite_none_right_eq_some, Option.some.injEq] at hs
  case bread p id => exact h.bget hs.1 hs.2
  case modify p b x =>
    obtain ⟨hm, rfl⟩ := hs
    exact h.modify hm x
  case logWrite p b =>
    obtain ⟨hm, rfl⟩ := hs
    exact h.logWrite hm
  case bwrite p b =>
    obtain ⟨hm, rfl⟩ := hs
    exact h.bwrite hm
  case brelse p b =>
    obtain ⟨⟨hm, hu⟩, rfl⟩ := hs
    exact h.brelse hm hu
  case step p => exact h.next hs

end

end Inv

theorem foldl_insert_lists {k : Links Buf} {l : List Buf} (hk : k.Lists l) (bs : List Buf) (hbs : bs.Nodup)
    (hdisj : ∀ b ∈ bs, b ∉ l) : (bs.foldl Links.insert k).Lists (bs.reverse ++ l) := by
  induction bs generalizing k l with
  | nil => exact hk
  | cons b bs ih =>
    rw [List.nodup_cons] at hbs
    rw [List.foldl_cons, List.reverse_cons, List.append_assoc]
    refine ih (hk.insert (hdisj b (by simp))) hbs.2 fun c hc => ?_
    have hcb : c ≠ b := by
      rintro rfl
      exact hbs.1 hc
    simp [hcb, hdisj c (List.mem_cons_of_mem _ hc)]

theorem binit_inv (disk : Ident → D) (data : Buf → D) : Inv disk (binit disk data : State P D) := by
  have hl := foldl_insert_lists Links.empty_lists (List.finRange nbuf) (List.nodup_finRange nbuf) (by simp)
  refine ⟨⟨_, hl, by simp, ?_⟩, fun b => ?_, by simp [binit, Pc.wants], by simp [binit, Pc.holds], by simp [binit],
    by simp [binit], by simp [binit], by simp [binit], fun id _ => rfl, fun id _ => rfl⟩
  · exact List.pairwise_of_forall fun x y _ => ⟨rfl, rfl, rfl, rfl⟩
  · simp [binit, State.uses, Pc.pins, held]

omit [DecidableEq P] [Fintype P] in
theorem ident_iderw (hs : s.iderw b = some s') : s'.ident = s.ident := by
  simp only [State.iderw, Option.ite_none_left_eq_some, Option.some.injEq] at hs
  obtain ⟨_, rfl⟩ := hs
  rfl

omit [Fintype P] in
theorem ident_next (hs : s.next p l = some s') : s'.ident = s.ident := by
  cases l <;> simp only [State.next, Option.ite_none_right_eq_some, Option.map_eq_some_iff, Option.some.injEq,
    reduceCtorEq] at hs
  case lock =>
    obtain ⟨_, rfl⟩ := hs
    rfl
  case fill =>
    split_ifs at hs
    · cases hs
      rfl
    · obtain ⟨t, ht, rfl⟩ := Option.map_eq_some_iff.mp hs
      exact (ident_iderw ht :)
  case ret =>
    subst hs
    rfl
  case write =>
    obtain ⟨t, ht, rfl⟩ := hs
    exact (ident_iderw ht :)
  case drop =>
    subst hs
    split_ifs <;> rfl

theorem ident_bget (h : Inv disk s) {id : Ident} (hs : s.bget p id = some s') (hb : 0 < s.refcnt b ∨ s.dirty b = true) :
    s'.ident b = s.ident b := by
  unfold State.bget at hs
  split at hs
  · simp at hs
  · cases hs
    rfl
  split at hs
  · next b' hu =>
    cases hs
    obtain ⟨l, hl, hall, _⟩ := h.lists
    rw [Inv.unused_eq hl hall, Option.some.injEq] at hu
    obtain ⟨hr, hd⟩ : s.refcnt b' = 0 ∧ s.dirty b' = false := by simpa using List.find?_some hu
    have hne : b ≠ b' := by
      rintro rfl
      simp [hr, hd] at hb
    simp [hne]
  · simp at hs

theorem ident_step (h : Inv disk s) {a : Act P D} (hs : s.step a = some s') (hb : 0 < s.refcnt b ∨ s.dirty b = true) :
    s'.ident b = s.ident b := by
  cases a <;> simp only [State.step, Option.ite_none_right_eq_some, Option.some.injEq] at hs
  case bread p id => exact ident_bget h hs.2 hb
  case step p => rw [ident_next hs]
  all_goals
    obtain ⟨_, rfl⟩ := hs
    rfl

theorem ident_injective (h : Inv disk s) {b' : Buf} (hid : s.ident b = s.ident b') (hdev : (s.ident b).1 ≠ 0) : b = b' := by
  by_contra hne
  rcases h.shadows_or_shadows hne with hs | hs
  · simp [(hs hid).1] at hdev
  · simp [hid, (hs hid.symm).1] at hdev

theorem bcache_coherent {data : Buf → D} {as : List (Act P D)} (hr : run State.step (binit disk data) as = some s) :
    (∃ l : List Buf, l.Nodup ∧ (∀ b, b ∈ l) ∧ (∀ i (hi : i < l.length), s.links.next^[i + 1] none = some l[i]) ∧
      s.links.next^[nbuf + 1] none = none) ∧ (∀ x, s.links.prev (s.links.next x) = x ∧ s.links.next (s.links.prev x) = x) ∧
    (∀ b b', s.ident b = s.ident b' → (s.ident b).1 ≠ 0 → b = b') ∧
    (∀ a s' b, s.step a = some s' → 0 < s.refcnt b ∨ s.dirty b = true → s'.ident b = s.ident b) ∧
    (∀ p b id, s.pc p = .ret b id → s.ident b = id ∧ s.lock b = some p ∧ s.data b = (s.stored id).getD (disk id)) ∧
    ∀ id, s.stored id = none → s.disk id = disk id := by
  have h : Inv disk s := invariant (fun _ _ _ h hs => h.step hs) (binit_inv disk data) hr
  obtain ⟨l, hl, hall, _⟩ := h.lists
  refine ⟨⟨l, hl.nodup, hall, hl.iterate_next, ?_⟩, fun x => ⟨hl.prev_next hall x, hl.next_prev hall x⟩,
    fun _ _ => ident_injective h, fun _ _ _ => ident_step h, fun p b id hpc => ?_, h.intact⟩
  · rw [← Inv.length_of_all hl.nodup hall]
    exact hl.iterate_next_length
  · have hid : s.ident b = id := h.wants p b id (by rw [hpc]; rfl)
    have hlock : s.lock b = some p := h.holds p b (by rw [hpc]; rfl)
    refine ⟨hid, hlock, ?_⟩
    rw [← hid]
    rcases h.filled p b hlock with hv | ⟨id', hid'⟩
    · exact h.fresh b hv
    · simp [hpc] at hid'

def reread : List (Act (Fin 2) ℕ) :=
  [.bread 0 (1, 5), .step 0, .step 0, .step 0, .modify 0 0 7, .logWrite 0 0, .brelse 0 0, .step 0, .bread 1 (1, 5),
    .step 1, .step 1]

theorem bcache_coherent_reread : ∃ s, run State.step (binit (fun _ => 0) fun _ => 0) reread = some s ∧ s.pc 1 = .ret 0 (1, 5) ∧
    s.data 0 = 7 := by
  let r := run State.step (binit (fun _ => 0) fun _ => 0) reread
  have hr : run State.step (binit (fun _ => 0) fun _ => 0) reread = some (r.get (by decide +kernel)) := (Option.some_get _).symm
  have hpc : (r.get (by decide +kernel)).pc 1 = .ret 0 (1, 5) := by decide +kernel
  have hdata := ((bcache_coherent hr).2.2.2.2.1 1 0 (1, 5) hpc).2.2
  refine ⟨_, hr, hpc, hdata.trans ?_⟩
  decide +kernel

end Laboratorio.Bio
