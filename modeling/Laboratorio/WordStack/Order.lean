import Laboratorio.WordStack.Machine

/-!
Commands that run one after the other. The words are kept in a ring, of which `recuperar_palabra` takes the oldest one.
-/

namespace Laboratorio.WordStack

inductive Command
  | crear
  | agregar (palabra : CString)
  | recuperar
  | imprimir
  deriving DecidableEq

inductive Output
  | recuperada (palabra : CString)
  | pila (palabras : List CString)
  deriving DecidableEq

structure Session (P : Type) where
  memory : Memory P
  printed : List Output

section ring

variable {P : Type} {m m' : Memory P} {p : P} {q : List CString} {w v : CString} {heap : ℤ → UInt8} {a b : ℤ}

def exec (p : P) (s : Session P) : Command → Option (Session P)
  | .crear => some ⟨s.memory.crearPila, s.printed⟩
  | .agregar palabra => (s.memory.agregarPalabra p palabra).map fun m => ⟨m, s.printed⟩
  | .recuperar => (s.memory.recuperarPalabra p).map fun r => ⟨r.2, s.printed ++ [.recuperada r.1]⟩
  | .imprimir => (s.memory.imprimirPila p).map fun r => ⟨r.2, s.printed ++ [.pila r.1]⟩

def created : Session P := ⟨Memory.zeroed.crearPila, []⟩

def Stores (heap : ℤ → UInt8) (a : ℤ) (w : CString) : Prop := ∀ j : ℕ, j ≤ w.1.length → heap (a + j) = w.1.getD j 0

theorem stores_strcpy (heap : ℤ → UInt8) (a : ℤ) (w : CString) : Stores (strcpy heap a w) a w := by
  intro j hj
  rw [strcpy, if_pos (by omega)]
  congr 1
  omega

theorem Stores.strcpy (h : Stores heap b v) (hd : b + v.1.length < a ∨ a + w.1.length < b) : Stores (strcpy heap a w) b v := by
  intro j hj
  rw [WordStack.strcpy, if_neg (by omega)]
  exact h j hj

theorem Stores.map_range (h : Stores heap a w) : (List.range w.1.length).map (fun k : ℕ => heap (a + k)) = w.1 := by
  apply List.ext_getElem
  · simp
  · intro k hk hk'
    have hbyte := h k hk'.le
    rw [List.getD_eq_getElem _ _ hk'] at hbyte
    simpa using hbyte

theorem Stores.cstring_eq (h : Stores heap a w) (ha : a + w.1.length < row maxItems) : cstring heap a = w := by
  obtain ⟨d, hd⟩ : ∃ d, (row maxItems - a).toNat = w.1.length + (d + 1) := ⟨(row maxItems - a).toNat - w.1.length - 1, by omega⟩
  have hend : heap (a + w.1.length) = 0 := by
    have hbyte := h w.1.length le_rfl
    rwa [List.getD_eq_default _ _ le_rfl] at hbyte
  apply Subtype.ext
  simp only [cstring, hd, List.range_add, List.map_append, h.map_range, List.range_succ_eq_map, List.map_cons]
  rw [List.takeWhile_append_of_pos, List.takeWhile_cons_of_neg, List.append_nil]
  · simpa using hend
  · intro x hx
    rw [decide_eq_true_eq]
    rintro rfl
    exact w.2 hx

structure Holds (m : Memory P) (q : List CString) : Prop where
  free : 0 ≤ m.free ∧ m.free < maxItems
  items : m.items = q.length
  mutex : m.mutex = none
  full : m.full + q.length = maxItems
  empty : m.empty = q.length
  short : ∀ w ∈ q, w.1.length < maxWord
  rows : ∀ (k : ℕ) w, q[k]? = some w → Stores m.heap (row (m.index k)) w

theorem Memory.index_eq (hfree : 0 ≤ m.free) (hitems : m.items ≤ maxItems) (k : ℕ) :
    m.index k = (m.free + maxItems - m.items + k) % maxItems := by
  rw [Memory.index, Int.tmod_eq_emod_of_nonneg]
  omega

namespace Holds

theorem created : Holds (P := P) created.memory [] where
  free := show (0 : ℤ) ≤ 0 ∧ (0 : ℤ) < maxItems by decide
  items := rfl
  mutex := rfl
  full := rfl
  empty := rfl
  short := by simp
  rows := by simp

theorem crearPila (h : Holds m []) : Holds m.crearPila [] where
  free := h.free
  items := h.items
  mutex := rfl
  full := rfl
  empty := rfl
  short := by simp
  rows := by simp

section

variable (h : Holds m q)

include h

theorem room : q.length ≤ maxItems := by
  have := h.full
  omega

theorem index_eq (k : ℕ) : m.index k = (m.free + maxItems - q.length + k) % maxItems := by
  have := h.room
  rw [Memory.index_eq h.free.1 (by rw [h.items]; omega), h.items]

theorem cstring_index {k : ℕ} (hk : q[k]? = some w) (hheap : Stores heap (row (m.index k)) w) :
    cstring heap (row (m.index k)) = w := by
  have hshort := h.short w (List.mem_of_getElem? hk)
  apply hheap.cstring_eq
  rw [h.index_eq]
  simp only [row, maxWord, maxItems] at hshort ⊢
  omega

theorem listed_eq : m.listed = q := by
  apply List.ext_getElem?
  intro k
  rw [Memory.listed, h.items, Int.toNat_natCast, List.getElem?_map]
  by_cases hk : k < q.length
  · have hget := List.getElem?_eq_getElem hk
    rw [List.getElem?_range hk, hget, Option.map_some, h.cstring_index hget (h.rows k _ hget)]
  · rw [List.getElem?_eq_none (by simpa using hk), List.getElem?_eq_none (by simpa using hk), Option.map_none]

theorem lock (p : P) : m.lock p = some { m with mutex := some p } := by simp [Memory.lock, h.mutex]

theorem stores_push (hlt : q.length < maxItems) (hw : w.1.length < maxWord) {k : ℕ} (hk : q[k]? = some v) :
    Stores (strcpy m.heap (row m.free) w) (row (m.index k)) v := by
  have hkl := (List.getElem?_eq_some_iff.mp hk).1
  have hv := h.short v (List.mem_of_getElem? hk)
  apply (h.rows k v hk).strcpy
  have hfree := h.free
  rw [h.index_eq]
  simp only [row, maxWord, maxItems] at hfree hv hw hlt ⊢
  omega

theorem agregar (p : P) (hlt : q.length < maxItems) (hw : w.1.length < maxWord) :
    ∃ m', m.agregarPalabra p w = some m' ∧ Holds m' (q ++ [w]) ∧ m'.heap = strcpy m.heap (row m.free) w := by
  have hfull : 0 < m.full := by
    have := h.full
    omega
  refine ⟨_, by simp [Memory.agregarPalabra, h.lock, Memory.waitFull, hfull]; rfl, ?_, rfl⟩
  have hfree := h.free
  have hnext : (m.free + 1).tmod maxItems = (m.free + 1) % maxItems := Int.tmod_eq_emod_of_nonneg (by omega)
  have hindex : ∀ k : ℕ, k ≤ q.length → (m.free + maxItems - q.length + k) % maxItems =
      ((m.free + 1) % maxItems + maxItems - (q.length + 1 : ℕ) + k) % maxItems := by
    simp only [maxItems] at hfree hlt ⊢
    omega
  refine ⟨?_, ?_, rfl, ?_, ?_, ?_, fun k v hk => ?_⟩
  · simp only [Memory.push, Memory.unlock, Memory.postEmpty, hnext]
    simp only [maxItems]
    omega
  · simp [Memory.push, Memory.unlock, Memory.postEmpty, h.items]
  · have := h.full
    simp only [Memory.push, Memory.unlock, Memory.postEmpty, List.length_append, List.length_singleton]
    omega
  · simp [Memory.push, Memory.unlock, Memory.postEmpty, h.empty]
  · intro v hv
    rcases List.mem_append.mp hv with hv | hv
    · exact h.short v hv
    · rw [List.mem_singleton.mp hv]
      exact hw
  · have hkl := (List.getElem?_eq_some_iff.mp hk).1
    rw [List.length_append, List.length_singleton] at hkl
    rw [Memory.index_eq]
    · simp only [Memory.push, Memory.unlock, Memory.postEmpty, hnext, h.items]
      have hidx := hindex k (by omega)
      rw [Int.natCast_succ] at hidx
      rw [← hidx]
      by_cases hlast : k = q.length
      · subst hlast
        obtain rfl : w = v := by simpa using hk
        have hself : (m.free + maxItems - q.length + q.length) % maxItems = m.free := by
          simp only [maxItems] at hfree ⊢
          omega
        rw [hself]
        exact stores_strcpy m.heap (row m.free) w
      · rw [List.getElem?_append_left (by omega)] at hk
        have hst := h.stores_push hlt hw hk
        rwa [h.index_eq] at hst
    · simp only [Memory.push, Memory.unlock, Memory.postEmpty, hnext]
      simp only [maxItems]
      omega
    · simp only [Memory.push, Memory.unlock, Memory.postEmpty, h.items]
      omega

theorem agregar_full (p : P) (hfull : ¬ q.length < maxItems) : m.agregarPalabra p w = none := by
  have hzero : m.full = 0 := by
    have := h.full
    omega
  simp [Memory.agregarPalabra, h.lock, Memory.waitFull, hzero]

end

theorem recuperar (h : Holds m (w :: q)) (p : P) : ∃ m', m.recuperarPalabra p = some (w, m') ∧ Holds m' q := by
  have hpos : 0 < m.empty := by simp [h.empty]
  have htaken : cstring m.heap (row ((m.free + maxItems - m.items).tmod maxItems)) = w := by
    have hidx : m.index (0 : ℕ) = (m.free + maxItems - m.items).tmod maxItems := by
      rw [Memory.index, Int.natCast_zero, Int.add_zero]
    rw [← hidx]
    exact h.cstring_index rfl (h.rows 0 w rfl)
  refine ⟨_, by simp [Memory.recuperarPalabra, h.lock, Memory.waitEmpty, hpos, Memory.taken, htaken]; rfl, ?_⟩
  have hlen : (w :: q).length = q.length + 1 := rfl
  have hitems := h.items
  have hfull := h.full
  have hempty := h.empty
  refine ⟨h.free, ?_, rfl, ?_, ?_, fun v hv => h.short v (by simp [hv]), fun k v hk => ?_⟩
  · simp only [Memory.pop, Memory.unlock, Memory.postFull]
    omega
  · simp only [Memory.pop, Memory.unlock, Memory.postFull]
    omega
  · simp only [Memory.pop, Memory.unlock, Memory.postFull]
    omega
  · have hst := h.rows (k + 1) v hk
    have hidx : m.index (k + 1 : ℕ) = Memory.index { m with items := m.items - 1 } k := by
      simp only [Memory.index]
      congr 1
      omega
    rw [hidx] at hst
    exact hst

theorem recuperar_empty (h : Holds m []) (p : P) : m.recuperarPalabra p = none := by
  have hzero : m.empty = 0 := h.empty
  simp [Memory.recuperarPalabra, h.lock, Memory.waitEmpty, hzero]

theorem imprimir (h : Holds m q) (p : P) : m.imprimirPila p = some (q, m) := by
  have hmem : ({ m with mutex := some p } : Memory P).unlock = m := by
    rw [Memory.unlock, ← h.mutex]
  have hlisted : Memory.listed { m with mutex := some p } = q := h.listed_eq
  simp only [Memory.imprimirPila, h.lock, Option.bind_eq_bind, Option.bind_some, hlisted, hmem]
  rfl

end Holds

end ring

structure Stored where
  words : List CString
  printed : List Output

def Stored.exec (take : List CString → Option (CString × List CString)) (r : Stored) : Command → Option Stored
  | .crear => none
  | .agregar palabra => if r.words.length < maxItems then some ⟨r.words ++ [palabra], r.printed⟩ else none
  | .recuperar => (take r.words).map fun t => ⟨t.2, r.printed ++ [.recuperada t.1]⟩
  | .imprimir => some ⟨r.words, r.printed ++ [.pila r.words]⟩

def takeFirst : List CString → Option (CString × List CString)
  | [] => none
  | w :: l => some (w, l)

def takeLast (l : List CString) : Option (CString × List CString) := l.getLast?.map fun w => (w, l.dropLast)

def Stored.nothing : Stored := ⟨[], []⟩

inductive Output.Same : Output → Output → Prop
  | recuperada (palabra : CString) : Same (.recuperada palabra) (.recuperada palabra)
  | pila {l l' : List CString} (h : l.Perm l') : Same (.pila l) (.pila l')

def added (cmds : List Command) : List CString := cmds.filterMap fun
  | .agregar palabra => some palabra
  | _ => none

section order

variable {P : Type} {p : P} {s t : Session P} {r r' : Stored} {c : Command} {cmds : List Command}

structure Queued (s : Session P) (r : Stored) : Prop where
  holds : Holds s.memory r.words
  printed : s.printed = r.printed

theorem Queued.exec (h : Queued s r) (p : P) (hshort : ∀ w, c = .agregar w → w.1.length < maxWord)
    (hr : r.exec takeFirst c = some r') : ∃ t, exec p s c = some t ∧ Queued t r' := by
  cases c with
  | crear => cases hr
  | agregar w =>
    simp only [Stored.exec] at hr
    split_ifs at hr with hlt
    cases hr
    obtain ⟨m, hm, hholds, -⟩ := h.holds.agregar p hlt (hshort w rfl)
    exact ⟨⟨m, s.printed⟩, by simp [WordStack.exec, hm], hholds, h.printed⟩
  | recuperar =>
    obtain ⟨⟨w, l⟩, htake, rfl⟩ := Option.map_eq_some_iff.mp hr
    cases hwords : r.words with
    | nil => simp [hwords, takeFirst] at htake
    | cons v l' =>
      obtain ⟨rfl, rfl⟩ : v = w ∧ l' = l := by simpa [hwords, takeFirst] using htake
      have hholds := h.holds
      rw [hwords] at hholds
      obtain ⟨m, hm, hholds⟩ := hholds.recuperar p
      exact ⟨⟨m, s.printed ++ [.recuperada v]⟩, by simp [WordStack.exec, hm], hholds, by simp [h.printed]⟩
  | imprimir =>
    cases hr
    exact ⟨⟨s.memory, s.printed ++ [.pila r.words]⟩, by simp [WordStack.exec, h.holds.imprimir p], h.holds, by simp [h.printed]⟩

theorem exists_queued (p : P) (hshort : ∀ w ∈ added cmds, w.1.length < maxWord)
    (hr : Runs.run (Stored.exec takeFirst) .nothing cmds = some r) :
    ∃ s, Runs.run (exec p) created cmds = some s ∧ Queued s r := by
  induction cmds using List.reverseRecOn generalizing r with
  | nil =>
    cases hr
    exact ⟨created, rfl, Holds.created, rfl⟩
  | append_singleton cmds c ih =>
    obtain ⟨r₁, hr₁, hc⟩ := Runs.run_snoc_eq.mp hr
    obtain ⟨s, hs, hq⟩ := ih (fun w hw => hshort w (by simp [added, List.filterMap_append] at hw ⊢; exact .inl hw)) hr₁
    obtain ⟨t, ht, hq⟩ := hq.exec p (fun w hw => hshort w (by simp [added, hw])) hc
    exact ⟨t, Runs.run_snoc_eq.mpr ⟨s, hs, ht⟩, hq⟩

theorem exec_takeFirst (hlen : r'.words.length = r.words.length) {u : Stored} (h : r.exec takeLast c = some u) :
    ∃ u', r'.exec takeFirst c = some u' ∧ u'.words.length = u.words.length := by
  cases c with
  | crear => cases h
  | agregar w =>
    simp only [Stored.exec] at h ⊢
    rw [hlen]
    split_ifs at h ⊢ with hlt
    cases h
    exact ⟨_, rfl, by simp [hlen]⟩
  | recuperar =>
    obtain ⟨⟨w, l⟩, htake, rfl⟩ := Option.map_eq_some_iff.mp h
    obtain ⟨w', hlast, hdrop⟩ := Option.map_eq_some_iff.mp htake
    obtain ⟨rfl, rfl⟩ := Prod.mk.inj hdrop
    have hne : r.words ≠ [] := by
      rintro hnil
      simp [hnil] at hlast
    have hpos : 0 < r.words.length := List.length_pos_of_ne_nil hne
    cases hwords : r'.words with
    | nil =>
      rw [hwords] at hlen
      simp only [List.length_nil] at hlen
      omega
    | cons v l' =>
      refine ⟨_, by simp [Stored.exec, hwords, takeFirst]; rfl, ?_⟩
      rw [hwords, List.length_cons] at hlen
      simp only [List.length_dropLast]
      omega
  | imprimir => exact ⟨_, rfl, by simpa [Stored.exec] using (Option.some.inj h) ▸ hlen⟩

theorem exists_takeFirst (h : Runs.run (Stored.exec takeLast) .nothing cmds = some r) :
    ∃ r', Runs.run (Stored.exec takeFirst) .nothing cmds = some r' ∧ r'.words.length = r.words.length := by
  induction cmds using List.reverseRecOn generalizing r with
  | nil =>
    cases h
    exact ⟨.nothing, rfl, rfl⟩
  | append_singleton cmds c ih =>
    obtain ⟨r₁, hr₁, hc⟩ := Runs.run_snoc_eq.mp h
    obtain ⟨r₂, hr₂, hlen⟩ := ih hr₁
    obtain ⟨u, hu, hlen⟩ := exec_takeFirst hlen hc
    exact ⟨u, Runs.run_snoc_eq.mpr ⟨r₂, hr₂, hu⟩, hlen⟩

def PopsSingle (p : P) (cmds : List Command) : Prop :=
  ∀ pre post, cmds = pre ++ .recuperar :: post → ∀ s, Runs.run (exec p) created pre = some s → s.memory.items = 1

def PrintsLifo (p : P) (cmds : List Command) (r : Stored) : Prop :=
  ∃ s, Runs.run (exec p) created cmds = some s ∧ List.Forall₂ Output.Same s.printed r.printed

theorem PopsSingle.of_append {post : List Command} (h : PopsSingle p (cmds ++ post)) : PopsSingle p cmds :=
  fun pre post' hsplit => h pre (post' ++ post) (by simp [hsplit])

theorem mem_added_of_append {post : List Command} {w : CString} (h : w ∈ added cmds) : w ∈ added (cmds ++ post) := by
  rw [added, List.filterMap_append, List.mem_append]
  exact .inl h

theorem PopsSingle.run_eq (h : PopsSingle p cmds) (hshort : ∀ w ∈ added cmds, w.1.length < maxWord)
    (hr : Runs.run (Stored.exec takeLast) .nothing cmds = some r) :
    Runs.run (Stored.exec takeFirst) .nothing cmds = some r := by
  induction cmds using List.reverseRecOn generalizing r with
  | nil => exact hr
  | append_singleton cmds c ih =>
    obtain ⟨r₁, hr₁, hc⟩ := Runs.run_snoc_eq.mp hr
    have hfirst := ih h.of_append (fun w hw => hshort w (mem_added_of_append hw)) hr₁
    refine Runs.run_snoc_eq.mpr ⟨r₁, hfirst, ?_⟩
    cases c with
    | crear => exact hc
    | agregar w => exact hc
    | imprimir => exact hc
    | recuperar =>
      obtain ⟨s, hs, hq⟩ := exists_queued p (fun w hw => hshort w (mem_added_of_append hw)) hfirst
      have hone := h cmds [] rfl s hs
      rw [hq.holds.items] at hone
      obtain ⟨w, hw⟩ := List.length_eq_one_iff.mp (by exact_mod_cast hone)
      rw [← hc, Stored.exec, Stored.exec, hw]
      rfl

theorem forall₂_of_append {α β : Type} {R : α → β → Prop} {a x : List α} {b y : List β} (h : List.Forall₂ R (a ++ x) (b ++ y))
    (hlen : a.length = b.length) : List.Forall₂ R a b ∧ List.Forall₂ R x y := by
  induction a generalizing b with
  | nil =>
    obtain rfl := List.length_eq_zero_iff.mp hlen.symm
    exact ⟨.nil, h⟩
  | cons u a ih =>
    cases b with
    | nil => simp at hlen
    | cons v b =>
      rw [List.cons_append, List.cons_append, List.forall₂_cons] at h
      obtain ⟨h1, h2⟩ := ih h.2 (by simpa using hlen)
      exact ⟨.cons h.1 h1, h2⟩

def Command.prints : Command → ℕ
  | .crear | .agregar _ => 0
  | .recuperar | .imprimir => 1

theorem exec_printed {take : List CString → Option (CString × List CString)} (h : r.exec take c = some r') :
    ∃ o, r'.printed = r.printed ++ o ∧ o.length = c.prints := by
  cases c with
  | crear => cases h
  | agregar w =>
    simp only [Stored.exec] at h
    split_ifs at h
    cases h
    exact ⟨[], by simp, rfl⟩
  | recuperar =>
    obtain ⟨t, -, rfl⟩ := Option.map_eq_some_iff.mp h
    exact ⟨_, rfl, rfl⟩
  | imprimir =>
    cases h
    exact ⟨_, rfl, rfl⟩

theorem length_printed {take : List CString → Option (CString × List CString)}
    (h : Runs.run (Stored.exec take) .nothing cmds = some r) : r.printed.length = (cmds.map Command.prints).sum := by
  induction cmds using List.reverseRecOn generalizing r with
  | nil =>
    cases h
    rfl
  | append_singleton cmds c ih =>
    obtain ⟨r₁, hr₁, hc⟩ := Runs.run_snoc_eq.mp h
    obtain ⟨o, ho, hlen⟩ := exec_printed hc
    simp [ho, ih hr₁, hlen]

theorem words_sublist (h : Runs.run (Stored.exec takeLast) .nothing cmds = some r) : r.words.Sublist (added cmds) := by
  induction cmds using List.reverseRecOn generalizing r with
  | nil =>
    cases h
    exact List.Sublist.refl _
  | append_singleton cmds c ih =>
    obtain ⟨r₁, hr₁, hc⟩ := Runs.run_snoc_eq.mp h
    have hsub := ih hr₁
    have happ : added (cmds ++ [c]) = added cmds ++ added [c] := List.filterMap_append ..
    rw [happ]
    cases c with
    | crear => cases hc
    | agregar w =>
      simp only [Stored.exec] at hc
      split_ifs at hc
      cases hc
      exact hsub.append (List.Sublist.refl _)
    | recuperar =>
      obtain ⟨⟨w, l⟩, htake, rfl⟩ := Option.map_eq_some_iff.mp hc
      obtain ⟨w', -, hdrop⟩ := Option.map_eq_some_iff.mp htake
      obtain ⟨-, rfl⟩ := Prod.mk.inj hdrop
      exact ((List.dropLast_sublist _).trans hsub).trans (List.sublist_append_left _ _)
    | imprimir =>
      cases hc
      exact hsub.trans (List.sublist_append_left _ _)

theorem length_eq_one {l : List CString} {w : CString} {l₁ l₂ : List CString} (hnodup : l.Nodup)
    (hfirst : takeFirst l = some (w, l₁)) (hlast : takeLast l = some (w, l₂)) : l.length = 1 := by
  cases l with
  | nil => cases hfirst
  | cons v l =>
    obtain ⟨rfl, rfl⟩ : v = w ∧ l = l₁ := by simpa [takeFirst] using hfirst
    obtain ⟨u, hu, hdrop⟩ := Option.map_eq_some_iff.mp hlast
    obtain ⟨rfl, -⟩ := Prod.mk.inj hdrop
    cases l with
    | nil => rfl
    | cons x l =>
      rw [List.getLast?_cons_cons] at hu
      exact absurd (List.mem_of_getLast? hu) (List.nodup_cons.mp hnodup).1

theorem popsSingle_of_same (hnodup : (added cmds).Nodup) (hshort : ∀ w ∈ added cmds, w.1.length < maxWord)
    (hr : Runs.run (Stored.exec takeLast) .nothing cmds = some r)
    (hr' : Runs.run (Stored.exec takeFirst) .nothing cmds = some r') (hsame : List.Forall₂ Output.Same r'.printed r.printed) :
    PopsSingle p cmds := by
  induction cmds using List.reverseRecOn generalizing r r' with
  | nil =>
    intro pre post hsplit
    simp at hsplit
  | append_singleton cmds c ih =>
    obtain ⟨r₁, hr₁, hc⟩ := Runs.run_snoc_eq.mp hr
    obtain ⟨r₂, hr₂, hc'⟩ := Runs.run_snoc_eq.mp hr'
    obtain ⟨o, ho, -⟩ := exec_printed hc
    obtain ⟨o', ho', -⟩ := exec_printed hc'
    rw [ho, ho'] at hsame
    obtain ⟨hsame, hnew⟩ := forall₂_of_append hsame (by rw [length_printed hr₁, length_printed hr₂])
    have happ : added (cmds ++ [c]) = added cmds ++ added [c] := List.filterMap_append ..
    have hshort' : ∀ w ∈ added cmds, w.1.length < maxWord := fun w hw => hshort w (mem_added_of_append hw)
    have hnodup' : (added cmds).Nodup := by
      rw [happ] at hnodup
      exact (List.nodup_append.mp hnodup).1
    have hsingle : PopsSingle p cmds := ih hnodup' hshort' hr₁ hr₂ hsame
    intro pre post hsplit s hs
    rcases List.eq_nil_or_concat post with rfl | ⟨post, d, rfl⟩
    · obtain ⟨rfl, hcr⟩ := List.append_inj' hsplit rfl
      obtain rfl : c = .recuperar := by simpa using hcr
      -- up to here the two agree
      obtain rfl : r₁ = r₂ := Option.some.inj ((hsingle.run_eq hshort' hr₁).symm.trans hr₂)
      obtain ⟨⟨w, l₂⟩, hlast, rfl⟩ := Option.map_eq_some_iff.mp hc
      obtain ⟨⟨v, l₁⟩, hfirst, rfl⟩ := Option.map_eq_some_iff.mp hc'
      obtain rfl := List.append_cancel_left ho
      obtain rfl := List.append_cancel_left ho'
      obtain rfl : v = w := by
        rw [List.forall₂_cons] at hnew
        cases hnew.1
        rfl
      have hone := length_eq_one (hnodup'.sublist (words_sublist hr₁)) hfirst hlast
      obtain ⟨s', hs', hq⟩ := exists_queued p hshort' hr₂
      obtain rfl : s' = s := Option.some.inj (hs'.symm.trans hs)
      rw [hq.holds.items, hone]
      rfl
    · rw [List.concat_eq_append, ← List.cons_append, ← List.append_assoc] at hsplit
      obtain ⟨rfl, -⟩ := List.append_inj' hsplit rfl
      exact hsingle pre post rfl s hs

theorem lifo_iff (p : P) {cmds : List Command} {r : Stored} (hshort : ∀ w ∈ added cmds, w.1.length < maxWord)
    (hr : Runs.run (Stored.exec takeLast) .nothing cmds = some r) :
    (PopsSingle p cmds → PrintsLifo p cmds r) ∧ ((added cmds).Nodup → (PrintsLifo p cmds r ↔ PopsSingle p cmds)) := by
  have hprints : PopsSingle p cmds → PrintsLifo p cmds r := by
    intro h
    obtain ⟨s, hs, hq⟩ := exists_queued p hshort (h.run_eq hshort hr)
    refine ⟨s, hs, ?_⟩
    rw [hq.printed]
    refine List.forall₂_same.mpr fun o _ => ?_
    cases o with
    | recuperada w => exact .recuperada w
    | pila l => exact .pila (List.Perm.refl l)
  refine ⟨hprints, fun hnodup => ⟨fun h => ?_, hprints⟩⟩
  obtain ⟨r', hr', -⟩ := exists_takeFirst hr
  obtain ⟨s, hs, hsame⟩ := h
  obtain ⟨s', hs', hq⟩ := exists_queued p hshort hr'
  obtain rfl : s' = s := Option.some.inj (hs'.symm.trans hs)
  rw [hq.printed] at hsame
  exact popsSingle_of_same hnodup hshort hr hr' hsame

theorem lifo_iff_single : PrintsLifo () [.agregar ⟨[97], by decide⟩, .recuperar] ⟨[], [.recuperada ⟨[97], by decide⟩]⟩ ↔
    PopsSingle () [.agregar ⟨[97], by decide⟩, .recuperar] := (lifo_iff () (by decide) rfl).2 (by decide)

theorem takes_oldest : ∃ s r, Runs.run (exec ()) created [.agregar ⟨[97], by decide⟩, .agregar ⟨[98], by decide⟩,
    .recuperar] = some s ∧ s.printed = [.recuperada ⟨[97], by decide⟩] ∧
    Runs.run (Stored.exec takeLast) .nothing [.agregar ⟨[97], by decide⟩, .agregar ⟨[98], by decide⟩, .recuperar] = some r ∧
    r.printed = [.recuperada ⟨[98], by decide⟩] ∧
    ¬ PrintsLifo () [.agregar ⟨[97], by decide⟩, .agregar ⟨[98], by decide⟩, .recuperar] r := by
  have hprinted : (Runs.run (exec ()) created [.agregar ⟨[97], by decide⟩, .agregar ⟨[98], by decide⟩, .recuperar]).map
    Session.printed = some [.recuperada ⟨[97], by decide⟩] := by decide +kernel
  obtain ⟨s, hs, hp⟩ := Option.map_eq_some_iff.mp hprinted
  refine ⟨s, ⟨[⟨[97], by decide⟩], [.recuperada ⟨[98], by decide⟩]⟩, hs, hp, rfl, rfl, ?_⟩
  rintro ⟨s', hs', hsame⟩
  obtain rfl : s' = s := Option.some.inj (hs'.symm.trans hs)
  rw [hp, List.forall₂_cons] at hsame
  cases hsame.1

end order

variable {P : Type} {p : P} {s t : Session P} {cmds : List Command} {c : Command} {q : List CString}

structure CountersOk (m : Memory P) : Prop where
  items : 0 ≤ m.items ∧ m.items ≤ maxItems
  empty : (m.empty : ℤ) = m.items
  full : (m.full : ℤ) = maxItems - m.items

def KeepsStored (m m' : Memory P) : Prop := ∀ k : ℕ, (k : ℤ) < m.items → cstring m'.heap (row (m.index k)) =
    cstring m.heap (row (m.index k))

def Consistent (p : P) (cmds : List Command) : Prop :=
  ∀ pre post, cmds = pre ++ post → ∀ s, Runs.run (exec p) created pre = some s → CountersOk s.memory ∧
    ∀ w rest, post = .agregar w :: rest → ∀ t, exec p s (.agregar w) = some t → KeepsStored s.memory t.memory

def CreatesEmpty (p : P) (cmds : List Command) : Prop :=
  ∀ pre post, cmds = pre ++ .crear :: post → ∀ s, Runs.run (exec p) created pre = some s → s.memory.items = 0

theorem Holds.countersOk {m : Memory P} (h : Holds m q) : CountersOk m := by
  have hitems := h.items
  have hfull := h.full
  have hempty := h.empty
  exact ⟨by omega, by omega, by omega⟩

theorem Holds.exec (h : Holds s.memory q) (hshort : ∀ w, c = .agregar w → w.1.length < maxWord)
    (hcrear : c = .crear → s.memory.items = 0) (ht : exec p s c = some t) :
    ∃ q', Holds t.memory q' ∧ (∀ w, c = .agregar w → KeepsStored s.memory t.memory) := by
  cases c with
  | crear =>
    cases ht
    have hzero := hcrear rfl
    rw [h.items] at hzero
    obtain rfl := List.length_eq_zero_iff.mp (by exact_mod_cast hzero)
    exact ⟨[], h.crearPila, by simp⟩
  | agregar w =>
    obtain ⟨m, hm, rfl⟩ := Option.map_eq_some_iff.mp ht
    by_cases hlt : q.length < maxItems
    · obtain ⟨m', hm', hholds, hheap⟩ := h.agregar p hlt (hshort w rfl)
      obtain rfl : m' = m := Option.some.inj (hm'.symm.trans hm)
      refine ⟨q ++ [w], hholds, fun _ _ k hk => ?_⟩
      have hkq : k < q.length := by
        rw [h.items] at hk
        omega
      have hget := List.getElem?_eq_getElem hkq
      rw [hheap, h.cstring_index hget (h.stores_push hlt (hshort w rfl) hget), h.cstring_index hget (h.rows k _ hget)]
    · rw [h.agregar_full p hlt] at hm
      cases hm
  | recuperar =>
    obtain ⟨⟨w, m⟩, hm, rfl⟩ := Option.map_eq_some_iff.mp ht
    cases q with
    | nil =>
      rw [h.recuperar_empty p] at hm
      cases hm
    | cons v q =>
      obtain ⟨m', hm', hholds⟩ := h.recuperar p
      obtain ⟨-, rfl⟩ := Prod.mk.inj (Option.some.inj (hm'.symm.trans hm))
      exact ⟨q, hholds, by simp⟩
  | imprimir =>
    obtain ⟨⟨l, m⟩, hm, rfl⟩ := Option.map_eq_some_iff.mp ht
    rw [h.imprimir p] at hm
    obtain ⟨-, rfl⟩ := Prod.mk.inj (Option.some.inj hm)
    exact ⟨q, h, by simp⟩

theorem CreatesEmpty.of_append {post : List Command} (h : CreatesEmpty p (cmds ++ post)) : CreatesEmpty p cmds :=
  fun pre post' hsplit => h pre (post' ++ post) (by simp [hsplit])

theorem CreatesEmpty.holds (h : CreatesEmpty p cmds) (hshort : ∀ w ∈ added cmds, w.1.length < maxWord)
    (hs : Runs.run (WordStack.exec p) created cmds = some s) : ∃ q, Holds s.memory q := by
  induction cmds using List.reverseRecOn generalizing s with
  | nil =>
    cases hs
    exact ⟨[], Holds.created⟩
  | append_singleton cmds c ih =>
    obtain ⟨u, hu, hc⟩ := Runs.run_snoc_eq.mp hs
    obtain ⟨q, hq⟩ := ih h.of_append (fun w hw => hshort w (mem_added_of_append hw)) hu
    obtain ⟨q', hq', -⟩ := hq.exec (fun w hw => hshort w (by simp [added, hw])) (fun hc => h cmds [] (by rw [hc]) u hu) hc
    exact ⟨q', hq'⟩

theorem counters_iff (p : P) {cmds : List Command} (hshort : ∀ w ∈ added cmds, w.1.length < maxWord) :
    Consistent p cmds ↔ CreatesEmpty p cmds := by
  constructor
  · intro h pre post hsplit s hs
    have hcreated : Runs.run (WordStack.exec p) created (pre ++ [.crear]) = some ⟨s.memory.crearPila, s.printed⟩ :=
      Runs.run_snoc_eq.mpr ⟨s, hs, rfl⟩
    have hempty := (h (pre ++ [.crear]) post (by simp [hsplit]) _ hcreated).1.empty
    exact hempty.symm
  · rintro h pre post rfl s hs
    obtain ⟨q, hq⟩ := h.of_append.holds (fun w hw => hshort w (mem_added_of_append hw)) hs
    refine ⟨hq.countersOk, ?_⟩
    rintro w rest rfl t ht
    have hw : ∀ v, Command.agregar w = .agregar v → v.1.length < maxWord := by
      rintro v hv
      obtain rfl := Command.agregar.inj hv
      exact hshort w (by simp [added])
    obtain ⟨-, -, hkeeps⟩ := hq.exec hw (by simp) ht
    exact hkeeps w rfl

theorem counters_iff_once : Consistent () [.agregar ⟨[97], by decide⟩, .recuperar, .crear] ↔
    CreatesEmpty () [.agregar ⟨[97], by decide⟩, .recuperar, .crear] := counters_iff () (by decide)

theorem created_again : ∃ s, Runs.run (exec ()) created [.agregar ⟨[97], by decide⟩, .crear] = some s ∧ s.memory.items = 1 ∧
    s.memory.empty = 0 ∧ s.memory.full = maxItems ∧ ¬ CountersOk s.memory := by
  refine ⟨_, rfl, rfl, rfl, rfl, fun h => ?_⟩
  have hempty := h.empty
  cases hempty

end Laboratorio.WordStack
