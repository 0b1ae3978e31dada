import Laboratorio.WordStack.Order

/-!
What one `agregar_palabra` does to the list that `imprimir_pila` prints. A stack may be created again while words are stored.
-/

namespace Laboratorio.WordStack

variable {P : Type} {m : Memory P} {p : P} {q : List CString} {w v : CString} {heap : ℤ → UInt8}

structure Remembers (m : Memory P) (q : List CString) : Prop where
  mutex : m.mutex = none
  free : m.free = (q.length % maxItems : ℕ)
  items : 0 ≤ m.items ∧ m.items ≤ q.length
  places : m.full + m.empty = maxItems
  empty : (m.empty : ℤ) ≤ m.items
  short : ∀ w ∈ q, w.1.length < maxWord
  rows : ∀ (k : ℕ) w, q[k]? = some w → q.length ≤ k + maxItems → Stores m.heap (row (k % maxItems : ℕ)) w

theorem imprimirPila_eq (p : P) (hm : m.mutex = none) : m.imprimirPila p = some (m.listed, m) := by
  obtain ⟨free, items, mutex, full, empty, heap⟩ := m
  obtain rfl : mutex = none := hm
  simp [Memory.imprimirPila, Memory.lock, Memory.unlock, Memory.listed, Memory.index]

namespace Remembers

theorem created : Remembers (P := P) created.memory [] where
  mutex := rfl
  free := rfl
  items := ⟨Int.le_refl _, Int.le_refl _⟩
  places := rfl
  empty := Int.le_refl _
  short := by simp
  rows := by simp

section

variable (h : Remembers m q)

include h

theorem crearPila : Remembers m.crearPila q where
  mutex := rfl
  free := h.free
  items := h.items
  places := rfl
  empty := h.items.1
  short := h.short
  rows := h.rows

theorem lock (p : P) : m.lock p = some { m with mutex := some p } := by simp [Memory.lock, h.mutex]

theorem agregar_eq (p : P) (w : CString) (hfull : 0 < m.full) : m.agregarPalabra p w =
    some ⟨((q.length + 1) % maxItems : ℕ), m.items + 1, none, m.full - 1, m.empty + 1, strcpy m.heap (row m.free) w⟩ := by
  have hnext : (m.free + 1).tmod maxItems = ((q.length + 1) % maxItems : ℕ) := by
    rw [h.free, Int.tmod_eq_emod_of_nonneg (by omega)]
    simp only [maxItems]
    omega
  simp [Memory.agregarPalabra, h.lock, Memory.waitFull, hfull, Memory.push, Memory.unlock, Memory.postEmpty, hnext]

theorem agregar (hw : w.1.length < maxWord) (hfull : 0 < m.full) :
    Remembers (P := P) ⟨((q.length + 1) % maxItems : ℕ), m.items + 1, none, m.full - 1, m.empty + 1,
      strcpy m.heap (row m.free) w⟩ (q ++ [w]) := by
  have hitems := h.items
  have hplaces := h.places
  have hempty := h.empty
  have hlen : (q ++ [w]).length = q.length + 1 := List.length_append
  refine ⟨rfl, by rw [hlen], ⟨?_, ?_⟩, ?_, ?_, ?_, fun k v hk hlast => ?_⟩
  · dsimp only
    omega
  · dsimp only
    omega
  · dsimp only
    omega
  · dsimp only
    omega
  · intro v hv
    rcases List.mem_append.mp hv with hv | hv
    · exact h.short v hv
    · rw [List.mem_singleton.mp hv]
      exact hw
  · have hkl := (List.getElem?_eq_some_iff.mp hk).1
    rw [h.free]
    by_cases hkq : k = q.length
    · subst hkq
      obtain rfl : w = v := by simpa using hk
      exact stores_strcpy _ _ _
    · rw [List.getElem?_append_left (by omega)] at hk
      have hv := h.short v (List.mem_of_getElem? hk)
      apply (h.rows k v hk (by omega)).strcpy
      simp only [row, maxWord, maxItems] at hv hw hlast ⊢
      omega

theorem recuperar {r : CString × Memory P} (hr : m.recuperarPalabra p = some r) : Remembers r.2 q := by
  obtain ⟨m₁, hlock, hr⟩ := Option.bind_eq_some_iff.mp hr
  rw [h.lock p] at hlock
  cases hlock
  obtain ⟨m₂, hwait, hr⟩ := Option.bind_eq_some_iff.mp hr
  unfold Memory.waitEmpty at hwait
  split_ifs at hwait with hpos
  cases hwait
  cases hr
  have hitems := h.items
  have hplaces := h.places
  have hempty := h.empty
  simp only at hpos
  refine ⟨rfl, h.free, ?_, ?_, ?_, h.short, h.rows⟩
  · simp only [Memory.pop, Memory.unlock, Memory.postFull]
    omega
  · simp only [Memory.pop, Memory.unlock, Memory.postFull]
    omega
  · simp only [Memory.pop, Memory.unlock, Memory.postFull]
    omega

end

theorem exec {s t : Session P} {c : Command} (h : Remembers s.memory q) (hshort : ∀ w, c = .agregar w → w.1.length < maxWord)
    (ht : exec p s c = some t) : ∃ l, Remembers t.memory (q ++ l) := by
  cases c with
  | crear =>
    cases ht
    exact ⟨[], by rw [List.append_nil]; exact h.crearPila⟩
  | agregar w =>
    obtain ⟨m, hm, rfl⟩ := Option.map_eq_some_iff.mp ht
    by_cases hfull : 0 < s.memory.full
    · rw [h.agregar_eq p w hfull] at hm
      cases hm
      exact ⟨[w], h.agregar (hshort w rfl) hfull⟩
    · simp [Memory.agregarPalabra, h.lock, Memory.waitFull, hfull] at hm
  | recuperar =>
    obtain ⟨r, hm, rfl⟩ := Option.map_eq_some_iff.mp ht
    exact ⟨[], by rw [List.append_nil]; exact h.recuperar hm⟩
  | imprimir =>
    obtain ⟨r, hm, rfl⟩ := Option.map_eq_some_iff.mp ht
    rw [imprimirPila_eq p h.mutex] at hm
    cases hm
    exact ⟨[], by rw [List.append_nil]; exact h⟩

theorem run {s t : Session P} {cmds : List Command} (h : Remembers s.memory q) (hshort : ∀ w ∈ added cmds, w.1.length < maxWord)
    (ht : Runs.run (WordStack.exec p) s cmds = some t) : ∃ q', Remembers t.memory q' := by
  induction cmds generalizing s q with
  | nil =>
    obtain rfl : s = t := by simpa using ht
    exact ⟨q, h⟩
  | cons c cmds ih =>
    obtain ⟨u, hu, ht⟩ := Runs.run_cons_eq.mp ht
    have hadded : added (c :: cmds) = added [c] ++ added cmds := List.filterMap_append (l := [c])
    rw [hadded, List.forall_mem_append] at hshort
    obtain ⟨l, hl⟩ := h.exec (fun w hw => hshort.1 w (by simp [added, hw])) hu
    exact ih hl hshort.2 ht

def stored (m : Memory P) (q : List CString) : List CString := q.drop (q.length - m.items.toNat)

section

variable (h : Remembers m q) (hitems : m.items ≤ maxItems)

include h hitems

theorem index_eq (i : ℕ) : m.index i = ((q.length - m.items.toNat + i) % maxItems : ℕ) := by
  have h1 := h.items
  rw [Memory.index_eq (by rw [h.free]; omega) hitems, h.free]
  simp only [maxItems] at hitems ⊢
  omega

theorem listed_of_stores (hrows : ∀ (k : ℕ) w, q[k]? = some w → q.length ≤ k + m.items.toNat →
    Stores heap (row (k % maxItems : ℕ)) w) :
    (List.range m.items.toNat).map (fun i : ℕ => cstring heap (row (m.index i))) = stored m q := by
  have h1 := h.items
  apply List.ext_getElem?
  intro i
  rw [List.getElem?_map, stored, List.getElem?_drop]
  by_cases hi : i < m.items.toNat
  · have hlt : q.length - m.items.toNat + i < q.length := by omega
    have hget := List.getElem?_eq_getElem hlt
    have hshort := h.short _ (List.mem_of_getElem? hget)
    have hread := (hrows _ _ hget (by omega)).cstring_eq (by
      simp only [row, maxWord, maxItems] at hshort ⊢
      omega)
    rw [List.getElem?_range hi, hget, Option.map_some, h.index_eq hitems, hread]
  · rw [List.getElem?_eq_none (by simpa using hi), List.getElem?_eq_none (by omega), Option.map_none]

theorem listed_eq : m.listed = stored m q :=
  h.listed_of_stores hitems fun k w hk hlast => h.rows k w hk (by omega)

end

end Remembers

def Appends (p : P) (m : Memory P) (w : CString) : Prop :=
  ∃ l m', m.imprimirPila p = some (l, m) ∧ m.agregarPalabra p w = some m' ∧ m'.imprimirPila p = some (l ++ [w], m') ∧
    (∀ i, ¬ (row m.free ≤ i ∧ i < row m.free + maxWord) → m'.heap i = m.heap i) ∧ m'.free = (m.free + 1) % maxItems ∧
    m'.items = m.items + 1 ∧ m'.mutex = m.mutex ∧ m'.full + 1 = m.full ∧ m'.empty = m.empty + 1

def Confined (m : Memory P) (w : CString) : Prop :=
  row m.free + w.1.length ≤ row maxItems ∧ ∀ j : ℕ, maxWord ≤ j → j ≤ w.1.length → m.heap (row m.free + j) = w.1.getD j 0

theorem strcpy_outside (hw : ∀ j : ℕ, maxWord ≤ j → j ≤ w.1.length → heap (row m.free + j) = w.1.getD j 0) {i : ℤ}
    (hi : ¬ (row m.free ≤ i ∧ i < row m.free + maxWord)) : strcpy heap (row m.free) w i = heap i := by
  unfold strcpy
  split_ifs with hin
  · have hj := hw (i - row m.free).toNat (by omega) (by omega)
    rw [← hj]
    congr 1
    omega
  · rfl

theorem Stores.cstring_eq_of_le {a : ℤ} (h : Stores heap a w) (ha : a + w.1.length ≤ row maxItems) : cstring heap a = w := by
  by_cases hlt : a + w.1.length < row maxItems
  · exact h.cstring_eq hlt
  have hlen : (row maxItems - a).toNat = w.1.length := by omega
  apply Subtype.ext
  simp only [cstring, hlen, h.map_range]
  rw [List.takeWhile_eq_self_iff]
  intro x hx
  rw [decide_eq_true_eq]
  rintro rfl
  exact w.2 hx

theorem length_cstring_le (heap : ℤ → UInt8) (a : ℤ) : (cstring heap a).1.length ≤ (row maxItems - a).toNat := by
  have h := (List.takeWhile_prefix (p := (· ≠ 0)) (l := (List.range (row maxItems - a).toNat).map fun k : ℕ =>
    heap (a + k))).length_le
  rw [List.length_map, List.length_range] at h
  exact h

theorem Remembers.listed_push (h : Remembers m q) (hlt : m.items < maxItems) (full empty : ℕ) (heap : ℤ → UInt8) :
    Memory.listed (P := P) ⟨((q.length + 1) % maxItems : ℕ), m.items + 1, none, full, empty, heap⟩ =
      (List.range m.items.toNat).map (fun i : ℕ => cstring heap (row (m.index i))) ++ [cstring heap (row m.free)] := by
  have hitems := h.items
  have hindex : ∀ i : ℕ, Memory.index (P := P) ⟨((q.length + 1) % maxItems : ℕ), m.items + 1, none, full,
    empty, heap⟩ i = m.index i := by
    intro i
    rw [Memory.index_eq (by dsimp only; omega) (by dsimp only; omega),
      Memory.index_eq (by rw [h.free]; omega) (by omega), h.free]
    simp only [maxItems] at hlt ⊢
    omega
  have hlast : m.index m.items.toNat = m.free := by
    rw [h.index_eq (by omega), h.free]
    simp only [maxItems]
    omega
  have hcount : (m.items + 1).toNat = m.items.toNat + 1 := by omega
  simp only [Memory.listed, hcount, hindex]
  rw [List.range_succ, List.map_append, List.map_singleton, hlast]

theorem push_appends_iff {cmds : List Command} {s : Session P} (hshort : ∀ v ∈ added cmds, v.1.length < maxWord)
    (hs : Runs.run (exec p) created cmds = some s) (hlt : s.memory.items < maxItems) (w : CString) :
    Appends p s.memory w ↔ Confined s.memory w := by
  obtain ⟨q, h⟩ := Remembers.created.run hshort hs
  generalize s.memory = m at h hlt
  have hempty := h.empty
  have hplaces := h.places
  have hfull : 0 < m.full := by omega
  have hlisted := h.listed_push hlt (m.full - 1) (m.empty + 1) (strcpy m.heap (row m.free) w)
  constructor
  · rintro ⟨l, m', hl, hpush, hl', hframe, -⟩
    rw [h.agregar_eq p w hfull] at hpush
    cases hpush
    constructor
    · rw [imprimirPila_eq p rfl, hlisted] at hl'
      have hlast := (List.append_inj' (Prod.mk.inj (Option.some.inj hl')).1 rfl).2
      have hword : cstring (strcpy m.heap (row m.free) w) (row m.free) = w := by simpa using hlast
      have hlen := length_cstring_le (strcpy m.heap (row m.free) w) (row m.free)
      have hfree : row m.free ≤ row maxItems := by
        rw [h.free]
        simp only [row, maxWord, maxItems]
        omega
      rw [hword] at hlen
      omega
    · intro j hj hjw
      rw [← stores_strcpy m.heap (row m.free) w j hjw]
      exact (hframe _ (by omega)).symm
  · rintro ⟨hend, hsame⟩
    have hframe := fun i => strcpy_outside (i := i) hsame
    refine ⟨m.listed, _, imprimirPila_eq p h.mutex, h.agregar_eq p w hfull, ?_, fun i hi => hframe i hi, ?_, rfl,
      h.mutex.symm, ?_, rfl⟩
    · have hrows : ∀ (k : ℕ) v, q[k]? = some v → q.length ≤ k + m.items.toNat →
          Stores (strcpy m.heap (row m.free) w) (row (k % maxItems : ℕ)) v := by
        intro k v hk hlast j hj
        have hv := h.short v (List.mem_of_getElem? hk)
        have hkl := (List.getElem?_eq_some_iff.mp hk).1
        rw [hframe _ ?_]
        · exact h.rows k v hk (by omega) j hj
        · rw [h.free]
          simp only [row, maxWord, maxItems] at hv hlt ⊢
          omega
      rw [imprimirPila_eq p rfl, hlisted, h.listed_of_stores (by omega) hrows,
        (stores_strcpy m.heap (row m.free) w).cstring_eq_of_le hend, h.listed_eq (by omega)]
    · rw [h.free]
      simp only [maxItems]
      omega
    · dsimp only
      omega

def word (n : ℕ) : CString := ⟨List.replicate n 97, by simp⟩

theorem push_appends_second : ∃ s : Session Unit, Runs.run (exec ()) created [.agregar (word 3)] = some s ∧
    s.memory.listed = [word 3] ∧ Appends () s.memory (word 49) :=
  ⟨_, rfl, by decide +kernel, (push_appends_iff (by decide) (rfl : Runs.run (exec ()) created [.agregar (word 3)] = _)
    (by decide) _).mpr ⟨by decide, by decide⟩⟩

theorem push_changes_word : ∃ s t : Session Unit, Runs.run (exec ()) created [.agregar (word 60)] = some s ∧
    s.memory.listed = [word 60] ∧
    exec () s (.agregar ⟨[98], by decide⟩) = some t ∧
      t.memory.listed = [⟨List.replicate 50 97 ++ [98], by decide⟩, ⟨[98], by decide⟩] := by
  refine ⟨_, _, rfl, by decide +kernel, rfl, by decide +kernel⟩

end Laboratorio.WordStack
