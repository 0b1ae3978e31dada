import Mathlib

/-!
The order in which pages were last mentioned, and first-in first-out replacement told by the list of all loads.
-/

namespace Laboratorio

variable {α : Type}

def window (frames : ℕ) (ld : List α) : List (α × ℕ) := (ld.zipIdx.drop (ld.length - frames)).map fun p => (p.1, p.2 % frames)

theorem length_window (frames : ℕ) (ld : List α) : (window frames ld).length = min ld.length frames := by
  simp [window]
  omega

theorem getElem?_window {frames : ℕ} {ld : List α} (n : ℕ) :
    (window frames ld)[n]? = ld[ld.length - frames + n]?.map fun x => (x, (ld.length - frames + n) % frames) := by
  simp only [window, List.getElem?_map, List.getElem?_drop, List.getElem?_zipIdx, Option.map_map]
  cases ld[ld.length - frames + n]? with
  | none => rfl
  | some x => simp

variable [DecidableEq α]

def latest (l : List α) (x : α) : ℕ := l.length - l.reverse.idxOf x

section latest

variable {l : List α} {x y : α} {n : ℕ}

@[simp] theorem latest_nil (x : α) : latest [] x = 0 := rfl

theorem latest_snoc (l : List α) (x y : α) : latest (l ++ [y]) x = if y = x then l.length + 1 else latest l x := by
  unfold latest
  rw [List.reverse_append, List.reverse_singleton, List.singleton_append, List.idxOf_cons, List.length_append,
    List.length_singleton]
  by_cases h : y = x
  · simp [h]
  · have hb : (y == x) = false := by simpa using h
    rw [hb, cond_false, if_neg h]
    omega

theorem latest_snoc_self (l : List α) (x : α) : latest (l ++ [x]) x = l.length + 1 := by rw [latest_snoc, if_pos rfl]

theorem latest_snoc_of_ne (l : List α) (h : x ≠ y) : latest (l ++ [y]) x = latest l x := by rw [latest_snoc, if_neg h.symm]

theorem latest_le (l : List α) (x : α) : latest l x ≤ l.length := Nat.sub_le _ _

theorem latest_pos_iff : 0 < latest l x ↔ x ∈ l := by
  unfold latest
  rw [← List.mem_reverse, ← List.idxOf_lt_length_iff, List.length_reverse]
  omega

theorem getElem_of_latest (h : latest l x = n + 1) : l[n]? = some x := by
  induction l using List.reverseRecOn with
  | nil => simp at h
  | append_singleton l y ih =>
    by_cases hxy : x = y
    · subst hxy
      rw [latest_snoc_self] at h
      obtain rfl : l.length = n := by omega
      simp
    · rw [latest_snoc_of_ne l hxy] at h
      have hlt : n < l.length := by
        have := latest_le l x
        omega
      rw [List.getElem?_append_left hlt]
      exact ih h

theorem latest_ge (h : l[n]? = some x) : n + 1 ≤ latest l x := by
  induction l using List.reverseRecOn with
  | nil => simp at h
  | append_singleton l y ih =>
    obtain ⟨hn, hx⟩ := List.getElem?_eq_some_iff.mp h
    rw [List.length_append, List.length_singleton] at hn
    by_cases hxy : x = y
    · subst hxy
      rw [latest_snoc_self]
      omega
    · rw [latest_snoc_of_ne l hxy]
      apply ih
      by_cases hlast : n = l.length
      · subst hlast
        simp only [List.getElem_concat_length] at hx
        exact absurd hx.symm hxy
      · rwa [List.getElem?_append_left (by omega)] at h

theorem latest_inj (hx : x ∈ l) (h : latest l x = latest l y) : x = y := by
  obtain ⟨n, hn⟩ : ∃ n, latest l x = n + 1 := Nat.exists_eq_succ_of_ne_zero (latest_pos_iff.mpr hx).ne'
  have h1 := getElem_of_latest hn
  have h2 := getElem_of_latest (h ▸ hn)
  exact Option.some.inj (h1.symm.trans h2)

theorem latest_of_nodup (hl : l.Nodup) (h : l[n]? = some x) : latest l x = n + 1 := by
  have hge := latest_ge h
  obtain ⟨m, hm⟩ : ∃ m, latest l x = m + 1 := Nat.exists_eq_succ_of_ne_zero (by omega)
  obtain ⟨hn, hx⟩ := List.getElem?_eq_some_iff.mp h
  obtain ⟨hm', hx'⟩ := List.getElem?_eq_some_iff.mp (getElem_of_latest hm)
  rw [hm, (hl.getElem_inj_iff).mp (hx'.trans hx.symm)]

end latest

variable (frames : ℕ)

def Resident (ld : List α) (x : α) : Prop := ld.length - frames < latest ld x

instance (ld : List α) (x : α) : Decidable (Resident frames ld x) := inferInstanceAs (Decidable (_ < _))

def load (ld : List α) (x : α) : List α := if Resident frames ld x then ld else ld ++ [x]

def Fresh (ld : List α) : Prop := ∀ n x, ld[n]? = some x → ld.length ≤ n + frames → latest ld x = n + 1

/-- First-in first-out replacement. The pages in memory stand in the order of their loads, each with its frame; frames are
filled in increasing order, and afterwards a page goes to the frame of the one that it replaces. -/
def fifoStep (q : List (α × ℕ)) (x : α) : List (α × ℕ) :=
  if x ∈ q.map Prod.fst then q
  else if q.length < frames then q ++ [(x, q.length)]
  else
    match q with
    | [] => []
    | (_, f) :: rest => rest ++ [(x, f)]

variable {frames} {ld : List α} {x y : α}

namespace Fresh

theorem nil : Fresh frames ([] : List α) := by
  intro n x h
  simp at h

theorem load (h : Fresh frames ld) (x : α) : Fresh frames (load frames ld x) := by
  unfold Laboratorio.load
  split_ifs with hx
  · exact h
  intro n y hy hn
  rw [List.length_append, List.length_singleton] at hn
  by_cases hlt : n < ld.length
  · rw [List.getElem?_append_left hlt] at hy
    have hyl := h n y hy (by omega)
    have hne : y ≠ x := by
      rintro rfl
      unfold Resident at hx
      omega
    rw [latest_snoc_of_ne ld hne, hyl]
  · have hn' : n = ld.length := by
      have := (List.getElem?_eq_some_iff.mp hy).1
      rw [List.length_append, List.length_singleton] at this
      omega
    subst hn'
    obtain rfl : x = y := by simpa using hy
    exact latest_snoc_self ld x

theorem card_resident (h : Fresh frames ld) : (ld.toFinset.filter (Resident frames ld)).card = min ld.length frames := by
  have hcard : (ld.toFinset.filter (Resident frames ld)).card = (Finset.Ioc (ld.length - frames) ld.length).card := by
    refine Finset.card_nbij (latest ld) (fun x hx => ?_) (fun x hx y _ he => ?_) fun n hn => ?_
    · obtain ⟨-, hx⟩ := Finset.mem_filter.mp hx
      exact Finset.mem_Ioc.mpr ⟨hx, latest_le ld x⟩
    · have hx := (Finset.mem_filter.mp hx).1
      exact latest_inj (List.mem_toFinset.mp hx) he
    · obtain ⟨hlow, hhigh⟩ := Finset.mem_Ioc.mp hn
      have hlt : n - 1 < ld.length := by omega
      have hn := h _ _ (List.getElem?_eq_getElem hlt) (by omega)
      rw [Nat.sub_add_cancel (by omega)] at hn
      refine ⟨ld[n - 1], Finset.mem_filter.mpr ⟨List.mem_toFinset.mpr (List.getElem_mem hlt), ?_⟩, hn⟩
      rw [Resident, hn]
      exact hlow
  rw [hcard, Nat.card_Ioc]
  omega

end Fresh

theorem mem_load : y ∈ load frames ld x ↔ y ∈ ld ∨ y = x := by
  unfold load
  split_ifs with hx
  · refine ⟨Or.inl, ?_⟩
    rintro (hy | rfl)
    · exact hy
    · unfold Resident at hx
      exact latest_pos_iff.mp (by omega)
  · simp

theorem resident_load_self (hf : 0 < frames) (ld : List α) (x : α) : Resident frames (load frames ld x) x := by
  unfold load
  split_ifs with hx
  · exact hx
  · rw [Resident, latest_snoc_self, List.length_append, List.length_singleton]
    omega

theorem Resident.of_load (h : Resident frames (load frames ld x) y) (hne : y ≠ x) : Resident frames ld y := by
  unfold load at h
  split_ifs at h with hx
  · exact h
  · unfold Resident at h ⊢
    rw [latest_snoc_of_ne ld hne, List.length_append, List.length_singleton] at h
    omega

variable (frames) in
def Evicts (ld : List α) (x y : α) : Prop := Resident frames ld y ∧ ¬ Resident frames (load frames ld x) y

theorem evicts_iff : Evicts frames ld x y ↔ ¬ Resident frames ld x ∧ frames ≤ ld.length ∧
    latest ld y = ld.length - frames + 1 ∧ y ∈ ld := by
  unfold Evicts load
  by_cases hx : Resident frames ld x
  · rw [if_pos hx]
    exact ⟨fun h => absurd h.1 h.2, fun h => absurd hx h.1⟩
  rw [if_neg hx]
  by_cases hyx : y = x
  · subst hyx
    refine ⟨fun h => absurd h.1 hx, fun ⟨_, _, hy, _⟩ => absurd ?_ hx⟩
    rw [Resident, hy]
    omega
  · have hlen : (ld ++ [x]).length = ld.length + 1 := by simp
    have hmem : y ∈ ld ↔ 0 < latest ld y := latest_pos_iff.symm
    simp only [Resident, latest_snoc_of_ne ld hyx, hlen, hmem]
    unfold Resident at hx
    omega

theorem Evicts.latest_le (h : Evicts frames ld x y) {z : α} (hz : Resident frames ld z) : latest ld y ≤ latest ld z := by
  have hy := (evicts_iff.mp h).2.2.1
  unfold Resident at hz
  omega

theorem Fresh.exists_evicts (h : Fresh frames ld) (hf : 0 < frames) (hge : frames ≤ ld.length) (hx : ¬ Resident frames ld x) :
    ∃ y, Evicts frames ld x y := by
  have hlt : ld.length - frames < ld.length := by omega
  refine ⟨ld[ld.length - frames], evicts_iff.mpr ⟨hx, hge, ?_, List.getElem_mem hlt⟩⟩
  exact h _ _ (List.getElem?_eq_getElem hlt) (by omega)

variable (frames) in
def Recent (refs ld : List α) : Prop := ∀ x y, Resident frames ld x → y ∈ refs → ¬ Resident frames ld y →
    latest refs y < latest refs x

theorem recent_nil (refs : List α) : Recent frames refs [] := by
  intro x y hx
  simp [Resident] at hx

theorem Recent.load {refs : List α} (h : Recent frames refs ld) (hf : 0 < frames)
    (hlru : ∀ y z, Evicts frames ld x y → Resident frames ld z → latest refs y ≤ latest refs z) :
    Recent frames (refs ++ [x]) (load frames ld x) := by
  intro a b ha hb hno
  have hbx : b ≠ x := by
    rintro rfl
    exact hno (resident_load_self hf ld b)
  have hb : b ∈ refs := by simpa [hbx] using hb
  rw [latest_snoc_of_ne refs hbx]
  by_cases hax : a = x
  · subst hax
    rw [latest_snoc_self]
    exact Nat.lt_succ_of_le (latest_le refs b)
  rw [latest_snoc_of_ne refs hax]
  have ha' := ha.of_load hax
  by_cases hbl : Resident frames ld b
  · apply lt_of_le_of_ne (hlru b a ⟨hbl, hno⟩ ha')
    intro he
    rw [latest_inj hb he] at hno
    exact hno ha
  · exact h a b ha' hb hbl

theorem Recent.resident_iff {refs : List α} (h : Recent frames refs ld) (hld : Fresh frames ld) (hmem : ∀ y, y ∈ ld ↔ y ∈ refs)
    (hx : x ∈ refs) : Resident frames ld x ↔ (refs.toFinset.filter fun y => latest refs x < latest refs y).card < frames := by
  have hcard := hld.card_resident
  constructor
  · intro hres
    have hsub : insert x (refs.toFinset.filter fun y => latest refs x < latest refs y) ⊆ ld.toFinset.filter
      (Resident frames ld) := by
      intro y hy
      rw [Finset.mem_filter, List.mem_toFinset, hmem]
      rcases Finset.mem_insert.mp hy with rfl | hy
      · exact ⟨hx, hres⟩
      · rw [Finset.mem_filter, List.mem_toFinset] at hy
        refine ⟨hy.1, ?_⟩
        by_contra hno
        have := h x y hres hy.1 hno
        omega
    have hle := Finset.card_le_card hsub
    rw [Finset.card_insert_of_notMem (by simp)] at hle
    omega
  · intro hlt
    by_contra hno
    have hsub : ld.toFinset.filter (Resident frames ld) ⊆ refs.toFinset.filter fun y => latest refs x < latest refs y := by
      intro y hy
      rw [Finset.mem_filter, List.mem_toFinset, hmem] at hy
      rw [Finset.mem_filter, List.mem_toFinset]
      exact ⟨hy.1, h y x hy.2 hx hno⟩
    have hle := Finset.card_le_card hsub
    have hpos := latest_pos_iff.mpr ((hmem x).mpr hx)
    unfold Resident at hno
    omega

theorem mem_window : x ∈ (window frames ld).map Prod.fst ↔ Resident frames ld x := by
  unfold Resident
  rw [List.mem_map]
  constructor
  · rintro ⟨⟨y, f⟩, hy, rfl⟩
    obtain ⟨n, hn⟩ := List.mem_iff_getElem?.mp hy
    rw [getElem?_window] at hn
    obtain ⟨z, hz, he⟩ := Option.map_eq_some_iff.mp hn
    obtain ⟨rfl, -⟩ := Prod.mk.inj he
    have := latest_ge hz
    simp only
    omega
  · intro h
    obtain ⟨n, hn⟩ : ∃ n, latest ld x = n + 1 := Nat.exists_eq_succ_of_ne_zero (by omega)
    have hx := getElem_of_latest hn
    refine ⟨(x, n % frames), List.mem_iff_getElem?.mpr ⟨n - (ld.length - frames), ?_⟩, rfl⟩
    have hidx : ld.length - frames + (n - (ld.length - frames)) = n := by omega
    rw [getElem?_window, hidx, hx]
    rfl

theorem fifoStep_window (hf : 0 < frames) (ld : List α) (x : α) :
    fifoStep frames (window frames ld) x = window frames (load frames ld x) := by
  unfold fifoStep load
  by_cases hx : Resident frames ld x
  · rw [if_pos (mem_window.mpr hx), if_pos hx]
  rw [if_neg (fun hm => hx (mem_window.mp hm)), if_neg hx, length_window]
  by_cases hlt : ld.length < frames
  · rw [if_pos (by omega)]
    have h0 : ld.length - frames = 0 := by omega
    have h0' : ld.length + 1 - frames = 0 := by omega
    have hmin : min ld.length frames = ld.length := by omega
    simp [window, h0, h0', hmin, List.zipIdx_append, Nat.mod_eq_of_lt hlt]
  rw [if_neg (by omega)]
  have hdrop : (ld ++ [x]).length - frames = ld.length - frames + 1 := by
    rw [List.length_append, List.length_singleton]
    omega
  have hhead : (window frames ld)[0]? = some (ld.get ⟨ld.length - frames, by omega⟩, (ld.length - frames) % frames) := by
    have hl : ld.length - frames < ld.length := by omega
    rw [getElem?_window, Nat.add_zero, List.getElem?_eq_getElem hl]
    rfl
  have hmod : (ld.length - frames) % frames = ld.length % frames := by
    conv_rhs => rw [show ld.length = ld.length - frames + frames by omega, Nat.add_mod_right]
  cases hw : window frames ld with
  | nil =>
    rw [hw] at hhead
    simp at hhead
  | cons e rest =>
    rw [hw] at hhead
    obtain rfl : e = _ := by simpa using hhead
    have hrest : rest = (window frames ld).drop 1 := by rw [hw]; rfl
    rw [hrest, hmod]
    simp only [window, hdrop, List.zipIdx_append, List.zipIdx_singleton, Nat.zero_add]
    rw [List.drop_append_of_le_length (by simp; omega), List.map_append, ← List.map_drop, List.drop_drop]
    rfl

end Laboratorio
