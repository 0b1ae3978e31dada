import Mathlib

/-!
Circular doubly linked lists. The node of `x` is `some x`; `none` is the head, which holds no value.
-/

namespace Laboratorio

open Function

variable {ι : Type}

structure Links (ι : Type) where
  next : Option ι → Option ι
  prev : Option ι → Option ι

namespace Links

variable {k k' : Links ι} {l l₁ l₂ : List ι} {b : ι}

def Joined (k : Links ι) (x y : Option ι) : Prop := k.next x = y ∧ k.prev y = x

structure Lists (k : Links ι) (l : List ι) : Prop where
  nodup : l.Nodup
  joined : (none :: (l.map some ++ [none])).IsChain k.Joined

variable {x : Option ι} {m : List (Option ι)}

theorem joined_congr (h : (x :: m).IsChain k.Joined)
    (hn : ∀ y ∈ (x :: m).dropLast, k'.next y = k.next y) (hp : ∀ y ∈ m, k'.prev y = k.prev y) : (x :: m).IsChain k'.Joined := by
  induction m generalizing x with
  | nil => exact List.isChain_singleton x
  | cons y m ih =>
    rw [List.isChain_cons_cons] at h ⊢
    refine ⟨⟨?_, ?_⟩, ih h.2 (fun z hz => hn z ?_) (fun z hz => hp z (List.mem_cons_of_mem _ hz))⟩
    · rw [hn x (by simp), h.1.1]
    · rw [hp y (by simp), h.1.2]
    · exact List.mem_cons_of_mem _ hz

theorem exists_joined_of_mem {z : Option ι} (h : (m ++ [z]).IsChain k.Joined) (hx : x ∈ m) : ∃ y, k.Joined x y := by
  obtain ⟨m₁, m₂, rfl⟩ := List.append_of_mem hx
  have h' : (x :: (m₂ ++ [z])).IsChain k.Joined := by
    rw [List.append_assoc, List.isChain_append] at h
    exact h.2.1
  cases m₂ with
  | nil => exact ⟨z, (List.isChain_cons_cons.mp h').1⟩
  | cons y m₂ => exact ⟨y, (List.isChain_cons_cons.mp h').1⟩

theorem iterate_of_chain {f : Option ι → Option ι} (h : (x :: m).IsChain (fun x y => f x = y)) (i : ℕ)
    (hi : i < m.length) : f^[i + 1] x = m[i] := by
  induction m generalizing x i with
  | nil => simp at hi
  | cons y m ih =>
    rw [List.isChain_cons_cons] at h
    rw [iterate_succ_apply, h.1]
    cases i with
    | zero => rfl
    | succ i => exact ih h.2 i (by simpa using hi)

/-- `for (b = x; b != head; b = f(b)) if (P(b)) ...`, for fewer than `n` nodes. -/
def seek (f : Option ι → Option ι) (P : ι → Bool) : ℕ → Option ι → Option (Option ι)
  | 0, _ => none
  | _ + 1, none => some none
  | n + 1, some b => if P b then some (some b) else seek f P n (f (some b))

theorem seek_of_chain {f : Option ι → Option ι} (P : ι → Bool)
    (h : (x :: (l.map some ++ [none])).IsChain (fun x y => f x = y)) : seek f P (l.length + 1) (f x) = some (l.find? P) := by
  induction l generalizing x with
  | nil =>
    rw [(List.isChain_cons_cons.mp h).1]
    rfl
  | cons b l ih =>
    have hb := List.isChain_cons_cons.mp h
    rw [hb.1]
    cases hP : P b with
    | true => simp [seek, hP]
    | false =>
      simpa [seek, hP] using ih hb.2

namespace Lists

variable (h : k.Lists l)

include h

theorem reverse : (none :: (l.reverse.map some ++ [none])).IsChain (Joined ⟨k.prev, k.next⟩) := by
  have hr : (none :: (l.map some ++ [none])).reverse.IsChain (Joined ⟨k.prev, k.next⟩) := by
    rw [List.isChain_reverse]
    exact h.joined.imp fun _ _ hj => ⟨hj.2, hj.1⟩
  simpa using hr

theorem prev_next (hall : ∀ b, b ∈ l) (x : Option ι) : k.prev (k.next x) = x := by
  have hx : x ∈ none :: l.map some := by
    cases x with
    | none => simp
    | some b => simp [hall b]
  obtain ⟨y, hn, hp⟩ := exists_joined_of_mem (by simpa using h.joined) hx
  rw [hn, hp]

theorem next_prev (hall : ∀ b, b ∈ l) (x : Option ι) : k.next (k.prev x) = x := by
  have hx : x ∈ none :: l.reverse.map some := by
    cases x with
    | none => simp
    | some b => simp [hall b]
  obtain ⟨y, hp, hn⟩ := exists_joined_of_mem (by simpa using h.reverse) hx
  exact (congrArg k.next hp).trans hn

theorem iterate_next (i : ℕ) (hi : i < l.length) : k.next^[i + 1] none = some l[i] := by
  have hc : (none :: (l.map some ++ [none])).IsChain (fun x y => k.next x = y) := h.joined.imp fun _ _ hj => hj.1
  rw [iterate_of_chain hc i (by simp; omega)]
  simp [hi]

theorem iterate_next_length : k.next^[l.length + 1] none = none := by
  have hc : (none :: (l.map some ++ [none])).IsChain (fun x y => k.next x = y) := h.joined.imp fun _ _ hj => hj.1
  rw [iterate_of_chain hc l.length (by simp)]
  simp

theorem seek_next (P : ι → Bool) : seek k.next P (l.length + 1) (k.next none) = some (l.find? P) :=
  seek_of_chain P (h.joined.imp fun _ _ hj => hj.1)

theorem seek_prev (P : ι → Bool) : seek k.prev P (l.length + 1) (k.prev none) = some (l.reverse.find? P) := by
  rw [← List.length_reverse]
  exact seek_of_chain P (h.reverse.imp fun _ _ hj => hj.1)

end Lists

def empty : Links ι := ⟨fun _ => none, fun _ => none⟩

theorem empty_lists : (empty : Links ι).Lists [] := by
  refine ⟨List.nodup_nil, ?_⟩
  simp [Joined, empty]

variable [DecidableEq ι]

def insert (k : Links ι) (b : ι) : Links ι :=
  let next := update k.next (some b) (k.next none)
  let prev := update (update k.prev (some b) none) (next none) (some b)
  ⟨update next none (some b), prev⟩

def remove (k : Links ι) (b : ι) : Links ι :=
  let prev := update k.prev (k.next (some b)) (k.prev (some b))
  ⟨update k.next (prev (some b)) (k.next (some b)), prev⟩

theorem Lists.insert (h : k.Lists l) (hb : b ∉ l) : (k.insert b).Lists (b :: l) := by
  refine ⟨List.nodup_cons.mpr ⟨hb, h.nodup⟩, ?_⟩
  obtain ⟨y, m, hm⟩ : ∃ y m, l.map some ++ [none] = y :: m := by cases l <;> simp
  have hj := h.joined
  rw [hm, List.isChain_cons_cons] at hj
  have hnodup : (y :: m).Nodup := by
    rw [← hm]
    simp [List.nodup_append, h.nodup.map fun _ _ => Option.some.inj]
  have hmem : ∀ z ∈ y :: m, z ≠ some b := by
    rw [← hm]
    rintro z hz rfl
    simp [hb] at hz
  have hy : y ≠ some b := hmem y (by simp)
  rw [List.map_cons, List.cons_append, hm, List.isChain_cons_cons, List.isChain_cons_cons]
  refine ⟨⟨?_, ?_⟩, ⟨?_, ?_⟩, joined_congr hj.2 (fun z hz => ?_) (fun z hz => ?_)⟩
  · simp [Links.insert]
  · simp [Links.insert, hj.1.1, Ne.symm hy]
  · simp [Links.insert, hj.1.1]
  · simp [Links.insert, hj.1.1]
  · have hz' : z ∈ l.map some := by
      rw [← hm, List.dropLast_concat] at hz
      exact hz
    have hne : z ≠ none := by
      rintro rfl
      simp at hz'
    simp [Links.insert, hne, hmem z (List.dropLast_subset _ hz)]
  · have hne : z ≠ y := by
      rintro rfl
      exact (List.nodup_cons.mp hnodup).1 hz
    simp [Links.insert, hj.1.1, hne, hmem z (List.mem_cons_of_mem _ hz)]

theorem Lists.remove (h : k.Lists (l₁ ++ b :: l₂)) : (k.remove b).Lists (l₁ ++ l₂) := by
  have hnodup := h.nodup
  rw [List.nodup_append, List.nodup_cons] at hnodup
  obtain ⟨hn₁, ⟨hb₂, hn₂⟩, hdisj⟩ := hnodup
  refine ⟨List.nodup_append.mpr ⟨hn₁, hn₂, fun x hx y hy => hdisj x hx y (List.mem_cons_of_mem _ hy)⟩, ?_⟩
  obtain ⟨m, x, hm⟩ : ∃ m x, none :: l₁.map some = m ++ [x] :=
    ⟨_, _, (List.dropLast_append_getLast (List.cons_ne_nil none (l₁.map some))).symm⟩
  obtain ⟨y, n, hn⟩ : ∃ y n, l₂.map some ++ [none] = y :: n := by cases l₂ <;> simp
  have hj : ((m ++ [x]) ++ some b :: y :: n).IsChain k.Joined := by
    rw [← hm, ← hn]
    simpa using h.joined
  rw [List.isChain_append, List.isChain_cons_cons] at hj
  obtain ⟨hm', ⟨⟨hnext, _⟩, hn'⟩, hxb⟩ := hj
  have hprev : k.prev (some b) = x := (hxb x (by simp) (some b) (by simp)).2
  have hmn : (m ++ [x]).Nodup := by
    rw [← hm]
    simp [hn₁.map fun _ _ => Option.some.inj]
  have hnn : (y :: n).Nodup := by
    rw [← hn]
    simp [List.nodup_append, hn₂.map fun _ _ => Option.some.inj]
  have hx : x ∉ l₂.map some := by
    have hmem : x ∈ none :: l₁.map some := by simp [hm]
    rintro hx
    obtain ⟨c, hc, rfl⟩ := List.mem_map.mp hx
    exact hdisj c (by simpa using hmem) c (List.mem_cons_of_mem _ hc) rfl
  have hmem : y ∈ l₂.map some ++ [none] := by simp [hn]
  have hy : y ∉ l₁.map some := by
    intro hy
    obtain ⟨c, hc, rfl⟩ := List.mem_map.mp hy
    exact hdisj c hc c (List.mem_cons_of_mem _ (by simpa using hmem)) rfl
  have hyb : some b ≠ y := by
    rintro rfl
    simp [hb₂] at hmem
  have hremove : k.remove b = ⟨update k.next x y, update k.prev y x⟩ := by simp [Links.remove, hnext, hprev, hyb]
  have hgoal : (none :: ((l₁ ++ l₂).map some ++ [none])) = (m ++ [x]) ++ (y :: n) := by simp [← hm, ← hn]
  rw [hgoal, hremove, List.isChain_append]
  refine ⟨?_, joined_congr hn' (fun z hz => ?_) (fun z hz => ?_), ?_⟩
  · rw [← hm] at hm' ⊢
    refine joined_congr hm' (fun z hz => ?_) (fun z hz => ?_)
    · rw [hm, List.dropLast_concat] at hz
      have hne : z ≠ x := by
        rintro rfl
        exact (List.nodup_append.mp hmn).2.2 z hz z (by simp) rfl
      simp [hne]
    · have hne : z ≠ y := by
        rintro rfl
        exact hy hz
      simp [hne]
  · rw [← hn, List.dropLast_concat] at hz
    have hne : z ≠ x := by
      rintro rfl
      exact hx hz
    simp [hne]
  · have hne : z ≠ y := by
      rintro rfl
      exact (List.nodup_cons.mp hnn).1 hz
    simp [hne]
  · simp [Joined]

end Links

end Laboratorio
