import Mathlib

/-!
Circular singly linked lists, and loops that go round them.
-/

namespace Laboratorio

variable {ι : Type} {next next' : ι → ι} {b p x : ι} {l l₁ l₂ : List ι}

def Cycle (next : ι → ι) (b : ι) (l : List ι) : Prop := (b :: l).map next = l ++ [b]

namespace Cycle

theorem append_iff {d : List ι} (hd : b :: l₁ = d ++ [p]) :
    Cycle next b (l₁ ++ l₂) ↔ d.map next = l₁ ∧ next p :: l₂.map next = l₂ ++ [b] := by
  have hlen : (d.map next).length = l₁.length := by
    have := congrArg List.length hd
    simpa using this.symm
  have hlist : (b :: (l₁ ++ l₂)).map next = d.map next ++ (next p :: l₂.map next) := by
    rw [← List.cons_append, hd]
    simp
  unfold Cycle
  rw [hlist, List.append_assoc]
  exact ⟨fun h => List.append_inj h hlen, fun h => by rw [h.1, h.2]⟩

theorem splice {d m n : List ι} (h : Cycle next b (l₁ ++ (m ++ l₂))) (hd : b :: l₁ = d ++ [p]) (hl₁ : ∀ y ∈ d, next' y = next y)
    (hl₂ : ∀ y ∈ l₂, next' y = next y)
    (hn : next p :: m.map next ++ l₂.map next = m ++ (l₂ ++ [b]) → next' p :: n.map next' ++ l₂.map next = n ++ (l₂ ++ [b])) :
    Cycle next' b (l₁ ++ (n ++ l₂)) := by
  obtain ⟨h1, h2⟩ := (append_iff hd).mp h
  refine (append_iff hd).mpr ⟨?_, ?_⟩
  · rw [List.map_congr_left hl₁, h1]
  · rw [List.map_append, List.map_congr_left hl₂, List.append_assoc]
    rw [List.map_append, List.append_assoc] at h2
    exact hn h2

theorem map_perm (h : Cycle next b l) : ((b :: l).map next).Perm (b :: l) := by
  rw [h]
  exact List.perm_append_singleton b l

theorem congr (h : Cycle next b l) (hn : ∀ y ∈ b :: l, next' y = next y) : Cycle next' b l := by
  rw [Cycle, List.map_congr_left hn]
  exact h

theorem rotate (h : Cycle next b l) (hx : x ∈ b :: l) : ∃ r, Cycle next x r ∧ (x :: r).Perm (b :: l) := by
  rcases List.mem_cons.mp hx with rfl | hx
  · exact ⟨l, h, List.Perm.refl _⟩
  obtain ⟨l₁, l₂, rfl⟩ := List.append_of_mem hx
  refine ⟨l₂ ++ b :: l₁, ?_, ?_⟩
  · obtain ⟨d, p, hd⟩ : ∃ d p, b :: l₁ = d ++ [p] := ⟨_, _, (List.dropLast_append_getLast (List.cons_ne_nil b l₁)).symm⟩
    obtain ⟨h1, h2⟩ := (append_iff hd).mp h
    simp only [List.map_cons, List.cons_append, List.cons.injEq] at h2
    obtain ⟨h2, h3⟩ := h2
    have hmap : (b :: l₁).map next = l₁ ++ [x] := by rw [hd, List.map_append, h1, List.map_singleton, h2]
    rw [Cycle, List.map_cons, List.map_append, hmap, ← List.cons_append, h3]
    simp
  · rw [← List.cons_append]
    exact List.perm_append_comm.trans (by simp)

end Cycle

theorem exists_split {y : ι} (hy : y ∈ b :: l) : ∃ d l₁ l₂, l = l₁ ++ l₂ ∧ b :: l₁ = d ++ [y] := by
  rcases List.mem_cons.mp hy with rfl | hy
  · exact ⟨[], [], l, rfl, rfl⟩
  · obtain ⟨l₁, l₂, rfl⟩ := List.append_of_mem hy
    exact ⟨b :: l₁, l₁ ++ [y], l₂, by simp, by simp⟩

theorem Cycle.next_cases [LT ι] {y : ι} (h : Cycle next b l) (hs : (b :: l).Pairwise (· < ·)) (hy : y ∈ b :: l) :
    next y = b ∨ y < next y := by
  obtain ⟨d, l₁, l₂, rfl, hd⟩ := exists_split hy
  obtain ⟨-, h2⟩ := (append_iff hd).mp h
  cases l₂ with
  | nil => exact .inl (by simpa using h2)
  | cons z l₂ =>
    rw [← List.cons_append, hd, List.append_assoc, List.pairwise_append] at hs
    rw [List.cons_append, List.cons.injEq] at h2
    rw [h2.1]
    exact .inr ((List.pairwise_cons.mp hs.2.1).1 z (by simp))

/-- `for (p = b; !stop(p); p = next(p)) ;`, for fewer than `n` rounds. -/
def seek (next : ι → ι) (stop : ι → Prop) [DecidablePred stop] : ℕ → ι → Option ι
  | 0, _ => none
  | n + 1, p => if stop p then some p else seek next stop n (next p)

theorem Cycle.seek_eq_some {stop : ι → Prop} [DecidablePred stop] (h : Cycle next b l) (hx : x ∈ b :: l)
    (hstop : stop x) {n : ℕ} (hn : l.length < n) : ∃ y ∈ b :: l, stop y ∧ seek next stop n b = some y := by
  -- the loop has come as far as `p`, and the nodes of `l'` are to come
  have hloop : ∀ l' p n, (p :: l').map next = l' ++ [b] → x ∈ p :: l' → l'.length < n →
      ∃ y ∈ p :: l', stop y ∧ seek next stop n p = some y := by
    intro l'
    induction l' with
    | nil =>
      intro p n _ hp hn
      obtain ⟨n, rfl⟩ : ∃ m, n = m + 1 := ⟨n - 1, by omega⟩
      obtain rfl : x = p := by simpa using hp
      exact ⟨x, by simp, hstop, if_pos hstop⟩
    | cons q l' ih =>
      intro p n hp hx hn
      obtain ⟨n, rfl⟩ : ∃ m, n = m + 1 := ⟨n - 1, by omega⟩
      by_cases hsp : stop p
      · exact ⟨p, by simp, hsp, if_pos hsp⟩
      have hxq : x ∈ q :: l' := by
        rcases List.mem_cons.mp hx with rfl | hx
        · exact absurd hstop hsp
        · exact hx
      simp only [List.map_cons, List.cons_append, List.cons.injEq] at hp
      obtain ⟨hpq, hq⟩ := hp
      obtain ⟨y, hy, hsy, hseek⟩ := ih q n (by simpa using hq) hxq (by simpa using hn)
      refine ⟨y, List.mem_cons_of_mem _ hy, hsy, ?_⟩
      rw [seek, if_neg hsp, hpq, hseek]
  exact hloop l b n h hx hn

end Laboratorio
