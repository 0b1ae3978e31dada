import Mathlib

namespace Laboratorio

variable {σ ε α β : Type}

/-- From `s` the program ends with a value and a state in `Q`, or with an exception in `E`. -/
def wp (m : StateT σ (Except ε) α) (s : σ) (Q : α → σ → Prop) (E : ε → Prop) : Prop :=
  match m s with
  | .ok (a, s') => Q a s'
  | .error e => E e

instance (m : StateT σ (Except ε) α) (s : σ) (Q : α → σ → Prop) (E : ε → Prop) [∀ a t, Decidable (Q a t)] [DecidablePred E] :
    Decidable (wp m s Q E) :=
  match h : m s with
  | .ok (a, t) => decidable_of_iff (Q a t) (by rw [wp, h])
  | .error e => decidable_of_iff (E e) (by rw [wp, h])

section rules

variable {s : σ} {Q : α → σ → Prop} {R : β → σ → Prop} {E : ε → Prop} {m : StateT σ (Except ε) α} {n : StateT σ (Except ε) β}
  {f : β → StateT σ (Except ε) α}

variable {a : α}

@[simp] theorem wp_pure (a : α) : wp (pure a) s Q E ↔ Q a s := Iff.rfl

theorem wp_ret (h : Q a s) : wp (pure a) s Q E := h

@[simp] theorem wp_bind (m : StateT σ (Except ε) β) (f : β → StateT σ (Except ε) α) :
    wp (m >>= f) s Q E ↔ wp m s (fun b t => wp (f b) t Q E) E := by
  simp only [wp, bind, StateT.bind, Except.bind]
  cases m s with
  | error e => rfl
  | ok p => rfl

@[simp] theorem wp_map (m : StateT σ (Except ε) β) (f : β → α) : wp (f <$> m) s Q E ↔ wp m s (fun b t => Q (f b) t) E := by
  simp only [wp, Functor.map, StateT.map, bind, Except.bind]
  cases m s with
  | error e => rfl
  | ok p => rfl

@[simp] theorem wp_get {Q : σ → σ → Prop} : wp get s Q E ↔ Q s s := Iff.rfl

@[simp] theorem wp_set {Q : PUnit → σ → Prop} (t : σ) : wp (set t) s Q E ↔ Q ⟨⟩ t := Iff.rfl

@[simp] theorem wp_modify {Q : PUnit → σ → Prop} (f : σ → σ) : wp (modify f) s Q E ↔ Q ⟨⟩ (f s) := Iff.rfl

@[simp] theorem wp_throw (e : ε) : wp (throw e) s Q E ↔ E e := Iff.rfl

theorem wp_ite {c : Prop} [Decidable c] {m n : StateT σ (Except ε) α} :
    wp (if c then m else n) s Q E ↔ (c → wp m s Q E) ∧ (¬ c → wp n s Q E) := by
  by_cases h : c <;> simp [h]

theorem wp_mono {Q' : α → σ → Prop} (h : wp m s Q E) (hQ : ∀ a t, Q a t → Q' a t) : wp m s Q' E := by
  unfold wp at h ⊢
  split at h
  · exact hQ _ _ h
  · exact h

theorem wp_seq (h : wp n s R E) (hf : ∀ b t, R b t → wp (f b) t Q E) : wp (n >>= f) s Q E := (wp_bind n f).mpr (wp_mono h hf)

theorem wp_any (m : StateT σ (Except ε) α) : wp m s (fun _ _ => True) fun _ => True := by
  unfold wp
  split
  · trivial
  · trivial

theorem wp_imp {Q' : α → σ → Prop} {E' : ε → Prop} (h : wp m s Q E) (hQ : ∀ a t, Q a t → Q' a t)
    (hE : ∀ e, E e → E' e) : wp m s Q' E' := by
  unfold wp at h ⊢
  split at h
  · exact hQ _ _ h
  · exact hE _ h

theorem wp_self (h : wp m s Q E) : wp m s (fun a t => Q a t ∧ m s = .ok (a, t)) E := by
  unfold wp at h ⊢
  split at h
  · next hm => exact ⟨h, hm⟩
  · exact h

theorem wp_given {P : α → σ → Prop} {F : ε → Prop} (h : wp m s P F) (h' : wp m s (fun a t => P a t → Q a t) E) :
    wp m s Q E := by
  unfold wp at h h' ⊢
  split at h' <;> simp_all

variable {t : σ}

theorem wp_of_eq (hm : m s = .ok (a, t)) (h : Q a t) : wp m s Q E := by
  rw [wp, hm]
  exact h

theorem wp_ok (h : wp m s Q E) (hm : m s = .ok (a, t)) : Q a t := by
  rw [wp, hm] at h
  exact h

theorem wp_error {e : ε} (h : wp m s Q E) (hm : m s = .error e) : E e := by
  rw [wp, hm] at h
  exact h

theorem toOption_eq_some {x : Except ε α} : x.toOption = some a ↔ x = .ok a := by
  cases x <;> simp [Except.toOption]

theorem bind_eq_ok : (n >>= f) s = .ok (a, t) ↔ ∃ b s', n s = .ok (b, s') ∧ f b s' = .ok (a, t) := by
  change (n s >>= fun p => f p.1 p.2) = _ ↔ _
  cases n s with
  | error e => simp [bind, Except.bind]
  | ok p =>
    obtain ⟨b, s'⟩ := p
    simp [bind, Except.bind]

theorem bind_of_ok {b : β} (h : n s = .ok (b, t)) : (n >>= f) s = f b t := by
  change (n s >>= fun p => f p.1 p.2) = _
  rw [h]
  rfl

theorem bind_of_error {e : ε} (h : n s = .error e) : (n >>= f) s = .error e := by
  change (n s >>= fun p => f p.1 p.2) = _
  rw [h]
  rfl

theorem bind_congr_state {m n : StateT σ (Except ε) β} (f : β → StateT σ (Except ε) α) (h : m s = n s) :
    (m >>= f) s = (n >>= f) s := by
  change (m s >>= fun p => f p.1 p.2) = (n s >>= fun p => f p.1 p.2)
  rw [h]

theorem exists_of_wp (h : wp m s Q (fun _ => False)) : ∃ a t, m s = .ok (a, t) ∧ Q a t := by
  unfold wp at h
  split at h
  · next a t hm => exact ⟨a, t, hm, h⟩
  · exact h.elim

theorem error_of_wp (h : wp m s (fun _ _ => False) E) : ∃ e, m s = .error e ∧ E e := by
  unfold wp at h
  split at h
  · exact h.elim
  · next e hm => exact ⟨e, hm, h⟩

theorem wp_forM_range {f : ℕ → StateT σ (Except ε) PUnit} {I : ℕ → σ → Prop} {n : ℕ} (h0 : I 0 s)
    (hf : ∀ j < n, ∀ t, I j t → wp (f j) t (fun _ u => I (j + 1) u) E) : wp ((List.range n).forM f) s (fun _ t => I n t) E := by
  have hloop : ∀ k j t, j + k = n → I j t → wp ((List.range' j k).forM f) t (fun _ u => I n u) E := by
    intro k
    induction k with
    | zero =>
      rintro j t rfl hj
      exact wp_ret hj
    | succ k ih =>
      intro j t hjk hj
      exact wp_seq (hf j (by omega) t hj) fun _ u hu => ih (j + 1) u (by omega) hu
  rw [List.range_eq_range']
  exact hloop n 0 s (Nat.zero_add n) h0

def within {τ : Type} (part : τ → σ) (put : τ → σ → τ) (m : StateT σ (Except ε) α) : StateT τ (Except ε) α := fun t =>
  match m (part t) with
  | .ok (a, s) => .ok (a, put t s)
  | .error e => .error e

variable {τ : Type} {part : τ → σ} {put : τ → σ → τ}

@[simp] theorem wp_within {m : StateT σ (Except ε) α} {t : τ}
    {Q : α → τ → Prop} : wp (within part put m) t Q E ↔ wp m (part t) (fun a s => Q a (put t s)) E := by
  simp only [wp, within]
  cases m (part t) with
  | error e => rfl
  | ok p => rfl

end rules

def wpr (R : σ → σ → Prop) (m : StateT σ (Except ε) α) (s : σ) (Q : α → σ → Prop) (E : ε → Prop) : Prop :=
  wp m s (fun a t => Q a t ∧ R s t) E

namespace wpr

variable {R : σ → σ → Prop} {s : σ} {Q : α → σ → Prop} {P : β → σ → Prop} {E : ε → Prop} {m n : StateT σ (Except ε) α}

theorem ret [Std.Refl R] {a : α} (h : Q a s) : wpr R (pure a) s Q E := wp_ret ⟨h, refl s⟩

theorem fail {e : ε} (h : E e) : wpr R (throw e : StateT σ (Except ε) α) s Q E := (wp_throw e).mpr h

variable {f : β → StateT σ (Except ε) α}

theorem bind [IsTrans σ R] {m : StateT σ (Except ε) β} (hm : wpr R m s P E)
    (hf : ∀ b t, P b t → wpr R (f b) t Q E) : wpr R (m >>= f) s Q E := by
  refine wp_seq hm fun b t h => wp_mono (hf b t h.1) fun a u h' => ⟨h'.1, ?_⟩
  exact Trans.trans h.2 h'.2

theorem step [IsTrans σ R] {R' : σ → σ → Prop} {m : StateT σ (Except ε) β} (hm : wpr R' m s P E)
    (hR : ∀ t, R' s t → R s t) (hf : ∀ b t, P b t → R' s t → wpr R (f b) t Q E) : wpr R (m >>= f) s Q E := by
  refine wp_seq hm fun b t h => wp_mono (hf b t h.1 h.2) fun a u h' => ⟨h'.1, ?_⟩
  exact Trans.trans (hR t h.2) h'.2

theorem fail_bind {e : ε} (h : E e) : wpr R (throw e >>= f) s Q E :=
  (wp_bind _ f).mpr ((wp_throw e).mpr h)

theorem get_bind {f : σ → StateT σ (Except ε) α} (h : wpr R (f s) s Q E) : wpr R (get >>= f) s Q E :=
  (wp_bind get f).mpr (wp_get.mpr h)

theorem ite {c : Prop} [Decidable c] (hm : c → wpr R m s Q E) (hn : ¬ c → wpr R n s Q E) : wpr R (if c then m else n) s Q E :=
  wp_ite.mpr ⟨hm, hn⟩

theorem mono {R' : σ → σ → Prop} {Q' : α → σ → Prop} (h : wpr R m s Q E) (hR : ∀ t, R s t → R' s t)
    (hQ : ∀ a t, Q a t → Q' a t) : wpr R' m s Q' E := wp_mono h fun a t ht => ⟨hQ a t ht.1, hR t ht.2⟩

end wpr

def Keeps (R : σ → σ → Prop) (E : ε → Prop) (m : StateT σ (Except ε) α) : Prop := ∀ s, wp m s (fun _ t => R s t) E

namespace Keeps

variable {R : σ → σ → Prop} {E : ε → Prop} {m n : StateT σ (Except ε) α}

theorem ret [Std.Refl R] (a : α) : Keeps R E (pure a) := fun s => wp_ret (refl s)

theorem read [Std.Refl R] : Keeps R E get := fun s => wp_get.mpr (refl s)

theorem fail {e : ε} (h : E e) : Keeps R E (throw e : StateT σ (Except ε) α) := fun _ => (wp_throw e).mpr h

theorem change {f : σ → σ} (h : ∀ s, R s (f s)) : Keeps R E (modify f) := fun s => (wp_modify f).mpr (h s)

theorem bind [IsTrans σ R] {m : StateT σ (Except ε) β} {f : β → StateT σ (Except ε) α} (hm : Keeps R E m)
    (hf : ∀ b, Keeps R E (f b)) : Keeps R E (m >>= f) := by
  intro s
  refine wp_seq (hm s) fun b t hst => wp_mono (hf b t) fun _ u htu => ?_
  exact Trans.trans hst htu

theorem ite {c : Prop} [Decidable c] (hm : c → Keeps R E m) (hn : ¬ c → Keeps R E n) : Keeps R E (if c then m else n) := by
  split_ifs with h
  · exact hm h
  · exact hn h

theorem forM [Std.Refl R] [IsTrans σ R] {f : β → StateT σ (Except ε) PUnit} (hf : ∀ b, Keeps R E (f b)) (l : List β) :
    Keeps R E (l.forM f) := by
  induction l with
  | nil => exact ret _
  | cons b l ih => exact (hf b).bind fun _ => ih

end Keeps

-- the elaborator would otherwise run the program when it looks for binders of a spec
attribute [irreducible] wp

end Laboratorio
