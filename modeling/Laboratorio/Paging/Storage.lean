import Laboratorio.Paging.Policy

/-!
The secondary storage. A page that comes back to memory leaves its copy behind.
-/

namespace Laboratorio.Paging

structure StorageOk (s : State) : Prop where
  entry : ∀ x : Frame, x.InRange → ∀ n : ℕ, n < numStoragePages → ((s.entryOf x).inStorage = n ↔ s.secondaryStorage n = x)
  alone : ∀ x, s.InMemory x → ∀ n : ℕ, n < numStoragePages → s.secondaryStorage n ≠ x
  once : ∀ x : Frame, x.InRange → ∀ m n : ℕ, m < numStoragePages → n < numStoragePages →
    s.secondaryStorage m = x → s.secondaryStorage n = x → m = n

def StorageConsistent (algorithm : Algorithm) (refs : List Frame) : Prop :=
  (∀ pre, pre <+: refs → ∀ s, run algorithm pre initialized = .ok ((), s) → StorageOk s) ∧
    ∀ pre, pre <+: refs → run algorithm pre initialized = .error .exit → numFrames + numStoragePages < pre.toFinset.card

def NeverReloaded (algorithm : Algorithm) (refs : List Frame) : Prop :=
  ∀ pre x post, refs = pre ++ x :: post → ∀ s, run algorithm pre initialized = .ok ((), s) → (s.entryOf x).inStorage = -1

variable {algorithm : Algorithm} {refs pre : List Frame} {s t : State} {x : Frame} {ld : List Frame}

namespace Shows

theorem inStorage_eq_iff (h : Shows algorithm s ld) (hx : x.InRange) :
    (s.entryOf x).inStorage = -1 ↔ Resident numFrames ld x ∨ x ∉ ld := by
  rw [State.entryOf, h.table x hx, shown, ← latest_pos_iff]
  split_ifs with hres
  · exact ⟨fun _ => .inl hres, fun _ => rfl⟩
  · simp only [hres, false_or]
    omega

theorem nodup_of_storageOk (h : Shows algorithm s ld) (hok : StorageOk s) : ld.Nodup := by
  rw [List.nodup_iff_getElem?_ne_getElem?]
  intro m n hmn hn he
  have hget := List.getElem?_eq_getElem hn
  rw [hget] at he
  have hlast := latest_ge hget
  have hold : m + numFrames < ld.length := by
    by_contra hnew
    have := h.fresh m _ he (by omega)
    omega
  have hroom := h.room
  have hr := h.inRange _ (List.getElem_mem hn)
  have hst := (hok.entry _ hr m (by omega)).mpr (h.storage m _ he hold)
  rw [State.entryOf, h.table _ hr, shown] at hst
  split_ifs at hst
  · simp at hst
  · dsimp only at hst
    omega

theorem storageOk_of_nodup (h : Shows algorithm s ld) (hld : ld.Nodup) : StorageOk s := by
  -- the load that a place of the storage goes back to
  have hplace : ∀ x : Frame, x.InRange → ∀ n : ℕ, n < numStoragePages → s.secondaryStorage n = x → n + numFrames < ld.length ∧
    latest ld x = n + 1 := by
    intro x hx n hn hst
    have hlt : n + numFrames < ld.length := by
      by_contra hge
      rw [h.freeStorage n (by omega) hn] at hst
      have := hx.1
      rw [← hst] at this
      simp [Frame.empty] at this
    have hget := List.getElem?_eq_getElem (show n < ld.length by omega)
    rw [h.storage n _ hget hlt] at hst
    rw [hst] at hget
    exact ⟨hlt, latest_of_nodup hld hget⟩
  refine ⟨fun x hx n hn => ⟨fun hst => ?_, fun hst => ?_⟩, fun x hx n hn hst => ?_, fun x hx m n hm hn hst hst' => ?_⟩
  · rw [State.entryOf, h.table x hx, shown] at hst
    split_ifs at hst with hres
    · dsimp only at hst
      omega
    · dsimp only at hst
      have hlast : latest ld x = n + 1 := by omega
      unfold Resident at hres
      exact h.storage n x (getElem_of_latest hlast) (by omega)
  · obtain ⟨hlt, hlast⟩ := hplace x hx n hn hst
    have hres : ¬ Resident numFrames ld x := by
      unfold Resident
      omega
    rw [State.entryOf, h.table x hx, shown, if_neg hres, hlast]
    simp
  · obtain ⟨hlt, hlast⟩ := hplace x hx.1 n hn hst
    have hres := h.inMemory.mp hx
    unfold Resident at hres
    omega
  · have h1 := (hplace x hx m hm hst).2
    have h2 := (hplace x hx n hn hst').2
    omega

end Shows

variable {post : List Frame}

theorem NeverReloaded.of_append (h : NeverReloaded algorithm (pre ++ post)) : NeverReloaded algorithm pre :=
  fun pre' x post' hsplit => h pre' x (post' ++ post) (by simp [hsplit])

theorem NeverReloaded.notMem_loaded (h : NeverReloaded algorithm (pre ++ x :: post)) (hrefs : ∀ y ∈ pre ++ x :: post, y.InRange)
    (hs : run algorithm pre initialized = .ok ((), s)) (hres : ¬ Resident numFrames (loaded pre) x) : x ∉ loaded pre := by
  have hshows := shows_run (fun y hy => hrefs y (by simp [hy])) hs
  have hst := (hshows.inStorage_eq_iff (hrefs x (by simp))).mp (h pre x post rfl s hs)
  exact hst.resolve_left hres

section

variable (h : NeverReloaded algorithm refs) (hrefs : ∀ x ∈ refs, x.InRange)

include h hrefs

theorem NeverReloaded.nodup_loaded (hs : run algorithm refs initialized = .ok ((), s)) : (loaded refs).Nodup := by
  induction refs using List.reverseRecOn generalizing s with
  | nil => exact List.nodup_nil
  | append_singleton refs x ih =>
    rw [run_snoc] at hs
    obtain ⟨⟨⟩, u, hu, -⟩ := bind_eq_ok.mp hs
    have hnodup := ih h.of_append (fun y hy => hrefs y (by simp [hy])) hu
    rw [loaded_snoc, load]
    split_ifs with hres
    · exact hnodup
    · rw [List.nodup_append]
      have hx := h.notMem_loaded hrefs hu hres
      refine ⟨hnodup, List.nodup_singleton x, fun y hy z hz => ?_⟩
      rw [List.mem_singleton.mp hz]
      rintro rfl
      exact hx hy

theorem NeverReloaded.lt_card (hexit : run algorithm refs initialized = .error .exit) :
    numFrames + numStoragePages < refs.toFinset.card := by
  obtain ⟨-, pre, x, post, s, rfl, hs, hfull, hres⟩ := wp_error (wp_run hrefs) hexit
  have hx := h.notMem_loaded hrefs hs hres
  have hnodup := h.of_append.nodup_loaded (fun y hy => hrefs y (by simp [hy])) hs
  have hsub : insert x (loaded pre).toFinset ⊆ (pre ++ x :: post).toFinset := by
    intro y hy
    rw [Finset.mem_insert, List.mem_toFinset, mem_loaded] at hy
    rw [List.mem_toFinset, List.mem_append, List.mem_cons]
    tauto
  have hcard := Finset.card_le_card hsub
  rw [Finset.card_insert_of_notMem (by simpa using hx), List.toFinset_card_of_nodup hnodup, hfull] at hcard
  omega

end

theorem StorageConsistent.inStorage_eq (h : StorageConsistent algorithm (pre ++ x :: post)) (hpre : ∀ y ∈ pre, y.InRange)
    (hx : x.InRange) (hs : run algorithm pre initialized = .ok ((), s)) : (s.entryOf x).inStorage = -1 := by
  have hshows := shows_run hpre hs
  rw [hshows.inStorage_eq_iff hx]
  by_contra hno
  rw [not_or, not_not] at hno
  have hprefix : pre ++ [x] <+: pre ++ x :: post := ⟨post, by simp⟩
  have hrun : run algorithm (pre ++ [x]) initialized = allocatePage algorithm x s := by
    rw [run_snoc]
    simp [bind, StateT.bind, Except.bind, hs]
  have hwp := wp_allocatePage hshows hx
  cases halloc : allocatePage algorithm x s with
  | ok p =>
    obtain ⟨⟨⟩, t⟩ := p
    have ht := wp_ok hwp halloc
    have hnodup := ht.nodup_of_storageOk (h.1 _ hprefix t (hrun.trans halloc))
    rw [load, if_neg hno.1, List.nodup_append] at hnodup
    exact hnodup.2.2 x hno.2 x (by simp) rfl
  | error e =>
    obtain ⟨rfl, hfull, -⟩ := wp_error hwp halloc
    have hcard := h.2 _ hprefix (hrun.trans halloc)
    have hsub : (pre ++ [x]).toFinset ⊆ (loaded pre).toFinset := by
      intro y hy
      rw [List.mem_toFinset, List.mem_append, List.mem_singleton] at hy
      rw [List.mem_toFinset]
      rcases hy with hy | rfl
      · exact mem_loaded.mpr hy
      · exact hno.2
    have := Finset.card_le_card hsub
    have := List.toFinset_card_le (loaded pre)
    omega

theorem storageConsistent_iff (algorithm : Algorithm) {refs : List Frame} (hrefs : ∀ x ∈ refs, x.InRange) :
    StorageConsistent algorithm refs ↔ NeverReloaded algorithm refs := by
  constructor
  · rintro h pre x post rfl s hs
    exact h.inStorage_eq (fun y hy => hrefs y (by simp [hy])) (hrefs x (by simp)) hs
  · intro h
    refine ⟨?_, ?_⟩
    · rintro pre ⟨post, rfl⟩ s hs
      have hpre : ∀ x ∈ pre, x.InRange := fun y hy => hrefs y (by simp [hy])
      exact (shows_run hpre hs).storageOk_of_nodup (h.of_append.nodup_loaded hpre hs)
    · rintro pre ⟨post, rfl⟩ hexit
      exact h.of_append.lt_card (fun y hy => hrefs y (by simp [hy])) hexit

theorem storageConsistent_iff_nine : StorageConsistent .fifo (pages 9) ↔ NeverReloaded .fifo (pages 9) :=
  storageConsistent_iff .fifo (by decide)

theorem storage_keeps_copy : (∃ s, run .fifo (pages 9 ++ pages 1) initialized = .ok ((), s) ∧ s.InMemory ⟨0, 0⟩ ∧
    s.secondaryStorage 0 = ⟨0, 0⟩) ∧
    run .fifo (pages 9 ++ pages 9 ++ pages 9) initialized = .error .exit ∧ ¬ StorageConsistent .fifo (pages 9 ++ pages 1) ∧
    ¬ StorageConsistent .fifo (pages 9 ++ pages 9 ++ pages 9) := by
  have hcopy : wp (run .fifo (pages 9 ++ pages 1)) initialized (fun _ t => t.InMemory ⟨0, 0⟩ ∧ t.secondaryStorage 0 = ⟨0, 0⟩)
    (fun _ => False) := by
    decide +kernel
  have hfull : wp (run .fifo (pages 9 ++ pages 9 ++ pages 9)) initialized (fun _ _ => False) (fun e => e = .exit) := by
    decide +kernel
  obtain ⟨⟨⟩, s, hs, hin, hst⟩ := exists_of_wp hcopy
  obtain ⟨e, he, rfl⟩ := error_of_wp hfull
  refine ⟨⟨s, hs, hin, hst⟩, he, fun h => ?_, fun h => ?_⟩
  · exact (h.1 _ List.prefix_rfl s hs).alone ⟨0, 0⟩ hin 0 (by decide) hst
  · have := h.2 _ List.prefix_rfl he
    exact absurd this (by decide)

end Laboratorio.Paging
