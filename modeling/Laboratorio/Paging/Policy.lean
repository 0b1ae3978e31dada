import Laboratorio.Paging.Frames

/-!
Which page is replaced. The stack of the second algorithm is filled by
loads only, so that both algorithms replace the same page.
-/

namespace Laboratorio.Paging

variable {algorithm : Algorithm} {refs pre post : List Frame} {s t : State} {x v w : Frame}

def State.InMemory (s : State) (x : Frame) : Prop := x.InRange ∧ (s.entryOf x).inMemory = 1

instance (s : State) (x : Frame) : Decidable (s.InMemory x) := inferInstanceAs (Decidable (_ ∧ _))

def loads (algorithm : Algorithm) : State → List Frame → List Frame
  | _, [] => []
  | s, x :: xs =>
    match allocatePage algorithm x s with
    | .error _ => []
    | .ok (_, t) => if s.InMemory x then loads algorithm t xs else x :: loads algorithm t xs

structure Serves (algorithm : Algorithm) (pre : List Frame) (x : Frame) (s t : State) : Prop where
  before : run algorithm pre initialized = .ok ((), s)
  after : allocatePage algorithm x s = .ok ((), t)

def Evicted (s t : State) (v : Frame) : Prop := s.InMemory v ∧ ¬ t.InMemory v

instance (s t : State) (v : Frame) : Decidable (Evicted s t v) := inferInstanceAs (Decidable (_ ∧ _))

variable {ld : List Frame}

theorem Shows.inMemory (h : Shows algorithm s ld) : s.InMemory x ↔ Resident numFrames ld x := by
  refine ⟨fun hx => (h.inMemory_iff hx.1).mp hx.2, fun hx => ?_⟩
  have hr : x.InRange := by
    apply h.inRange
    unfold Resident at hx
    exact latest_pos_iff.mp (by omega)
  exact ⟨hr, (h.inMemory_iff hr).mpr hx⟩

theorem Shows.append_loads (hs : Shows algorithm s ld) (hrefs : ∀ x ∈ refs, x.InRange)
    (h : run algorithm refs s = .ok ((), t)) : refs.foldl (load numFrames) ld = ld ++ loads algorithm s refs := by
  induction refs generalizing s ld with
  | nil => simp [loads]
  | cons x xs ih =>
    obtain ⟨⟨⟩, u, hu, hrest⟩ := bind_eq_ok.mp h
    have hus := wp_ok (wp_allocatePage hs (hrefs x (by simp))) hu
    have hxs := ih hus (fun y hy => hrefs y (by simp [hy])) hrest
    rw [List.foldl_cons, hxs, loads, hu, load]
    simp only [hs.inMemory]
    by_cases hx : Resident numFrames ld x
    · simp only [hx, if_true]
    · simp [hx]

theorem loads_eq (hrefs : ∀ x ∈ refs, x.InRange) (h : run algorithm refs initialized = .ok ((), s)) :
    loads algorithm initialized refs = loaded refs := by
  have hs := (shows_initialized algorithm).append_loads hrefs h
  exact hs.symm

theorem mem_loaded : x ∈ loaded refs ↔ x ∈ refs := by
  induction refs using List.reverseRecOn with
  | nil => simp [loaded]
  | append_singleton refs y ih => rw [loaded_snoc, mem_load, ih, List.mem_append, List.mem_singleton]

theorem exists_serves (h : run algorithm (pre ++ x :: post) initialized = .ok ((), s)) : ∃ u t, Serves algorithm pre x u t := by
  rw [run_append] at h
  obtain ⟨⟨⟩, u, hu, hrest⟩ := bind_eq_ok.mp h
  obtain ⟨⟨⟩, t, ht, -⟩ := bind_eq_ok.mp hrest
  exact ⟨u, t, hu, ht⟩

namespace Serves

section

variable (h : Serves algorithm pre x s t) (hpre : ∀ y ∈ pre, y.InRange)

include h hpre

theorem shows_before : Shows algorithm s (loaded pre) :=
  shows_run hpre h.before

theorem shows_after (hx : x.InRange) : Shows algorithm t (load numFrames (loaded pre) x) := by
  have ht := wp_ok (wp_allocatePage (h.shows_before hpre) hx) h.after
  exact ht

theorem evicted_iff (hx : x.InRange) : Evicted s t v ↔ Evicts numFrames (loaded pre) x v := by
  rw [Evicted, Evicts, (h.shows_before hpre).inMemory, (h.shows_after hpre hx).inMemory]

theorem evicted_iff_first (hx : x.InRange) : Evicted s t v ↔ ¬ s.InMemory x ∧ findFreeFrame s = -1 ∧ s.InMemory v ∧
      ∀ w, s.InMemory w → latest (loads algorithm initialized pre) v ≤ latest (loads algorithm initialized pre) w := by
  have hs := h.shows_before hpre
  rw [h.evicted_iff hpre hx, loads_eq hpre h.before]
  constructor
  · intro hev
    obtain ⟨hno, hge, -⟩ := evicts_iff.mp hev
    exact ⟨fun hm => hno (hs.inMemory.mp hm), hs.findFreeFrame_of_ge hge, hs.inMemory.mpr hev.1,
      fun w hw => hev.latest_le (hs.inMemory.mp hw)⟩
  · rintro ⟨hno, hfree, hv, hfirst⟩
    have hge := hs.le_of_noFreeFrame hfree
    have hno' : ¬ Resident numFrames (loaded pre) x := fun hr => hno (hs.inMemory.mpr hr)
    obtain ⟨y, hy⟩ := hs.fresh.exists_evicts (by decide) hge hno'
    have h1 := hfirst y (hs.inMemory.mpr hy.1)
    have h2 := hy.latest_le (hs.inMemory.mp hv)
    rw [latest_inj ((evicts_iff.mp hy).2.2.2) (le_antisymm h2 h1)] at hy
    exact hy

theorem existsUnique_evicted (hx : x.InRange) (hno : ¬ s.InMemory x) (hfree : findFreeFrame s = -1) : ∃! v, Evicted s t v := by
  have hs := h.shows_before hpre
  obtain ⟨y, hy⟩ := hs.fresh.exists_evicts (by decide) (hs.le_of_noFreeFrame hfree) fun hr => hno (hs.inMemory.mpr hr)
  refine ⟨y, (h.evicted_iff hpre hx).mpr hy, fun z hz => ?_⟩
  have hz := (h.evicted_iff hpre hx).mp hz
  have hlast := (evicts_iff.mp hz).2.2.1
  rw [← (evicts_iff.mp hy).2.2.1] at hlast
  exact latest_inj (evicts_iff.mp hz).2.2.2 hlast

end

end Serves

def framed (q : List (Frame × ℕ)) (f : ℕ) : Frame := ((q.find? fun p => p.2 = f).map Prod.fst).getD Frame.empty

theorem foldl_fifoStep (refs : List Frame) : refs.foldl (fifoStep numFrames) [] = window numFrames (loaded refs) := by
  induction refs using List.reverseRecOn with
  | nil => rfl
  | append_singleton refs x ih =>
    rw [List.foldl_append, ih, loaded_snoc, List.foldl_cons, List.foldl_nil, fifoStep_window (by decide)]

theorem Tables.framed_window (h : Tables s ld) {f : ℕ} (hf : f < numFrames) :
    framed (window numFrames ld) f = s.physicalMemory f := by
  unfold framed
  cases hfind : (window numFrames ld).find? fun p => p.2 = f with
  | some p =>
    have hpf : p.2 = f := by simpa using List.find?_some hfind
    obtain ⟨k, hk⟩ := List.mem_iff_getElem?.mp (List.mem_of_find?_eq_some hfind)
    rw [getElem?_window] at hk
    obtain ⟨y, hy, rfl⟩ := Option.map_eq_some_iff.mp hk
    have hmem := h.memory _ y hy (by omega)
    dsimp only at hpf
    rw [hpf] at hmem
    exact hmem.symm
  | none =>
    rw [List.find?_eq_none] at hfind
    by_cases hlt : f < ld.length
    · -- the last load that went to frame `f`
      obtain ⟨n, hn, hwin, hmod⟩ : ∃ n < ld.length, ld.length ≤ n + numFrames ∧ n % numFrames = f := by
        refine ⟨ld.length - 1 - (ld.length - 1 - f) % numFrames, by omega, ?_, ?_⟩
        · simp only [numFrames]
          omega
        · simp only [numFrames] at hf ⊢
          omega
      have hidx : ld.length - numFrames + (n - (ld.length - numFrames)) = n := by omega
      have hin : (ld[n], f) ∈ window numFrames ld := by
        apply List.mem_iff_getElem?.mpr
        refine ⟨n - (ld.length - numFrames), ?_⟩
        rw [getElem?_window, hidx, List.getElem?_eq_getElem hn, hmod]
        rfl
      exact absurd (decide_eq_true rfl) (hfind _ hin)
    · rw [h.freeMemory f (by omega) hf]
      rfl

theorem fifo_refines {refs : List Frame} {s : State} (hrefs : ∀ x ∈ refs, x.InRange)
    (h : run .fifo refs initialized = .ok ((), s)) : (∀ pre x post, refs = pre ++ x :: post → ∃ u t, Serves .fifo pre x u t ∧
      (¬ u.InMemory x → findFreeFrame u = -1 → ∃! v, Evicted u t v) ∧
      ∀ v, Evicted u t v → ∀ w, u.InMemory w → latest (loads .fifo initialized pre) v ≤ latest
        (loads .fifo initialized pre) w) ∧
    ∀ f < numFrames, s.physicalMemory f = framed (refs.foldl (fifoStep numFrames) []) f := by
  refine ⟨fun pre x post hsplit => ?_, fun f hf => ?_⟩
  · subst hsplit
    obtain ⟨u, t, hserves⟩ := exists_serves h
    have hpre : ∀ y ∈ pre, y.InRange := fun y hy => hrefs y (by simp [hy])
    have hx : x.InRange := hrefs x (by simp)
    refine ⟨u, t, hserves, fun hno hfree => hserves.existsUnique_evicted hpre hx hno hfree, fun v hv => ?_⟩
    exact ((hserves.evicted_iff_first hpre hx).mp hv).2.2.2
  · rw [foldl_fifoStep]
    exact ((shows_run hrefs h).framed_window hf).symm

theorem fifo_refines_nine : ∃ s, run .fifo (pages 9) initialized = .ok ((), s) ∧
    ∀ f < numFrames, s.physicalMemory f = framed ((pages 9).foldl (fifoStep numFrames) []) f := by
  have hrun : wp (run .fifo (pages 9)) initialized (fun _ _ => True) (fun _ => False) := by decide +kernel
  obtain ⟨⟨⟩, s, hs, -⟩ := exists_of_wp hrun
  exact ⟨s, hs, (fifo_refines (by decide) hs).2⟩

def EvictsLeastRecent (algorithm : Algorithm) (refs : List Frame) : Prop :=
  ∀ pre x post, refs = pre ++ x :: post → ∀ s t, Serves algorithm pre x s t → ∀ v, Evicted s t v → ∀ w, s.InMemory w →
    latest pre v ≤ latest pre w

def KeepsMostRecent (refs : List Frame) (s : State) : Prop :=
  ∀ x, s.InMemory x ↔ x ∈ refs ∧ (refs.toFinset.filter fun y => latest refs x < latest refs y).card < numFrames

/-- Whenever a page is to be replaced, the one loaded first has not been referenced after any other page in memory. -/
def FirstLoadedUnused (algorithm : Algorithm) (refs : List Frame) : Prop :=
  ∀ pre x post, refs = pre ++ x :: post → ∀ s, run algorithm pre initialized = .ok ((), s) → ¬ s.InMemory x →
    findFreeFrame s = -1 → ∀ v, s.InMemory v →
    (∀ w, s.InMemory w → latest (loads algorithm initialized pre) v ≤ latest (loads algorithm initialized pre) w) → ∀ w,
    s.InMemory w → latest pre v ≤ latest pre w

theorem evictsLeastRecent_iff (hrefs : ∀ x ∈ refs, x.InRange) (h : run algorithm refs initialized = .ok ((), s)) :
    EvictsLeastRecent algorithm refs ↔ FirstLoadedUnused algorithm refs := by
  constructor
  · rintro hlru pre x post rfl u hu hno hfree v hv hfirst w hw
    obtain ⟨u', t, hserves⟩ := exists_serves h
    obtain rfl : u' = u := by simpa [hserves.before] using hu
    have hpre : ∀ y ∈ pre, y.InRange := fun y hy => hrefs y (by simp [hy])
    have hev := (hserves.evicted_iff_first hpre (hrefs x (by simp))).mpr ⟨hno, hfree, hv, hfirst⟩
    exact hlru pre x post rfl u' t hserves v hev w hw
  · rintro hcond pre x post rfl u t hserves v hev w hw
    have hpre : ∀ y ∈ pre, y.InRange := fun y hy => hrefs y (by simp [hy])
    obtain ⟨hno, hfree, hv, hfirst⟩ := (hserves.evicted_iff_first hpre (hrefs x (by simp))).mp hev
    exact hcond pre x post rfl u hserves.before hno hfree v hv hfirst w hw

section

variable (hlru : EvictsLeastRecent algorithm refs) (hrefs : ∀ x ∈ refs, x.InRange)
  (h : run algorithm refs initialized = .ok ((), s))

include hlru hrefs h

theorem EvictsLeastRecent.recent : Recent numFrames refs (loaded refs) := by
  induction refs using List.reverseRecOn generalizing s with
  | nil => exact recent_nil []
  | append_singleton refs x ih =>
    obtain ⟨u, t, hserves⟩ := exists_serves h
    have hpre : ∀ y ∈ refs, y.InRange := fun y hy => hrefs y (by simp [hy])
    have hlru' : EvictsLeastRecent algorithm refs := fun pre y post hsplit => hlru pre y (post ++ [x]) (by simp [hsplit])
    have hrec := ih hlru' hpre hserves.before
    rw [loaded_snoc]
    refine hrec.load (by decide) fun y z hy hz => ?_
    have hev := (hserves.evicted_iff hpre (hrefs x (by simp))).mpr hy
    exact hlru refs x [] rfl u t hserves y hev z ((hserves.shows_before hpre).inMemory.mpr hz)

theorem EvictsLeastRecent.keepsMostRecent : KeepsMostRecent refs s := by
  have hs := shows_run hrefs h
  have hrec := hlru.recent hrefs h
  intro x
  rw [hs.inMemory]
  constructor
  · intro hres
    have hx : x ∈ refs := by
      unfold Resident at hres
      exact mem_loaded.mp (latest_pos_iff.mp (by omega))
    exact ⟨hx, (hrec.resident_iff hs.fresh (fun _ => mem_loaded) hx).mp hres⟩
  · rintro ⟨hx, hlt⟩
    exact (hrec.resident_iff hs.fresh (fun _ => mem_loaded) hx).mpr hlt

end

theorem lru_iff {refs : List Frame} {s : State} (hrefs : ∀ x ∈ refs, x.InRange) (h : run .lru refs initialized = .ok ((), s)) :
    EvictsLeastRecent .lru refs ∧ KeepsMostRecent refs s ↔ FirstLoadedUnused .lru refs := by
  rw [← evictsLeastRecent_iff hrefs h]
  exact ⟨fun hlru => hlru.1, fun hlru => ⟨hlru, hlru.keepsMostRecent hrefs h⟩⟩

theorem lru_iff_nine : ∃ s, run .lru (pages 9) initialized = .ok ((), s) ∧
    (EvictsLeastRecent .lru (pages 9) ∧ KeepsMostRecent (pages 9) s ↔ FirstLoadedUnused .lru (pages 9)) := by
  have hrun : wp (run .lru (pages 9)) initialized (fun _ _ => True) (fun _ => False) := by decide +kernel
  obtain ⟨⟨⟩, s, hs, -⟩ := exists_of_wp hrun
  exact ⟨s, hs, lru_iff (by decide) hs⟩

theorem lru_evicts_used : ∃ s, run .lru (pages 8 ++ [⟨0, 0⟩, ⟨0, 8⟩]) initialized = .ok ((), s) ∧ ¬ s.InMemory ⟨0, 0⟩ ∧
    s.InMemory ⟨0, 1⟩ ∧
    ¬ EvictsLeastRecent .lru (pages 8 ++ [⟨0, 0⟩, ⟨0, 8⟩]) ∧ ¬ KeepsMostRecent (pages 8 ++ [⟨0, 0⟩, ⟨0, 8⟩]) s := by
  have hrun : wp (run .lru (pages 8 ++ [⟨0, 0⟩, ⟨0, 8⟩])) initialized (fun _ t => ¬ t.InMemory ⟨0, 0⟩ ∧ t.InMemory ⟨0, 1⟩)
    (fun _ => False) := by
    decide +kernel
  obtain ⟨⟨⟩, s, hs, hno, hin⟩ := exists_of_wp hrun
  have hkeeps : ¬ KeepsMostRecent (pages 8 ++ [⟨0, 0⟩, ⟨0, 8⟩]) s := fun hk => hno ((hk ⟨0, 0⟩).mpr (by decide))
  exact ⟨s, hs, hno, hin, fun hlru => hkeeps (hlru.keepsMostRecent (by decide) hs), hkeeps⟩

end Laboratorio.Paging
