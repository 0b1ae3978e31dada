import Laboratorio.Lib.Replacement
import Laboratorio.Paging.Machine

/-!
The tables of the simulator as the list of all loads determines them, for both algorithms.
-/

namespace Laboratorio.Paging

open Function

section rules

variable {s : State} {E : Stop → Prop} {x : Frame} {i v : ℤ} {n : ℕ} {Q : Unit → State → Prop}

/-- The access `f` after a check of its index that does not fail. -/
theorem wp_index {α : Type} {f : Unit → SimM α} {Q : α → State → Prop} (h0 : 0 ≤ i) (hn : i < n) (h : wp (f ()) s Q E) :
    wp (index n i >>= f) s Q E := by
  rw [wp_bind, index, if_pos ⟨h0, hn⟩]
  exact wp_ret h

theorem wp_read {α : Type} {f : State → α} {Q : α → State → Prop} (h : Q (f s) s) : wp (do return f (← get)) s Q E := by
  rw [wp_bind, wp_get, wp_pure]
  exact h

theorem wp_entry {Q : PageTableEntry → State → Prop} (hx : x.InRange) (h : Q (s.processes x.pid x.pageNumber) s) :
    wp (entry x) s Q E :=
  wp_index hx.1 hx.2.1 (wp_index hx.2.2.1 hx.2.2.2 (wp_read h))

theorem wp_setEntry {e : PageTableEntry} (hx : x.InRange)
    (h : Q () { s with processes := update s.processes x.pid (update (s.processes x.pid) x.pageNumber e) }) :
    wp (setEntry x e) s Q E :=
  wp_index hx.1 hx.2.1 (wp_index hx.2.2.1 hx.2.2.2 ((wp_modify _).mpr h))

section

variable (h0 : 0 ≤ i)

include h0

theorem wp_setStorage (hn : i < numStoragePages)
    (h : Q () { s with secondaryStorage := update s.secondaryStorage i x }) : wp (setStorage i x) s Q E :=
  wp_index h0 hn ((wp_modify _).mpr h)

variable (hn : i < numFrames)

include hn

theorem wp_frame {Q : Frame → State → Prop} (h : Q (s.physicalMemory i) s) : wp (frame i) s Q E :=
  wp_index h0 hn (wp_read h)

theorem wp_setFrame (h : Q () { s with physicalMemory := update s.physicalMemory i x }) : wp (setFrame i x) s Q E :=
  wp_index h0 hn ((wp_modify _).mpr h)

theorem wp_queue {Q : ℤ → State → Prop} (h : Q (s.fifoQueue i) s) : wp (queue i) s Q E :=
  wp_index h0 hn (wp_read h)

theorem wp_stack {Q : ℤ → State → Prop} (h : Q (s.lruStack i) s) : wp (stack i) s Q E :=
  wp_index h0 hn (wp_read h)

theorem wp_setStack (h : Q () { s with lruStack := update s.lruStack i v }) : wp (setStack i v) s Q E :=
  wp_index h0 hn ((wp_modify _).mpr h)

end

theorem wp_enqueue (h0 : 0 ≤ s.fifoRear) (hn : s.fifoRear < numFrames)
    (h : Q () { s with fifoQueue := update s.fifoQueue s.fifoRear v, fifoRear := (s.fifoRear + 1).tmod numFrames }) :
    wp (enqueue v) s Q E := by
  rw [enqueue, wp_bind, wp_get, wp_bind, setQueue]
  exact wp_index h0 hn ((wp_modify _).mpr ((wp_modify _).mpr h))

theorem wp_push (h0 : 0 ≤ s.lruTop + 1) (hn : s.lruTop + 1 < numFrames)
    (h : Q () { s with lruTop := s.lruTop + 1, lruStack := update s.lruStack (s.lruTop + 1) v }) : wp (push v) s Q E := by
  rw [push, wp_bind, wp_modify, wp_bind, wp_get]
  exact wp_setStack h0 hn h

theorem wp_shift (hn : n < numFrames)
    (h : Q () { s with lruStack := fun j => if 0 ≤ j ∧ j < n then s.lruStack (j + 1) else s.lruStack j }) :
    wp (shift 1 n) s Q E := by
  have hloop : ∀ m k : ℕ, k + m = n → wp (shift (k + 1) m)
      { s with lruStack := fun j => if 0 ≤ j ∧ j < k then s.lruStack (j + 1) else s.lruStack j } Q E := by
    intro m
    induction m with
    | zero =>
      intro k hk
      obtain rfl : k = n := by omega
      exact wp_ret h
    | succ m ih =>
      intro k hk
      rw [shift, wp_bind]
      refine wp_stack (by omega) (by omega) ((wp_bind _ _).mpr (wp_setStack (by omega) (by omega) ?_))
      have hnext := ih (k + 1) (by omega)
      rw [Int.natCast_succ] at hnext
      convert hnext using 2
      funext j
      have hidx : (k : ℤ) + 1 - 1 = k := by omega
      dsimp only
      rw [hidx]
      by_cases hj : j = k
      · subst hj
        rw [update_self, if_neg (by omega), if_pos (by omega)]
      · rw [update_of_ne hj]
        by_cases hin : 0 ≤ j ∧ j < k
        · rw [if_pos hin, if_pos (by omega)]
        · rw [if_neg hin, if_neg (by omega)]
  have h0 := hloop n 0 (Nat.zero_add n)
  have hs : (fun j : ℤ => if 0 ≤ j ∧ j < ((0 : ℕ) : ℤ) then s.lruStack (j + 1) else s.lruStack j) = s.lruStack := by
    funext j
    exact if_neg (by omega)
  rw [hs] at h0
  simpa using h0

theorem findFree_eq {mem : ℤ → Frame} {k : ℕ} (hk : k < n) (hlow : ∀ i < k, (mem i).pid ≠ -1) (hfree : (mem k).pid = -1) :
    findFree n mem = k := by
  have hfind : (List.range n).find? (fun i : ℕ => decide ((mem i).pid = -1)) = some k := by
    rw [List.find?_range_eq_some]
    refine ⟨by simpa using hfree, by simpa using hk, fun j hj => ?_⟩
    simpa using hlow j hj
  rw [findFree, hfind]
  rfl

theorem findFree_full {mem : ℤ → Frame} (hfull : ∀ i < n, (mem i).pid ≠ -1) : findFree n mem = -1 := by
  have hfind : (List.range n).find? (fun i : ℕ => decide ((mem i).pid = -1)) = none := by
    rw [List.find?_eq_none]
    intro i hi
    simpa using hfull i (List.mem_range.mp hi)
  rw [findFree, hfind]
  rfl

end rules

def shown (ld : List Frame) (x : Frame) : PageTableEntry :=
  if Resident numFrames ld x then ⟨((latest ld x - 1) % numFrames : ℕ), 1, -1⟩ else ⟨-1, 0, latest ld x - 1⟩

structure Tables (s : State) (ld : List Frame) : Prop where
  inRange : ∀ x ∈ ld, x.InRange
  room : ld.length ≤ numFrames + numStoragePages
  fresh : Fresh numFrames ld
  memory : ∀ n x, ld[n]? = some x → ld.length ≤ n + numFrames → s.physicalMemory (n % numFrames : ℕ) = x
  freeMemory : ∀ n : ℕ, ld.length ≤ n → n < numFrames → s.physicalMemory n = Frame.empty
  storage : ∀ n x, ld[n]? = some x → n + numFrames < ld.length → s.secondaryStorage n = x
  freeStorage : ∀ n : ℕ, ld.length ≤ n + numFrames → n < numStoragePages → s.secondaryStorage n = Frame.empty
  table : ∀ x : Frame, x.InRange → s.processes x.pid x.pageNumber = shown ld x

structure Shows (algorithm : Algorithm) (s : State) (ld : List Frame) : Prop extends Tables s ld where
  queue : algorithm = .fifo → (∀ n : ℕ, n < ld.length → n < numFrames → s.fifoQueue n = n) ∧
    s.fifoFront = ((ld.length - numFrames) % numFrames : ℕ) ∧ s.fifoRear = (ld.length % numFrames : ℕ)
  stack : algorithm = .lru → s.lruTop = (min ld.length numFrames : ℕ) - 1 ∧
    ∀ n : ℕ, n < min ld.length numFrames → s.lruStack n = ((ld.length - min ld.length numFrames + n) % numFrames : ℕ)

section shows

variable {algorithm : Algorithm} {s : State} {ld : List Frame} {x : Frame}

theorem shows_initialized (algorithm : Algorithm) : Shows algorithm initialized [] where
  inRange := by simp
  room := by simp
  fresh := Fresh.nil
  memory := by simp
  freeMemory := fun _ _ _ => rfl
  storage := by simp
  freeStorage := fun _ _ _ => rfl
  table := fun x _ => by simp [initialized, shown, Resident]
  queue := fun _ => ⟨by simp, rfl, rfl⟩
  stack := fun _ => ⟨rfl, by simp⟩

namespace Tables

section

variable (h : Tables s ld)

include h

theorem not_empty (hx : x ∈ ld) : x.pid ≠ -1 := by
  have := (h.inRange x hx).1
  omega

theorem findFreeFrame_of_lt (hlt : ld.length < numFrames) : findFreeFrame s = ld.length := by
  refine findFree_eq hlt (fun i hi => ?_) (by rw [h.freeMemory _ le_rfl hlt]; rfl)
  have hmem := h.memory i _ (List.getElem?_eq_getElem hi) (by omega)
  rw [Nat.mod_eq_of_lt (hi.trans hlt)] at hmem
  rw [hmem]
  exact h.not_empty (List.getElem_mem hi)

theorem findFreeFrame_of_ge (hge : numFrames ≤ ld.length) : findFreeFrame s = -1 := by
  refine findFree_full fun i hi => ?_
  -- the last load that went to frame `i`
  have hlt : ld.length - 1 - (ld.length - 1 - i) % numFrames < ld.length := by
    omega
  have hmem := h.memory _ _ (List.getElem?_eq_getElem hlt) (by simp only [numFrames]; omega)
  have hmod : (ld.length - 1 - (ld.length - 1 - i) % numFrames) % numFrames = i := by
    simp only [numFrames] at hi hge ⊢
    omega
  rw [hmod] at hmem
  rw [hmem]
  exact h.not_empty (List.getElem_mem hlt)

theorem findFreeStorage_of_lt (hge : numFrames ≤ ld.length) (hlt : ld.length < numFrames + numStoragePages) :
    findFreeStorage s = (ld.length - numFrames : ℕ) := by
  refine findFree_eq (by omega) (fun i hi => ?_) (by rw [h.freeStorage _ (by omega) (by omega)]; rfl)
  have hi' : i < ld.length := by omega
  rw [h.storage i _ (List.getElem?_eq_getElem hi') (by omega)]
  exact h.not_empty (List.getElem_mem hi')

theorem findFreeStorage_full (hge : ld.length = numFrames + numStoragePages) : findFreeStorage s = -1 := by
  refine findFree_full fun i hi => ?_
  have hi' : i < ld.length := by omega
  rw [h.storage i _ (List.getElem?_eq_getElem hi') (by omega)]
  exact h.not_empty (List.getElem_mem hi')

theorem oldest (hge : numFrames ≤ ld.length) :
    ∃ y, ld[ld.length - numFrames]? = some y ∧ y.InRange ∧ s.physicalMemory (ld.length % numFrames : ℕ) = y ∧
      latest ld y = ld.length - numFrames + 1 := by
  have hlt : ld.length - numFrames < ld.length := by
    have : 0 < numFrames := by decide
    omega
  have hget := List.getElem?_eq_getElem hlt
  refine ⟨_, hget, h.inRange _ (List.getElem_mem hlt), ?_, h.fresh _ _ hget (by omega)⟩
  rw [Nat.mod_eq_sub_mod hge]
  exact h.memory _ _ hget (by omega)

end

theorem set_processes (f : ℤ → ℤ → PageTableEntry) (x y : Frame) (e : PageTableEntry) :
    update f x.pid (update (f x.pid) x.pageNumber e) y.pid y.pageNumber = if y = x then e else f y.pid y.pageNumber := by
  by_cases hpid : y.pid = x.pid
  · by_cases hpage : y.pageNumber = x.pageNumber
    · rw [if_pos (Frame.ext hpid hpage), hpid, update_self, hpage, update_self]
    · rw [if_neg (fun he => hpage (by rw [he])), hpid, update_self, update_of_ne hpage]
  · rw [if_neg (fun he => hpid (by rw [he])), update_of_ne hpid]

theorem inRange_snoc (h : Tables s ld) (hx : x.InRange) : ∀ y ∈ ld ++ [x], y.InRange := by
  intro y hy
  rcases List.mem_append.mp hy with hy | hy
  · exact h.inRange y hy
  · rw [List.mem_singleton.mp hy]
    exact hx

theorem shown_snoc : shown (ld ++ [x]) x = ⟨(ld.length % numFrames : ℕ), 1, -1⟩ := by
  have hpos : 0 < numFrames := by decide
  have hres : Resident numFrames (ld ++ [x]) x := by
    rw [Resident, latest_snoc_self, List.length_append, List.length_singleton]
    omega
  rw [shown, if_pos hres, latest_snoc_self, Nat.add_sub_cancel]

theorem fresh_snoc (h : Tables s ld) (hno : ¬ Resident numFrames ld x) : Fresh numFrames (ld ++ [x]) := by
  have hfresh := h.fresh.load x
  rwa [load, if_neg hno] at hfresh

variable {t : State}

section

variable (h : Tables s ld) (hx : x.InRange) (hno : ¬ Resident numFrames ld x)

include h hx hno

theorem fill (hlt : ld.length < numFrames)
    (hmem : t.physicalMemory = update s.physicalMemory ld.length x) (hsto : t.secondaryStorage = s.secondaryStorage)
    (hproc : t.processes = update s.processes x.pid (update (s.processes x.pid) x.pageNumber ⟨ld.length, 1, -1⟩)) :
    Tables t (ld ++ [x]) := by
  have hlen : (ld ++ [x]).length = ld.length + 1 := by simp
  refine ⟨h.inRange_snoc hx, by omega, h.fresh_snoc hno, fun n y hy hn => ?_, fun n hn hn' => ?_, fun n y hy hn => ?_,
    fun n hn hn' => ?_, fun y hy => ?_⟩
  · have hnl := (List.getElem?_eq_some_iff.mp hy).1
    rw [hmem, Nat.mod_eq_of_lt (by omega)]
    by_cases hlast : n = ld.length
    · subst hlast
      simpa using hy
    · rw [update_of_ne (by omega)]
      rw [List.getElem?_append_left (by omega)] at hy
      have := h.memory n y hy (by omega)
      rwa [Nat.mod_eq_of_lt (by omega)] at this
  · rw [hmem, update_of_ne (by omega)]
    exact h.freeMemory n (by omega) hn'
  · omega
  · rw [hsto]
    exact h.freeStorage n (by omega) hn'
  · rw [hproc, set_processes]
    by_cases hyx : y = x
    · subst hyx
      rw [if_pos rfl, shown_snoc, Nat.mod_eq_of_lt hlt]
    · rw [if_neg hyx, h.table y hy]
      have hz : ld.length - numFrames = 0 := by omega
      have hz' : ld.length + 1 - numFrames = 0 := by omega
      simp only [shown, Resident, latest_snoc_of_ne ld hyx, hlen, hz, hz']

theorem swap (hge : numFrames ≤ ld.length) (hlt : ld.length < numFrames + numStoragePages) {y : Frame}
    (hy : ld[ld.length - numFrames]? = some y) (hmem : t.physicalMemory = update s.physicalMemory (ld.length % numFrames : ℕ) x)
    (hsto : t.secondaryStorage = update s.secondaryStorage (ld.length - numFrames : ℕ) y)
    (hproc : ∀ z : Frame, t.processes z.pid z.pageNumber = if z = x then ⟨(ld.length % numFrames : ℕ), 1, -1⟩
      else if z = y then ⟨-1, 0, (ld.length - numFrames : ℕ)⟩ else s.processes z.pid z.pageNumber) : Tables t (ld ++ [x]) := by
  have hlen : (ld ++ [x]).length = ld.length + 1 := by simp
  have hylast := h.fresh _ _ hy (by omega)
  have hpos : 0 < numFrames := by decide
  refine ⟨h.inRange_snoc hx, by omega, h.fresh_snoc hno, fun n z hz hn => ?_, fun n hn hn' => ?_, fun n z hz hn => ?_,
    fun n hn hn' => ?_, fun z hz => ?_⟩
  · have hnl := (List.getElem?_eq_some_iff.mp hz).1
    rw [hmem]
    by_cases hlast : n = ld.length
    · subst hlast
      rw [update_self]
      simpa using hz
    · have hne : ((n % numFrames : ℕ) : ℤ) ≠ (ld.length % numFrames : ℕ) := by
        simp only [numFrames] at hn ⊢
        omega
      rw [update_of_ne hne]
      rw [List.getElem?_append_left (by omega)] at hz
      exact h.memory n z hz (by omega)
  · omega
  · rw [List.getElem?_append_left (by omega)] at hz
    rw [hsto]
    by_cases hlast : n = ld.length - numFrames
    · subst hlast
      rw [update_self]
      exact Option.some.inj (hy.symm.trans hz)
    · rw [update_of_ne (by omega)]
      exact h.storage n z hz (by omega)
  · rw [hsto, update_of_ne (by omega)]
    exact h.freeStorage n (by omega) hn'
  · rw [hproc]
    by_cases hzx : z = x
    · subst hzx
      rw [if_pos rfl, shown_snoc]
    rw [if_neg hzx]
    by_cases hzy : z = y
    · subst hzy
      have hres : ¬ Resident numFrames (ld ++ [x]) z := by
        rw [Resident, latest_snoc_of_ne ld hzx, hlen, hylast]
        omega
      rw [if_pos rfl, shown, if_neg hres, latest_snoc_of_ne ld hzx, hylast]
      congr 1
      omega
    · rw [if_neg hzy, h.table z hz]
      have hne : latest ld z ≠ ld.length - numFrames + 1 := by
        intro he
        exact hzy (Option.some.inj ((getElem_of_latest he).symm.trans hy))
      have hiff : Resident numFrames (ld ++ [x]) z ↔ Resident numFrames ld z := by
        rw [Resident, Resident, latest_snoc_of_ne ld hzx, hlen]
        omega
      simp only [shown, hiff, latest_snoc_of_ne ld hzx]

end

theorem congr (h : Tables s ld) (hmem : t.physicalMemory = s.physicalMemory) (hsto : t.secondaryStorage = s.secondaryStorage)
    (hproc : t.processes = s.processes) : Tables t ld where
  __ := h
  memory := by rw [hmem]; exact h.memory
  freeMemory := by rw [hmem]; exact h.freeMemory
  storage := by rw [hsto]; exact h.storage
  freeStorage := by rw [hsto]; exact h.freeStorage
  table := by rw [hproc]; exact h.table

end Tables

section allocate

variable {E : Stop → Prop} {Q : Unit → State → Prop}

theorem tmod_succ (n : ℕ) : (((n % numFrames : ℕ) : ℤ) + 1).tmod numFrames = ((n + 1) % numFrames : ℕ) := by
  rw [Int.tmod_eq_emod_of_nonneg (by omega)]
  simp only [numFrames]
  omega

section

variable (hx : x.InRange) (hno : ¬ Resident numFrames ld x) (hge : numFrames ≤ ld.length)
  (hfull : ld.length = numFrames + numStoragePages → E .exit)

include hx hno hge hfull

theorem wp_replace (h : Tables s ld)
    (hQ : ld.length < numFrames + numStoragePages → ∀ t, Tables t (ld ++ [x]) → t.fifoQueue = s.fifoQueue →
    t.fifoFront = s.fifoFront →
      t.fifoRear = s.fifoRear → t.lruStack = s.lruStack → t.lruTop = s.lruTop → Q () t) :
    wp (replace (ld.length % numFrames : ℕ) x) s Q E := by
  obtain ⟨y, hy, hyr, hymem, hylast⟩ := h.oldest hge
  have hmod : ld.length % numFrames < numFrames := Nat.mod_lt _ (by decide)
  rw [replace, wp_bind, wp_get, wp_ite]
  refine ⟨fun hnone => (wp_throw _).mpr (hfull ?_), fun hsome => ?_⟩
  · by_contra hne
    have hroom := h.room
    rw [h.findFreeStorage_of_lt hge (by omega)] at hnone
    omega
  have hlt : ld.length < numFrames + numStoragePages := by
    by_contra hno'
    exact hsome (h.findFreeStorage_full (Nat.le_antisymm h.room (by omega)))
  rw [h.findFreeStorage_of_lt hge hlt, wp_bind]
  refine wp_frame (by omega) (by omega) ((wp_bind _ _).mpr (wp_setStorage (by omega) (by omega) ?_))
  rw [hymem]
  refine (wp_bind _ _).mpr (wp_setEntry hyr ((wp_bind _ _).mpr (wp_setFrame (by omega) (by omega) (wp_setEntry hx ?_))))
  refine hQ hlt _ (h.swap hx hno hge hlt hy rfl rfl fun z => ?_) rfl rfl rfl rfl rfl
  simp only [Tables.set_processes]

theorem wp_fifoReplace (h : Shows .fifo s ld) (hQ : ∀ t, Shows .fifo t (ld ++ [x]) → Q () t) : wp (fifoReplace x) s Q E := by
  obtain ⟨hqueue, hfront, hrear⟩ := h.queue rfl
  have hlt : ld.length % numFrames < numFrames := Nat.mod_lt _ (by decide)
  rw [← Nat.mod_eq_sub_mod hge] at hfront
  rw [fifoReplace, wp_bind, wp_get, wp_bind]
  refine wp_queue (by omega) (by omega) ?_
  rw [hfront, hqueue _ (by omega) hlt, wp_bind, wp_modify, wp_bind]
  refine wp_replace hx hno hge hfull (h.toTables.congr rfl rfl rfl) fun _ t ht hq hf hr _ _ => ?_
  refine wp_enqueue (by rw [hr, hrear]; omega) (by rw [hr, hrear]; omega)
    (hQ _ ⟨ht.congr rfl rfl rfl, fun _ => ⟨fun n hn hn' => ?_, ?_, ?_⟩, by simp⟩)
  · dsimp only
    rw [hq, hr, hrear]
    by_cases hnl : (n : ℤ) = (ld.length % numFrames : ℕ)
    · rw [← hnl, update_self]
    · rw [update_of_ne hnl]
      exact hqueue n (by omega) hn'
  · rw [hf]
    rw [hfront, tmod_succ, List.length_append, List.length_singleton]
    simp only [numFrames] at hge ⊢
    omega
  · rw [hr, hrear, tmod_succ, List.length_append, List.length_singleton]

theorem wp_lruReplace (h : Shows .lru s ld) (hQ : ∀ t, Shows .lru t (ld ++ [x]) → Q () t) : wp (lruReplace x) s Q E := by
  obtain ⟨htop, hstack⟩ := h.stack rfl
  rw [Nat.min_eq_right hge] at htop hstack
  have hzero : s.lruStack 0 = (ld.length % numFrames : ℕ) := by
    have := hstack 0 (by decide)
    rwa [Nat.add_zero, ← Nat.mod_eq_sub_mod hge] at this
  have htoNat : s.lruTop.toNat = numFrames - 1 := by
    rw [htop]
    rfl
  rw [lruReplace, wp_bind]
  refine wp_stack le_rfl (by decide) ?_
  rw [hzero, wp_bind, wp_get, htoNat, wp_bind]
  refine wp_shift (by decide) ?_
  rw [wp_bind, wp_modify, wp_bind]
  refine wp_replace hx hno hge hfull (h.toTables.congr rfl rfl rfl) fun _ t ht _ _ _ hst htp => ?_
  dsimp only at hst htp
  have htop' : t.lruTop + 1 = numFrames - 1 := by
    rw [htp, htop]
    omega
  refine wp_push (by rw [htop']; decide) (by rw [htop']; decide) (hQ _ ⟨ht.congr rfl rfl rfl, by simp, fun _ => ?_⟩)
  have hmin : min (ld ++ [x]).length numFrames = numFrames := by
    rw [List.length_append, List.length_singleton]
    omega
  rw [hmin]
  refine ⟨htop', fun n hn => ?_⟩
  dsimp only
  rw [htop', hst, List.length_append, List.length_singleton]
  by_cases hnl : n = numFrames - 1
  · have hcast : ((n : ℕ) : ℤ) = numFrames - 1 := by omega
    rw [hcast, update_self]
    congr 1
    simp only [numFrames] at hge hnl ⊢
    omega
  · have hlow : 0 ≤ (n : ℤ) ∧ (n : ℤ) < (numFrames - 1 : ℕ) := by omega
    rw [update_of_ne (by omega), if_pos hlow]
    have hnext := hstack (n + 1) (by omega)
    rw [Int.natCast_succ] at hnext
    rw [hnext]
    congr 2
    omega

end

theorem wp_allocatePage (h : Shows algorithm s ld) (hx : x.InRange) :
    wp (allocatePage algorithm x) s (fun _ t => Shows algorithm t (load numFrames ld x))
      (fun e => e = .exit ∧ ld.length = numFrames + numStoragePages ∧ ¬ Resident numFrames ld x) := by
  rw [allocatePage.eq_def, wp_bind]
  refine wp_entry hx ?_
  rw [h.table x hx, wp_ite]
  by_cases hres : Resident numFrames ld x
  · rw [shown, if_pos hres, load, if_pos hres]
    exact ⟨fun _ => wp_ret h, fun hz => absurd hz (by simp)⟩
  rw [shown, if_neg hres, load, if_neg hres]
  refine ⟨fun hz => absurd hz (by simp), fun _ => ?_⟩
  rw [wp_bind, wp_get, wp_ite]
  by_cases hlt : ld.length < numFrames
  · rw [h.findFreeFrame_of_lt hlt]
    refine ⟨fun _ => ?_, fun hz => absurd (by omega) hz⟩
    rw [wp_bind]
    refine wp_setFrame (by omega) (by omega) ((wp_bind _ _).mpr (wp_setEntry hx ?_))
    have htables := h.toTables.fill hx hres hlt (t := { s with
      physicalMemory := update s.physicalMemory ld.length x
      processes := update s.processes x.pid (update (s.processes x.pid) x.pageNumber ⟨ld.length, 1, -1⟩) }) rfl rfl rfl
    have hlen : (ld ++ [x]).length = ld.length + 1 := by simp
    cases algorithm with
    | fifo =>
      obtain ⟨hqueue, hfront, hrear⟩ := h.queue rfl
      rw [Nat.mod_eq_of_lt hlt] at hrear
      refine wp_enqueue (by rw [hrear]; omega) (by rw [hrear]; omega) ⟨htables.congr rfl rfl rfl,
        fun _ => ⟨fun n hn hn' => ?_, ?_, ?_⟩, by simp⟩
      · dsimp only
        rw [hrear]
        by_cases hnl : n = ld.length
        · rw [hnl, update_self]
        · rw [update_of_ne (by omega)]
          exact hqueue n (by omega) hn'
      · rw [hfront, hlen]
        have h1 : ld.length - numFrames = 0 := by omega
        have h2 : ld.length + 1 - numFrames = 0 := by omega
        rw [h1, h2]
      · have hself : ld.length = ld.length % numFrames := (Nat.mod_eq_of_lt hlt).symm
        rw [hrear, hlen]
        conv_lhs => rw [hself]
        exact tmod_succ _
    | lru =>
      obtain ⟨htop, hstack⟩ := h.stack rfl
      rw [Nat.min_eq_left hlt.le] at htop hstack
      have htop' : s.lruTop + 1 = ld.length := by omega
      refine wp_push (by rw [htop']; omega) (by rw [htop']; omega) ⟨htables.congr rfl rfl rfl, by simp, fun _ => ?_⟩
      have hmin : min (ld ++ [x]).length numFrames = ld.length + 1 := by
        omega
      rw [hmin, hlen]
      refine ⟨by dsimp only; omega, fun n hn => ?_⟩
      dsimp only
      rw [htop', Nat.sub_self, Nat.zero_add, Nat.mod_eq_of_lt (by omega)]
      by_cases hnl : n = ld.length
      · rw [hnl, update_self]
      · rw [update_of_ne (by omega)]
        have := hstack n (by omega)
        rwa [Nat.sub_self, Nat.zero_add, Nat.mod_eq_of_lt (by omega)] at this
  · rw [h.findFreeFrame_of_ge (by omega)]
    refine ⟨fun hz => absurd rfl hz, fun _ => ?_⟩
    cases algorithm with
    | fifo => exact wp_fifoReplace hx hres (by omega) (fun hfull => ⟨rfl, hfull, hres⟩) h fun _ ht => ht
    | lru => exact wp_lruReplace hx hres (by omega) (fun hfull => ⟨rfl, hfull, hres⟩) h fun _ ht => ht

end allocate

end shows

variable {algorithm : Algorithm} {refs : List Frame} {s : State}

def loaded (refs : List Frame) : List Frame := refs.foldl (load numFrames) []

theorem loaded_snoc (refs : List Frame) (x : Frame) : loaded (refs ++ [x]) = load numFrames (loaded refs) x := List.foldl_append

theorem run_append (algorithm : Algorithm) (pre post : List Frame) :
    run algorithm (pre ++ post) = run algorithm pre >>= fun _ => run algorithm post := by
  induction pre with
  | nil => rfl
  | cons x xs ih => simp only [List.cons_append, run, ih, bind_assoc]

theorem run_snoc (algorithm : Algorithm) (refs : List Frame) (x : Frame) :
    run algorithm (refs ++ [x]) = run algorithm refs >>= fun _ => allocatePage algorithm x := by
  have hone : run algorithm [x] = allocatePage algorithm x := by
    exact bind_pure _
  rw [run_append, hone]

theorem wp_run (hrefs : ∀ x ∈ refs, x.InRange) :
    wp (run algorithm refs) initialized (fun _ t => Shows algorithm t (loaded refs)) (fun e => e = .exit ∧
      ∃ pre x post s, refs = pre ++ x :: post ∧ run algorithm pre initialized = .ok ((), s) ∧
        (loaded pre).length = numFrames + numStoragePages ∧ ¬ Resident numFrames (loaded pre) x) := by
  induction refs using List.reverseRecOn with
  | nil => exact wp_ret (shows_initialized algorithm)
  | append_singleton refs x ih =>
    rw [run_snoc, wp_bind]
    refine wp_imp (wp_self (ih fun y hy => hrefs y (by simp [hy]))) (fun _ t ht => ?_) ?_
    · rw [loaded_snoc]
      refine wp_imp (wp_allocatePage ht.1 (hrefs x (by simp))) (fun _ _ h => h) ?_
      rintro e ⟨he, hfull, hno⟩
      exact ⟨he, refs, x, [], t, rfl, ht.2, hfull, hno⟩
    · rintro e ⟨he, pre, y, post, s, hpre, hfull⟩
      exact ⟨he, pre, y, post ++ [x], s, by simp [hpre], hfull⟩

theorem shows_run (hrefs : ∀ x ∈ refs, x.InRange) (h : run algorithm refs initialized = .ok ((), s)) :
    Shows algorithm s (loaded refs) := by
  have hs := wp_ok (wp_run hrefs) h
  exact hs

def State.entryOf (s : State) (x : Frame) : PageTableEntry := s.processes x.pid x.pageNumber

def State.victim (s : State) : Algorithm → ℤ
  | .fifo => s.fifoQueue s.fifoFront
  | .lru => s.lruStack 0

namespace Shows

variable {ld : List Frame} {x : Frame}

section

variable (h : Shows algorithm s ld)

include h

theorem inMemory_iff (hx : x.InRange) : (s.entryOf x).inMemory = 1 ↔ Resident numFrames ld x := by
  rw [State.entryOf, h.table x hx, shown]
  split_ifs with hres
  · exact ⟨fun _ => hres, fun _ => rfl⟩
  · exact ⟨fun hz => absurd hz (by simp), fun hz => absurd hz hres⟩

theorem frame_iff (hx : x.InRange) {f : ℤ} (h0 : 0 ≤ f) (hf : f < numFrames) :
    (s.entryOf x).inMemory = 1 ∧ (s.entryOf x).frameNumber = f ↔ s.physicalMemory f = x := by
  obtain ⟨k, rfl⟩ := Int.eq_ofNat_of_zero_le h0
  have hk : k < numFrames := by omega
  constructor
  · rintro ⟨hmem, hframe⟩
    have hres := (h.inMemory_iff hx).mp hmem
    rw [State.entryOf, h.table x hx, shown, if_pos hres] at hframe
    have hpos : 0 < latest ld x := by
      unfold Resident at hres
      omega
    obtain ⟨n, hn⟩ : ∃ n, latest ld x = n + 1 := Nat.exists_eq_succ_of_ne_zero hpos.ne'
    have hget := getElem_of_latest hn
    rw [hn, Nat.add_sub_cancel] at hframe
    rw [← hframe]
    refine h.memory n x hget ?_
    unfold Resident at hres
    omega
  · intro hmem
    have hlt : k < ld.length := by
      by_contra hge
      rw [h.freeMemory k (by omega) hk] at hmem
      have := hx.1
      rw [← hmem] at this
      simp [Frame.empty] at this
    -- the last load that went to frame `k`
    have hn : ld.length - 1 - (ld.length - 1 - k) % numFrames < ld.length := by omega
    have hwin : ld.length ≤ ld.length - 1 - (ld.length - 1 - k) % numFrames + numFrames := by
      simp only [numFrames]
      omega
    have hmod : (ld.length - 1 - (ld.length - 1 - k) % numFrames) % numFrames = k := by
      simp only [numFrames] at hk ⊢
      omega
    have hget := h.memory _ _ (List.getElem?_eq_getElem hn) hwin
    rw [hmod, hmem] at hget
    have hlast := h.fresh _ _ (List.getElem?_eq_getElem hn) hwin
    rw [← hget] at hlast
    have hres : Resident numFrames ld x := by
      unfold Resident
      omega
    refine ⟨(h.inMemory_iff hx).mpr hres, ?_⟩
    rw [State.entryOf, h.table x hx, shown, if_pos hres, hlast, Nat.add_sub_cancel, hmod]

theorem le_of_noFreeFrame (hfree : findFreeFrame s = -1) : numFrames ≤ ld.length := by
  by_contra hlt
  rw [h.findFreeFrame_of_lt (by omega)] at hfree
  omega

theorem victim_eq (hge : numFrames ≤ ld.length) : s.victim algorithm = (ld.length % numFrames : ℕ) := by
  have hlt : ld.length % numFrames < numFrames := Nat.mod_lt _ (by decide)
  cases algorithm with
  | fifo =>
    obtain ⟨hqueue, hfront, -⟩ := h.queue rfl
    rw [State.victim, hfront, ← Nat.mod_eq_sub_mod hge, hqueue _ (by omega) hlt]
  | lru =>
    have hzero := (h.stack rfl).2 0 (by rw [Nat.min_eq_right hge]; decide)
    rw [Nat.min_eq_right hge, Nat.add_zero, ← Nat.mod_eq_sub_mod hge] at hzero
    exact hzero

end

end Shows

theorem getLast_inMemory {x : Frame} (hrefs : ∀ x ∈ refs, x.InRange) (h : run algorithm refs initialized = .ok ((), s))
    (hx : refs.getLast? = some x) : (s.entryOf x).inMemory = 1 := by
  have hs := shows_run hrefs h
  have hxr : x.InRange := hrefs x (List.mem_of_getLast? hx)
  rw [hs.inMemory_iff hxr]
  obtain ⟨pre, rfl⟩ := List.getLast?_eq_some_iff.mp hx
  rw [loaded_snoc, load]
  split_ifs with hres
  · exact hres
  · have hpos : 0 < numFrames := by decide
    rw [Resident, latest_snoc_self, List.length_append, List.length_singleton]
    omega

theorem frames_consistent (algorithm : Algorithm) {refs : List Frame} (hrefs : ∀ x ∈ refs, x.InRange) :
    run algorithm refs initialized ≠ .error .bounds ∧ ∀ s, run algorithm refs initialized = .ok ((), s) →
      (∀ x : Frame, x.InRange → ∀ f : ℤ, 0 ≤ f → f < numFrames →
        ((s.entryOf x).inMemory = 1 ∧ (s.entryOf x).frameNumber = f ↔ s.physicalMemory f = x)) ∧
      (∀ x : Frame, x.InRange → (s.entryOf x).inMemory = 1 → 0 ≤ (s.entryOf x).frameNumber ∧
      (s.entryOf x).frameNumber < numFrames) ∧
      (∀ x y : Frame, x.InRange → y.InRange → (s.entryOf x).inMemory = 1 → (s.entryOf y).inMemory = 1 →
        (s.entryOf x).frameNumber = (s.entryOf y).frameNumber → x = y) ∧
      (∀ x, refs.getLast? = some x → (s.entryOf x).inMemory = 1) ∧
      (findFreeFrame s = -1 → 0 ≤ s.victim algorithm ∧ s.victim algorithm < numFrames ∧
      (s.physicalMemory (s.victim algorithm)).InRange ∧
        (s.entryOf (s.physicalMemory (s.victim algorithm))).inMemory = 1 ∧
        (s.entryOf (s.physicalMemory (s.victim algorithm))).frameNumber = s.victim algorithm) := by
  refine ⟨fun hbounds => ?_, fun s h => ?_⟩
  · have := (wp_error (wp_run hrefs) hbounds).1
    cases this
  have hs := shows_run hrefs h
  have hframe : ∀ x : Frame, x.InRange → (s.entryOf x).inMemory = 1 →
      0 ≤ (s.entryOf x).frameNumber ∧ (s.entryOf x).frameNumber < numFrames := by
    intro x hx hmem
    have hres := (hs.inMemory_iff hx).mp hmem
    rw [State.entryOf, hs.table x hx, shown, if_pos hres]
    have := Nat.mod_lt (latest (loaded refs) x - 1) (show 0 < numFrames by decide)
    dsimp only
    omega
  refine ⟨fun x hx f h0 hf => hs.frame_iff hx h0 hf, hframe, fun x y hx hy hmx hmy he => ?_,
    fun x hx => getLast_inMemory hrefs h hx, fun hfree => ?_⟩
  · obtain ⟨h0, hf⟩ := hframe x hx hmx
    have h1 := (hs.frame_iff hx h0 hf).mp ⟨hmx, rfl⟩
    have h2 := (hs.frame_iff hy h0 hf).mp ⟨hmy, he.symm⟩
    exact h1.symm.trans h2
  · have hge := hs.le_of_noFreeFrame hfree
    have hlt : (loaded refs).length % numFrames < numFrames := Nat.mod_lt _ (by decide)
    obtain ⟨y, -, hyr, hymem, -⟩ := hs.oldest hge
    rw [hs.victim_eq hge, hymem]
    exact ⟨by omega, by omega, hyr, (hs.frame_iff hyr (by omega) (by omega)).mpr hymem⟩

theorem frames_consistent_nine : run .lru (pages 9) initialized ≠ .error .bounds ∧ ∃ s,
    run .lru (pages 9) initialized = .ok ((), s) ∧ (s.entryOf (s.physicalMemory (s.victim .lru))).inMemory = 1 := by
  obtain ⟨hbounds, hok⟩ := frames_consistent .lru (show ∀ x ∈ pages 9, x.InRange by decide)
  have hrun : wp (run .lru (pages 9)) initialized (fun _ t => findFreeFrame t = -1) (fun _ => False) := by decide +kernel
  obtain ⟨⟨⟩, s, hs, hfree⟩ := exists_of_wp hrun
  exact ⟨hbounds, s, hs, ((hok s hs).2.2.2.2 hfree).2.2.2.1⟩

end Laboratorio.Paging
