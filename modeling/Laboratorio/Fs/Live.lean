import Laboratorio.Fs.Refs
import Laboratorio.Fs.Whole

/-!
The volume as the kernel sees it: the inodes in the cache, where they are valid, and the blocks of the disk.
-/

namespace Laboratorio.Fs

open Bytes Function

def Cached (s : FsState) (i : ℕ) (c : Cell) : Prop := 0 < (s.icache c).ref ∧ (s.icache c).valid = true ∧ (s.icache c).inum = i

variable {s t : FsState}

theorem findCell_congr {p : Inode → Bool} (h : ∀ c, p (t.icache c) = p (s.icache c)) : findCell t p = findCell s p := by
  unfold findCell
  congr 1
  funext c
  exact h c

variable {r : Cell → ℕ}

theorem plus_pos_iff {c c' : Cell} (hc : 0 < r c) : 0 < plus r c c' ↔ 0 < r c' := by
  refine ⟨fun h => ?_, plus_pos c⟩
  by_cases hcc : c' = c
  · rwa [hcc]
  · rwa [plus_of_ne hcc] at h

theorem Still.cached (h : Still s t) (i : ℕ) (c : Cell) : Cached t i c ↔ Cached s i c := by
  rw [Cached, Cached, h.ref, h.valid, h.inum]

variable [sb : Superblock]

namespace FsState

def table (s : FsState) : Volume := volume s.disk.blocks

def core (s : FsState) (i : ℕ) : Dinode :=
  match findCell s (fun ip => 0 < ip.ref ∧ ip.valid ∧ ip.inum = i) with
  | some c => (s.icache c).d
  | none => s.table.core i

def live (s : FsState) : Volume := { s.table with core := s.core }

def node (s : FsState) (i : ℕ) : Node := s.live.node i

variable {s t : FsState} {i : ℕ} {c : Cell}

@[simp] theorem table_set (ip : Inode) : (s.set c ip).table = s.table := rfl

theorem core_eq {x : Dinode} (h : ∀ c, Cached s i c → (s.icache c).d = x) (h0 : (∀ c, ¬ Cached s i c) → s.table.core i = x) :
    s.core i = x := by
  unfold core
  cases hf : findCell s (fun ip => 0 < ip.ref ∧ ip.valid ∧ ip.inum = i) with
  | some c => exact h c (by simpa [Cached] using findCell_some hf)
  | none =>
    refine h0 fun c hc => ?_
    obtain ⟨h1, h2, h3⟩ := hc
    simpa [h1, h2, h3] using findCell_none hf c

theorem core_congr (hc : ∀ c, Cached t i c ↔ Cached s i c) (hd : ∀ c, Cached s i c → (t.icache c).d = (s.icache c).d)
    (ht : t.table.core i = s.table.core i) : t.core i = s.core i := by
  have hf : findCell t (fun ip => 0 < ip.ref ∧ ip.valid ∧ ip.inum = i) = findCell s (fun ip => 0 < ip.ref ∧ ip.valid ∧
    ip.inum = i) := by
    refine findCell_congr fun c => ?_
    have := hc c
    unfold Cached at this
    simp [this]
  unfold core
  rw [hf]
  cases hf' : findCell s (fun ip => 0 < ip.ref ∧ ip.valid ∧ ip.inum = i) with
  | some c => exact hd c (by simpa [Cached] using findCell_some hf')
  | none => exact ht

theorem core_set {ip : Inode} (h : ¬ (0 < (s.icache c).ref ∧ (s.icache c).valid = true))
    (h' : ¬ (0 < ip.ref ∧ ip.valid = true)) : (s.set c ip).core = s.core := by
  funext j
  have hno : ∀ c', Cached s j c' → c' ≠ c := by
    rintro c' hc' rfl
    exact h ⟨hc'.1, hc'.2.1⟩
  refine core_congr (fun c' => ?_) (fun c' hc' => ?_) rfl
  · by_cases hcc : c' = c
    · subst hcc
      refine ⟨fun hc' => absurd ?_ h', fun hc' => absurd rfl (hno c' hc')⟩
      simpa using And.intro hc'.1 hc'.2.1
    · simp [Cached, hcc]
  · simp [hno c' hc']

theorem live_congr (hcore : t.core = s.core) (hdisk : t.disk.blocks = s.disk.blocks) : t.live = s.live := by
  unfold live table
  rw [hcore, hdisk]

end FsState

structure Sound (m : Mode) (b r : Cell → ℕ) (l : Cell → Bool) (s : FsState) : Prop extends At s r l where
  under : Under b r
  dev : ∀ c, 0 < r c → (s.icache c).dev = rootdev
  inum_lt : ∀ c, 0 < r c → m.tidy ∨ (s.icache c).valid = true → (s.icache c).inum < ninodes
  locked_of : m.tidy → ∀ c, l c = true → 0 < r c ∧ (s.icache c).valid = true
  typed : ∀ c, 0 < r c → (s.icache c).valid = true → (s.icache c).d.type ≠ 0
  fits : ∀ c, 0 < r c → (s.icache c).valid = true → (s.icache c).d.Fits
  behind_of : m.tidy → ∀ c, 0 < r c → (s.icache c).valid = true → Behind (s.table.core (s.icache c).inum) (s.icache c).d
  whole : Whole m s.live
  kept_of : m.tidy → ∀ i, (s.core i).type ≠ 0 → (s.core i).nlink = 0 → ∃ c, 0 < b c ∧ (s.icache c).valid = true ∧
    (s.icache c).inum = i

/-- `r` counts the references to each cell, `b` those that the running call does not give back. -/
structure Inv (m : Mode) (b r : Cell → ℕ) (l : Cell → Bool) (s : FsState) : Prop extends Sound m b r l s where
  tidy : m.tidy
  ahead : ∀ i, s.table.core i ≠ s.core i → m.loose ∧ (m.dense → ∃ c, 0 < b c ∧ (s.icache c).inum = i)

namespace Inv

variable {m : Mode} {b r : Cell → ℕ} {l : Cell → Bool} {s : FsState} (h : Inv m b r l s)
include h

theorem inum (c : Cell) (hc : 0 < r c) : (s.icache c).inum < ninodes := h.inum_lt c hc (.inl h.tidy)

theorem locked (c : Cell) (hl : l c = true) : 0 < r c ∧ (s.icache c).valid = true := h.locked_of h.tidy c hl

theorem behind (c : Cell) (hc : 0 < r c) (hv : (s.icache c).valid = true) : Behind (s.table.core (s.icache c).inum)
    (s.icache c).d :=
  h.behind_of h.tidy c hc hv

theorem kept (i : ℕ) (ht : (s.core i).type ≠ 0) (hn : (s.core i).nlink = 0) :
    ∃ c, 0 < b c ∧ (s.icache c).valid = true ∧ (s.icache c).inum = i := h.kept_of h.tidy i ht hn

end Inv

def Settled (r : Cell → ℕ) (s : FsState) : Prop := ∀ i, (∀ c, 0 < r c → (s.icache c).inum ≠ i) → s.table.node i = s.node i

structure Reads (m : Mode) (r : Cell → ℕ) (s t : FsState) : Prop where
  stays : Stays r s t
  node : ∀ c, 0 < r c → t.node (s.icache c).inum = s.node (s.icache c).inum
  calm : m.dense → t.disk = s.disk ∧ t.live = s.live
  stored : t.table.node = s.table.node
  shown : Settled r s → t.node = s.node

instance (m : Mode) (r : Cell → ℕ) : Std.Refl (Reads m r) :=
    ⟨fun s => ⟨refl s, fun _ _ => rfl, fun _ => ⟨rfl, rfl⟩, rfl, fun _ => rfl⟩⟩

variable {m : Mode}

theorem Reads.settled (h : Reads m r s t) (hs : Settled r s) : Settled r t := by
  intro i hi
  rw [h.stored, h.shown hs]
  refine hs i fun c hc => ?_
  rw [← (h.stays c hc).2.1]
  exact hi c hc

instance (m : Mode) (r : Cell → ℕ) : IsTrans FsState (Reads m r) := by
  refine ⟨fun s t u h h' => ⟨Trans.trans h.stays h'.stays, fun c hc => ?_, fun hd => ?_,
    h'.stored.trans h.stored, fun hs => ?_⟩⟩
  · rw [← h.node c hc, ← (h.stays c hc).2.1]
    exact h'.node c hc
  · obtain ⟨h1, h2⟩ := h.calm hd
    obtain ⟨h1', h2'⟩ := h'.calm hd
    exact ⟨h1'.trans h1, h2'.trans h2⟩
  · exact (h'.shown (h.settled hs)).trans (h.shown hs)

theorem Reads.mono {r' : Cell → ℕ} (h : Reads m r' s t) (hr : Under r r') : Reads m r s t :=
  ⟨h.stays.mono hr, fun c hc => h.node c (hr c hc), h.calm, h.stored, fun hs => h.shown fun i hi =>
    hs i fun c hc => hi c (hr c hc)⟩

theorem Reads.of_core (hst : Stays r s t) (hdisk : t.disk = s.disk) (hcore : t.core = s.core) : Reads m r s t := by
  have hlive : t.live = s.live := FsState.live_congr hcore (by rw [hdisk])
  have hnode : t.node = s.node := by
    unfold FsState.node
    rw [hlive]
  refine ⟨hst, fun c _ => by rw [hnode], fun _ => ⟨hdisk, hlive⟩, ?_, fun _ => hnode⟩
  unfold FsState.table
  rw [hdisk]

theorem Under.reads {α : Type} {r' : Cell → ℕ} {p : FsM α} {Q : α → FsState → Prop} {E : Fault → Prop}
    (hr : Under r r') (h : wpr (Reads m r') p s Q E) : wpr (Reads m r) p s Q E := h.mono (fun _ ht => ht.mono hr) fun _ _ => id

variable {m : Mode} {b r : Cell → ℕ} {l : Cell → Bool} {s : FsState} {c : Cell} {i : ℕ} {E : Fault → Prop}

namespace Sound

section

variable (h : Sound m b r l s)

include h

theorem cached (hc : 0 < r c) (hv : (s.icache c).valid = true) : Cached s (s.icache c).inum c :=
  ⟨by rwa [h.ref], hv, rfl⟩

theorem eq_of_inum {c' : Cell} (hc : 0 < r c) (hc' : 0 < r c') (hi : (s.icache c).inum = (s.icache c').inum) : c = c' :=
  h.unique c c' hc hc' ((h.dev c hc).trans (h.dev c' hc').symm) hi

theorem core_eq_d (hc : 0 < r c) (hv : (s.icache c).valid = true) : s.core (s.icache c).inum = (s.icache c).d := by
  refine FsState.core_eq (fun c' hc' => ?_) fun h0 => absurd (h.cached hc hv) (h0 c)
  rw [h.eq_of_inum (by rw [← h.ref]; exact hc'.1) hc hc'.2.2]

theorem core_eq_table (hc : 0 < r c) (hv : (s.icache c).valid = false) :
    s.core (s.icache c).inum = s.table.core (s.icache c).inum := by
  refine FsState.core_eq (fun c' hc' => ?_) fun _ => rfl
  have := h.eq_of_inum (by rw [← h.ref]; exact hc'.1) hc hc'.2.2
  rw [this] at hc'
  simp [hc'.2.1] at hv

theorem core_touch (hc : 0 < r c) {ip : Inode} (hi : ip.inum = (s.icache c).inum) (hv : ip.valid = (s.icache c).valid)
    (hd : ip.d = (s.icache c).d) (hr : 0 < ip.ref) : (s.set c ip).core = s.core := by
  have hc' : 0 < (s.icache c).ref := by rwa [h.ref]
  funext i
  refine FsState.core_congr (fun c' => ?_) (fun c' _ => ?_) rfl
  · by_cases hcc : c' = c
    · subst hcc
      simp [Cached, hi, hv, hr, hc']
    · simp [Cached, hcc]
  · by_cases hcc : c' = c
    · subst hcc
      simp [hd]
    · simp [hcc]

theorem of_core {r' : Cell → ℕ} {l' : Cell → Bool} (ha : At t r' l') (hu : Under b r') (hs : Stays b s t)
    (hblocks : t.disk.blocks = s.disk.blocks) (hcore : t.core = s.core)
    (hdev : ∀ c, 0 < r' c → (t.icache c).dev = rootdev ∧ (m.tidy ∨ (t.icache c).valid = true → (t.icache c).inum < ninodes))
    (hlock : m.tidy → ∀ c, l' c = true → 0 < r' c ∧ (t.icache c).valid = true)
    (hd : ∀ c, 0 < r' c → (t.icache c).valid = true → (t.icache c).d.type ≠ 0 ∧ (t.icache c).d.Fits ∧
      (m.tidy → Behind (s.table.core (t.icache c).inum) (t.icache c).d)) : Sound m b r' l' t where
  toAt := ha
  under := hu
  dev := fun c hc => (hdev c hc).1
  inum_lt := fun c hc => (hdev c hc).2
  locked_of := hlock
  typed := fun c hc hv => (hd c hc hv).1
  fits := fun c hc hv => (hd c hc hv).2.1
  behind_of := fun hm c hc hv => by
    have htable : t.table = s.table := by rw [FsState.table, FsState.table, hblocks]
    rw [htable]
    exact (hd c hc hv).2.2 hm
  whole := by
    rw [FsState.live_congr hcore hblocks]
    exact h.whole
  kept_of := fun hm i ht hn => by
    rw [hcore] at ht hn
    obtain ⟨c, hc, hv, hi⟩ := h.kept_of hm i ht hn
    exact ⟨c, hc, (hs c hc).2.2 hv, (hs c hc).2.1.trans hi⟩

theorem touch (hc : 0 < r c) {ip : Inode} {r' : Cell → ℕ} {l' : Cell → Bool} (ha : At (s.set c ip) r' l')
    (hdev : ip.dev = (s.icache c).dev) (hi : ip.inum = (s.icache c).inum) (hv : ip.valid = (s.icache c).valid)
    (hd : ip.d = (s.icache c).d) (hr : 0 < ip.ref) (hu : Under b r') (hback : ∀ c, 0 < r' c → 0 < r c)
    (hlock : m.tidy → ∀ c', l' c' = true → 0 < r' c' ∧ (l c' = true ∨ c' = c ∧ ip.valid = true)) :
    Sound m b r' l' (s.set c ip) ∧ (s.set c ip).core = s.core ∧ ∀ q, Stays q s (s.set c ip) := by
  have hcore := h.core_touch hc hi hv hd hr
  have hcells : ∀ c', ((s.set c ip).icache c').dev = (s.icache c').dev ∧ ((s.set c ip).icache c').inum = (s.icache c').inum ∧
      ((s.set c ip).icache c').valid = (s.icache c').valid ∧ ((s.set c ip).icache c').d = (s.icache c').d := by
    intro c'
    by_cases hcc : c' = c
    · subst hcc
      simp [hdev, hi, hv, hd]
    · simp [hcc]
  have hstays : ∀ q, Stays q s (s.set c ip) := fun q c' _ =>
    ⟨(hcells c').1, (hcells c').2.1, fun hv' => by rw [(hcells c').2.2.1]; exact hv'⟩
  refine ⟨h.of_core ha hu (hstays b) rfl hcore (fun c' hc' => ?_) (fun hm c' hc' => ?_) fun c' hc' hv' => ?_, hcore, hstays⟩
  · rw [(hcells c').1, (hcells c').2.1, (hcells c').2.2.1]
    exact ⟨h.dev c' (hback c' hc'), h.inum_lt c' (hback c' hc')⟩
  · obtain ⟨h1, h2⟩ := hlock hm c' hc'
    refine ⟨h1, ?_⟩
    rw [(hcells c').2.2.1]
    rcases h2 with h2 | ⟨rfl, h2⟩
    · exact (h.locked_of hm c' h2).2
    · rw [← hv, h2]
  · rw [(hcells c').2.2.1] at hv'
    rw [(hcells c').2.1, (hcells c').2.2.2]
    exact ⟨h.typed c' (hback c' hc') hv', h.fits c' (hback c' hc') hv', fun hm => h.behind_of hm c' (hback c' hc') hv'⟩

theorem core_of_unheld (hi : ∀ c, 0 < r c → (s.icache c).inum ≠ i) : s.core i = s.table.core i := by
  refine FsState.core_eq (fun c hc => ?_) fun _ => rfl
  exact absurd hc.2.2 (hi c (by rw [← h.ref]; exact hc.1))

theorem settled : Settled r s := by
  intro i hi
  have hcore : s.table.core i = s.live.core i := (h.core_of_unheld hi).symm
  exact Volume.node_congr hcore rfl

theorem trails (hm : m.tidy) : s.table.Trails s.live := by
  rintro ⟨i, k⟩
  by_cases hi : ∃ c, 0 < r c ∧ (s.icache c).valid = true ∧ (s.icache c).inum = i
  · obtain ⟨c, hc, hv, rfl⟩ := hi
    have hbehind := h.behind_of hm c hc hv
    rw [← h.core_eq_d hc hv] at hbehind
    by_cases ht : (s.live.core (s.icache c).inum).type = 0
    · exact .inl (Volume.own_of_free (hbehind.type.trans ht))
    · rw [Volume.own_of_allocated ht, Volume.own_of_allocated fun h0 => ht (hbehind.type.symm.trans h0)]
      exact hbehind.ptr_cases s.table.data k
  · have hcore : s.live.core i = s.table.core i := by
      refine FsState.core_eq (fun c hc => ?_) fun _ => rfl
      exact absurd ⟨c, by rw [← h.ref]; exact hc.1, hc.2.1, hc.2.2⟩ hi
    exact .inr (Volume.own_congr_at hcore.symm (fun _ => rfl) k)

end

end Sound

namespace Inv

variable {t : FsState} {r' : Cell → ℕ} {l' : Cell → Bool}

theorem of_sound (h : Inv m b r l s) (ht : Sound m b r' l' t) (hs : Stays b s t)
    (hblocks : t.disk.blocks = s.disk.blocks) (hcore : t.core = s.core) : Inv m b r' l' t where
  toSound := ht
  tidy := h.tidy
  ahead := fun i hi => by
    have htable : t.table = s.table := by rw [FsState.table, FsState.table, hblocks]
    rw [htable, hcore] at hi
    obtain ⟨hl, hh⟩ := h.ahead i hi
    refine ⟨hl, fun hdense => ?_⟩
    obtain ⟨c, hc, hci⟩ := hh hdense
    exact ⟨c, hc, (hs c hc).2.1.trans hci⟩

theorem mono (h : Inv m b r l s) {b' : Cell → ℕ} (hb : Under b b') (hr : Under b' r) : Inv m b' r l s where
  __ := h
  under := hr
  kept_of := fun hm i ht hn => (h.kept_of hm i ht hn).imp fun c hc => ⟨hb c hc.1, hc.2⟩
  ahead := fun i hi => ⟨(h.ahead i hi).1, fun hd => ((h.ahead i hi).2 hd).imp fun c hc => ⟨hb c hc.1, hc.2⟩⟩

theorem touch (h : Inv m b r l s) (hc : 0 < r c) {ip : Inode} (ha : At (s.set c ip) r' l')
    (hdev : ip.dev = (s.icache c).dev) (hi : ip.inum = (s.icache c).inum) (hv : ip.valid = (s.icache c).valid)
    (hd : ip.d = (s.icache c).d) (hr : 0 < ip.ref) (hu : Under b r') (hback : ∀ c, 0 < r' c → 0 < r c)
    (hlock : ∀ c', l' c' = true → 0 < r' c' ∧ (l c' = true ∨ c' = c ∧ ip.valid = true)) {q : Cell → ℕ} :
    Inv m b r' l' (s.set c ip) ∧ Reads m q s (s.set c ip) := by
  obtain ⟨hsound, hcore, hstays⟩ := h.toSound.touch hc ha hdev hi hv hd hr hu hback fun _ => hlock
  exact ⟨h.of_sound hsound (hstays b) rfl hcore, .of_core (hstays q) rfl hcore⟩

theorem forget (h : Inv m b (plus r c) l s) (ht : t = s.set c { s.icache c with ref := (s.icache c).ref - 1 }) (hat : At t r l)
    (hst : Stays r s t) (hu : Under b r) (hl : l c = false) (hne : ∀ c', 0 < r c' → c' ≠ c) : Inv m b r l t ∧
      Reads m r s t := by
  have hc := plus_self_pos r c
  have href : (s.icache c).ref - 1 = 0 := by
    have hr : r c = 0 := Nat.eq_zero_of_not_pos fun hr => hne c hr rfl
    rw [h.ref, plus_self, hr]
  have hinum : ∀ c', 0 < r c' → (s.icache c').inum ≠ (s.icache c).inum := fun c' hc' hi =>
    hne c' hc' (h.eq_of_inum (plus_pos c hc') hc hi)
  have hcell : ∀ c', c' ≠ c → t.icache c' = s.icache c' := fun c' hcc => by
    simp [ht, hcc]
  have htable : t.table = s.table := by
    rw [ht]
    rfl
  have hother : ∀ j, j ≠ (s.icache c).inum → t.core j = s.core j := by
    intro j hj
    refine FsState.core_congr (fun c' => ?_) (fun c' hc' => ?_) (by rw [htable])
    · by_cases hcc : c' = c
      · subst hcc
        simp [Cached, ht, Ne.symm hj]
      · rw [Cached, hcell c' hcc]
        rfl
    · by_cases hcc : c' = c
      · subst hcc
        simp [ht]
      · rw [hcell c' hcc]
  have hself : t.core (s.icache c).inum = s.table.core (s.icache c).inum := by
    refine FsState.core_eq (fun c' hc' => ?_) fun _ => by rw [htable]
    exfalso
    by_cases hcc : c' = c
    · subst hcc
      simp [Cached, ht, href] at hc'
    · rw [Cached, hcell c' hcc] at hc'
      exact hcc (h.eq_of_inum (by rw [← h.ref]; exact hc'.1) hc hc'.2.2)
  have hdev : ∀ c', 0 < r c' → (t.icache c').dev = rootdev ∧
    (m.tidy ∨ (t.icache c').valid = true → (t.icache c').inum < ninodes) := by
    intro c' hc'
    rw [hcell c' (hne c' hc')]
    exact ⟨h.dev c' (plus_pos c hc'), h.inum_lt c' (plus_pos c hc')⟩
  have hlock : m.tidy → ∀ c', l c' = true → 0 < r c' ∧ (t.icache c').valid = true := by
    intro _ c' hlc
    have hcc : c' ≠ c := by
      rintro rfl
      simp [hl] at hlc
    obtain ⟨h1, h2⟩ := h.locked c' hlc
    rw [plus_of_ne hcc] at h1
    rw [hcell c' hcc]
    exact ⟨h1, h2⟩
  have hd : ∀ c', 0 < r c' → (t.icache c').valid = true → (t.icache c').d.type ≠ 0 ∧ (t.icache c').d.Fits ∧
    (m.tidy → Behind (s.table.core (t.icache c').inum) (t.icache c').d) := by
    intro c' hc' hv
    rw [hcell c' (hne c' hc')] at hv ⊢
    have hc'' := plus_pos c hc'
    exact ⟨h.typed c' hc'' hv, h.fits c' hc'' hv, fun _ => h.behind c' hc'' hv⟩
  have hdisk : t.disk = s.disk := by
    rw [ht]
    rfl
  by_cases he : s.table.core (s.icache c).inum = s.core (s.icache c).inum
  · have hcore : t.core = s.core := by
      funext j
      by_cases hj : j = (s.icache c).inum
      · rw [hj, hself, he]
      · exact hother j hj
    have hsound := h.toSound.of_core hat hu (hst.mono hu) (congrArg Disk.blocks hdisk) hcore hdev hlock hd
    exact ⟨h.of_sound hsound (hst.mono hu) (congrArg Disk.blocks hdisk) hcore, .of_core hst hdisk hcore⟩
  obtain ⟨hloose, hheld⟩ := h.ahead _ he
  have hnd : ¬ m.dense := by
    intro hdense
    obtain ⟨c', hb, hi⟩ := hheld hdense
    exact hinum c' (hu c' hb) hi
  have hv : (s.icache c).valid = true := by
    by_contra hv
    exact he (h.core_eq_table hc (by simpa using hv)).symm
  have hbehind : Behind (s.table.core (s.icache c).inum) (s.live.core (s.icache c).inum) := by
    change Behind _ (s.core _)
    rw [h.core_eq_d hc hv]
    exact h.behind c hc hv
  have hlive : t.live = s.live.setCore (s.icache c).inum (s.table.core (s.icache c).inum) := by
    unfold FsState.live
    rw [htable]
    refine Volume.ext ?_ rfl rfl
    funext j
    by_cases hj : j = (s.icache c).inum
    · subst hj
      simpa [Volume.setCore] using hself
    · simpa [Volume.setCore, hj] using hother j hj
  have hnode : ∀ j, j ≠ (s.icache c).inum → t.node j = s.node j := by
    intro j hj
    rw [FsState.node, FsState.node, hlive]
    exact Volume.node_congr (update_of_ne hj _ _) rfl
  refine ⟨⟨⟨hat, hu, fun c' hc' => (hdev c' hc').1, fun c' hc' => (hdev c' hc').2, hlock, fun c' hc' hv => (hd c' hc' hv).1,
    fun c' hc' hv => (hd c' hc' hv).2.1, fun hm c' hc' hv => ?_, ?_, fun _ j htj hnj => ?_⟩, h.tidy,
    fun j hj => ⟨hloose, fun hdense => absurd hdense hnd⟩⟩, hst, fun c' hc' => hnode _ (hinum c' hc'),
    fun hdense => absurd hdense hnd, by rw [htable], fun hs => ?_⟩
  · rw [htable]
    exact (hd c' hc' hv).2.2 hm
  · rw [hlive]
    exact h.whole.fade hloose hnd hbehind
  · have hfields : (s.core j).type ≠ 0 ∧ (s.core j).nlink = 0 := by
      by_cases hj : j = (s.icache c).inum
      · rw [hj, hself] at htj hnj
        rw [hj]
        exact ⟨fun h0 => htj (hbehind.type.trans h0), hbehind.nlink.symm.trans hnj⟩
      · rw [hother j hj] at htj hnj
        exact ⟨htj, hnj⟩
    obtain ⟨c', hb, hv', hi⟩ := h.kept j hfields.1 hfields.2
    refine ⟨c', hb, ?_⟩
    rw [hcell c' (hne c' (hu c' hb))]
    exact ⟨hv', hi⟩
  · funext j
    by_cases hj : j = (s.icache c).inum
    · rw [hj, ← hs _ hinum]
      exact Volume.node_congr hself (by rw [← htable]; rfl)
    · exact hnode j hj

end Inv

theorem sound_iget (h : Sound m b r l s) (hi : m.tidy → i < ninodes)
    (hfull : (∀ c, 0 < r c ∧ (s.icache c).inum ≠ i) → E .igetNoInodes) :
    wp (iget rootdev i) s (fun c t => Sound m b (plus r c) l t ∧ (t.icache c).inum = i ∧ Stays r s t ∧ t.disk = s.disk ∧
      t.core = s.core ∧ (r c = 0 → (t.icache c).valid = false)) E := by
  refine wp_given (at_iget h.toAt rootdev i) (wp_iget (fun c h1 _ h3 ⟨hat, hst⟩ => ?_) (fun c h0 _ ⟨hat, hst⟩ => ?_)
    fun hno hnone => ?_)
  · have hc : 0 < r c := by rwa [← h.ref]
    obtain ⟨h4, h5, -⟩ := h.touch hc hat rfl rfl rfl rfl (Nat.succ_pos _) (h.under.plus c) (fun c' => (plus_pos_iff hc).mp)
      fun hm c' hl => ⟨plus_pos c (h.locked_of hm c' hl).1, .inl hl⟩
    exact ⟨h4, by simpa using h3, hst, rfl, h5, fun hr => absurd hc (by omega)⟩
  · have hr : r c = 0 := by rw [← h.ref, h0]
    have hold : ∀ c', 0 < plus r c c' → c' ≠ c → 0 < r c' := fun c' hc' hne => by rwa [plus_of_ne hne] at hc'
    have hcore : (s.set c { s.icache c with dev := rootdev, inum := i, ref := 1, valid := false }).core = s.core :=
      FsState.core_set (by simp [h0]) (by simp)
    refine ⟨h.of_core hat (h.under.plus c) (hst.mono h.under) rfl hcore (fun c' hc' => ?_) (fun hm c' hl => ?_)
      (fun c' hc' hv => ?_),
      by simp, hst, rfl, hcore, fun _ => by simp⟩
    · by_cases hcc : c' = c
      · subst hcc
        simpa using hi
      · simp only [FsState.set_icache, update_of_ne hcc]
        exact ⟨h.dev c' (hold c' hc' hcc), h.inum_lt c' (hold c' hc' hcc)⟩
    · have hlc := h.locked_of hm c' hl
      have hcc : c' ≠ c := by
        rintro rfl
        omega
      simp only [FsState.set_icache, update_of_ne hcc]
      exact ⟨plus_pos c hlc.1, hlc.2⟩
    · have hcc : c' ≠ c := by
        rintro rfl
        simp at hv
      simp only [FsState.set_icache, update_of_ne hcc] at hv ⊢
      have hc'' := hold c' hc' hcc
      exact ⟨h.typed c' hc'' hv, h.fits c' hc'' hv, fun hm => h.behind_of hm c' hc'' hv⟩
  · refine hfull fun c => ?_
    have href := hno c
    have hne := hnone c (by omega) (h.dev c (by rw [← h.ref]; omega))
    rw [h.ref] at href
    exact ⟨by omega, hne⟩

theorem sound_iput (h : Sound m b (plus r c) l s) (hu : Under b r) (hdead : l c = true → E .deadlock)
    (hkeep : 0 < r c ∨ (s.icache c).valid = false) :
    wp (iput c) s (fun _ t => Sound m b r l t ∧ Stays r s t ∧ t.disk = s.disk ∧ t.core = s.core) E := by
  have hc := plus_self_pos r c
  have href : (s.icache c).ref - 1 = r c := by rw [h.ref, plus_self, Nat.add_sub_cancel]
  refine wp_given (at_iput h.toAt) (wp_iput (fun hd => hdead (by rwa [h.lock] at hd)) (fun hl _ ⟨hat, hst⟩ => ?_)
    fun _ hv _ hr => ?_)
  · by_cases hrc : 0 < r c
    · obtain ⟨h1, h2, -⟩ := h.touch hc hat rfl rfl rfl rfl (by rwa [href]) hu (fun c' => plus_pos c) fun hm c' hlc =>
        ⟨(plus_pos_iff hrc).mp (h.locked_of hm c' hlc).1, .inl hlc⟩
      exact ⟨h1, hst, rfl, h2⟩
    have hv : (s.icache c).valid = false := hkeep.resolve_left hrc
    have hne : ∀ c', 0 < r c' → c' ≠ c := by
      rintro c' hc' rfl
      exact hrc hc'
    have hcore : (s.set c { s.icache c with ref := (s.icache c).ref - 1 }).core = s.core :=
      FsState.core_set (by simp [hv]) (by simp [hv])
    refine ⟨h.of_core hat hu (hst.mono hu) rfl hcore (fun c' hc' => ?_) (fun hm c' hlc => ?_) (fun c' hc' hv' => ?_),
      hst, rfl, hcore⟩
    · simp only [FsState.set_icache, update_of_ne (hne c' hc')]
      exact ⟨h.dev c' (plus_pos c hc'), h.inum_lt c' (plus_pos c hc')⟩
    · have hcc : c' ≠ c := by
        rintro rfl
        rw [← h.lock, hl] at hlc
        cases hlc
      obtain ⟨h1, h2⟩ := h.locked_of hm c' hlc
      simp only [FsState.set_icache, update_of_ne hcc]
      exact ⟨by rwa [plus_of_ne hcc] at h1, h2⟩
    · simp only [FsState.set_icache, update_of_ne (hne c' hc')] at hv' ⊢
      have hc'' := plus_pos c hc'
      exact ⟨h.typed c' hc'' hv', h.fits c' hc'' hv', fun hm => h.behind_of hm c' hc'' hv'⟩
  · rcases hkeep with hrc | hv'
    · omega
    · rw [hv'] at hv
      cases hv

theorem inv_iget (h : Inv m b r l s) (hi : i < ninodes) (hfull : (∀ c, 0 < r c) → E .igetNoInodes) :
    wpr (Reads m r) (iget rootdev i) s (fun c t => Inv m b (plus r c) l t ∧ (t.icache c).inum = i) E := by
  refine wp_mono (sound_iget h.toSound (fun _ => hi) fun hall => hfull fun c => (hall c).1) ?_
  rintro c t ⟨ht, hci, hst, hdisk, hcore, -⟩
  exact ⟨⟨h.of_sound ht (hst.mono h.under) (by rw [hdisk]) hcore, hci⟩, .of_core hst hdisk hcore⟩

theorem inv_idup (h : Inv m b r l s) (hc : 0 < r c) :
    wpr (Reads m r) (idup c) s (fun c' t => c' = c ∧ Inv m b (plus r c) l t ∧ (t.icache c).inum = (s.icache c).inum) E := by
  refine wp_given (at_idup (E := fun _ => True) h.toAt hc) ((wp_bind _ _).mpr (wp_setInode.mpr (wp_ret fun hat => ?_)))
  obtain ⟨h4, h5⟩ := h.touch hc hat.1.2 rfl rfl rfl rfl (Nat.succ_pos _) (h.under.plus c) (fun c' => (plus_pos_iff hc).mp)
    fun c' hl => ⟨plus_pos c (h.locked c' hl).1, .inl hl⟩
  exact ⟨⟨rfl, h4, by simp⟩, h5⟩

theorem sound_iunlock (h : Sound m b r (update l c true) s) (hc : 0 < r c) (hl : l c = false) :
    wp (iunlock c) s (fun _ t => Sound m b r l t ∧ Stays r s t ∧ t.disk = s.disk ∧ t.core = s.core) E := by
  refine wp_given (at_iunlock (E := fun _ => True) h.toAt hc hl)
    (wp_iunlock (by rw [h.lock, update_self]) (by rwa [h.ref]) fun hat => ?_)
  obtain ⟨h1, h2, h3⟩ := h.touch hc hat.1 rfl rfl rfl rfl (by rwa [h.ref]) h.under (fun _ => id) fun hm c' hlc => by
    have hcc : c' ≠ c := by
      rintro rfl
      simp [hl] at hlc
    have hlc' : update l c true c' = true := by rwa [update_of_ne hcc]
    exact ⟨(h.locked_of hm c' hlc').1, .inl hlc'⟩
  exact ⟨h1, h3 r, rfl, h2⟩

theorem inv_iunlock (h : Inv m b r (update l c true) s) (hl : l c = false) :
    wpr (Reads m r) (iunlock c) s (fun _ t => Inv m b r l t) E := by
  have hc : 0 < r c := (h.locked c (update_self _ _ _)).1
  apply wp_mono (sound_iunlock h.toSound hc hl)
  rintro _ t ⟨ht, hst, hdisk, hcore⟩
  exact ⟨h.of_sound ht (hst.mono h.under) (by rw [hdisk]) hcore, .of_core hst hdisk hcore⟩

theorem sound_ilock (h : Sound m b r l s) (hc : 0 < r c) (hdead : l c = true → E .deadlock) (hin : (s.icache c).inum < ninodes)
    (hfree : (s.core (s.icache c).inum).type = 0 → E .ilockNoType) :
    wp (ilock c) s (fun _ t => l c = false ∧ Sound m b r (update l c true) t ∧ (t.icache c).valid = true ∧ Stays r s t ∧
      t.disk = s.disk ∧ t.core = s.core) E := by
  have hlocked : m.tidy → ∀ c', update l c true c' = true → 0 < r c' ∧ (l c' = true ∨ c' = c) := by
    intro hm c' hlc
    by_cases hcc : c' = c
    · exact ⟨hcc ▸ hc, .inr hcc⟩
    · rw [update_of_ne hcc] at hlc
      exact ⟨(h.locked_of hm c' hlc).1, .inl hlc⟩
  have htable : s.table.core (s.icache c).inum = dinode s.disk.blocks (s.icache c).inum := volume_core hin
  refine wp_given (at_ilock h.toAt hc) (wp_ilock (by rwa [h.ref]) (fun hd => hdead (by rwa [h.lock] at hd)) (fun _ hv hat => ?_)
    (fun _ hv ht hat => ?_) fun ht hv => hfree ?_)
  · obtain ⟨h1, h2, h3⟩ := h.touch hc hat.1.2 rfl rfl rfl rfl (by rwa [h.ref]) h.under (fun _ => id) fun hm c' hlc =>
      ⟨(hlocked hm c' hlc).1, (hlocked hm c' hlc).2.imp_right fun hcc => ⟨hcc, hv⟩⟩
    exact ⟨hat.1.1, h1, by simpa using hv, h3 r, rfl, h2⟩
  · have hcore : (s.set c { s.icache c with
      lock := true, d := dinode s.disk.blocks (s.icache c).inum, valid := true }).core = s.core := by
      funext j
      by_cases hj : j = (s.icache c).inum
      · subst hj
        rw [h.core_eq_table hc hv, htable]
        refine FsState.core_eq (fun c' hc' => ?_) fun _ => htable
        by_cases hcc : c' = c
        · subst hcc
          simp
        · exfalso
          simp only [Cached, FsState.set_icache, update_of_ne hcc] at hc'
          exact hcc (h.eq_of_inum (by rw [← h.ref]; exact hc'.1) hc hc'.2.2)
      · refine FsState.core_congr (fun c' => ?_) (fun c' hc' => ?_) rfl
        · by_cases hcc : c' = c
          · subst hcc
            simp [Cached, hv, Ne.symm hj]
          · simp [Cached, hcc]
        · have hcc : c' ≠ c := by
            rintro rfl
            exact hj hc'.2.2.symm
          simp [hcc]
    refine ⟨hat.1.1, h.of_core hat.1.2 h.under (hat.2.mono h.under) rfl hcore (fun c' hc' => ?_)
      (fun hm c' hlc => ⟨(hlocked hm c' hlc).1, ?_⟩) fun c' hc' hv' => ?_, by simp, hat.2, rfl, hcore⟩
    · by_cases hcc : c' = c
      · subst hcc
        simpa using ⟨h.dev c' hc, hin⟩
      · simp only [FsState.set_icache, update_of_ne hcc]
        exact ⟨h.dev c' hc', h.inum_lt c' hc'⟩
    · by_cases hcc : c' = c
      · subst hcc
        simp
      · simp only [FsState.set_icache, update_of_ne hcc]
        exact (h.locked_of hm c' ((hlocked hm c' hlc).2.resolve_right hcc)).2
    · by_cases hcc : c' = c
      · subst hcc
        simp only [FsState.set_icache, update_self]
        rw [htable]
        exact ⟨ht, Dinode.decode_fits _ _, fun _ => Behind.refl _⟩
      · simp only [FsState.set_icache, update_of_ne hcc] at hv' ⊢
        exact ⟨h.typed c' hc' hv', h.fits c' hc' hv', fun hm => h.behind_of hm c' hc' hv'⟩
  · rw [h.core_eq_table hc hv, htable, ht]

theorem inv_ilock (h : Inv m b r l s) (hc : 0 < r c) (hl : l c = false)
    (hfree : (s.core (s.icache c).inum).type = 0 → E .ilockNoType) :
    wpr (Reads m r) (ilock c) s (fun _ t => Inv m b r (update l c true) t) E := by
  apply wp_mono (sound_ilock h.toSound hc (fun hd => by rw [hl] at hd; cases hd) (h.inum c hc) hfree)
  rintro _ t ⟨-, ht, -, hst, hdisk, hcore⟩
  exact ⟨h.of_sound ht (hst.mono h.under) (by rw [hdisk]) hcore, .of_core hst hdisk hcore⟩

theorem inv_iput (h : Inv m b (plus r c) l s) (hu : Under b r) (hl : l c = false) :
    wpr (Reads m r) (iput c) s (fun _ t => Inv m b r l t) E := by
  have hc := plus_self_pos r c
  have huniq : ∀ c', 0 < r c' → (s.icache c').inum = (s.icache c).inum → c' = c :=
    fun c' hc' => h.eq_of_inum (plus_pos c hc') hc
  refine wp_given (at_iput h.toAt) (wp_iput (fun hd => ?_) (fun _ _ ⟨hat, hst⟩ => ?_) fun _ hv hn hr => ?_)
  · rw [h.lock, hl] at hd
    cases hd
  · have href : (s.icache c).ref - 1 = r c := by rw [h.ref, plus_self, Nat.add_sub_cancel]
    by_cases hrc : 0 < r c
    · refine h.touch hc hat rfl rfl rfl rfl (by rwa [href]) hu (fun c' => plus_pos c) fun c' hlc => ⟨?_, .inl hlc⟩
      exact (plus_pos_iff hrc).mp (h.locked c' hlc).1
    · have hne : ∀ c', 0 < r c' → c' ≠ c := by
        rintro c' hc' rfl
        exact hrc hc'
      exact h.forget rfl hat hst hu hl hne
  · have hr0 : r c = 0 := by
      rw [h.ref, plus_self] at hr
      omega
    obtain ⟨c', hb, -, hi⟩ := h.kept (s.icache c).inum (by rw [h.core_eq_d hc hv]; exact h.typed c hc hv)
      (by rw [h.core_eq_d hc hv]; exact hn)
    have := huniq c' (hu c' hb) hi
    subst this
    have := hu c' hb
    omega

theorem inv_iunlockput (h : Inv m b (plus r c) (update l c true) s) (hu : Under b r) (hl : l c = false) :
    wpr (Reads m r) (iunlockput c) s (fun _ t => Inv m b r l t) E :=
  (((Under.refl r).plus c).reads (inv_iunlock h hl)).bind fun _ _ h' => inv_iput h' hu hl

end Laboratorio.Fs
