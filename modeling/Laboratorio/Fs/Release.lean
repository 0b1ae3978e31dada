import Laboratorio.Fs.Directory

namespace Laboratorio.Fs

open Bytes Function

def Volume.without (v : Volume) (i : ℕ) (P : ℕ → Bool) (x : ℕ) : Bool :=
  v.used x && decide (∀ k < nptr, P k = true → v.own (i, k) = x → x = 0)

variable {i : ℕ}

theorem Volume.node_reap {v : Volume} {d : Dinode} (hd : d.type = 0) (j : ℕ) :
    (v.reap i d).node j = if j = i then ⟨0, d.major, d.minor, d.nlink, d.size, fun _ => 0⟩ else v.node j := by
  split_ifs with hj
  · subst hj
    have hcore : (v.reap j d).core j = d := update_self _ _ _
    have hown : ∀ k, (v.reap j d).own (j, k) = 0 := fun k => by rw [own_reap hd, if_pos rfl]
    have hbyte : (v.reap j d).byte j = fun _ => 0 := by
      funext x
      exact if_pos (hown _)
    unfold node
    rw [hcore, hbyte, hd]
  · exact node_congr (update_of_ne hj _ _) rfl

def Dinode.trim (d : Dinode) (P : ℕ → Bool) : Dinode := { d with addrs := fun k => if P k then 0 else d.addrs k }

variable [sb : Superblock] {m : Mode} {b r : Cell → ℕ} {l : Cell → Bool} {s t : FsState} {c : Cell} {E : Fault → Prop}

structure Trimmed (s : FsState) (c : Cell) (P : ℕ → Bool) (t : FsState) : Prop where
  cell : t.icache = update s.icache c { s.icache c with d := (s.icache c).d.trim P }
  table : t.table = { s.table with used := s.live.without (s.icache c).inum P }

section itrunc

variable {P Q : ℕ → Bool} {k : ℕ} (h : Sound m b r l s) (hc : 0 < r c) (hv : (s.icache c).valid = true)
include h hc hv

theorem Sound.trim_congr (hPQ : ∀ k ≤ ndirect, P k = Q k ∨ s.live.own ((s.icache c).inum, k) = 0) :
    (s.icache c).d.trim P = (s.icache c).d.trim Q := by
  refine Dinode.ext rfl rfl rfl rfl rfl (funext fun k => ?_)
  simp only [Dinode.trim]
  by_cases hk : k ≤ ndirect
  · rcases hPQ k hk with he | h0
    · rw [he]
    · rw [h.own_direct hc hv hk] at h0
      rw [h0, ite_self, ite_self]
  · rw [(h.fits c hc hv).short k (by omega), ite_self, ite_self]

theorem Trimmed.congr (ht : Trimmed s c P t) (hPQ : ∀ k < nptr, P k = Q k ∨ s.live.own ((s.icache c).inum, k) = 0) :
    Trimmed s c Q t where
  cell := by rw [ht.cell, h.trim_congr hc hv fun k hk => hPQ k (Nat.lt_of_le_of_lt hk (by decide))]
  table := by
    rw [ht.table]
    refine Volume.ext rfl (funext fun x => ?_) rfl
    have hiff : (∀ k < nptr, P k = true → s.live.own ((s.icache c).inum, k) = x → x = 0) ↔
        ∀ k < nptr, Q k = true → s.live.own ((s.icache c).inum, k) = x → x = 0 := by
      refine forall_congr' fun k => forall_congr' fun hk => ?_
      rcases hPQ k hk with he | h0
      · rw [he]
      · rw [h0]
        exact ⟨fun _ _ hx => hx.symm, fun _ _ hx => hx.symm⟩
    simp only [Volume.without, hiff]

omit hc hv in
theorem wp_trim (ht : Trimmed s c P t) (hk : k < nptr) (hP : P k = false) (h0 : s.live.own ((s.icache c).inum, k) ≠ 0)
    {R : Unit → FsState → Prop} (hR : ∀ u, u.icache = t.icache →
      u.table = { s.table with used := s.live.without (s.icache c).inum (update P k true) } → R () u) :
    wp (onDisk (bfree (s.live.own ((s.icache c).inum, k)))) t R E := by
  have hused : t.table.used (s.live.own ((s.icache c).inum, k)) = true := by
    have hheld : s.live.used (s.live.own ((s.icache c).inum, k)) = true := h.whole.ledger.held _ h0
    rw [ht.table]
    simp only [Volume.without, hheld, Bool.true_and, decide_eq_true_eq]
    intro j _ hj he
    have hjk := h.whole.ledger.inj _ _ h0 he.symm
    rw [← (Prod.mk.inj hjk).2, hP] at hj
    cases hj
  rw [wp_onDisk]
  refine wp_bfree (h.whole.ledger.range _ h0).2 hused fun dk hdk => hR _ rfl ?_
  change volume dk.blocks = _
  rw [hdk]
  change t.table.give _ = _
  rw [ht.table]
  refine Volume.ext rfl (funext fun x => ?_) rfl
  simp only [Volume.give]
  by_cases hx : x = s.live.own ((s.icache c).inum, k)
  · have hfalse : ¬ ∀ j < nptr, update P k true j = true → s.live.own ((s.icache c).inum, j) = x → x = 0 := fun hall =>
      h0 (hx.symm.trans (hall k hk (update_self _ _ _) hx.symm))
    rw [hx, update_self, ← hx, Volume.without, decide_eq_false hfalse, Bool.and_false]
  have hiff : (∀ j < nptr, P j = true → s.live.own ((s.icache c).inum, j) = x → x = 0) ↔
      ∀ j < nptr, update P k true j = true → s.live.own ((s.icache c).inum, j) = x → x = 0 := by
    refine forall_congr' fun j => forall_congr' fun _ => ?_
    by_cases hjk : j = k
    · subst hjk
      exact ⟨fun _ _ he => absurd he.symm hx, fun _ _ he => absurd he.symm hx⟩
    · rw [update_of_ne hjk]
  rw [update_of_ne hx]
  simp only [Volume.without, hiff]

theorem wp_trimDirect : wp ((List.range ndirect).forM fun i => do
      let addr := (← inode c).d.addrs i
      if addr ≠ 0 then
        onDisk (bfree addr)
        setD c fun d => { d with addrs := update d.addrs i 0 }) s
          (fun _ t => Trimmed s c (fun k => decide (k < ndirect)) t) E := by
  refine wp_forM_range (I := fun j t => Trimmed s c (fun k => decide (k < j)) t) ⟨?_, ?_⟩ fun j hj t ht => ?_
  · exact (update_eq_self _ _).symm
  · refine Volume.ext rfl (funext fun x => ?_) rfl
    simp [Volume.without, FsState.live]
  have haddr : (t.icache c).d.addrs j = s.live.own ((s.icache c).inum, j) := by
    rw [h.own_direct hc hv (by omega), ht.cell]
    simp [Dinode.trim]
  have hnext : ∀ k, update (fun k => decide (k < j)) j true k = decide (k < j + 1) := by
    intro k
    by_cases hk : k = j
    · simp [hk]
    · have hiff : k < j ↔ k < j + 1 := by omega
      rw [update_of_ne hk]
      simp only [hiff]
  rw [wp_bind, wp_inode, haddr, wp_ite]
  refine ⟨fun h0 => ?_, fun h0 => wp_ret (ht.congr h hc hv fun k _ => ?_)⟩
  · rw [wp_bind]
    refine wp_trim h ht (by unfold nptr; omega) (by simp) h0 fun u hu hut => ?_
    rw [funext hnext] at hut
    rw [wp_setD]
    refine ⟨?_, hut⟩
    rw [FsState.set_icache, hu, ht.cell]
    simp only [update_self, update_idem]
    congr 2
    refine Dinode.ext rfl rfl rfl rfl rfl (funext fun k => ?_)
    simp only [Dinode.trim]
    by_cases hk : k = j
    · simp [hk]
    · have hiff : k < j ↔ k < j + 1 := by omega
      rw [update_of_ne hk]
      simp only [hiff]
  · by_cases hk : k = j
    · exact .inr (by simpa [hk] using h0)
    · have hiff : k < j ↔ k < j + 1 := by omega
      exact .inl (by simp only [hiff])

theorem wp_trimIndirect (ht : Trimmed s c (fun k => decide (k < ndirect)) t) {a : Bytes}
    (ha : ∀ j < nindirect, rd32 a (4 * j) = s.live.own ((s.icache c).inum, ndirect + 1 + j)) :
    wp ((List.range nindirect).forM fun j => do
      if rd32 a (4 * j) ≠ 0 then onDisk (bfree (rd32 a (4 * j)))) t
        (fun _ u => Trimmed s c (fun k => decide (k ≠ ndirect)) u) E := by
  have hloop := wp_forM_range (E := E) (s := t) (n := nindirect)
    (I := fun j u => Trimmed s c (fun k => decide (k < ndirect ∨ ndirect < k ∧ k < ndirect + 1 + j)) u)
    (f := fun j => do if rd32 a (4 * j) ≠ 0 then onDisk (bfree (rd32 a (4 * j)))) ?_ ?_
  · refine wp_mono hloop fun _ u hu => hu.congr h hc hv fun k hk => .inl ?_
    have hiff : k < ndirect ∨ ndirect < k ∧ k < ndirect + 1 + nindirect ↔ k ≠ ndirect := by
      unfold nptr at hk
      omega
    simp only [hiff]
  · refine ht.congr h hc hv fun k _ => .inl ?_
    have hiff : k < ndirect ↔ k < ndirect ∨ ndirect < k ∧ k < ndirect + 1 + 0 := by omega
    simp only [← hiff]
  intro j hj u hu
  have hnext : ∀ k, update (fun k => decide (k < ndirect ∨ ndirect < k ∧ k < ndirect + 1 + j)) (ndirect + 1 + j) true k =
      decide (k < ndirect ∨ ndirect < k ∧ k < ndirect + 1 + (j + 1)) := by
    intro k
    by_cases hk : k = ndirect + 1 + j
    · rw [hk, update_self]
      exact (decide_eq_true (by omega)).symm
    · have hiff : k < ndirect ∨ ndirect < k ∧ k < ndirect + 1 + j ↔ k < ndirect ∨ ndirect < k ∧
        k < ndirect + 1 + (j + 1) := by omega
      rw [update_of_ne hk]
      simp only [hiff]
  rw [wp_ite, ha j hj]
  refine ⟨fun h0 => ?_, fun h0 => wp_ret (hu.congr h hc hv fun k _ => ?_)⟩
  · refine wp_trim h hu (by unfold nptr; omega) (decide_eq_false (by omega)) h0 fun w hw hwt => ?_
    rw [funext hnext] at hwt
    refine ⟨?_, hwt⟩
    rw [hw, hu.cell, h.trim_congr hc hv fun k hk => .inl ?_]
    have hiff : k < ndirect ∨ ndirect < k ∧ k < ndirect + 1 + j ↔ k < ndirect ∨ ndirect < k ∧
      k < ndirect + 1 + (j + 1) := by omega
    simp only [hiff]
  · rw [← hnext]
    by_cases hk : k = ndirect + 1 + j
    · exact .inr (by simpa [hk] using h0)
    · exact .inl (by rw [update_of_ne hk])

theorem wp_itrunc : wp (itrunc c) s (fun _ t =>
    t.icache = update s.icache c { s.icache c with d := { (s.icache c).d with size := 0, addrs := fun _ => 0 } } ∧
    t.table = ⟨update s.table.core (s.icache c).inum { (s.icache c).d with size := 0, addrs := fun _ => 0 },
      s.live.without (s.icache c).inum fun _ => true, s.table.data⟩) E := by
  -- `setD` and `iupdate` at the end, when all blocks are free
  have hend : ∀ t, Trimmed s c (fun _ => true) t → wp (do setD c fun d => { d with size := 0 }; iupdate c) t (fun _ t =>
      t.icache = update s.icache c { s.icache c with d := { (s.icache c).d with size := 0, addrs := fun _ => 0 } } ∧
      t.table = ⟨update s.table.core (s.icache c).inum { (s.icache c).d with size := 0, addrs := fun _ => 0 },
        s.live.without (s.icache c).inum fun _ => true, s.table.data⟩) E := by
    intro t ht
    have hfits := h.fits c hc hv
    rw [wp_bind, wp_setD, iupdate, wp_bind, wp_inode]
    simp only [FsState.set_icache, update_self, ht.cell]
    rw [wp_onDisk]
    refine wp_putDinode (h.inum_lt c hc (.inr hv)) ⟨hfits.type, hfits.major, hfits.minor, hfits.nlink, Nat.two_pow_pos 32,
      fun _ => Nat.two_pow_pos 32, fun _ _ => rfl⟩ ?_
    intro dk hdk
    constructor
    · change update t.icache c _ = _
      rw [ht.cell, update_idem]
      rfl
    · change volume dk.blocks = _
      rw [hdk]
      change t.table.setCore _ _ = _
      rw [ht.table]
      rfl
  rw [itrunc]
  refine wp_seq (wp_trimDirect h hc hv) fun _ t ht => ?_
  have hind : (t.icache c).d.addrs ndirect = s.live.own ((s.icache c).inum, ndirect) := by
    rw [h.own_direct hc hv le_rfl, ht.cell]
    simp [Dinode.trim]
  rw [wp_bind, wp_inode]
  simp only [hind]
  rw [wp_ite]
  refine ⟨fun h0 => ?_, fun h0 => hend t (ht.congr h hc hv fun k _ => ?_)⟩
  · have h0' : (s.icache c).d.addrs ndirect ≠ 0 := by rwa [← h.own_direct hc hv le_rfl]
    have hlo : datastart ≤ s.live.own ((s.icache c).inum, ndirect) := (h.whole.ledger.range _ h0).1
    rw [wp_bind, wp_onDisk, bread, wp_bind, wp_get, wp_pure, wp_bind]
    have ha : ∀ j < nindirect, rd32 (t.disk.blocks (s.live.own ((s.icache c).inum, ndirect))) (4 * j) =
        s.live.own ((s.icache c).inum, ndirect + 1 + j) := by
      intro j hj
      have hfit : 4 * j + 4 ≤ bsize := by
        simp only [nindirect, bsize] at hj ⊢
        omega
      calc rd32 (t.disk.blocks (s.live.own ((s.icache c).inum, ndirect))) (4 * j)
        _ = rd32 (t.table.data (s.live.own ((s.icache c).inum, ndirect))) (4 * j) := (rd32_volume hlo hfit).symm
        _ = rd32 (s.table.data (s.live.own ((s.icache c).inum, ndirect))) (4 * j) := by rw [ht.table]
        _ = rd32 (s.disk.blocks (s.live.own ((s.icache c).inum, ndirect))) (4 * j) := rd32_volume hlo hfit
        _ = s.live.own ((s.icache c).inum, ndirect + 1 + j) := by rw [h.own_indirect hc hv hj h0', h.own_direct hc hv le_rfl]
    refine wp_mono (wp_trimIndirect h hc hv ht ha) fun _ u hu => ?_
    rw [wp_bind]
    refine wp_trim h hu (by decide) (by simp) h0 fun w hw hwt => ?_
    have hnext : update (fun k => decide (k ≠ ndirect)) ndirect true = fun _ => true := by
      funext k
      by_cases hk : k = ndirect
      · rw [hk, update_self]
      · simp [hk]
    rw [hnext] at hwt
    rw [wp_bind, wp_setD]
    refine hend _ ⟨?_, hwt⟩
    rw [FsState.set_icache, hw, hu.cell]
    simp only [update_self, update_idem]
    congr 2
    refine Dinode.ext rfl rfl rfl rfl rfl (funext fun k => ?_)
    by_cases hk : k = ndirect
    · simp [Dinode.trim, hk]
    · simp [Dinode.trim, hk]
  · have hzero : s.live.own ((s.icache c).inum, ndirect) = 0 := by simpa using h0
    by_cases hk : k < ndirect
    · exact .inl (by simp [hk])
    · right
      by_cases hkn : k = ndirect
      · rw [hkn, hzero]
      · rw [h.own_direct hc hv le_rfl] at hzero
        rw [Volume.own_of_allocated (h.type_ne hc hv)]
        refine Dinode.ptr_of_no_indirect (by omega) ?_
        exact (congrArg (fun d : Dinode => d.addrs ndirect) (h.core_eq_d hc hv)).trans hzero

end itrunc

theorem Inv.lower (h : Inv m (plus b c) r l s) (hu : Under b r)
    (hkept : (s.core (s.icache c).inum).type ≠ 0 → (s.core (s.icache c).inum).nlink = 0 → 0 < b c)
    (hahead : s.table.core (s.icache c).inum ≠ s.core (s.icache c).inum → m.dense → 0 < b c) : Inv m b r l s where
  __ := h
  under := hu
  kept_of := fun _ i ht hn => by
    obtain ⟨c', hc', hv, rfl⟩ := h.kept i ht hn
    refine ⟨c', ?_, hv, rfl⟩
    by_cases hcc : c' = c
    · subst hcc
      exact hkept ht hn
    · rwa [plus_of_ne hcc] at hc'
  ahead := fun i hi => by
    obtain ⟨hl, hh⟩ := h.ahead i hi
    refine ⟨hl, fun hd => ?_⟩
    obtain ⟨c', hc', rfl⟩ := hh hd
    refine ⟨c', ?_, rfl⟩
    by_cases hcc : c' = c
    · subst hcc
      exact hahead hi hd
    · rwa [plus_of_ne hcc] at hc'

def onNode (i : ℕ) (f : Node → Node) (j : ℕ) (a : Node) : Node := if j = i then f a else a

omit sb in
theorem onNode_type {f : Node → Node} (hf : ∀ a, (f a).type = a.type) (j : ℕ) (a : Node) : (onNode i f j a).type = a.type := by
  unfold onNode
  split_ifs
  · exact hf a
  · rfl

structure Writes (m : Mode) (r : Cell → ℕ) (g : ℕ → Node → Node) (s t : FsState) : Prop where
  stays : Stays r s t
  node : ∀ c, 0 < r c → t.node (s.icache c).inum = g (s.icache c).inum (s.node (s.icache c).inum)
  typed : ∀ c, 0 < r c → (s.icache c).valid = true → (t.node (s.icache c).inum).type = (s.node (s.icache c).inum).type
  calm : m.dense → ∀ i, t.node i = g i (s.node i)
  sync : m.dense → ∀ i, s.table.core i = s.core i → t.table.core i = t.core i

def Node.release (held : Bool) (a : Node) : Node :=
  if a.type ≠ 0 ∧ a.nlink = 0 ∧ held = false then { a with type := 0, size := 0, bytes := fun _ => 0 } else a

section

variable (h : Reads m r s t) (hd : m.dense)

include h hd

theorem Reads.core_eq : t.core = s.core := congrArg Volume.core (h.calm hd).2

theorem Reads.table_eq : t.table = s.table := by
  unfold FsState.table
  rw [(h.calm hd).1]

end

theorem Reads.writes (h : Reads m r s t) {g : ℕ → Node → Node} (hg : ∀ i, g i (s.node i) = s.node i) : Writes m r g s t where
  stays := h.stays
  node := fun c hc => by rw [hg, h.node c hc]
  typed := fun c hc _ => by rw [h.node c hc]
  calm := fun hd i => by
    rw [hg, FsState.node, FsState.node, (h.calm hd).2]
  sync := fun hd i hi => by
    rw [h.core_eq hd, h.table_eq hd]
    exact hi

namespace Writes

variable {g g' : ℕ → Node → Node} {u : FsState}

theorem mono {r' : Cell → ℕ} (h : Writes m r' g s t) (hr : Under r r') : Writes m r g s t :=
  ⟨h.stays.mono hr, fun c hc => h.node c (hr c hc), fun c hc => h.typed c (hr c hc), h.calm, h.sync⟩

theorem trans (h : Writes m r g s t) (h' : Writes m r g' t u) : Writes m r (fun i a => g' i (g i a)) s u := by
  refine ⟨Trans.trans h.stays h'.stays, fun c hc => ?_, fun c hc hv => ?_, fun hd i => ?_,
    fun hd i hi => h'.sync hd i (h.sync hd i hi)⟩
  · rw [← h.node c hc, ← (h.stays c hc).2.1]
    exact h'.node c hc
  · rw [← h.typed c hc hv, ← (h.stays c hc).2.1]
    exact h'.typed c hc ((h.stays c hc).2.2 hv)
  · rw [h'.calm hd, h.calm hd]

theorem congr (h : Writes m r g s t)
    (hg : ∀ i, m.dense ∨ (∃ c, 0 < r c ∧ (s.icache c).inum = i) → g i (s.node i) = g' i (s.node i)) : Writes m r g' s t where
  stays := h.stays
  node := fun c hc => (h.node c hc).trans (hg _ (.inr ⟨c, hc, rfl⟩))
  typed := h.typed
  calm := fun hd i => (h.calm hd i).trans (hg i (.inl hd))
  sync := h.sync

end Writes

theorem Reads.quiet (h : Reads m r s t) : Writes m r (fun _ a => a) s t := h.writes fun _ => rfl

theorem node_of_synced (h : s.table.core i = s.core i) : s.table.node i = s.node i := by
  have hcore : s.table.core i = s.live.core i := h
  exact Volume.node_congr hcore rfl

structure Settles (m : Mode) (r : Cell → ℕ) (g : ℕ → Node → Node) (s t : FsState) : Prop extends Writes m r g s t where
  even : Settled r s → (∀ i, t.node i = g i (s.node i)) ∧ ∀ i, s.table.node i = s.node i → t.table.node i = t.node i

theorem Reads.settles (h : Reads m r s t) {g : ℕ → Node → Node} (hg : ∀ i, g i (s.node i) = s.node i) : Settles m r g s t where
  toWrites := h.writes hg
  even := fun hs => by
    have hsame := h.shown hs
    refine ⟨fun i => by rw [hg, hsame], fun i hi => ?_⟩
    rw [h.stored, hsame, hi]

theorem Reads.still (h : Reads m r s t) : Settles m r (fun _ a => a) s t := h.settles fun _ => rfl

namespace Settles

variable {g g' : ℕ → Node → Node} {u : FsState}

theorem settled (h : Settles m r g s t) (hs : Settled r s) : Settled r t := by
  intro i hi
  refine (h.even hs).2 i (hs i fun c hc => ?_)
  rw [← (h.stays c hc).2.1]
  exact hi c hc

theorem lower {r' : Cell → ℕ} (h : Settles m r' g s t) (hr : Under r r') : Settles m r g s t :=
  ⟨h.mono hr, fun hs => h.even fun i hi => hs i fun c hc => hi c (hr c hc)⟩

theorem compose (h : Settles m r g s t) (h' : Settles m r g' t u) : Settles m r (fun i a => g' i (g i a)) s u := by
  refine ⟨h.trans h'.toWrites, fun hs => ?_⟩
  obtain ⟨h1, h2⟩ := h.even hs
  obtain ⟨h1', h2'⟩ := h'.even (h.settled hs)
  exact ⟨fun i => by rw [h1', h1], fun i hi => h2' i (h2 i hi)⟩

end Settles

variable (h : Inv m (plus b c) (plus b c) l s)
include h

theorem Inv.lone (ht : (s.core (s.icache c).inum).type ≠ 0) (hn : (s.core (s.icache c).inum).nlink = 0) (hb : ¬ 0 < b c) :
    (s.icache c).valid = true ∧ (s.icache c).d.nlink = 0 ∧ (s.icache c).ref = 1 := by
  have hc := plus_self_pos b c
  obtain ⟨c', hc', hv, hi⟩ := h.kept _ ht hn
  have hcc := h.eq_of_inum hc' hc hi
  subst hcc
  rw [h.core_eq_d hc hv] at hn
  refine ⟨hv, hn, ?_⟩
  rw [h.ref, plus_self]
  omega

theorem Inv.reaped (hv : (s.icache c).valid = true) (hb : b c = 0) (hat : At t b l)
    (hcells : ∀ c', c' ≠ c → t.icache c' = s.icache c') (hinvalid : (t.icache c).valid = false) (hlock : l c = false)
    (htable : t.table = ⟨update s.table.core (s.icache c).inum
    { (s.icache c).d with type := 0, size := 0, addrs := fun _ => 0 },
      s.live.without (s.icache c).inum fun _ => true, s.table.data⟩) :
    Inv m b b l t ∧ t.live = s.live.reap (s.icache c).inum { (s.icache c).d with
      type := 0, size := 0, addrs := fun _ => 0 } := by
  have hc := plus_self_pos b c
  have hne : ∀ c', 0 < b c' → c' ≠ c := by
    rintro c' hc' rfl
    omega
  have hinum : ∀ c', 0 < b c' → (s.icache c').inum ≠ (s.icache c).inum := fun c' hc' hi =>
    hne c' hc' (h.eq_of_inum (plus_pos c hc') hc hi)
  have hsplit : ∀ c', 0 < plus b c c' → (s.icache c').inum ≠ (s.icache c).inum → 0 < b c' := by
    intro c' hc' hi
    rwa [plus_of_ne fun hcc => hi (by rw [hcc])] at hc'
  have hself : t.core (s.icache c).inum = { (s.icache c).d with type := 0, size := 0, addrs := fun _ => 0 } := by
    refine FsState.core_eq (fun c' hc' => ?_) fun _ => by rw [htable]; exact update_self _ _ _
    exfalso
    have hcc : c' ≠ c := by
      rintro rfl
      have := hc'.2.1
      rw [hinvalid] at this
      cases this
    rw [Cached, hcells c' hcc] at hc'
    exact hcc (h.eq_of_inum (by rw [← h.ref]; exact hc'.1) hc hc'.2.2)
  have hother : ∀ j, j ≠ (s.icache c).inum → t.core j = s.core j := by
    intro j hj
    refine FsState.core_congr (fun c' => ?_) (fun c' hc' => ?_) (by rw [htable]; exact update_of_ne hj _ _)
    · by_cases hcc : c' = c
      · subst hcc
        exact ⟨fun hx => absurd hx.2.1 (by simp [hinvalid]), fun hx => absurd hx.2.2.symm hj⟩
      · rw [Cached, hcells c' hcc]
        rfl
    · have hcc : c' ≠ c := by
        rintro rfl
        exact hj hc'.2.2.symm
      rw [hcells c' hcc]
  have hlive : t.live = s.live.reap (s.icache c).inum { (s.icache c).d with type := 0, size := 0, addrs := fun _ => 0 } := by
    refine Volume.ext (funext fun j => ?_) (funext fun x => ?_) (by unfold FsState.live; rw [htable]; rfl)
    · by_cases hj : j = (s.icache c).inum
      · subst hj
        change t.core _ = update s.core _ _ _
        rw [update_self, hself]
      · exact (hother j hj).trans (update_of_ne hj _ _).symm
    · unfold FsState.live
      rw [htable]
      simp [Volume.reap, Volume.without, FsState.live]
  have hcell : ∀ c', 0 < b c' → t.icache c' = s.icache c' := fun c' hc' => hcells c' (hne c' hc')
  have htc : ∀ c', 0 < b c' → t.table.core (s.icache c').inum = s.table.core (s.icache c').inum := by
    intro c' hc'
    rw [htable]
    exact update_of_ne (hinum c' hc') _ _
  refine ⟨⟨⟨hat, Under.refl b, fun c' hc' => ?_, fun c' hc' _ => ?_, fun _ c' hlc => ?_, fun c' hc' hv' => ?_,
    fun c' hc' hv' => ?_, fun _ c' hc' hv' => ?_, ?_, fun _ j htj hnj => ?_⟩, h.tidy, fun j hj => ?_⟩, hlive⟩
  · rw [hcell c' hc']
    exact h.dev c' (plus_pos c hc')
  · rw [hcell c' hc']
    exact h.inum c' (plus_pos c hc')
  · have hcc : c' ≠ c := by
      rintro rfl
      rw [hlock] at hlc
      cases hlc
    obtain ⟨h1, h2⟩ := h.locked c' hlc
    rw [hcells c' hcc]
    exact ⟨by rwa [plus_of_ne hcc] at h1, h2⟩
  · rw [hcell c' hc'] at hv' ⊢
    exact h.typed c' (plus_pos c hc') hv'
  · rw [hcell c' hc'] at hv' ⊢
    exact h.fits c' (plus_pos c hc') hv'
  · rw [hcell c' hc'] at hv' ⊢
    rw [htc c' hc']
    exact h.behind c' (plus_pos c hc') hv'
  · rw [hlive]
    exact h.whole.reap rfl
  · have hj : j ≠ (s.icache c).inum := by
      rintro rfl
      exact htj (by rw [hself])
    rw [hother j hj] at htj hnj
    obtain ⟨c', hc', hv', hi⟩ := h.kept j htj hnj
    have hbc' := hsplit c' hc' (by rwa [hi])
    refine ⟨c', hbc', ?_⟩
    rw [hcell c' hbc']
    exact ⟨hv', hi⟩
  · have hji : j ≠ (s.icache c).inum := by
      rintro rfl
      refine hj ?_
      rw [hself, htable]
      exact update_self _ _ _
    have hj' : s.table.core j ≠ s.core j := by
      rw [hother j hji, htable] at hj
      simpa [hji] using hj
    refine ⟨(h.ahead j hj').1, fun hd => ?_⟩
    obtain ⟨c', hc', hi⟩ := (h.ahead j hj').2 hd
    have hbc' := hsplit c' hc' (by rwa [hi])
    exact ⟨c', hbc', by rw [hcell c' hbc', hi]⟩

theorem inv_iput_last (hl : l c = false)
    (hahead : s.table.core (s.icache c).inum ≠ s.core (s.icache c).inum → m.dense → 0 < b c) :
    wp (iput c) s (fun _ t => Inv m b b l t ∧ Settles m b (onNode (s.icache c).inum (Node.release (0 < b c))) s t) E := by
  have hc := plus_self_pos b c
  refine wp_given (at_iput h.toAt) (wp_iput (fun hd => ?_) (fun _ hno hsame => ?_) fun hlock hv hn hr => ?_)
  · rw [h.lock, hl] at hd
    cases hd
  · obtain ⟨hat, hst⟩ := hsame
    have hlow : Inv m b (plus b c) l s := h.lower ((Under.refl b).plus c) (fun ht hn => by_contra fun hb =>
      hno (h.lone ht hn hb)) hahead
    have hboth : Inv m b b l (s.set c { s.icache c with ref := (s.icache c).ref - 1 }) ∧
        Reads m b s (s.set c { s.icache c with ref := (s.icache c).ref - 1 }) := by
      by_cases hbc : 0 < b c
      · have href : (s.icache c).ref - 1 = b c := by rw [h.ref, plus_self, Nat.add_sub_cancel]
        refine hlow.touch hc hat rfl rfl rfl rfl (by rwa [href]) (Under.refl b) (fun c' => plus_pos c)
          fun c' hlc => ⟨?_, .inl hlc⟩
        exact (plus_pos_iff hbc).mp (h.locked c' hlc).1
      · refine hlow.forget rfl hat hst (Under.refl b) hl ?_
        rintro c' hc' rfl
        exact hbc hc'
    refine ⟨hboth.1, hboth.2.settles fun i => ?_⟩
    unfold onNode
    split_ifs with hi
    · subst hi
      unfold Node.release
      rw [if_neg]
      rintro ⟨ht, hn, hb⟩
      exact hno (h.lone ht hn (by simpa using hb))
    · rfl
  · have hb : b c = 0 := by
      rw [h.ref, plus_self] at hr
      omega
    have hdone : ∀ u : FsState, At u b l → Stays b s u → (∀ c', c' ≠ c → u.icache c' = s.icache c') →
      (u.icache c).valid = false → u.table =
      ⟨update s.table.core (s.icache c).inum { (s.icache c).d with type := 0, size := 0, addrs := fun _ => 0 },
      s.live.without (s.icache c).inum fun _ => true, s.table.data⟩ → Inv m b b l u ∧
      Settles m b (onNode (s.icache c).inum (Node.release (0 < b c))) s u := by
      intro u hat hst hcells hinvalid htable
      obtain ⟨hinv, hlive⟩ := h.reaped hv hb hat hcells hinvalid hl htable
      have hnode : ∀ j, u.node j = onNode (s.icache c).inum (Node.release (0 < b c)) j (s.node j) := by
        intro j
        have hcore := h.core_eq_d hc hv
        rw [FsState.node, hlive, Volume.node_reap rfl]
        unfold onNode
        split_ifs with hj
        · subst hj
          have ht : (s.node (s.icache c).inum).type ≠ 0 := h.type_ne hc hv
          have hnl : (s.node (s.icache c).inum).nlink = 0 := (congrArg Dinode.nlink hcore).trans hn
          rw [Node.release, if_pos ⟨ht, hnl, by simp [hb]⟩, ← hcore]
          rfl
        · rfl
      have hself : u.table.core (s.icache c).inum = u.core (s.icache c).inum := by
        have hcore := congrFun (congrArg Volume.core hlive) (s.icache c).inum
        change u.core _ = update s.core _ _ _ at hcore
        rw [hcore, htable, update_self]
        exact update_self _ _ _
      have hother : ∀ j, j ≠ (s.icache c).inum → u.table.core j = s.table.core j ∧ u.core j = s.core j := by
        intro j hj
        have hcore := congrFun (congrArg Volume.core hlive) j
        change u.core j = update s.core _ _ j at hcore
        rw [hcore, htable, update_of_ne hj]
        exact ⟨update_of_ne hj _ _, rfl⟩
      refine ⟨hinv, ⟨hst, fun c' _ => hnode _, fun c' hc' _ => ?_, fun _ => hnode, fun _ j hj => ?_⟩,
        fun _ => ⟨hnode, fun j hj => ?_⟩⟩
      · have hne : (s.icache c').inum ≠ (s.icache c).inum := by
          intro hi
          rw [h.eq_of_inum (plus_pos c hc') hc hi, hb] at hc'
          cases hc'
        rw [hnode, onNode, if_neg hne]
      · by_cases hji : j = (s.icache c).inum
        · rw [hji, hself]
        · rw [(hother j hji).1, (hother j hji).2, hj]
      · by_cases hji : j = (s.icache c).inum
        · rw [hji]
          exact node_of_synced hself
        · rw [hnode, onNode, if_neg hji, ← hj]
          exact Volume.node_congr (hother j hji).1 (by rw [htable])
    have ha1 : At (s.set c { s.icache c with lock := true }) (plus b c) (update l c true) := at_lock h.toAt hc rfl rfl rfl rfl
    obtain ⟨h1, -⟩ := h.touch hc (q := b) ha1 rfl rfl rfl rfl (by rwa [h.ref]) (Under.refl _) (fun _ => id) fun c' hlc => by
      by_cases hcc : c' = c
      · exact ⟨hcc ▸ hc, .inr ⟨hcc, hv⟩⟩
      · rw [update_of_ne hcc] at hlc
        exact ⟨(h.locked c' hlc).1, .inl hlc⟩
    have hlive : (s.set c { s.icache c with lock := true }).live = s.live :=
      FsState.live_congr (h.core_touch hc rfl rfl rfl (by rwa [h.ref])) rfl
    refine wp_mono (wp_itrunc h1.toSound hc (by simpa using hv)) ?_
    simp only [FsState.set_icache, update_self, update_idem, FsState.table_set, hlive]
    rintro _ t ⟨hcell, htable⟩
    have hfits := h.fits c hc hv
    rw [wp_setD, iupdate, wp_bind, wp_inode, wp_onDisk]
    simp only [FsState.set_icache, update_self, hcell]
    refine wp_putDinode (h.inum c hc) ⟨Nat.two_pow_pos 16, hfits.major, hfits.minor, hfits.nlink, Nat.two_pow_pos 32,
      fun _ => Nat.two_pow_pos 32, fun _ _ => rfl⟩ ?_
    rintro dk hdk ⟨hat, hst⟩
    refine hdone _ hat hst (fun c' hcc => ?_) ?_ ?_
    · simp [hcc]
    · simp
    · change volume dk.blocks = _
      rw [hdk]
      change t.table.setCore _ _ = _
      rw [htable]
      simp [Volume.setCore]

end Laboratorio.Fs
