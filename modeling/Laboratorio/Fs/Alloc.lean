import Laboratorio.Fs.Live

namespace Laboratorio.Fs

open Bytes Function

theorem Dinode.Fits.setAddr {d : Dinode} (h : d.Fits) {p x : ℕ} (hp : p ≤ ndirect) (hx : x < 2 ^ 32) :
    (d.setAddr p x).Fits where
  type := h.type
  major := h.major
  minor := h.minor
  nlink := h.nlink
  size := h.size
  addrs := fun k => by
    by_cases hk : k = p
    · simpa [Dinode.setAddr, hk] using hx
    · simpa [Dinode.setAddr, hk] using h.addrs k
  short := fun k hk => by
    have : k ≠ p := by omega
    simpa [Dinode.setAddr, this] using h.short k hk

variable [sb : Superblock]

def pointersTo (n : ℕ) : Finset ℕ := if n < ndirect then {n} else {ndirect, n + 1}

namespace Volume

def lacks (v : Volume) (i : ℕ) (P : Finset ℕ) : Finset ℕ := P.filter fun p => v.own (i, p) = 0

def unused (v : Volume) : Finset ℕ := (Finset.range sb.size).filter fun x => v.used x = false

def Room (v : Volume) (i : ℕ) (P : Finset ℕ) : Prop := (v.lacks i P).card ≤ v.unused.card

instance (v : Volume) (i : ℕ) (P : Finset ℕ) : Decidable (v.Room i P) := inferInstanceAs (Decidable (_ ≤ _))

variable {v v' : Volume} {i p x : ℕ} {P : Finset ℕ}

theorem Room.exists_unused (h : v.Room i P) (hp : p ∈ P) (h0 : v.own (i, p) = 0) : ∃ x < sb.size, v.used x = false := by
  have hlack : p ∈ v.lacks i P := Finset.mem_filter.mpr ⟨hp, h0⟩
  have hpos : 0 < v.unused.card := (Finset.card_pos.mpr ⟨p, hlack⟩).trans_le h
  obtain ⟨x, hx⟩ := Finset.card_pos.mp hpos
  obtain ⟨hlt, hu⟩ := Finset.mem_filter.mp hx
  exact ⟨x, Finset.mem_range.mp hlt, hu⟩

theorem Room.link (h : v.Room i P) (hp : p ∈ P) (h0 : v.own (i, p) = 0) (hx : x < sb.size) (hu : v.used x = false) (hne : x ≠ 0)
    (hown : v'.own = update v.own (i, p) x) (hused : v'.used = update v.used x true) : v'.Room i P := by
  have hlacks : v'.lacks i P = (v.lacks i P).erase p := by
    ext q
    simp only [lacks, Finset.mem_erase, Finset.mem_filter, hown]
    by_cases hq : q = p
    · subst hq
      simp [hne]
    · simp [hq]
  have hunused : v'.unused = v.unused.erase x := by
    ext y
    simp only [unused, Finset.mem_erase, Finset.mem_filter, hused]
    by_cases hy : y = x
    · subst hy
      simp
    · simp [hy]
  have hlack : p ∈ v.lacks i P := Finset.mem_filter.mpr ⟨hp, h0⟩
  have hmem : x ∈ v.unused := Finset.mem_filter.mpr ⟨Finset.mem_range.mpr hx, hu⟩
  unfold Room at h ⊢
  rw [hlacks, hunused, Finset.card_erase_of_mem hlack, Finset.card_erase_of_mem hmem]
  exact Nat.sub_le_sub_right h 1

end Volume

section disk

variable {dk : Disk} {E : Fault → Prop}

theorem wp_balloc {Q : ℕ → Disk → Prop} (hres : ∀ x < datastart, (volume dk.blocks).used x = true)
    (hout : (∀ x < sb.size, (volume dk.blocks).used x = true) → E .outOfBlocks)
    (hQ : ∀ x dk', x < sb.size → (volume dk.blocks).used x = false → volume dk'.blocks = (volume dk.blocks).take x →
      (∀ y, y ≠ x → y ≠ bblock x → dk'.blocks y = dk.blocks y) → Q x dk') : wp balloc dk Q E := by
  have hloop : ∀ n j, j + n = (sb.size + bpb - 1) / bpb → (∀ x < j * bpb, x < sb.size → (volume dk.blocks).used x = true) →
      wp (ballocLoop (j * bpb) n) dk Q E := by
    intro n
    induction n with
    | zero =>
      intro j hj hall
      refine (wp_throw _).mpr (hout fun x hx => hall x ?_ hx)
      simp only [bpb, bsize] at hj ⊢
      omega
    | succ n ih =>
      intro j hj hall
      rw [ballocLoop, wp_bind, bread, wp_bind, wp_get, wp_pure]
      have hblock : ∀ k < bpb, bblock (j * bpb + k) = bblock (j * bpb) ∧ (j * bpb + k) % bpb = k := by
        intro k hk
        simp only [bblock, bpb, bsize] at hk ⊢
        omega
      cases hf : findClear (dk.blocks (bblock (j * bpb))) 0 (min bpb (sb.size - j * bpb)) with
      | some k =>
        obtain ⟨-, hk, hclear⟩ := findClear_eq_some hf
        have hk1 : k < bpb := by omega
        have hk2 : j * bpb + k < sb.size := by omega
        obtain ⟨hb, hmod⟩ := hblock k hk1
        have hu : (volume dk.blocks).used (j * bpb + k) = false := by
          simp [volume, hk2, hb, hmod, hclear]
        have hlo : datastart ≤ j * bpb + k := by
          by_contra hlt
          rw [hres _ (by omega)] at hu
          cases hu
        simp only [bzero, bread, logWrite, wp_bind, wp_modify, wp_get, wp_pure]
        rw [← hb]
        generalize j * bpb + k = x at *
        subst hmod
        refine hQ x _ hk2 hu ?_ fun y hy hy' => ?_
        · rw [volume_put hlo, volume_setBit hk2]
          refine Volume.ext rfl rfl ?_
          funext c
          by_cases hc : c = x
          · subst hc
            funext z
            simp only [Volume.put, Volume.take, update_self]
            by_cases hz : z < bsize
            · rw [if_pos hz, memset, store_of_mem (by omega) (by omega)]
            · rw [if_neg hz]
          · simp [Volume.put, Volume.take, hc]
        · exact (update_of_ne hy _ _).trans (update_of_ne hy' _ _)
      | none =>
        have hnext : j * bpb + bpb = (j + 1) * bpb := by rw [Nat.add_mul, Nat.one_mul]
        rw [hnext]
        refine ih (j + 1) (by omega) fun x hx hx' => ?_
        by_cases hlt : x < j * bpb
        · exact hall x hlt hx'
        · obtain ⟨k, rfl⟩ : ∃ k, x = j * bpb + k := ⟨x - j * bpb, by omega⟩
          have hk : k < bpb := by
            omega
          obtain ⟨hb, hmod⟩ := hblock k hk
          simp [volume, hx', hb, hmod, findClear_eq_none hf k (by omega) (by omega)]
  rw [balloc]
  have h0 := hloop _ 0 (Nat.zero_add _) fun x hx _ => by omega
  rwa [Nat.zero_mul] at h0

theorem wp_bfree {Q : Unit → Disk → Prop} {x : ℕ} (hx : x < sb.size) (hu : (volume dk.blocks).used x = true)
    (hQ : ∀ dk', volume dk'.blocks = (volume dk.blocks).give x → Q () dk') : wp (bfree x) dk Q E := by
  have hset : bitClear (dk.blocks (bblock x)) (x % bpb) = false := by simpa [volume, hx] using hu
  rw [bfree, wp_bind, bread, wp_bind, wp_get, wp_pure]
  simp only [hset, Bool.false_eq_true, if_false]
  rw [logWrite, wp_modify]
  exact hQ _ (volume_clearBit hx)

theorem wp_putDinode {Q : Unit → Disk → Prop} {i : ℕ} {d : Dinode} (hi : i < ninodes) (hd : d.Fits)
    (hQ : ∀ dk', volume dk'.blocks = (volume dk.blocks).setCore i d → Q () dk') : wp (putDinode i d) dk Q E := by
  rw [putDinode, wp_bind, bread, wp_bind, wp_get, wp_pure, logWrite, wp_modify]
  exact hQ _ (volume_putDinode hi hd)

end disk

structure Grows (c : Cell) (s t : FsState) : Prop where
  still : Still s t
  cells : ∀ c', c' ≠ c → t.icache c' = s.icache c'
  table : t.table.core = s.table.core
  node : t.node = s.node
  block : ∀ i n, s.live.block i n ≠ 0 → t.live.block i n = s.live.block i n
  stored : s.table.Trails s.live → t.table.Trails t.live ∧ t.table.node = s.table.node

instance (c : Cell) : Std.Refl (Grows c) := ⟨fun s => ⟨refl s, fun _ _ => rfl, rfl, rfl, fun _ _ _ => rfl, fun hs => ⟨hs, rfl⟩⟩⟩

instance (c : Cell) : IsTrans FsState (Grows c) := by
  refine ⟨fun s t u h h' => ⟨Trans.trans h.still h'.still, fun c' hc => (h'.cells c' hc).trans (h.cells c' hc),
    h'.table.trans h.table, h'.node.trans h.node, fun i n hn => ?_, fun hs => ?_⟩⟩
  · have hn' : t.live.block i n ≠ 0 := by rwa [h.block i n hn]
    exact (h'.block i n hn').trans (h.block i n hn)
  · obtain ⟨ht, hnode⟩ := h.stored hs
    obtain ⟨hu, hnode'⟩ := h'.stored ht
    exact ⟨hu, hnode'.trans hnode⟩

variable {m : Mode} {b r : Cell → ℕ} {l : Cell → Bool} {s t : FsState} {c : Cell} {E : Fault → Prop}

theorem Sound.core_of_still (h : Sound m b r l s) (hc : 0 < r c) (hv : (s.icache c).valid = true) (hst : Still s t)
    (hcells : ∀ c', c' ≠ c → t.icache c' = s.icache c')
    (htable : ∀ j, j ≠ (s.icache c).inum → t.table.core j = s.table.core j) :
    t.core = update s.core (s.icache c).inum (t.icache c).d := by
  funext j
  by_cases hj : j = (s.icache c).inum
  · subst hj
    rw [update_self]
    refine FsState.core_eq (fun c' hc' => ?_) fun h0 => absurd ((hst.cached _ c).mpr (h.cached hc hv)) (h0 c)
    rw [hst.cached] at hc'
    rw [h.eq_of_inum (by rw [← h.ref]; exact hc'.1) hc hc'.2.2]
  · rw [update_of_ne hj]
    refine FsState.core_congr (hst.cached j) (fun c' hc' => ?_) (htable j hj)
    have hcc : c' ≠ c := by
      rintro rfl
      exact hj hc'.2.2.symm
    rw [hcells c' hcc]

theorem Sound.type_ne (h : Sound m b r l s) (hc : 0 < r c) (hv : (s.icache c).valid = true) :
    (s.live.core (s.icache c).inum).type ≠ 0 := by
  change (s.core _).type ≠ 0
  rw [h.core_eq_d hc hv]
  exact h.typed c hc hv

section link

variable {x p : ℕ} (h : Sound m b r l s) (hc : 0 < r c) (hv : (s.icache c).valid = true) (hx : x < sb.size)
  (hu : s.live.used x = false)
  (h0 : s.live.own ((s.icache c).inum, p) = 0) (hp : p < nptr) (hind : ndirect < p →
    s.live.own ((s.icache c).inum, ndirect) ≠ 0)
include h hc hv hx hu h0 hp hind

theorem Sound.link (hst : Still s t) (hcells : ∀ c', c' ≠ c → t.icache c' = s.icache c') (htable : t.table.core = s.table.core)
    (hlive : t.live = s.live.link (s.icache c).inum p x) : Sound m b r l t ∧ Grows c s t := by
  have hcore := h.core_eq_d hc hv
  have htype := h.type_ne hc hv
  have hlt : x < 2 ^ 32 := hx.trans size_lt_two_pow
  have hown := Volume.own_link h.whole.ledger hu htype h0 hp hind hlt
  have hnode := Volume.node_link h.whole.ledger hu htype h0 hp hind hlt
  have hfields : ∀ j, (t.core j).type = (s.core j).type ∧ (t.core j).nlink = (s.core j).nlink := by
    intro j
    have hj : t.live.node j = s.live.node j := by rw [hlive, hnode]
    exact ⟨congrArg Node.type hj, congrArg Node.nlink hj⟩
  have hd : (t.icache c).d = (s.live.link (s.icache c).inum p x).core (s.icache c).inum := by
    have htc := h.core_of_still hc hv hst hcells fun j _ => congrFun htable j
    rw [← hlive]
    change _ = t.core _
    rw [htc, update_self]
  have hd' : (t.icache c).d = if p ≤ ndirect then (s.icache c).d.setAddr p x else (s.icache c).d := by
    rw [hd]
    unfold Volume.link
    split_ifs
    · simp only [Volume.setCore, update_self]
      exact congrArg (fun d : Dinode => d.setAddr p x) hcore
    · exact hcore
  refine ⟨⟨hst.at h.toAt, h.under, fun c' hc' => ?_, fun c' hc' => ?_, fun hm c' hl => ?_, fun c' hc' hv' => ?_,
    fun c' hc' hv' => ?_, fun hm c' hc' hv' => ?_, ?_, fun hm j htj hnj => ?_⟩, hst, hcells, htable, ?_,
    fun j n hn => ?_, fun hs => ?_⟩
  · rw [hst.dev]
    exact h.dev c' hc'
  · rw [hst.inum, hst.valid]
    exact h.inum_lt c' hc'
  · rw [hst.valid]
    exact h.locked_of hm c' hl
  · rw [hst.valid] at hv'
    by_cases hcc : c' = c
    · subst hcc
      rw [hd, Volume.core_link_type]
      exact htype
    · rw [hcells c' hcc]
      exact h.typed c' hc' hv'
  · rw [hst.valid] at hv'
    by_cases hcc : c' = c
    · subst hcc
      rw [hd']
      split_ifs with hpd
      · exact (h.fits c' hc' hv').setAddr hpd hlt
      · exact h.fits c' hc' hv'
    · rw [hcells c' hcc]
      exact h.fits c' hc' hv'
  · rw [hst.valid] at hv'
    rw [hst.inum, htable]
    have hbehind := h.behind_of hm c' hc' hv'
    by_cases hcc : c' = c
    · subst hcc
      rw [hd']
      split_ifs with hpd
      · refine ⟨hbehind.type, hbehind.major, hbehind.minor, hbehind.nlink, hbehind.size, fun k => ?_⟩
        by_cases hk : k = p
        · subst hk
          have hz : (s.icache c').d.addrs k = 0 := by
            rw [Volume.own_of_allocated htype, Dinode.ptr_direct hpd] at h0
            change (s.core _).addrs k = 0 at h0
            rwa [hcore] at h0
          rcases hbehind.addrs k with hk0 | hk0
          · exact .inl hk0
          · exact .inl (hk0.trans hz)
        · simpa [Dinode.setAddr, hk] using hbehind.addrs k
      · exact hbehind
    · rw [hcells c' hcc]
      exact hbehind
  · rw [hlive]
    exact h.whole.link hu hx htype h0 hp hind
  · rw [(hfields j).1] at htj
    rw [(hfields j).2] at hnj
    obtain ⟨c', hb, hv', hi⟩ := h.kept_of hm j htj hnj
    exact ⟨c', hb, by rw [hst.valid, hv'], by rw [hst.inum, hi]⟩
  · funext j
    rw [FsState.node, FsState.node, hlive, hnode]
  · rw [hlive]
    unfold Volume.block at hn ⊢
    rw [hown, update_of_ne]
    intro he
    rw [he] at hn
    exact hn h0
  · have hdata : t.table.data = (s.live.link (s.icache c).inum p x).data := by rw [← hlive]; rfl
    have hlink := Volume.trails_link h.whole.ledger hu htype h0 hp hind hlt hs rfl rfl htable hdata
    rwa [← hlive] at hlink

theorem Sound.room_link (hlive : t.live = s.live.link (s.icache c).inum p x) {P : Finset ℕ} (hpP : p ∈ P)
    (hroom : s.live.Room (s.icache c).inum P) : t.live.Room (s.icache c).inum P := by
  have hne : x ≠ 0 := by
    have := h.whole.datastart_le_of_unused hu
    have := datastart_pos
    omega
  rw [hlive]
  exact hroom.link hpP h0 hx hu hne (Volume.own_link h.whole.ledger hu (h.type_ne hc hv) h0 hp hind (hx.trans size_lt_two_pow))
    (Volume.used_link _ _ _ _)

end link

theorem wp_onDisk_balloc (h : Sound m b r l s) {Q : ℕ → FsState → Prop}
    (hout : (∀ x < sb.size, s.live.used x = true) → E .outOfBlocks)
    (hQ : ∀ x t, x < sb.size → s.live.used x = false → t.icache = s.icache → t.table = s.table.take x →
      (∀ y, y ≠ x → y ≠ bblock x → t.disk.blocks y = s.disk.blocks y) → Q x t) : wp (onDisk balloc) s Q E := by
  rw [wp_onDisk]
  refine wp_balloc h.whole.reserved hout fun x dk hx hu hvol hsame => ?_
  exact hQ x _ hx hu rfl hvol hsame

section assign

variable {α : Type} {Q : α → FsState → Prop} {K : ℕ → FsM α} {p : ℕ} (h : Sound m b r l s) (hc : 0 < r c)
  (hv : (s.icache c).valid = true)
include h hc hv

theorem Sound.own_direct (hp : p ≤ ndirect) : s.live.own ((s.icache c).inum, p) = (s.icache c).d.addrs p := by
  rw [Volume.own_of_allocated (h.type_ne hc hv), Dinode.ptr_direct hp]
  exact congrArg (fun d : Dinode => d.addrs p) (h.core_eq_d hc hv)

theorem wp_assign (hp : p ≤ ndirect) (h0 : (s.icache c).d.addrs p = 0)
    (hout : (∀ x < sb.size, s.live.used x = true) → E .outOfBlocks)
    (hQ : ∀ x t, Sound m b r l t → Grows c s t → x ≠ 0 → t.live.own = update s.live.own ((s.icache c).inum, p) x →
      (∀ P, p ∈ P → s.live.Room (s.icache c).inum P → t.live.Room (s.icache c).inum P) → wp (K x) t Q E) :
    wp (do let x ← onDisk balloc; setD c fun d => { d with addrs := update d.addrs p x }; K x) s Q E := by
  have hown : s.live.own ((s.icache c).inum, p) = 0 := (h.own_direct hc hv hp).trans h0
  have hpn : p < nptr := Nat.lt_of_le_of_lt hp (by decide)
  rw [wp_bind]
  refine wp_onDisk_balloc h hout fun x t hx hu hcache htable _ => ?_
  rw [wp_bind, wp_setD, hcache]
  have hst : Still s (t.set c { s.icache c with d := { (s.icache c).d with addrs := update (s.icache c).d.addrs p x } }) := by
    intro c'
    by_cases hcc : c' = c
    · subst hcc
      simp [Inode.head]
    · simp [hcc, hcache]
  have hcells : ∀ c', c' ≠ c → (t.set c { s.icache c with
    d := { (s.icache c).d with addrs := update (s.icache c).d.addrs p x } }).icache c' = s.icache c' := by
    intro c' hcc
    simp [hcc, hcache]
  have hcore := h.core_of_still hc hv hst hcells fun j _ => by rw [FsState.table_set, htable]; rfl
  have hlive : (t.set c { s.icache c with d := { (s.icache c).d with addrs := update (s.icache c).d.addrs p x } }).live =
      s.live.link (s.icache c).inum p x := by
    rw [Volume.link, if_pos hp]
    unfold FsState.live
    rw [hcore, FsState.table_set, htable]
    simp only [FsState.set_icache, update_self, Volume.setCore, Volume.take]
    rw [h.core_eq_d hc hv]
    rfl
  have hne : x ≠ 0 := by
    have := h.whole.datastart_le_of_unused hu
    have := datastart_pos
    omega
  obtain ⟨hsound, hgrows⟩ := h.link hc hv hx hu hown hpn (fun hlt => absurd hp (by omega)) hst hcells
    (by rw [FsState.table_set, htable]; rfl) hlive
  refine hQ x _ hsound hgrows hne ?_ fun P => h.room_link hc hv hx hu hown hpn (fun hlt => absurd hp (by omega)) hlive
  rw [hlive]
  exact Volume.own_link h.whole.ledger hu (h.type_ne hc hv) hown hpn (fun hlt => absurd hp (by omega))
    (hx.trans size_lt_two_pow)

theorem Sound.own_indirect {q : ℕ} (hq : q < nindirect) (hind : (s.icache c).d.addrs ndirect ≠ 0) :
    s.live.own ((s.icache c).inum, ndirect + 1 + q) = rd32 (s.disk.blocks ((s.icache c).d.addrs ndirect)) (4 * q) := by
  have hown := h.own_direct hc hv le_rfl
  have hlo := (h.whole.ledger.range _ (by rw [hown]; exact hind)).1
  rw [hown] at hlo
  have hcore : s.live.core (s.icache c).inum = (s.icache c).d := h.core_eq_d hc hv
  rw [Volume.own_of_allocated (h.type_ne hc hv), hcore, Dinode.ptr_indirect (by omega) (by unfold nptr; omega) hind,
    Nat.add_sub_cancel_left]
  refine rd32_volume hlo ?_
  simp only [nindirect, bsize] at hq ⊢
  omega

theorem wp_assignIndirect {q : ℕ} (hq : q < nindirect) (hind : (s.icache c).d.addrs ndirect ≠ 0)
    (h0 : rd32 (s.disk.blocks ((s.icache c).d.addrs ndirect)) (4 * q) = 0)
    (hout : (∀ x < sb.size, s.live.used x = true) → E .outOfBlocks)
    (hQ : ∀ x t, Sound m b r l t → Grows c s t → x ≠ 0 → t.live.own = update s.live.own ((s.icache c).inum, ndirect + 1 + q) x →
      (∀ P, ndirect + 1 + q ∈ P → s.live.Room (s.icache c).inum P → t.live.Room (s.icache c).inum P) → wp (K x) t Q E) :
    wp (do
      let x ← onDisk balloc
      onDisk (logWrite ((s.icache c).d.addrs ndirect) (wr32 (s.disk.blocks ((s.icache c).d.addrs ndirect)) (4 * q) x))
      K x) s Q E := by
  have hown : s.live.own ((s.icache c).inum, ndirect + 1 + q) = 0 := (h.own_indirect hc hv hq hind).trans h0
  have hindown := h.own_direct hc hv le_rfl
  obtain ⟨hlo, hhi⟩ := h.whole.ledger.range _ (by rw [hindown]; exact hind)
  rw [hindown] at hlo hhi
  have hpn : ndirect + 1 + q < nptr := by
    unfold nptr
    omega
  have hsub : ndirect + 1 + q - (ndirect + 1) = q := Nat.add_sub_cancel_left _ _
  have hfit : 4 * q + 4 ≤ bsize := by
    simp only [nindirect, bsize] at hq ⊢
    omega
  rw [wp_bind]
  refine wp_onDisk_balloc h hout fun x t hx hu hcache htable hsame => ?_
  rw [wp_bind, wp_onDisk, logWrite, wp_modify]
  have hxind : (s.icache c).d.addrs ndirect ≠ x := by
    rw [← hindown]
    exact h.whole.ledger.ne_of_unused hu (by rw [hindown]; exact hind)
  have hkeep : t.disk.blocks ((s.icache c).d.addrs ndirect) = s.disk.blocks ((s.icache c).d.addrs ndirect) := by
    refine hsame _ hxind ?_
    have := bblock_lt hx
    omega
  set u : FsState := { t with
    disk := ⟨update t.disk.blocks ((s.icache c).d.addrs ndirect)
      (wr32 (s.disk.blocks ((s.icache c).d.addrs ndirect)) (4 * q) x),
      .logWrite ((s.icache c).d.addrs ndirect) :: t.disk.trace⟩ } with hudef
  have hcells : ∀ c', u.icache c' = s.icache c' := fun c' => congrFun hcache c'
  have hst : Still s u := fun c' => by rw [hcells]
  have hutable : u.table = (s.table.take x).put ((s.icache c).d.addrs ndirect)
      (wr32 (s.table.data ((s.icache c).d.addrs ndirect)) (4 * q) x) := by
    have hvol : volume (update t.disk.blocks ((s.icache c).d.addrs ndirect) (wr32 (t.disk.blocks ((s.icache c).d.addrs ndirect))
      (4 * q) x)) = (volume t.disk.blocks).put ((s.icache c).d.addrs ndirect)
      (wr32 ((volume t.disk.blocks).data ((s.icache c).d.addrs ndirect)) (4 * q) x) := volume_wr32 hlo hfit
    rw [hkeep] at hvol
    have hdata : (volume t.disk.blocks).data ((s.icache c).d.addrs ndirect) = s.table.data ((s.icache c).d.addrs ndirect) := by
      change t.table.data _ = _
      rw [htable]
      exact update_of_ne hxind _ _
    rw [hdata] at hvol
    refine hvol.trans ?_
    change t.table.put _ _ = _
    rw [htable]
  have hcore := h.core_of_still hc hv hst (fun c' _ => hcells c') fun j _ => by rw [hutable]; rfl
  have hlive : u.live = s.live.link (s.icache c).inum (ndirect + 1 + q) x := by
    rw [Volume.link, if_neg (by omega), hindown, hsub]
    unfold FsState.live
    rw [hcore, hutable, hcells, ← h.core_eq_d hc hv, update_eq_self]
    rfl
  have hne : x ≠ 0 := by
    have := h.whole.datastart_le_of_unused hu
    have := datastart_pos
    omega
  have hind' : ndirect < ndirect + 1 + q → s.live.own ((s.icache c).inum, ndirect) ≠ 0 := fun _ => by rwa [hindown]
  obtain ⟨hsound, hgrows⟩ := h.link hc hv hx hu hown hpn hind' hst (fun c' _ => hcells c') (by rw [hutable]; rfl) hlive
  refine hQ x u hsound hgrows hne ?_ fun P => h.room_link hc hv hx hu hown hpn hind' hlive
  rw [hlive]
  exact Volume.own_link h.whole.ledger hu (h.type_ne hc hv) hown hpn hind' (hx.trans size_lt_two_pow)

end assign

theorem Volume.no_room {v : Volume} {i n p : ℕ} (hp : p ∈ pointersTo n) (h0 : v.own (i, p) = 0)
    (hall : ∀ x < sb.size, v.used x = true) : ∀ P, pointersTo n ⊆ P → ¬ v.Room i P := by
  intro P hP hroom
  obtain ⟨x, hx, hu⟩ := hroom.exists_unused (hP hp) h0
  rw [hall x hx] at hu
  cases hu

def KeepsRoom (c : Cell) (X : Finset ℕ) (s t : FsState) : Prop :=
  ∀ P, X ⊆ P → s.live.Room (s.icache c).inum P → t.live.Room (s.icache c).inum P

theorem sound_bmap (h : Sound m b r l s) (hc : 0 < r c) (hv : (s.icache c).valid = true) {n : ℕ}
    (hrange : maxfile ≤ n → E .bmapOutOfRange)
    (hout : s.live.block (s.icache c).inum n = 0 → (∀ P, pointersTo n ⊆ P → ¬ s.live.Room (s.icache c).inum P) →
    E .outOfBlocks) : wp (bmap c n) s (fun a t => Sound m b r l t ∧ Grows c s t ∧ a = t.live.block (s.icache c).inum n ∧ a ≠ 0 ∧
      (s.live.block (s.icache c).inum n ≠ 0 → t = s) ∧ KeepsRoom c (pointersTo n) s t) E := by
  rw [bmap, wp_bind, wp_inode, wp_ite]
  refine ⟨fun hn => ?_, fun hn => ?_⟩
  · have hplace : place n = n := if_pos hn
    have hmem : n ∈ pointersTo n := by simp [pointersTo, hn]
    have hown := h.own_direct hc hv (p := n) (by omega)
    have hblock : s.live.block (s.icache c).inum n = (s.icache c).d.addrs n := by
      rw [Volume.block, hplace]
      exact hown
    rw [hblock] at hout ⊢
    rw [wp_ite]
    refine ⟨fun h0 => ?_, fun h0 => wp_ret ⟨h, refl s, hblock.symm, h0, fun _ => rfl, fun _ _ => id⟩⟩
    refine wp_assign h hc hv (by omega) h0 (fun hall => hout h0 (Volume.no_room hmem (hown.trans h0) hall)) ?_
    intro x t hs hg hx hown' hroom
    refine wp_ret ⟨hs, hg, ?_, hx, fun hne => absurd h0 hne, fun P hP => hroom P (hP hmem)⟩
    rw [Volume.block, hplace, hown', update_self]
  · rw [wp_ite]
    refine ⟨fun hq => ?_, fun hq => (wp_throw _).mpr (hrange (by unfold maxfile; omega))⟩
    have hplace : place n = ndirect + 1 + (n - ndirect) := by
      rw [place, if_neg hn]
      omega
    have hmem : ndirect ∈ pointersTo n ∧ ndirect + 1 + (n - ndirect) ∈ pointersTo n := by
      have he : ndirect + 1 + (n - ndirect) = n + 1 := by omega
      simp [pointersTo, hn, he]
    have hrest : ∀ t, Sound m b r l t → Grows c s t → (t.icache c).d.addrs ndirect ≠ 0 →
        (s.live.block (s.icache c).inum n ≠ 0 → t = s) → KeepsRoom c (pointersTo n) s t →
        wp (do
          let bp ← onDisk (bread ((t.icache c).d.addrs ndirect))
          if rd32 bp (4 * (n - ndirect)) = 0 then do
            let addr ← onDisk balloc
            onDisk (logWrite ((t.icache c).d.addrs ndirect) (wr32 bp (4 * (n - ndirect)) addr))
            pure addr
          else pure (rd32 bp (4 * (n - ndirect)))) t (fun a t => Sound m b r l t ∧ Grows c s t ∧
            a = t.live.block (s.icache c).inum n ∧ a ≠ 0 ∧ (s.live.block (s.icache c).inum n ≠ 0 → t = s) ∧
            KeepsRoom c (pointersTo n) s t) E := by
      intro t ht hg hind hsame hroom
      have hi : (t.icache c).inum = (s.icache c).inum := hg.still.inum c
      have hvt : (t.icache c).valid = true := (hg.still.valid c).trans hv
      have hown := ht.own_indirect hc hvt hq hind
      have hblock : t.live.block (s.icache c).inum n = rd32 (t.disk.blocks ((t.icache c).d.addrs ndirect))
        (4 * (n - ndirect)) := by
        rw [Volume.block, hplace, ← hi]
        exact hown
      rw [wp_bind, wp_onDisk, bread, wp_bind, wp_get, wp_pure, wp_ite]
      refine ⟨fun h0 => ?_, fun h0 => wp_ret ⟨ht, hg, hblock.symm, h0, hsame, hroom⟩⟩
      · have hs0 : s.live.block (s.icache c).inum n = 0 := by
          by_contra hne
          rw [← hg.block _ _ hne, hblock] at hne
          exact hne h0
        refine wp_assignIndirect ht hc hvt hq hind h0 (fun hall => hout hs0 fun P hP hs => ?_)
          fun x u hu hg' hx hown' hroom' => ?_
        · exact Volume.no_room hmem.2 (hown.trans h0) hall P hP (by rw [hi]; exact hroom P hP hs)
        rw [hi] at hroom'
        refine wp_ret ⟨hu, Trans.trans hg hg', ?_, hx, fun hne => absurd hs0 hne,
          fun P hP hs => hroom' P (hP hmem.2) (hroom P hP hs)⟩
        rw [Volume.block, hplace, hown', hi, update_self]
    rw [wp_ite]
    refine ⟨fun h0 => ?_, fun h0 => ?_⟩
    · have hs0 : s.live.block (s.icache c).inum n = 0 := by
        rw [Volume.block, hplace, Volume.own_of_allocated (h.type_ne hc hv), Dinode.ptr_of_no_indirect (by omega)]
        exact (congrArg (fun d : Dinode => d.addrs ndirect) (h.core_eq_d hc hv)).trans h0
      have hown := (h.own_direct hc hv le_rfl).trans h0
      refine wp_assign h hc hv le_rfl h0 (fun hall => hout hs0 (Volume.no_room hmem.1 hown hall))
        fun x t ht hg hx hown' hroom => ?_
      have hxt : (t.icache c).d.addrs ndirect = x := by
        rw [← ht.own_direct hc ((hg.still.valid c).trans hv) le_rfl, hown', hg.still.inum c, update_self]
      have := hrest t ht hg (by rwa [hxt]) (fun hne => absurd hs0 hne) fun P hP => hroom P (hP hmem.1)
      rw [hxt] at this
      rw [wp_bind, wp_pure]
      exact this
    · rw [wp_bind, wp_pure]
      exact hrest s h (refl s) h0 (fun _ => rfl) fun _ _ => id

end Laboratorio.Fs
