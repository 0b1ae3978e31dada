import Laboratorio.Fs.Layout
import Laboratorio.Fs.Mkfs

namespace Laboratorio.Fs.Mkfs

open Bytes Function

def span (size : ℕ) : ℕ := (size + bsize - 1) / bsize

def need (size : ℕ) : ℕ := span size + if ndirect < span size then 1 else 0

theorem lt_span_iff {n size : ℕ} : n < span size ↔ n * bsize < size := by
  simp only [span, bsize]
  omega

variable {a b : ℕ}

theorem need_mono (h : a ≤ b) : need a ≤ need b := by
  have hs : span a ≤ span b := Nat.div_le_div_right (by omega)
  unfold need
  split_ifs <;> omega

def State.volume (s : State) : Volume := { Fs.volume s.blocks with used := fun b => b < s.freeblock }

structure Packed (v : Volume) (free : ℕ) : Prop where
  ledger : Ledger v.own v.used nmeta fssize
  covers : Covers v.own v.used nmeta fssize
  used : v.used = fun b => decide (b < free)
  low : nmeta ≤ free
  high : free ≤ fssize
  zero : ∀ b, free ≤ b → ∀ x, v.data b x = 0

structure Spans (v : Volume) (i size : ℕ) : Prop where
  blocks : ∀ n, v.block i n ≠ 0 ↔ n < span size
  indirect : v.own (i, ndirect) ≠ 0 ↔ ndirect < span size

namespace Packed

variable {v : Volume} {free i m : ℕ}

theorem take_eq (h : Packed v free) : v.take free = { v with used := fun b => decide (b < free + 1) } := by
  refine Volume.ext rfl ?_ ?_
  · funext b
    simp only [Volume.take, h.used]
    by_cases hb : b = free
    · simp [hb]
    · have : b < free + 1 ↔ b < free := by omega
      simp [hb, this]
  · funext b
    by_cases hb : b = free
    · subst hb
      funext x
      simp [Volume.take, h.zero b le_rfl x]
    · simp [Volume.take, hb]

theorem link (h : Packed v free) (hfree : free < fssize) (ht : (v.core i).type ≠ 0) (h0 : v.own (i, m) = 0) (hm : m < nptr)
    (hind : ndirect < m → v.own (i, ndirect) ≠ 0) : Packed (v.link i m free) (free + 1) := by
  have hlow := h.low
  have hb : v.used free = false := by simp [h.used]
  have hfs : fssize < 2 ^ 32 := by decide
  have hpos : 0 < nmeta := by decide
  refine ⟨Volume.ledger_link h.ledger hb ht h0 hm hind (by omega) hlow hfree (by omega),
    Volume.covers_link h.ledger hb ht h0 hm hind (by omega) h.covers hpos, ?_, by omega, hfree, fun b hb' x => ?_⟩
  · have hused : (v.link i m free).used = (v.take free).used := by
      unfold Volume.link
      split_ifs <;> rfl
    rw [hused, h.take_eq]
  have hbf : b ≠ free := by omega
  unfold Volume.link
  split_ifs with hd
  · simpa [Volume.setCore, Volume.take, hbf] using h.zero b (by omega) x
  · have hne : b ≠ v.own (i, ndirect) := by
      have := h.ledger.held (i, ndirect) (hind (by omega))
      rw [h.used] at this
      simp only [decide_eq_true_eq] at this
      omega
    simpa [Volume.put, Volume.take, hbf, hne] using h.zero b (by omega) x

end Packed

variable {s : State} {E : Exit → Prop}

@[simp] theorem wp_takeBlock {Q : ℕ → State → Prop} :
    wp takeBlock s Q E ↔ Q s.freeblock { s with freeblock := s.freeblock + 1 } := by
  simp [takeBlock]

theorem wp_rsect {sec : ℕ} {Q : Bytes → State → Prop} :
    wp (rsect sec) s Q E ↔ (sec < s.sectors → Q (s.blocks sec) s) ∧ (¬ sec < s.sectors → E .read) := by
  simp [rsect, wp_ite]

@[simp] theorem wp_wsect {sec : ℕ} {buf : Bytes} {Q : Unit → State → Prop} :
    wp (wsect sec buf) s Q E ↔ Q () { s with blocks := update s.blocks sec buf, sectors := max s.sectors (sec + 1) } := by
  simp [wsect]

def State.with (s : State) (inum : ℕ) (din : Dinode) : Volume := s.volume.setCore inum din

structure Onward (s s' : State) (inum : ℕ) (din din' : Dinode) : Prop where
  sectors : s'.sectors = s.sectors
  freeinode : s'.freeinode = s.freeinode
  core : s'.volume.core = s.volume.core
  fields : { din' with addrs := din.addrs } = din
  short : ∀ k, ndirect < k → din'.addrs k = din.addrs k
  others : ∀ j, j ≠ inum → ∀ m, (s'.with inum din').own (j, m) = (s.with inum din).own (j, m)

namespace Onward

variable {s s' s'' : State} {inum : ℕ} {din din' din'' : Dinode}

theorem refl (s : State) (inum : ℕ) (din : Dinode) : Onward s s inum din din :=
  ⟨rfl, rfl, rfl, rfl, fun _ _ => rfl, fun _ _ _ => rfl⟩

theorem type (h : Onward s s' inum din din') : din'.type = din.type := (Dinode.ext_iff.mp h.fields).1

theorem trans (h : Onward s s' inum din din') (h' : Onward s' s'' inum din' din'') : Onward s s'' inum din din'' := by
  refine ⟨h'.sectors.trans h.sectors, h'.freeinode.trans h.freeinode, h'.core.trans h.core, ?_, fun k hk => ?_,
    fun j hj m => ?_⟩
  · rw [← h.fields, ← h'.fields]
  · rw [h'.short k hk, h.short k hk]
  · rw [h'.others j hj m, h.others j hj m]

end Onward

structure Mapped (s s' : State) (inum : ℕ) (din din' : Dinode) (off fbn x : ℕ) : Prop where
  onward : Onward s s' inum din din'
  packed : Packed (s'.with inum din') s'.freeblock
  spans : Spans (s'.with inum din') inum ((fbn + 1) * bsize)
  block : x = (s'.with inum din').block inum fbn
  bytes : (s'.with inum din').byte = (s.with inum din).byte
  free : s'.freeblock + need off = s.freeblock + need ((fbn + 1) * bsize)

@[simp] theorem State.with_core (s : State) (inum : ℕ) (din : Dinode) : (s.with inum din).core inum = din := update_self _ _ _

section link

variable {s : State} {inum m : ℕ} {din : Dinode} (h : Packed (s.with inum din) s.freeblock) (ht : din.type ≠ 0)
include h

theorem with_setAddr (hm : m ≤ ndirect) :
    State.with { s with freeblock := s.freeblock + 1 } inum (din.setAddr m s.freeblock) =
      (s.with inum din).link inum m s.freeblock := by
  rw [Volume.link, if_pos hm, h.take_eq, State.with_core]
  simp [State.with, State.volume, Volume.setCore]

theorem with_wr32 (hind : nmeta ≤ (s.with inum din).own (inum, ndirect)) (hm : ndirect < m) (hm' : m < nptr) {k : ℕ} :
    State.with { s with
        freeblock := s.freeblock + 1
        blocks := update s.blocks ((s.with inum din).own (inum, ndirect))
          (wr32 (s.blocks ((s.with inum din).own (inum, ndirect))) (4 * (m - (ndirect + 1))) s.freeblock)
        sectors := k } inum din = (s.with inum din).link inum m s.freeblock := by
  rw [Volume.link, if_neg (by omega), h.take_eq]
  generalize hi : (s.with inum din).own (inum, ndirect) = ind at hind ⊢
  have hx : 4 * (m - (ndirect + 1)) + 4 ≤ bsize := by
    simp only [nptr, ndirect, nindirect, bsize] at hm' ⊢
    omega
  have hv : Fs.volume (update s.blocks ind (wr32 (s.blocks ind) (4 * (m - (ndirect + 1))) s.freeblock)) = _ :=
    volume_wr32 (show datastart ≤ ind from hind) hx
  simp only [State.with, State.volume, Volume.setCore, Volume.put, hv]

include ht in
theorem onward_link {s' : State} {din' : Dinode} (hlink : s'.with inum din' = (s.with inum din).link inum m s.freeblock)
    (h0 : (s.with inum din).own (inum, m) = 0) (hm : m < nptr) (hind : ndirect < m → (s.with inum din).own (inum, ndirect) ≠ 0)
    (hfree : s.freeblock < fssize) (hsec : s'.sectors = s.sectors) (hino : s'.freeinode = s.freeinode)
    (hcore : s'.volume.core = s.volume.core) (hfields : { din' with addrs := din.addrs } = din)
    (hshort : ∀ k, ndirect < k → din'.addrs k = din.addrs k) :
    Onward s s' inum din din' ∧ Packed (s'.with inum din') (s.freeblock + 1) ∧ (s'.with inum din').own =
      update (s.with inum din).own (inum, m) s.freeblock ∧ (s'.with inum din').byte = (s.with inum din).byte := by
  have hb : (s.with inum din).used s.freeblock = false := by simp [h.used]
  have ht' : ((s.with inum din).core inum).type ≠ 0 := by rwa [State.with_core]
  have hfs : fssize < 2 ^ 32 := by decide
  have hown := Volume.own_link h.ledger hb ht' h0 hm hind (by omega)
  rw [hlink]
  refine ⟨⟨hsec, hino, hcore, hfields, hshort, fun j hj k => ?_⟩, h.link hfree ht' h0 hm hind, hown,
    Volume.byte_link h.ledger hb ht' h0 hm hind (by omega)⟩
  rw [hlink, hown, update_of_ne (by simp [hj])]

end link

theorem span_mul (n : ℕ) : span (n * bsize) = n := by
  simp only [span, bsize]
  omega

theorem need_of_span (h : span a = span b) : need a = need b := by rw [need, need, h]

section mapBlock

variable {s : State} {inum fbn off : ℕ} {din : Dinode} {E : Exit → Prop}

section

variable (h : Packed (s.with inum din) s.freeblock) (hsec : s.sectors = fssize) (ht : din.type ≠ 0) (hfbn : fbn < maxfile)

include h hsec ht hfbn

theorem wp_mapIndirect (hd : ndirect ≤ fbn) (hind : (s.with inum din).own (inum, ndirect) ≠ 0)
    (hblocks : ∀ n, (s.with inum din).block inum n ≠ 0 ↔ n < span off) (hspan : span off = fbn ∨ span off = fbn + 1)
    (hE : fssize < s.freeblock + (fbn + 1 - span off) → E .read) : wp (do
      let indirect ← rsect (din.addrs ndirect)
      if rd32 indirect (4 * (fbn - ndirect)) = 0 then
        let x ← takeBlock
        wsect (din.addrs ndirect) (wr32 indirect (4 * (fbn - ndirect)) x)
        return (din, x)
      else return (din, rd32 indirect (4 * (fbn - ndirect)))) s
    (fun r s' => (r.1 = din ∧ Onward s s' inum din din ∧ Packed (s'.with inum din) s'.freeblock ∧
      (∀ n, (s'.with inum din).block inum n ≠ 0 ↔ n < fbn + 1) ∧ (s'.with inum din).own (inum, ndirect) ≠ 0 ∧
      r.2 = (s'.with inum din).block inum fbn ∧ (s'.with inum din).byte = (s.with inum din).byte ∧
      s'.freeblock + span off = s.freeblock + (fbn + 1)) ∨ s'.sectors ≤ r.2 ∧ E .read) E := by
  have ht' : ((s.with inum din).core inum).type ≠ 0 := by rwa [State.with_core]
  have hown : (s.with inum din).own (inum, ndirect) = din.addrs ndirect := by rw [Volume.own_ndirect ht', State.with_core]
  have hrange := h.ledger.range _ hind
  have hplace : place fbn = fbn + 1 := if_neg (by omega)
  have hlt : fbn + 1 < nptr := hplace ▸ place_lt hfbn
  have hptr : rd32 (s.blocks (din.addrs ndirect)) (4 * (fbn - ndirect)) = (s.with inum din).block inum fbn := by
    rw [Volume.block, hplace, Volume.own_of_allocated ht', State.with_core,
      Dinode.ptr_indirect (by omega) hlt (by rwa [← hown]), show fbn + 1 - (ndirect + 1) = fbn - ndirect by omega]
    refine (rd32_volume (hown ▸ hrange.1) ?_).symm
    simp only [nptr, ndirect, nindirect, bsize] at hlt ⊢
    omega
  rw [wp_bind, wp_rsect, hsec, ← hown]
  refine ⟨fun _ => ?_, fun hn => absurd hrange.2 hn⟩
  rw [hown, hptr, wp_ite]
  constructor
  · intro h0
    have hs : span off = fbn := by
      rcases hspan with hs | hs
      · exact hs
      · exact absurd h0 ((hblocks fbn).mpr (by omega))
    rw [wp_bind, wp_takeBlock, wp_bind, wp_wsect, wp_pure]
    by_cases hfree : s.freeblock < fssize
    · refine Or.inl ⟨rfl, ?_⟩
      have h0' : (s.with inum din).own (inum, fbn + 1) = 0 := by rw [← hplace]; exact h0
      have hmax : max fssize (din.addrs ndirect + 1) = fssize := by
        rw [hown] at hrange
        omega
      have hlink := with_wr32 h hrange.1 (by omega) hlt (k := max s.sectors (din.addrs ndirect + 1))
      rw [hown, show fbn + 1 - (ndirect + 1) = fbn - ndirect by omega] at hlink
      have hcore : (Fs.volume (update s.blocks (din.addrs ndirect)
          (wr32 (s.blocks (din.addrs ndirect)) (4 * (fbn - ndirect)) s.freeblock))).core = (Fs.volume s.blocks).core :=
        volume_congr_core fun i hi => update_of_ne (iblock_ne_data hi (hown ▸ hrange.1)) _ _
      obtain ⟨honward, hpacked, hown', hbyte⟩ := onward_link h ht hlink h0' hlt (fun _ => hind) hfree
        (by simp [hsec, hmax]) rfl hcore rfl fun _ _ => rfl
      refine ⟨honward, hpacked, fun n => ?_, ?_, ?_, hbyte, ?_⟩
      · rw [Volume.block, hown']
        by_cases hn : n = fbn
        · have := h.low
          have hpos : 0 < nmeta := by decide
          rw [hn, hplace, update_self]
          constructor <;> intro <;> omega
        · have hne : place n ≠ fbn + 1 := fun he => hn (place_injective (he.trans hplace.symm))
          rw [update_of_ne (by simpa using hne)]
          exact (hblocks n).trans (by omega)
      · rw [hown', update_of_ne (by simp only [ne_eq, Prod.mk.injEq, true_and]; omega)]
        exact hind
      · rw [Volume.block, hown', hplace, update_self]
      · simp only [hs]
        omega
    · refine Or.inr ⟨?_, hE (by omega)⟩
      simp only [hsec]
      omega
  · intro h0
    have hs : span off = fbn + 1 := by
      rcases hspan with hs | hs
      · exact absurd ((hblocks fbn).mp h0) (by omega)
      · exact hs
    exact (wp_pure _).mpr (Or.inl ⟨rfl, Onward.refl s inum din, h, fun n => (hblocks n).trans (by omega), hind,
      rfl, rfl, by omega⟩)

theorem wp_mapBlock (hsp : Spans (s.with inum din) inum off) (hspan : span off = fbn ∨ span off = fbn + 1)
    (hE : fssize + need off < s.freeblock + need ((fbn + 1) * bsize) → E .read) :
    wp (mapBlock din fbn) s (fun r s' => Mapped s s' inum din r.1 off fbn r.2 ∨ s'.sectors ≤ r.2 ∧ E .read) E := by
  have ht' : ((s.with inum din).core inum).type ≠ 0 := by rwa [State.with_core]
  have hneed : need ((fbn + 1) * bsize) = fbn + 1 + if ndirect < fbn + 1 then 1 else 0 := by rw [need, span_mul]
  have hneed' : need off = span off + if ndirect < span off then 1 else 0 := rfl
  have hlow := h.low
  have hpos : 0 < nmeta := by decide
  have hnptr : ndirect < nptr := by decide
  unfold mapBlock
  rw [wp_ite]
  constructor
  · intro hd
    have hplace : place fbn = fbn := if_pos hd
    have hown : (s.with inum din).block inum fbn = din.addrs fbn := by
      rw [Volume.block, hplace, Volume.own_of_allocated ht', State.with_core, Dinode.ptr_direct hd.le]
    rw [if_neg (by omega)] at hneed
    rw [wp_ite]
    constructor
    · intro h0
      have hs : span off = fbn := by
        rcases hspan with hs | hs
        · exact hs
        · exact absurd (hown.trans h0) ((hsp.blocks fbn).mpr (by omega))
      rw [if_neg (by omega)] at hneed'
      rw [wp_bind, wp_takeBlock, wp_pure]
      by_cases hfree : s.freeblock < fssize
      · have h0' : (s.with inum din).own (inum, fbn) = 0 := by rw [← hplace]; exact hown.trans h0
        obtain ⟨honward, hpacked, hown', hbyte⟩ :=
          onward_link h ht (with_setAddr h hd.le) h0' (by omega) (fun hlt => absurd hd (by omega)) hfree rfl rfl rfl rfl
            fun k hk => update_of_ne (by omega) _ _
        refine Or.inl ⟨honward, hpacked, ⟨fun n => ?_, ?_⟩, ?_, hbyte, ?_⟩
        · rw [Volume.block, span_mul]
          refine (Eq.congr_left (congrFun hown' _)).not.trans ?_
          by_cases hn : n = fbn
          · rw [hn, hplace, update_self]
            constructor <;> intro <;> omega
          · have hne : place n ≠ fbn := fun he => hn (place_injective (he.trans hplace.symm))
            rw [update_of_ne (by simpa using hne)]
            exact (hsp.blocks n).trans (by omega)
        · rw [span_mul]
          refine (Eq.congr_left (congrFun hown' _)).not.trans ?_
          rw [update_of_ne (by simp only [ne_eq, Prod.mk.injEq, true_and]; omega)]
          exact hsp.indirect.trans (by omega)
        · rw [Volume.block, hplace]
          exact ((congrFun hown' _).trans (update_self _ _ _)).symm
        · simp only [hneed, hneed', hs]
          omega
      · exact Or.inr ⟨by simp only [hsec]; omega, hE (by omega)⟩
    · intro h0
      have hs : span off = fbn + 1 := by
        rcases hspan with hs | hs
        · exact absurd ((hsp.blocks fbn).mp (hown ▸ h0)) (by omega)
        · exact hs
      have hs' : span ((fbn + 1) * bsize) = span off := by rw [span_mul, hs]
      refine (wp_pure _).mpr (Or.inl ⟨Onward.refl s inum din, h, ⟨fun n => hs' ▸ hsp.blocks n, hs' ▸ hsp.indirect⟩,
        hown.symm, rfl, ?_⟩)
      rw [need_of_span hs']
  · intro hd
    rw [if_pos (by omega)] at hneed
    have hown : (s.with inum din).own (inum, ndirect) = din.addrs ndirect := by rw [Volume.own_ndirect ht', State.with_core]
    rw [wp_ite]
    constructor
    · intro h0
      have hs : span off = fbn ∧ fbn = ndirect := by
        have := hsp.indirect.not.mp (by rw [hown, h0]; simp)
        omega
      rw [if_neg (by omega)] at hneed'
      rw [wp_bind, wp_takeBlock, wp_bind, wp_pure]
      by_cases hfree : s.freeblock < fssize
      · obtain ⟨honward, hpacked, hown', hbyte⟩ := onward_link h ht (with_setAddr h le_rfl) (hown.trans h0) hnptr
          (fun hlt => absurd hlt (lt_irrefl _)) hfree rfl rfl rfl rfl fun k hk => update_of_ne (by omega) _ _
        have hind : (State.with { s with freeblock := s.freeblock + 1 } inum (din.setAddr ndirect s.freeblock)).own
          (inum, ndirect) ≠ 0 := by
          rw [hown', update_self]
          omega
        have hblocks : ∀ n, (State.with { s with freeblock := s.freeblock + 1 } inum (din.setAddr ndirect s.freeblock)).block
          inum n ≠ 0 ↔ n < span off := by
          intro n
          rw [Volume.block, hown', update_of_ne (by simpa using place_ne_ndirect n)]
          exact hsp.blocks n
        refine wp_mono (wp_mapIndirect hpacked hsec ht hfbn (by omega) hind hblocks hspan fun hlt => hE ?_) ?_
        · simp only at hlt
          omega
        rintro ⟨din', x⟩ s' (⟨rfl, honward', hpacked', hblocks', hind', hx, hbyte', hfree'⟩ | hfail)
        · refine Or.inl ⟨honward.trans honward', hpacked', ⟨fun n => ?_, ?_⟩, hx, hbyte'.trans hbyte, ?_⟩
          · rw [span_mul]
            exact hblocks' n
          · rw [span_mul]
            exact ⟨fun _ => by omega, fun _ => hind'⟩
          · simp only at hfree'
            omega
        · exact Or.inr hfail
      · rw [wp_bind, wp_rsect]
        have hread : E .read := hE (by omega)
        refine ⟨fun hlt => ?_, fun _ => hread⟩
        simp [hsec] at hlt
        omega
    · intro h0
      have hind : (s.with inum din).own (inum, ndirect) ≠ 0 := hown ▸ h0
      have hlt := hsp.indirect.mp hind
      rw [if_pos hlt] at hneed'
      refine wp_mono (wp_mapIndirect h hsec ht hfbn (by omega) hind hsp.blocks hspan fun hlt => hE (by omega)) ?_
      rintro ⟨din', x⟩ s' (⟨rfl, honward', hpacked', hblocks', hind', hx, hbyte', hfree'⟩ | hfail)
      · refine Or.inl ⟨honward', hpacked', ⟨fun n => ?_, ?_⟩, hx, hbyte', by omega⟩
        · rw [span_mul]
          exact hblocks' n
        · rw [span_mul]
          exact ⟨fun _ => by omega, fun _ => hind'⟩
      · exact Or.inr hfail

end

end mapBlock

structure Appended (s s' : State) (inum : ℕ) (din din' : Dinode) (off : ℕ) (p : List UInt8) : Prop where
  onward : Onward s s' inum din din'
  packed : Packed (s'.with inum din') s'.freeblock
  spans : Spans (s'.with inum din') inum (off + p.length)
  bytes : ∀ j x, (s'.with inum din').byte j x =
    if j = inum ∧ off ≤ x ∧ x < off + p.length then p.getD (x - off) 0 else (s.with inum din).byte j x

theorem need_le_of_span (h : span a ≤ span b) : need a ≤ need b := by
  unfold need
  split_ifs <;> omega

variable {s : State} {inum off : ℕ} {din : Dinode} {p : List UInt8} {E : Exit → Prop}

theorem Appended.nil (h : Packed (s.with inum din) s.freeblock) (hsp : Spans (s.with inum din) inum off) :
    Appended s s inum din din off [] := by
  refine ⟨Onward.refl s inum din, h, hsp, fun j x => ?_⟩
  rw [if_neg (by simp only [List.length_nil]; omega)]

theorem Appended.of_onward {s₁ s₂ : State} {din₁ din₂ : Dinode} (ho : Onward s s₁ inum din din₁)
    (hb : (s₁.with inum din₁).byte = (s.with inum din).byte) (h : Appended s₁ s₂ inum din₁ din₂ off p) :
    Appended s s₂ inum din din₂ off p :=
  ⟨ho.trans h.onward, h.packed, h.spans, fun j x => by rw [h.bytes, hb]⟩

theorem Appended.trans {s₁ s₂ : State} {din₁ din₂ : Dinode} {off' : ℕ} {q : List UInt8} (h : Appended s s₁ inum din din₁ off p)
    (h' : Appended s₁ s₂ inum din₁ din₂ off' q) (hoff : off' = off + p.length) : Appended s s₂ inum din din₂ off (p ++ q) := by
  subst hoff
  refine ⟨h.onward.trans h'.onward, h'.packed, ?_, fun j x => ?_⟩
  · rw [List.length_append, ← Nat.add_assoc]
    exact h'.spans
  rw [h'.bytes, h.bytes, List.length_append]
  by_cases hj : j = inum
  · simp only [hj, true_and]
    by_cases h1 : off ≤ x ∧ x < off + p.length
    · rw [if_neg (by omega), if_pos h1, if_pos (by omega), List.getD_append _ _ _ _ (by omega)]
    · rw [if_neg h1]
      by_cases h2 : off + p.length ≤ x ∧ x < off + p.length + q.length
      · rw [if_pos h2, if_pos (by omega), List.getD_append_right _ _ _ _ (by omega)]
        congr 1
        omega
      · rw [if_neg h2, if_neg (by omega)]
  · simp [hj]

theorem appended_put (h : Packed (s.with inum din) s.freeblock) (hsec : s.sectors = fssize) {fbn n : ℕ}
    (hfbn : fbn = off / bsize) (hsp : Spans (s.with inum din) inum ((fbn + 1) * bsize)) (hn : 0 < n)
    (hn' : off + n ≤ (fbn + 1) * bsize) (hp : n ≤ p.length) : Appended s { s with
      blocks := update s.blocks ((s.with inum din).block inum fbn)
        (store (s.blocks ((s.with inum din).block inum fbn)) (off - fbn * bsize) n (fun i => p.getD i 0))
      sectors := max s.sectors ((s.with inum din).block inum fbn + 1) } inum din din off (p.take n) := by
  have hx : (s.with inum din).block inum fbn ≠ 0 := (hsp.blocks fbn).mpr (by rw [span_mul]; omega)
  have hrange : nmeta ≤ (s.with inum din).block inum fbn ∧ (s.with inum din).block inum fbn < fssize := h.ledger.range _ hx
  have hlt : (s.with inum din).block inum fbn < s.freeblock := by
    have hheld : (s.with inum din).used ((s.with inum din).block inum fbn) = true := h.ledger.held _ hx
    simpa [h.used] using hheld
  let f : Bytes := fun y => if y < bsize then
    store (s.blocks ((s.with inum din).block inum fbn)) (off - fbn * bsize) n (fun i => p.getD i 0) y else 0
  have hwith : ∀ sectors, State.with { s with
      blocks := update s.blocks ((s.with inum din).block inum fbn)
        (store (s.blocks ((s.with inum din).block inum fbn)) (off - fbn * bsize) n (fun i => p.getD i 0))
      sectors := sectors } inum din = (s.with inum din).put ((s.with inum din).block inum fbn) f := by
    intro sectors
    have hv : Fs.volume (update s.blocks ((s.with inum din).block inum fbn) _) = _ :=
      volume_put (show datastart ≤ (s.with inum din).block inum fbn from hrange.1)
        (store (s.blocks ((s.with inum din).block inum fbn)) (off - fbn * bsize) n (fun i => p.getD i 0))
    rw [State.with, State.volume, hv]
    rfl
  have hown := Volume.own_put h.ledger hx f
  have hspan : span (off + n) = fbn + 1 := by
    simp only [span, bsize] at hfbn hn' ⊢
    omega
  have hlen : (p.take n).length = n := by simp [hp]
  refine ⟨⟨?_, rfl, ?_, rfl, fun _ _ => rfl, fun j _ m => ?_⟩, ?_, ?_, fun j x => ?_⟩
  · simp only [hsec]
    omega
  · exact volume_congr_core fun i hi => update_of_ne (iblock_ne_data hi hrange.1) _ _
  · rw [hwith, hown]
  · rw [hwith]
    refine ⟨?_, ?_, h.used, h.low, h.high, fun b hb x => ?_⟩
    · rw [hown]
      exact h.ledger
    · rw [hown]
      exact h.covers
    · have hne : b ≠ (s.with inum din).block inum fbn := by
        rintro rfl
        exact absurd hlt (by simpa using hb)
      simpa [Volume.put, hne] using h.zero b hb x
  · rw [hwith, hlen]
    refine ⟨fun m => ?_, ?_⟩
    · rw [Volume.block, hown, hspan, ← span_mul (fbn + 1)]
      exact hsp.blocks m
    · rw [hown, hspan, ← span_mul (fbn + 1)]
      exact hsp.indirect
  · rw [hwith, hlen, Volume.byte_put h.ledger hx f]
    by_cases hj : j = inum ∧ x / bsize = fbn
    · obtain ⟨rfl, hxf⟩ := hj
      have hlt' : x % bsize < bsize := Nat.mod_lt _ (by decide)
      have hbyte : (s.with j din).byte j x = s.blocks ((s.with j din).block j fbn) (x % bsize) := by
        rw [Volume.byte, hxf, if_neg hx]
        exact volume_data hrange.1 hlt'
      rw [if_pos ⟨rfl, hxf⟩, hbyte]
      have hin : off - fbn * bsize ≤ x % bsize ∧ x % bsize < off - fbn * bsize + n ↔ off ≤ x ∧ x < off + n := by
        simp only [bsize] at hfbn hxf hn' ⊢
        omega
      simp only [f, if_pos hlt', true_and, store, hin]
      split_ifs with h1
      · have he : x % bsize - (off - fbn * bsize) = x - off := by
          simp only [bsize] at hfbn hxf hn' ⊢
          omega
        rw [he, List.getD_eq_getElem?_getD, List.getD_eq_getElem?_getD, List.getElem?_take_of_lt (by omega)]
      · rfl
    · rw [if_neg hj, if_neg]
      rintro ⟨rfl, h1, h2⟩
      apply hj
      simp only [bsize] at hfbn hn' ⊢
      exact ⟨trivial, by omega⟩

theorem wp_iappendLoop {fuel : ℕ} (hfuel : p.length ≤ fuel) (h : Packed (s.with inum din) s.freeblock)
    (hsec : s.sectors = fssize) (ht : din.type ≠ 0) (hsp : Spans (s.with inum din) inum off)
    (hE : fssize + need off < s.freeblock + need (off + p.length) → E .read)
    (hE' : maxfile * bsize < off + p.length → E .assert) : wp (iappendLoop fuel din off p) s
      (fun din' s' => Appended s s' inum din din' off p ∧ s'.freeblock + need off = s.freeblock + need (off + p.length)) E := by
  induction fuel generalizing s din off p with
  | zero =>
    obtain rfl : p = [] := List.length_eq_zero_iff.mp (by omega)
    exact wp_ret ⟨Appended.nil h hsp, rfl⟩
  | succ fuel ih =>
    rw [iappendLoop, wp_ite]
    constructor
    · rintro rfl
      exact wp_ret ⟨Appended.nil h hsp, rfl⟩
    · intro hp
      have hpos : 0 < p.length := List.length_pos_iff.mpr hp
      rw [wp_ite]
      constructor
      · intro hmax
        refine (wp_throw _).mpr (hE' ?_)
        have : maxfile * bsize ≤ off := (Nat.mul_le_mul_right bsize hmax).trans (Nat.div_mul_le_self off bsize)
        omega
      · intro hmax
        have hspan : span off = off / bsize ∨ span off = off / bsize + 1 := by
          simp only [span, bsize]
          omega
        have hle : need ((off / bsize + 1) * bsize) ≤ need (off + p.length) := by
          apply need_le_of_span
          simp only [span, bsize]
          omega
        refine wp_seq (wp_mapBlock h hsec ht (by omega) hsp hspan fun hlt => hE (by omega)) ?_
        rintro ⟨din₁, x⟩ s₁ (hmap | ⟨hx, hread⟩)
        · have hsec₁ : s₁.sectors = fssize := hmap.onward.sectors.trans hsec
          have hx : (s₁.with inum din₁).block inum (off / bsize) ≠ 0 := (hmap.spans.blocks _).mpr (by rw [span_mul]; omega)
          have hrange := hmap.packed.ledger.range _ hx
          have hn : off + min p.length ((off / bsize + 1) * bsize - off) ≤ (off / bsize + 1) * bsize := by
            simp only [bsize]
            omega
          have hn' : 0 < min p.length ((off / bsize + 1) * bsize - off) := by
            simp only [bsize]
            omega
          have hx' : x = (s₁.with inum din₁).block inum (off / bsize) := hmap.block
          rw [hx', wp_bind, wp_rsect]
          refine ⟨fun _ => ?_, fun hlt => absurd (hsec₁ ▸ hrange.2) hlt⟩
          rw [wp_bind, wp_wsect]
          have hput := appended_put hmap.packed hsec₁ rfl hmap.spans hn' hn (min_le_left p.length _)
          have hfirst := hput.of_onward hmap.onward hmap.bytes
          have hp₁ : min p.length ((off / bsize + 1) * bsize - off) ≤ p.length := min_le_left _ _
          generalize min p.length ((off / bsize + 1) * bsize - off) = n₁ at *
          have hlen : (p.take n₁).length = n₁ := by simp [hp₁]
          have hlen' : (p.drop n₁).length = p.length - n₁ := List.length_drop
          have hneed : need (off + n₁) = need ((off / bsize + 1) * bsize) := by
            apply need_of_span
            simp only [span, bsize] at hn ⊢
            omega
          have hspans := hput.spans
          rw [hlen] at hspans
          have hfree := hmap.free
          have htotal : off + n₁ + (p.drop n₁).length = off + p.length := by omega
          refine wp_mono (ih (by omega) hput.packed (hput.onward.sectors.trans hsec₁)
            (by rw [hmap.onward.type]; exact ht) hspans (fun hlt => hE ?_) fun hlt => hE' (by omega)) ?_
          · simp only [htotal] at hlt
            omega
          · rintro din' s' ⟨happ, hfree'⟩
            rw [htotal] at hfree'
            have htrans := hfirst.trans happ (by rw [hlen])
            rw [List.take_append_drop] at htrans
            simp only at hfree'
            exact ⟨htrans, by omega⟩
        · rw [wp_bind, wp_rsect]
          exact ⟨fun hlt => absurd hx (by simpa using hlt), fun _ => hread⟩

end Laboratorio.Fs.Mkfs
