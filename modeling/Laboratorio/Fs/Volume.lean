import Laboratorio.Lib.Ledger
import Laboratorio.Fs.Disk

/-!
Files as the blocks of the disk hold them: the pointers of an inode, the blocks they name and the bytes in these.
-/

namespace Laboratorio.Fs

open Bytes Function

def nptr : ℕ := ndirect + 1 + nindirect

def place (n : ℕ) : ℕ := if n < ndirect then n else n + 1

theorem place_ne_ndirect (n : ℕ) : place n ≠ ndirect := by
  unfold place
  split_ifs <;> omega

theorem place_injective : Injective place := by
  intro m n h
  unfold place at h
  split_ifs at h <;> omega

theorem place_lt {n : ℕ} (h : n < maxfile) : place n < nptr := by
  unfold place nptr
  unfold maxfile at h
  split_ifs <;> omega

namespace Dinode

def ptr (d : Dinode) (data : ℕ → Bytes) (m : ℕ) : ℕ :=
  if m ≤ ndirect then d.addrs m
  else if m < nptr ∧ d.addrs ndirect ≠ 0 then rd32 (data (d.addrs ndirect)) (4 * (m - (ndirect + 1)))
  else 0

variable {d d' : Dinode} {data data' : ℕ → Bytes} {m : ℕ}

theorem ptr_direct (hm : m ≤ ndirect) : d.ptr data m = d.addrs m := if_pos hm

theorem ptr_indirect (hm : ndirect < m) (hm' : m < nptr) (hd : d.addrs ndirect ≠ 0) :
    d.ptr data m = rd32 (data (d.addrs ndirect)) (4 * (m - (ndirect + 1))) := by
  rw [ptr, if_neg (by omega), if_pos ⟨hm', hd⟩]

theorem ptr_of_no_indirect (hm : ndirect < m) (hd : d.addrs ndirect = 0) : d.ptr data m = 0 := by
  rw [ptr, if_neg (by omega), if_neg (by simp [hd])]

theorem ptr_of_le (hm : nptr ≤ m) : d.ptr data m = 0 := by
  have : ndirect < nptr := by decide
  rw [ptr, if_neg (by omega), if_neg (by omega)]

theorem ptr_of_addrs_zero (h : ∀ k, d.addrs k = 0) : d.ptr data m = 0 := by
  by_cases hm : m ≤ ndirect
  · rw [ptr_direct hm, h]
  · exact ptr_of_no_indirect (by omega) (h ndirect)

def setAddr (d : Dinode) (m b : ℕ) : Dinode := { d with addrs := update d.addrs m b }

theorem ptr_congr (ha : d'.addrs = d.addrs) (hd : d.addrs ndirect ≠ 0 → data' (d.addrs ndirect) = data (d.addrs ndirect)) :
    d'.ptr data' = d.ptr data := by
  funext m
  unfold ptr
  rw [ha]
  split_ifs with h1 h2
  · rfl
  · rw [hd h2.2]
  · rfl

theorem ptr_setAddr {b : ℕ} (hm : m ≤ ndirect) (h0 : m = ndirect → d.addrs ndirect = 0) (hz : ∀ x, data b x = 0) :
    (d.setAddr m b).ptr data = update (d.ptr data) m b := by
  funext k
  by_cases hk : k ≤ ndirect
  · rw [ptr_direct hk]
    by_cases hkm : k = m
    · simp [setAddr, hkm]
    · simp [setAddr, hkm, ptr_direct hk]
  rw [update_of_ne (by omega)]
  by_cases hmn : m = ndirect
  · rw [ptr_of_no_indirect (by omega) (h0 hmn), ptr, if_neg hk]
    split_ifs
    · simp only [setAddr, hmn, update_self]
      exact rd_eq_zero fun x _ _ => hz x
    · rfl
  · have ha : (d.setAddr m b).addrs ndirect = d.addrs ndirect := update_of_ne (Ne.symm hmn) _ _
    unfold ptr
    rw [if_neg hk, if_neg hk, ha]

theorem ptr_wr32 {b : ℕ} (hm : ndirect < m) (hm' : m < nptr) (hd : d.addrs ndirect ≠ 0) (hb : b < 2 ^ 32) :
    d.ptr (update data (d.addrs ndirect) (wr32 (data (d.addrs ndirect)) (4 * (m - (ndirect + 1))) b)) =
      update (d.ptr data) m b := by
  funext k
  by_cases hk : k ≤ ndirect
  · rw [update_of_ne (by omega), ptr_direct hk, ptr_direct hk]
  by_cases hk' : k < nptr
  · rw [ptr_indirect (by omega) hk' hd, update_self]
    by_cases hkm : k = m
    · rw [hkm, update_self]
      exact rd_wr _ _ hb
    · rw [update_of_ne hkm, ptr_indirect (by omega) hk' hd]
      refine rd_store_of_disjoint ?_
      omega
  · rw [update_of_ne (by omega), ptr_of_le (by omega), ptr_of_le (by omega)]

end Dinode

@[ext] structure Node where
  type : ℕ
  major : ℕ
  minor : ℕ
  nlink : ℕ
  size : ℕ
  bytes : Bytes

/-- `core i` is inode `i`, `used` the bitmap, `data` the blocks behind it. -/
@[ext] structure Volume where
  core : ℕ → Dinode
  used : ℕ → Bool
  data : ℕ → Bytes

namespace Volume

variable (v : Volume)

def own (p : ℕ × ℕ) : ℕ := if (v.core p.1).type = 0 then 0 else (v.core p.1).ptr v.data p.2

def block (i n : ℕ) : ℕ := v.own (i, place n)

def byte (i x : ℕ) : UInt8 := if v.block i (x / bsize) = 0 then 0 else v.data (v.block i (x / bsize)) (x % bsize)

def node (i : ℕ) : Node :=
  ⟨(v.core i).type, (v.core i).major, (v.core i).minor, (v.core i).nlink, (v.core i).size, v.byte i⟩

def take (b : ℕ) : Volume := { v with used := update v.used b true, data := update v.data b fun _ => 0 }

def give (b : ℕ) : Volume := { v with used := update v.used b false }

def put (b : ℕ) (f : Bytes) : Volume := { v with data := update v.data b f }

def setCore (i : ℕ) (d : Dinode) : Volume := { v with core := update v.core i d }

def link (i m b : ℕ) : Volume :=
  if m ≤ ndirect then (v.take b).setCore i ((v.core i).setAddr m b)
  else (v.take b).put (v.own (i, ndirect)) (wr32 (v.data (v.own (i, ndirect))) (4 * (m - (ndirect + 1))) b)

variable {v} {i j m n b lo hi : ℕ} {d : Dinode}

theorem own_of_free (h : (v.core i).type = 0) : v.own (i, m) = 0 := if_pos h

theorem own_of_allocated (h : (v.core i).type ≠ 0) : v.own (i, m) = (v.core i).ptr v.data m := if_neg h

theorem type_ne_of_own (h : v.own (i, m) ≠ 0) : (v.core i).type ≠ 0 := fun h0 => h (own_of_free h0)

theorem own_ndirect (h : (v.core i).type ≠ 0) : v.own (i, ndirect) = (v.core i).addrs ndirect := by
  rw [own_of_allocated h, Dinode.ptr_direct le_rfl]

theorem own_of_le (h : nptr ≤ m) : v.own (i, m) = 0 := by
  unfold own
  split_ifs
  · rfl
  · exact Dinode.ptr_of_le h

theorem block_of_le (h : maxfile ≤ n) : v.block i n = 0 := by
  apply own_of_le
  unfold place nptr
  unfold maxfile at h
  split_ifs <;> omega

variable {v' : Volume}

theorem own_congr_at (hcore : v'.core i = v.core i)
    (hdata : v.own (i, ndirect) ≠ 0 → v'.data (v.own (i, ndirect)) = v.data (v.own (i, ndirect))) (m : ℕ) :
    v'.own (i, m) = v.own (i, m) := by
  by_cases ht : (v.core i).type = 0
  · rw [own_of_free ht, own_of_free (by rw [hcore, ht])]
  · rw [own_of_allocated ht, own_of_allocated (by rwa [hcore]), hcore]
    refine congrFun (Dinode.ptr_congr rfl fun hd => ?_) m
    rw [← own_ndirect ht] at hd ⊢
    exact hdata hd

theorem own_congr (hcore : v'.core = v.core)
    (hdata : ∀ i, v.own (i, ndirect) ≠ 0 → v'.data (v.own (i, ndirect)) = v.data (v.own (i, ndirect))) : v'.own = v.own := by
  funext ⟨i, m⟩
  exact own_congr_at (congrFun hcore i) (hdata i) m

theorem own_eq_update (ht : (v.core i).type ≠ 0) (ht' : (v'.core i).type ≠ 0)
    (hi : (v'.core i).ptr v'.data = update ((v.core i).ptr v.data) m b) (hj : ∀ j, j ≠ i → ∀ k, v'.own (j, k) = v.own (j, k)) :
    v'.own = update v.own (i, m) b := by
  funext ⟨j, k⟩
  by_cases hji : j = i
  · subst hji
    rw [own_of_allocated ht', hi]
    by_cases hkm : k = m
    · simp [hkm]
    · rw [update_of_ne hkm, update_of_ne (by simpa using hkm), own_of_allocated ht]
  · rw [update_of_ne (by simp [hji]), hj j hji]

theorem byte_congr (hown : v'.own = v.own) (hdata : ∀ n, v.block i n ≠ 0 → v'.data (v.block i n) = v.data (v.block i n)) :
    v'.byte i = v.byte i := by
  funext x
  have hblock : v'.block i (x / bsize) = v.block i (x / bsize) := congrFun hown _
  unfold byte
  rw [hblock]
  split_ifs with h
  · rfl
  · rw [hdata _ h]

theorem same_of_owned (hcore : v'.core = v.core) (hdata : ∀ p, v.own p ≠ 0 → v'.data (v.own p) = v.data (v.own p)) :
    v'.own = v.own ∧ v'.node = v.node := by
  have hown : v'.own = v.own := own_congr hcore fun i hi => hdata (i, ndirect) hi
  refine ⟨hown, ?_⟩
  funext i
  have hbyte : v'.byte i = v.byte i := byte_congr hown fun n hn => hdata (i, place n) hn
  unfold node
  rw [hbyte, hcore]

def Trails (w v : Volume) : Prop := ∀ p, w.own p = 0 ∨ w.own p = v.own p

section ledger

variable (h : Ledger v.own v.used lo hi)
include h

theorem own_take (hb : v.used b = false) : (v.take b).own = v.own := by
  refine own_congr rfl fun i hi => ?_
  exact update_of_ne (h.ne_of_unused hb hi) _ _

theorem ledger_take (hb : v.used b = false) : Ledger (v.take b).own (v.take b).used lo hi := by
  rw [own_take h hb]
  refine h.mono_used fun c hc => ?_
  by_cases hcb : c = b
  · simp [take, hcb]
  · simpa [take, hcb] using hc

theorem own_ne_ndirect (hm : m ≠ ndirect) (hn : v.own (i, m) ≠ 0) (j : ℕ) : v.own (j, ndirect) ≠ v.own (i, m) := by
  intro he
  have := h.inj (i, m) (j, ndirect) hn he.symm
  simp only [Prod.mk.injEq] at this
  exact hm this.2

theorem own_put (hn : v.block i n ≠ 0) (f : Bytes) : (v.put (v.block i n) f).own = v.own := by
  refine own_congr rfl fun j _ => ?_
  exact update_of_ne (own_ne_ndirect h (place_ne_ndirect n) hn j) _ _

theorem byte_put (hn : v.block i n ≠ 0) (f : Bytes) (x : ℕ) :
    (v.put (v.block i n) f).byte j x = if j = i ∧ x / bsize = n then f (x % bsize) else v.byte j x := by
  have hblock : (v.put (v.block i n) f).block j (x / bsize) = v.block j (x / bsize) := congrFun (own_put h hn f) _
  unfold byte
  rw [hblock]
  split_ifs with h0 hj hj
  · rw [hj.1, hj.2] at h0
    exact absurd h0 hn
  · rfl
  · rw [hj.1, hj.2]
    simp [put]
  · have hne : v.block j (x / bsize) ≠ v.block i n := by
      intro he
      have hp := h.inj _ _ h0 he
      simp only [Prod.mk.injEq] at hp
      exact hj ⟨hp.1, place_injective hp.2⟩
    simp [put, hne]

theorem own_put_indirect (hi : v.own (i, ndirect) ≠ 0) (hm : ndirect < m) (hm' : m < nptr) (hb : b < 2 ^ 32) :
    (v.put (v.own (i, ndirect)) (wr32 (v.data (v.own (i, ndirect))) (4 * (m - (ndirect + 1))) b)).own =
    update v.own (i, m) b := by
  have ht := type_ne_of_own hi
  refine own_eq_update ht ht ?_ fun j hji => ?_
  · rw [own_ndirect ht] at hi ⊢
    exact Dinode.ptr_wr32 hm hm' hi hb
  · refine own_congr_at rfl fun hd => ?_
    refine update_of_ne (fun he => hji ?_) _ _
    exact congrArg Prod.fst (h.inj _ _ hd he)

end ledger

theorem own_setAddr (ht : (v.core i).type ≠ 0) (hm : m ≤ ndirect) (h0 : v.own (i, m) = 0) (hz : ∀ x, v.data b x = 0) :
    (v.setCore i ((v.core i).setAddr m b)).own = update v.own (i, m) b := by
  have hc : (v.setCore i ((v.core i).setAddr m b)).core i = (v.core i).setAddr m b := update_self i _ _
  refine own_eq_update ht (by rw [hc]; exact ht) ?_ fun j hji => own_congr_at (update_of_ne hji _ _) fun _ => rfl
  rw [hc]
  refine Dinode.ptr_setAddr hm (fun hmn => ?_) hz
  rw [← own_ndirect ht, ← hmn, h0]

theorem byte_of_own_update {p : ℕ × ℕ} (hown : v'.own = update v.own p b) (h0 : v.own p = 0) (hz : ∀ x, v'.data b x = 0)
    (hdata : ∀ i n, v.block i n ≠ 0 → v'.data (v.block i n) = v.data (v.block i n)) : v'.byte = v.byte := by
  funext i x
  have hblock : v'.block i (x / bsize) = update v.own p b (i, place (x / bsize)) := congrFun hown _
  unfold byte
  rw [hblock]
  by_cases hp : (i, place (x / bsize)) = p
  · have h0' : v.block i (x / bsize) = 0 := (congrArg v.own hp).trans h0
    simp [hp, h0', hz]
  · rw [update_of_ne hp]
    change (if v.block i (x / bsize) = 0 then 0 else v'.data (v.block i (x / bsize)) (x % bsize)) = _
    split_ifs with hb
    · rfl
    · rw [hdata i _ hb]

theorem own_setCore (ha : d.addrs = (v.core i).addrs) (ht : d.type = 0 ↔ (v.core i).type = 0) :
    (v.setCore i d).own = v.own := by
  funext ⟨j, k⟩
  by_cases hji : j = i
  · subst hji
    simp only [own, setCore, update_self, ht]
    rw [Dinode.ptr_congr ha fun _ => rfl]
  · simp [own, setCore, hji]

theorem own_setCore_empty (hi : ∀ k, v.own (i, k) = 0) (ha : ∀ k, d.addrs k = 0) : (v.setCore i d).own = v.own := by
  funext ⟨j, k⟩
  by_cases hji : j = i
  · subst hji
    rw [hi k]
    simp [own, setCore, Dinode.ptr_of_addrs_zero ha]
  · simp [own, setCore, hji]

theorem core_link_type (i m b j : ℕ) : ((v.link i m b).core j).type = (v.core j).type := by
  unfold link
  split_ifs
  · by_cases hji : j = i
    · subst hji
      simp [setCore, Dinode.setAddr]
    · simp [setCore, take, hji]
  · rfl

variable (h : Ledger v.own v.used lo hi) (hb : v.used b = false) (ht : (v.core i).type ≠ 0) (h0 : v.own (i, m) = 0)
  (hm : m < nptr) (hind : ndirect < m → v.own (i, ndirect) ≠ 0) (hb' : b < 2 ^ 32)
include h hb ht h0 hm hind hb'

theorem own_link : (v.link i m b).own = update v.own (i, m) b := by
  have htake := own_take h hb
  unfold link
  split_ifs with hd
  · rw [← htake] at h0 ⊢
    exact own_setAddr ht hd h0 (by simp [take])
  · have hind' := hind (by omega)
    have hdata : (v.take b).data (v.own (i, ndirect)) = v.data (v.own (i, ndirect)) :=
      update_of_ne (h.ne_of_unused hb hind') _ _
    rw [← htake] at hind' hdata ⊢
    rw [← hdata]
    exact own_put_indirect (ledger_take h hb) hind' (by omega) hm hb'

theorem byte_link : (v.link i m b).byte = v.byte := by
  refine byte_of_own_update (own_link h hb ht h0 hm hind hb') h0 (fun x => ?_) fun j n hn => ?_
  · unfold link
    split_ifs with hd
    · simp [setCore, take]
    · have hne : b ≠ v.own (i, ndirect) := (h.ne_of_unused hb (hind (by omega))).symm
      simp [put, take, hne]
  · have hne : v.block j n ≠ b := h.ne_of_unused hb hn
    unfold link
    split_ifs with hd
    · simp [setCore, take, hne]
    · have hne' : v.block j n ≠ v.own (i, ndirect) := (own_ne_ndirect h (place_ne_ndirect n) hn i).symm
      simp [put, take, hne, hne']

theorem ledger_link (hlo : lo ≤ b) (hhi : b < hi) (hb0 : b ≠ 0) : Ledger (v.link i m b).own (v.link i m b).used lo hi := by
  have hused : (v.link i m b).used = (v.take b).used := by
    unfold link
    split_ifs <;> rfl
  rw [own_link h hb ht h0 hm hind hb', hused, ← own_take h hb]
  refine (ledger_take h hb).assign (by simp [take]) hlo hhi fun q hq => ?_
  rw [own_take h hb] at hq
  exact h.ne_of_unused hb (hq ▸ hb0) hq

theorem covers_link (hc : Covers v.own v.used lo hi) (hlo : 0 < lo) : Covers (v.link i m b).own (v.link i m b).used lo hi := by
  have hused : (v.link i m b).used = update v.used b true := by
    unfold link
    split_ifs <;> rfl
  rw [own_link h hb ht h0 hm hind hb', hused]
  exact hc.assign h0 hlo

theorem node_link : (v.link i m b).node = v.node := by
  funext j
  have hbyte := congrFun (byte_link h hb ht h0 hm hind hb') j
  have hcore : ((v.link i m b).core j).major = (v.core j).major ∧ ((v.link i m b).core j).minor = (v.core j).minor ∧
      ((v.link i m b).core j).nlink = (v.core j).nlink ∧ ((v.link i m b).core j).size = (v.core j).size := by
    unfold link
    split_ifs
    · by_cases hji : j = i
      · subst hji
        simp [setCore, Dinode.setAddr]
      · simp [setCore, take, hji]
    · exact ⟨rfl, rfl, rfl, rfl⟩
  refine Node.ext (core_link_type i m b j) hcore.1 hcore.2.1 hcore.2.2.1 hcore.2.2.2 hbyte

theorem trails_link {w w' : Volume} (hw : Trails w v) (hdw : w.data = v.data) (huw : w.used = v.used) (hcore : w'.core = w.core)
    (hdata : w'.data = (v.link i m b).data) : Trails w' (v.link i m b) ∧ w'.node = w.node := by
  have hledger : Ledger w.own w.used lo hi := by
    rw [huw]
    exact h.drops hw
  have hunused : w.used b = false := by rw [huw, hb]
  have hzero : w.own (i, m) = 0 := (hw (i, m)).elim id fun he => he.trans h0
  have hown := own_link h hb ht h0 hm hind hb'
  by_cases hsame : ndirect < m ∧ w.own (i, ndirect) = v.own (i, ndirect)
  · -- both have the indirect block that the pointer is written to
    obtain ⟨hlt, he⟩ := hsame
    have hind' : w.own (i, ndirect) ≠ 0 := by
      rw [he]
      exact hind hlt
    have hwdata : (w.link i m b).data = (v.link i m b).data := by
      rw [link, link, if_neg (by omega), if_neg (by omega)]
      simp [put, take, he, hdw]
    have hwcore : (w.link i m b).core = w.core := by
      rw [link, if_neg (by omega)]
      rfl
    obtain ⟨hown', hnode'⟩ := same_of_owned (hcore.trans hwcore.symm) fun p _ => by rw [hdata, hwdata]
    have htype := type_ne_of_own hind'
    refine ⟨fun q => ?_, hnode'.trans (node_link hledger hunused htype hzero hm (fun _ => hind') hb')⟩
    rw [hown', hown, own_link hledger hunused htype hzero hm (fun _ => hind') hb']
    by_cases hq : q = (i, m)
    · simp [hq]
    · rw [update_of_ne hq, update_of_ne hq]
      exact hw q
  · have hkeep : ∀ p, w.own p ≠ 0 → w'.data (w.own p) = w.data (w.own p) := by
      intro p hp
      have hpb : w.own p ≠ b := hledger.ne_of_unused hunused hp
      rw [hdata, hdw, link]
      split_ifs with hd
      · simp [setCore, take, hpb]
      · have hpi : w.own p ≠ v.own (i, ndirect) := by
          intro he
          have hpv : w.own p = v.own p := (hw p).resolve_left hp
          have hpn := h.inj p (i, ndirect) (hpv ▸ hp) (hpv.symm.trans he)
          rw [hpn] at he
          exact hsame ⟨by omega, he⟩
        simp [put, take, hpb, hpi]
    obtain ⟨hown', hnode'⟩ := same_of_owned hcore hkeep
    refine ⟨fun q => ?_, hnode'⟩
    rw [hown', hown]
    by_cases hq : q = (i, m)
    · rw [hq]
      exact .inl hzero
    · rw [update_of_ne hq]
      exact hw q

end Volume

end Laboratorio.Fs
