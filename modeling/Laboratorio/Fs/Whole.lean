import Laboratorio.Fs.Names
import Laboratorio.Fs.Layout

/-!
Volumes whose files share no blocks and whose directories name inodes.
-/

namespace Laboratorio.Fs

open Bytes Function

section entries

variable {f g : Bytes} {a n : ℕ}

theorem slice_congr (h : ∀ x, a ≤ x → x < a + n → f x = g x) : slice f a n = slice g a n := by
  refine List.map_congr_left fun x hx => ?_
  have := List.mem_range.mp hx
  exact h _ (by omega) (by omega)

@[simp] theorem length_slice (f : Bytes) (a n : ℕ) : (slice f a n).length = n := by
  simp [slice]

theorem slice_append (f : Bytes) (a m n : ℕ) : slice f a m ++ slice f (a + m) n = slice f a (m + n) := by
  simp [slice, List.range_add, Nat.add_assoc]

theorem slice_store (f : Bytes) (a : ℕ) (l : List UInt8) : slice (store f a l.length fun x => l.getD x 0) a l.length = l := by
  refine List.ext_getElem (by simp) fun x h1 h2 => ?_
  simp only [slice, List.getElem_map, List.getElem_range]
  rw [store_of_mem (by omega) (by omega), Nat.add_sub_cancel_left]
  simp [h2]

def Node.entry (a : Node) (k : ℕ) : Dirent := Dirent.ofBytes (slice a.bytes (direntSize * k) direntSize)

theorem Node.entry_congr {a a' : Node} {k : ℕ}
    (h : ∀ x, direntSize * k ≤ x → x < direntSize * k + direntSize → a'.bytes x = a.bytes x) : a'.entry k = a.entry k := by
  rw [entry, entry, slice_congr h]

theorem Node.entry_of_zero {a : Node} {k : ℕ} (h : ∀ x, direntSize * k ≤ x → x < direntSize * k + direntSize → a.bytes x = 0) :
    (a.entry k).inum = 0 := by
  have hs : slice a.bytes (direntSize * k) direntSize = slice (fun _ => 0) (direntSize * k) direntSize := slice_congr h
  rw [entry, hs]
  rfl

theorem Dirent.ofBytes_bytes {de : Dirent} (h : de.inum < 2 ^ 16) : Dirent.ofBytes de.bytes = de := by
  obtain ⟨i, nm⟩ := de
  simp only at h
  simp only [Dirent.ofBytes, Dirent.bytes, List.getD_cons_zero, List.getD_cons_succ, List.drop_succ_cons, List.drop_zero,
    UInt8.toNat_ofNat', Dirent.mk.injEq, and_true]
  omega

theorem Dirent.length_bytes {de : Dirent} (h : de.name.length = dirsiz) : de.bytes.length = direntSize := by
  simp [Dirent.bytes, h, dirsiz, direntSize]

end entries

structure Behind (a d : Dinode) : Prop where
  type : a.type = d.type
  major : a.major = d.major
  minor : a.minor = d.minor
  nlink : a.nlink = d.nlink
  size : a.size = d.size
  addrs : ∀ k, a.addrs k = 0 ∨ a.addrs k = d.addrs k

theorem Behind.refl (d : Dinode) : Behind d d := ⟨rfl, rfl, rfl, rfl, rfl, fun _ => .inr rfl⟩

theorem Behind.ptr_cases {a d : Dinode} (h : Behind a d) (data : ℕ → Bytes) (k : ℕ) :
    a.ptr data k = 0 ∨ a.ptr data k = d.ptr data k := by
  by_cases hk : k ≤ ndirect
  · rw [Dinode.ptr_direct hk, Dinode.ptr_direct hk]
    exact h.addrs k
  · rcases h.addrs ndirect with h0 | he
    · exact .inl (Dinode.ptr_of_no_indirect (by omega) h0)
    · right
      unfold Dinode.ptr
      rw [if_neg hk, if_neg hk, he]

namespace Volume

variable {v : Volume} {i : ℕ} {d : Dinode}

def reap (v : Volume) (i : ℕ) (d : Dinode) : Volume :=
  { v with core := update v.core i d, used := fun b => v.used b && decide (∀ m < nptr, v.own (i, m) = b → b = 0) }

theorem byte_setCore (hown : (v.setCore i d).own = v.own) (j : ℕ) : (v.setCore i d).byte j = v.byte j :=
  byte_congr hown fun _ _ => rfl

theorem node_congr {v' : Volume} (hcore : v'.core i = v.core i) (hdata : v'.data = v.data) : v'.node i = v.node i := by
  have hown : ∀ k, v'.own (i, k) = v.own (i, k) := own_congr_at hcore fun _ => congrFun hdata _
  have hbyte : v'.byte i = v.byte i := by
    funext x
    have hblock : v'.block i (x / bsize) = v.block i (x / bsize) := hown _
    unfold byte
    rw [hblock, hdata]
  unfold node
  rw [hbyte, hcore]

theorem used_link (v : Volume) (i p b : ℕ) : (v.link i p b).used = update v.used b true := by
  unfold link
  split_ifs <;> rfl

theorem own_reap (hd : d.type = 0) (p : ℕ × ℕ) : (v.reap i d).own p = if p.1 = i then 0 else v.own p := by
  obtain ⟨j, k⟩ := p
  by_cases hji : j = i
  · subst hji
    rw [if_pos rfl]
    exact own_of_free (by simpa [reap] using hd)
  · rw [if_neg hji]
    have hcore : (v.reap i d).core j = v.core j := update_of_ne hji _ _
    exact own_congr_at hcore (fun _ => rfl) k

end Volume

variable [sb : Superblock]

/-- What is asked of a volume. `tidy`: directories name inodes, and those without a name are in
use. `dense`: files have no holes. `loose`: an inode in memory may have pointers that the one on
the disk lacks. `strict`: only `.` and `..` name the directory that they are in. -/
structure Mode where
  tidy : Prop
  dense : Prop
  loose : Prop
  strict : Prop
  dense_of : ¬ loose → dense

def Dirent.Dots (e : Dirent) : Prop := namecmp dot e.name = true ∨ namecmp dotdot e.name = true

def Mode.Law (m : Mode) (i : ℕ) (e : Dirent) : Prop := m.tidy → e.inum ≠ 0 → e.inum < ninodes ∧ (m.strict → e.inum = i → e.Dots)

structure Whole (m : Mode) (v : Volume) : Prop where
  ledger : Ledger v.own v.used datastart sb.size
  reserved : ∀ b < datastart, v.used b = true
  law : ∀ i k, (v.core i).type = tDir → direntSize * k + direntSize ≤ (v.core i).size → m.Law i ((v.node i).entry k)
  full : m.dense → ∀ i n, (v.core i).type ≠ 0 → n * bsize < (v.core i).size → v.block i n ≠ 0
  covers : ¬ m.loose → Covers v.own v.used datastart sb.size

theorem datastart_pos : 0 < datastart := Nat.succ_pos _

theorem size_lt_two_pow : sb.size < 2 ^ 32 := by
  have := sb.size_lt
  omega

namespace Whole

variable {m : Mode} {v : Volume} {i n b : ℕ} {d : Dinode}

theorem datastart_le_of_unused (h : Whole m v) (hb : v.used b = false) : datastart ≤ b := by
  by_contra hlt
  simp [h.reserved b (by omega)] at hb

theorem weaken {m' : Mode} (h : Whole m v) (ht : m'.tidy → m.tidy) (hd : m'.dense → m.dense) (hl : m.loose → m'.loose)
    (hs : m'.strict → m.strict) : Whole m' v where
  ledger := h.ledger
  reserved := h.reserved
  law := fun i k hdir hk hm h0 => ⟨(h.law i k hdir hk (ht hm) h0).1, fun hst => (h.law i k hdir hk (ht hm) h0).2 (hs hst)⟩
  full := fun hdense => h.full (hd hdense)
  covers := fun hn => h.covers fun hm => hn (hl hm)

section link

variable {p : ℕ} (h : Whole m v) (hb : v.used b = false) (hb' : b < sb.size) (ht : (v.core i).type ≠ 0) (h0 : v.own (i, p) = 0)
  (hp : p < nptr) (hind : ndirect < p → v.own (i, ndirect) ≠ 0)
include h hb hb' ht h0 hp hind

theorem link : Whole m (v.link i p b) := by
  have hlo := h.datastart_le_of_unused hb
  have hne : b ≠ 0 := by
    have := datastart_pos
    omega
  have hlt : b < 2 ^ 32 := by
    have := size_lt_two_pow
    omega
  have hown := Volume.own_link h.ledger hb ht h0 hp hind hlt
  have hnode := Volume.node_link h.ledger hb ht h0 hp hind hlt
  have hsize : ∀ j, ((v.link i p b).core j).size = (v.core j).size := fun j => congrArg Node.size (congrFun hnode j)
  refine ⟨Volume.ledger_link h.ledger hb ht h0 hp hind hlt hlo hb' hne, fun c hc => ?_, fun j k htj hk => ?_,
    fun hd j k htj hk => ?_, fun hl => Volume.covers_link h.ledger hb ht h0 hp hind hlt (h.covers hl) datastart_pos⟩
  · rw [Volume.used_link]
    by_cases hcb : c = b
    · simp [hcb]
    · rw [update_of_ne hcb]
      exact h.reserved c hc
  · rw [hnode]
    rw [Volume.core_link_type] at htj
    rw [hsize] at hk
    exact h.law j k htj hk
  · rw [Volume.core_link_type] at htj
    rw [hsize] at hk
    have hfull := h.full hd j k htj hk
    unfold Volume.block at hfull ⊢
    rw [hown]
    by_cases hq : (j, place k) = (i, p)
    · rw [hq, update_self]
      exact hne
    · rwa [update_of_ne hq]

end link

variable (h : Whole m v)

include h

theorem put (hn : v.block i n ≠ 0) (f : Bytes)
    (hlaw : (v.core i).type = tDir → ∀ k, direntSize * k + direntSize ≤ (v.core i).size →
    m.Law i (((v.put (v.block i n) f).node i).entry k)) : Whole m (v.put (v.block i n) f) := by
  have hown := Volume.own_put h.ledger hn f
  refine ⟨by rw [hown]; exact h.ledger, h.reserved, fun j k ht hk => ?_, fun hd j k ht hk => ?_,
    fun hl => by rw [hown]; exact h.covers hl⟩
  · by_cases hji : j = i
    · subst hji
      exact hlaw ht k hk
    · have hentry : ((v.put (v.block i n) f).node j).entry k = (v.node j).entry k := by
        refine Node.entry_congr fun x _ _ => ?_
        change (v.put (v.block i n) f).byte j x = v.byte j x
        rw [Volume.byte_put h.ledger hn, if_neg (by simp [hji])]
      rw [hentry]
      exact h.law j k ht hk
  · have hblock : (v.put (v.block i n) f).block j k = v.block j k := congrFun hown _
    rw [hblock]
    exact h.full hd j k ht hk

theorem setCore_of_own (hown : (v.setCore i d).own = v.own)
    (hlaw : d.type = tDir → ∀ k, direntSize * k + direntSize ≤ d.size → m.Law i ((v.node i).entry k))
    (hfull : m.dense → d.type ≠ 0 → ∀ k, k * bsize < d.size → v.block i k ≠ 0) : Whole m (v.setCore i d) := by
  refine ⟨by rw [hown]; exact h.ledger, h.reserved, fun j k ht hk => ?_, fun hd j k ht hk => ?_,
    fun hl => by rw [hown]; exact h.covers hl⟩
  · by_cases hji : j = i
    · subst hji
      have hentry : ((v.setCore j d).node j).entry k = (v.node j).entry k :=
        Node.entry_congr fun x _ _ => congrFun (Volume.byte_setCore hown j) x
      rw [hentry]
      simp only [Volume.setCore, update_self] at ht hk
      exact hlaw ht k hk
    · have hcore : (v.setCore i d).core j = v.core j := update_of_ne hji _ _
      rw [Volume.node_congr hcore rfl]
      simp only [Volume.setCore, update_of_ne hji] at ht hk
      exact h.law j k ht hk
  · unfold Volume.block
    rw [hown]
    by_cases hji : j = i
    · subst hji
      simp only [Volume.setCore, update_self] at ht hk
      exact hfull hd ht k hk
    · simp only [Volume.setCore, update_of_ne hji] at ht hk
      exact h.full hd j k ht hk

theorem setCore (ha : d.addrs = (v.core i).addrs) (ht : d.type = 0 ↔ (v.core i).type = 0)
    (hlaw : d.type = tDir → ∀ k, direntSize * k + direntSize ≤ d.size → m.Law i ((v.node i).entry k))
    (hfull : m.dense → d.type ≠ 0 → ∀ k, k * bsize < d.size → v.block i k ≠ 0) : Whole m (v.setCore i d) :=
  h.setCore_of_own (Volume.own_setCore ha ht) hlaw hfull

theorem start (hi : (v.core i).type = 0) (ha : ∀ k, d.addrs k = 0) (hs : d.size = 0) : Whole m (v.setCore i d) := by
  have hown := Volume.own_setCore_empty (fun k => Volume.own_of_free hi) ha
  refine h.setCore_of_own hown (fun _ k hk => ?_) fun _ _ k hk => ?_
  · simp only [direntSize] at hk
    omega
  · omega

theorem reap (hd : d.type = 0) : Whole m (v.reap i d) := by
  have hown : ∀ p, (v.reap i d).own p ≠ 0 → p.1 ≠ i ∧ (v.reap i d).own p = v.own p := by
    intro p hp
    rw [Volume.own_reap hd] at hp ⊢
    by_cases hpi : p.1 = i
    · simp [hpi] at hp
    · exact ⟨hpi, if_neg hpi⟩
  have hsame : ∀ j, ((v.reap i d).core j).type ≠ 0 → j ≠ i ∧ (v.reap i d).core j = v.core j := by
    intro j hj
    have hji : j ≠ i := by
      rintro rfl
      exact hj (by simpa [Volume.reap] using hd)
    exact ⟨hji, update_of_ne hji _ _⟩
  refine ⟨⟨fun p hp => ?_, fun p hp => ?_, fun p q hp hpq => ?_⟩, fun b hb => ?_, fun j k ht hk => ?_,
    fun hdense j k ht hk => ?_, fun hl b hlo hhi hu => ?_⟩
  · obtain ⟨-, he⟩ := hown p hp
    rw [he] at hp ⊢
    exact h.ledger.range p hp
  · obtain ⟨hpi, he⟩ := hown p hp
    rw [he] at hp ⊢
    have hne : ∀ k, v.own (i, k) ≠ v.own p := fun k hk => hpi (congrArg Prod.fst (h.ledger.inj p (i, k) hp hk.symm))
    simp [Volume.reap, h.ledger.held p hp, hne]
  · obtain ⟨-, he⟩ := hown p hp
    obtain ⟨-, he'⟩ := hown q (hpq ▸ hp)
    rw [he, he'] at hpq
    exact h.ledger.inj p q (he ▸ hp) hpq
  · have hfree : ∀ k < nptr, v.own (i, k) = b → b = 0 := by
      intro k _ hk
      by_contra hb0
      have := (h.ledger.range (i, k) (hk ▸ hb0)).1
      omega
    simp only [Volume.reap, h.reserved b hb, Bool.true_and, decide_eq_true_eq]
    exact hfree
  · obtain ⟨hji, hcore⟩ := hsame j (by rw [ht]; decide)
    rw [Volume.node_congr hcore rfl]
    rw [hcore] at ht hk
    exact h.law j k ht hk
  · obtain ⟨hji, hcore⟩ := hsame j ht
    rw [hcore] at ht hk
    unfold Volume.block
    rw [Volume.own_reap hd, if_neg hji]
    exact h.full hdense j k ht hk
  · simp only [Volume.reap, Bool.and_eq_true, decide_eq_true_eq] at hu
    obtain ⟨⟨j, k⟩, hp⟩ := h.covers hl b hlo hhi hu.1
    have hb0 : b ≠ 0 := by
      have := datastart_pos
      omega
    have hji : j ≠ i := by
      rintro rfl
      by_cases hk : k < nptr
      · exact hb0 (hu.2 k hk hp)
      · rw [Volume.own_of_le (by omega)] at hp
        exact hb0 hp.symm
    refine ⟨(j, k), ?_⟩
    rw [Volume.own_reap hd, if_neg hji, hp]

theorem fade (hl : m.loose) (hnd : ¬ m.dense) (hd : Behind d (v.core i)) : Whole m (v.setCore i d) := by
  have hc : (v.setCore i d).core i = d := update_self _ _ _
  have hdrop : ∀ p, (v.setCore i d).own p = 0 ∨ (v.setCore i d).own p = v.own p := by
    rintro ⟨j, k⟩
    by_cases hji : j = i
    · subst hji
      by_cases ht : (v.core j).type = 0
      · exact .inl (Volume.own_of_free (by rw [hc, hd.type, ht]))
      · rw [Volume.own_of_allocated ht, Volume.own_of_allocated (by rwa [hc, hd.type]), hc]
        exact hd.ptr_cases v.data k
    · have hcore : (v.setCore i d).core j = v.core j := update_of_ne hji _ _
      exact .inr (Volume.own_congr_at hcore (fun _ => rfl) k)
  refine ⟨h.ledger.drops hdrop, h.reserved, fun j k ht hk => ?_, fun hdense => absurd hdense hnd, fun hn => absurd hl hn⟩
  have hcore : ((v.setCore i d).core j).type = (v.core j).type ∧ ((v.setCore i d).core j).size = (v.core j).size := by
    by_cases hji : j = i
    · subst hji
      rw [hc]
      exact ⟨hd.type, hd.size⟩
    · simp [Volume.setCore, hji]
  rw [hcore.1] at ht
  rw [hcore.2] at hk
  -- the bytes of an entry lie in one block
  have hq : ∀ x, direntSize * k ≤ x → x < direntSize * k + direntSize → x / bsize = direntSize * k / bsize := by
    intro x h1 h2
    simp only [direntSize, bsize] at h1 h2 ⊢
    omega
  rcases hdrop (j, place (direntSize * k / bsize)) with h0 | hsame
  · refine fun _ hne => absurd (Node.entry_of_zero fun x h1 h2 => ?_) hne
    change (v.setCore i d).byte j x = 0
    unfold Volume.byte
    rw [if_pos]
    rw [hq x h1 h2]
    exact h0
  · have hentry : ((v.setCore i d).node j).entry k = (v.node j).entry k := by
      refine Node.entry_congr fun x h1 h2 => ?_
      change (v.setCore i d).byte j x = v.byte j x
      have hblock : (v.setCore i d).block j (x / bsize) = v.block j (x / bsize) := by
        rw [hq x h1 h2]
        exact hsame
      unfold Volume.byte
      rw [hblock]
      rfl
    rw [hentry]
    exact h.law j k ht hk

end Whole

end Laboratorio.Fs
