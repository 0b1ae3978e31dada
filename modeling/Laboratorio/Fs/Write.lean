import Laboratorio.Fs.Release

/-!
What `writei`, `dirlink`, `ialloc` and `iupdate` do to the nodes.
-/

namespace Laboratorio.Fs

open Bytes Function

namespace Node

def put (a : Node) (off : ℕ) (src : List UInt8) : Node := { a with bytes := store a.bytes off src.length fun x => src.getD x 0 }

def write (off : ℕ) (src : List UInt8) (a : Node) : Node := { a.put off src with size := max a.size (off + src.length) }

def insert (de : Dirent) (a : Node) : Node := a.write (direntSize * a.vacant) de.bytes

theorem put_nil (a : Node) (off : ℕ) : a.put off [] = a := by
  refine Node.ext rfl rfl rfl rfl rfl (funext fun x => ?_)
  simp only [put, List.length_nil]
  exact store_of_notMem (by omega)

theorem put_put (a : Node) (off : ℕ) (src : List UInt8) {n : ℕ} (hn : n ≤ src.length) :
    (a.put off (src.take n)).put (off + n) (src.drop n) = a.put off src := by
  refine Node.ext rfl rfl rfl rfl rfl (funext fun x => ?_)
  have hlen : (src.take n).length = n := by rw [List.length_take, Nat.min_eq_left hn]
  simp only [put, hlen, List.length_drop]
  by_cases h1 : off + n ≤ x ∧ x < off + n + (src.length - n)
  · rw [store_of_mem h1.1 h1.2, store_of_mem (by omega) (by omega)]
    rw [List.getD_eq_getElem?_getD, List.getD_eq_getElem?_getD, List.getElem?_drop]
    congr 2
    omega
  · rw [store_of_notMem (by omega)]
    by_cases h2 : off ≤ x ∧ x < off + n
    · rw [store_of_mem h2.1 h2.2, store_of_mem (by omega) (by omega)]
      rw [List.getD_eq_getElem?_getD, List.getD_eq_getElem?_getD, List.getElem?_take_of_lt (by omega)]
    · rw [store_of_notMem (by omega), store_of_notMem (by omega)]

theorem entry_put_of_ne {a : Node} {off k : ℕ} {src : List UInt8}
    (h : direntSize * k + direntSize ≤ off ∨ off + src.length ≤ direntSize * k) : (a.put off src).entry k = a.entry k := by
  refine entry_congr fun x h1 h2 => ?_
  simp only [put]
  exact store_of_notMem (by omega)

theorem entry_put_self (a : Node) {k : ℕ} {src : List UInt8} (h : src.length = direntSize) :
    (a.put (direntSize * k) src).entry k = Dirent.ofBytes src := by
  unfold entry put
  rw [← h, slice_store]

end Node

variable {n : ℕ} [sb : Superblock] {m : Mode} {b r : Cell → ℕ} {l : Cell → Bool} {s t : FsState} {c : Cell} {E : Fault → Prop}

theorem Volume.Room.congr {v v' : Volume} {i : ℕ} {P : Finset ℕ} (h : v.Room i P) (hown : v'.own = v.own)
    (hused : v'.used = v.used) : v'.Room i P := by
  unfold Volume.Room Volume.lacks Volume.unused at h ⊢
  rwa [hown, hused]

structure Wrote (c : Cell) (off : ℕ) (src : List UInt8) (s t : FsState) : Prop where
  still : Still s t
  cells : ∀ c', c' ≠ c → t.icache c' = s.icache c'
  table : t.table.core = s.table.core
  node : t.node = update s.node (s.icache c).inum ((s.node (s.icache c).inum).put off src)
  block : ∀ i n, s.live.block i n ≠ 0 → t.live.block i n = s.live.block i n
  filled : ∀ x, off ≤ x → x < off + src.length → t.live.block (s.icache c).inum (x / bsize) ≠ 0
  same : (∀ x, off ≤ x → x < off + src.length → s.live.block (s.icache c).inum (x / bsize) ≠ 0) → t.icache = s.icache
  room : ∀ P, (∀ x, off ≤ x → x < off + src.length → pointersTo (x / bsize) ⊆ P) → s.live.Room (s.icache c).inum P →
    t.live.Room (s.icache c).inum P

/-- Into a directory one entry is written, which obeys the law. -/
def Mode.Lawful (m : Mode) (c : Cell) (off : ℕ) (src : List UInt8) (s : FsState) : Prop :=
  (s.node (s.icache c).inum).type = tDir →
    ∃ k, off = direntSize * k ∧ src.length = direntSize ∧ m.Law (s.icache c).inum (Dirent.ofBytes src)

theorem Sound.put (h : Sound m b r l s) (off : ℕ) (src : List UInt8)
    (h0 : s.live.block (s.icache c).inum (off / bsize) ≠ 0) (hfit : off % bsize + src.length ≤ bsize)
    (hlaw : m.tidy → m.Lawful c off src s) (ht : t.icache = s.icache)
    (hblocks : t.disk.blocks = update s.disk.blocks (s.live.block (s.icache c).inum (off / bsize))
      (store (s.disk.blocks (s.live.block (s.icache c).inum (off / bsize))) (off % bsize) src.length fun x => src.getD x 0)) :
    Sound m b r l t ∧ t.table.core = s.table.core ∧ t.live.own = s.live.own ∧ t.live.used = s.live.used ∧
      t.node = update s.node (s.icache c).inum ((s.node (s.icache c).inum).put off src) := by
  unfold Mode.Lawful at hlaw
  generalize hi : (s.icache c).inum = i at *
  generalize hn : off / bsize = n at *
  have hlo : datastart ≤ s.live.block i n := (h.whole.ledger.range _ h0).1
  have hmod : off % bsize < bsize := Nat.mod_lt _ (by decide)
  set f : Bytes := fun x => if x < bsize then store (s.disk.blocks (s.live.block i n)) (off % bsize) src.length
    (fun x => src.getD x 0) x else 0 with hf
  have htable : t.table = s.table.put (s.live.block i n) f := by
    rw [FsState.table, hblocks, volume_put hlo]
    rfl
  have hcore : t.core = s.core := by
    funext j
    refine FsState.core_congr (fun c' => by rw [Cached, ht]; rfl) (fun c' _ => by rw [ht]) (by rw [htable]; rfl)
  have hlive : t.live = s.live.put (s.live.block i n) f := by
    unfold FsState.live at htable ⊢
    rw [hcore, htable]
    rfl
  have hown : t.live.own = s.live.own := by rw [hlive, Volume.own_put h.whole.ledger h0]
  have hnode : t.node = update s.node i ((s.node i).put off src) := by
    funext j
    have hbyte : ∀ x, t.live.byte j x = if j = i ∧ x / bsize = n then f (x % bsize) else s.live.byte j x := fun x => by
      rw [hlive, Volume.byte_put h.whole.ledger h0]
    have hcorej : t.live.core j = s.live.core j := congrFun hcore j
    by_cases hj : j = i
    · subst hj
      rw [update_self]
      refine Node.ext (congrArg Dinode.type hcorej) (congrArg Dinode.major hcorej) (congrArg Dinode.minor hcorej)
        (congrArg Dinode.nlink hcorej) (congrArg Dinode.size hcorej) (funext fun x => ?_)
      change t.live.byte j x = store (s.live.byte j) off src.length (fun x => src.getD x 0) x
      have hdiv := Nat.div_add_mod off bsize
      have hdivx := Nat.div_add_mod x bsize
      rw [hbyte]
      by_cases hx : x / bsize = n
      · have hmodx : x % bsize < bsize := Nat.mod_lt _ (by decide)
        have hold : s.disk.blocks (s.live.block j n) (x % bsize) = s.live.byte j x := by
          rw [← hx] at h0 ⊢
          exact h.bytes_eq h0
        rw [if_pos ⟨rfl, hx⟩, hf]
        simp only [if_pos hmodx]
        rw [hx] at hdivx
        rw [hn] at hdiv
        by_cases hin : off ≤ x ∧ x < off + src.length
        · rw [store_of_mem (by omega) (by omega), store_of_mem hin.1 hin.2]
          congr 1
          omega
        · rw [store_of_notMem (by omega), store_of_notMem (by omega), hold]
      · rw [if_neg fun hboth => hx hboth.2, store_of_notMem]
        by_contra hin
        refine hx ?_
        rw [← hn]
        simp only [bsize] at hfit hdiv hdivx hin hmod ⊢
        omega
    · rw [update_of_ne hj]
      refine Node.ext (congrArg Dinode.type hcorej) (congrArg Dinode.major hcorej) (congrArg Dinode.minor hcorej)
        (congrArg Dinode.nlink hcorej) (congrArg Dinode.size hcorej) (funext fun x => ?_)
      exact (hbyte x).trans (if_neg fun hboth => hj hboth.1)
  have hst : Still s t := fun c' => by rw [ht]
  refine ⟨⟨hst.at h.toAt, h.under, ?_, ?_, ?_, ?_, ?_, ?_, ?_, ?_⟩, by rw [htable]; rfl, hown, by rw [hlive]; rfl, hnode⟩
  · rw [ht]
    exact h.dev
  · rw [ht]
    exact h.inum_lt
  · rw [ht]
    exact h.locked_of
  · rw [ht]
    exact h.typed
  · rw [ht]
    exact h.fits
  · rw [ht, htable]
    exact h.behind_of
  · rw [hlive]
    refine h.whole.put h0 f fun htype k hk hm => ?_
    have hnode' : (s.live.put (s.live.block i n) f).node i = (s.node i).put off src := by
      rw [← hlive]
      change t.node i = _
      rw [hnode, update_self]
    rw [hnode']
    obtain ⟨k', rfl, hlen, hl⟩ := hlaw hm htype
    by_cases hkk : k = k'
    · subst hkk
      rw [Node.entry_put_self _ hlen]
      exact hl hm
    · rw [Node.entry_put_of_ne]
      · exact h.whole.law i k htype hk hm
      · rw [hlen]
        simp only [direntSize]
        omega
  · rw [ht, hcore]
    exact h.kept_of

theorem Wrote.nil (c : Cell) (off : ℕ) (s : FsState) : Wrote c off [] s s := by
  refine ⟨refl s, fun _ _ => rfl, rfl, ?_, fun _ _ _ => rfl, fun x h1 h2 => ?_, fun _ => rfl, fun _ _ => id⟩
  · rw [Node.put_nil, update_eq_self]
  · simp only [List.length_nil] at h2
    omega

variable {off : ℕ} {src : List UInt8}

theorem Wrote.append {u : FsState} (hn : n ≤ src.length) (h : Wrote c off (src.take n) s t)
    (h' : Wrote c (off + n) (src.drop n) t u) : Wrote c off src s u := by
  have hlen : (src.take n).length = n := by rw [List.length_take, Nat.min_eq_left hn]
  have hlen' : (src.drop n).length = src.length - n := List.length_drop
  have hi : (t.icache c).inum = (s.icache c).inum := h.still.inum c
  have hkeep : ∀ i k, s.live.block i k ≠ 0 → u.live.block i k = s.live.block i k := fun i k hk =>
    (h'.block i k (by rwa [h.block i k hk])).trans (h.block i k hk)
  refine ⟨Trans.trans h.still h'.still, fun c' hc => (h'.cells c' hc).trans (h.cells c' hc), h'.table.trans h.table, ?_, hkeep,
    fun x h1 h2 => ?_, fun hall => ?_, fun P hP hs => ?_⟩
  · rw [h'.node, h.node, hi, update_self, update_idem, Node.put_put _ _ _ hn]
  · by_cases hx : x < off + n
    · have hfill := h.filled x h1 (by rw [hlen]; exact hx)
      rw [h'.block _ _ hfill]
      exact hfill
    · have hfill := h'.filled x (by omega) (by rw [hlen']; omega)
      rwa [hi] at hfill
  · have hmid := h.same fun x h1 h2 => hall x h1 (by rw [hlen] at h2; omega)
    refine (h'.same fun x h1 h2 => ?_).trans hmid
    have hx := hall x (by omega) (by rw [hlen'] at h2; omega)
    rw [hi, h.block _ _ hx]
    exact hx
  · have hmid := h.room P (fun x h1 h2 => hP x h1 (by rw [hlen] at h2; omega)) hs
    rw [← hi] at hmid ⊢
    exact h'.room P (fun x h1 h2 => hP x (by omega) (by rw [hlen'] at h2; omega)) hmid

theorem Wrote.round {u : FsState} (hg : Grows c s t) (hsame : s.live.block (s.icache c).inum (off / bsize) ≠ 0 → t = s)
    (h0 : t.live.block (s.icache c).inum (off / bsize) ≠ 0) (hsrc : src ≠ []) (hfit : off % bsize + src.length ≤ bsize)
    (hcache : u.icache = t.icache) (hroom : KeepsRoom c (pointersTo (off / bsize)) s t)
    (hcore : u.table.core = t.table.core) (hown : u.live.own = t.live.own) (hused : u.live.used = t.live.used)
    (hnode : u.node = update s.node (s.icache c).inum ((s.node (s.icache c).inum).put off src)) : Wrote c off src s u := by
  have hblock : ∀ i k, u.live.block i k = t.live.block i k := fun i k => congrFun hown _
  have hpos : src.length ≠ 0 := fun h0 => hsrc (List.length_eq_zero_iff.mp h0)
  have hstill : Still t u := fun c' => by rw [hcache]
  refine ⟨Trans.trans hg.still hstill, fun c' hc => ?_, hcore.trans hg.table, hnode, fun i k hk => ?_, fun x h1 h2 => ?_,
    fun hall => ?_, fun P hP hs => (hroom P (hP off le_rfl (by omega)) hs).congr hown hused⟩
  · rw [hcache]
    exact hg.cells c' hc
  · rw [hblock]
    exact hg.block i k hk
  · have hq : x / bsize = off / bsize := by
      simp only [bsize] at *
      omega
    rw [hblock, hq]
    exact h0
  · rw [hcache, hsame (hall off le_rfl (by omega))]

def pointers (off n : ℕ) : Finset ℕ := (Finset.Ico off (off + n)).biUnion fun x => pointersTo (x / bsize)

omit sb in
theorem pointersTo_subset {x : ℕ} (h1 : off ≤ x) (h2 : x < off + n) : pointersTo (x / bsize) ⊆ pointers off n :=
  Finset.subset_biUnion_of_mem (fun x => pointersTo (x / bsize)) (Finset.mem_Ico.mpr ⟨h1, h2⟩)

theorem sound_writeiLoop (fuel off : ℕ) (src : List UInt8) (P : Finset ℕ) (h : Sound m b r l s) (hc : 0 < r c)
    (hv : (s.icache c).valid = true) (hfuel : src.length ≤ fuel)
    (hrange : maxfile * bsize < off + src.length → E .bmapOutOfRange)
    (hP : ∀ x, off ≤ x → x < off + src.length → pointersTo (x / bsize) ⊆ P)
    (hout : ¬ s.live.Room (s.icache c).inum P → E .outOfBlocks) (hlaw : m.tidy → src ≠ [] → m.Lawful c off src s) :
    wp (writeiLoop c fuel off src) s (fun _ t => Sound m b r l t ∧ Wrote c off src s t) E := by
  induction fuel generalizing off src s with
  | zero =>
    have hsrc : src = [] := List.length_eq_zero_iff.mp (by omega)
    subst hsrc
    exact wp_ret ⟨h, Wrote.nil c off s⟩
  | succ fuel ih =>
    rw [writeiLoop, wp_ite]
    refine ⟨fun hsrc => ?_, fun hsrc => ?_⟩
    · subst hsrc
      exact wp_ret ⟨h, Wrote.nil c off s⟩
    have hpos : src.length ≠ 0 := fun h0 => hsrc (List.length_eq_zero_iff.mp h0)
    have hmod : off % bsize < bsize := Nat.mod_lt _ (by decide)
    have hfirst := hP off le_rfl (by omega)
    refine wp_seq (sound_bmap h hc hv (fun hle => hrange ?_) fun _ hno => hout (hno P hfirst)) ?_
    · have : maxfile * bsize ≤ off / bsize * bsize := Nat.mul_le_mul_right _ hle
      have := Nat.div_mul_le_self off bsize
      omega
    rintro a t ⟨ht, hg, rfl, ha0, hsame, hroom⟩
    have hi : (t.icache c).inum = (s.icache c).inum := hg.still.inum c
    generalize hn : min src.length (bsize - off % bsize) = n
    have hnle : n ≤ src.length := by omega
    have hlen : (src.take n).length = n := by rw [List.length_take, Nat.min_eq_left hnle]
    have hfit : off % bsize + (src.take n).length ≤ bsize := by omega
    -- an entry of a directory lies in one block
    have hwhole : m.tidy → (s.node (s.icache c).inum).type = tDir → n = src.length := by
      intro hm hdir
      obtain ⟨k, rfl, hk, -⟩ := hlaw hm hsrc hdir
      simp only [direntSize, bsize] at hk hn
      omega
    have htake : ∀ f : Bytes, store f (off % bsize) n (fun x => src.getD x 0) =
        store f (off % bsize) (src.take n).length fun x => (src.take n).getD x 0 := by
      intro f
      funext x
      rw [hlen]
      by_cases hx : off % bsize ≤ x ∧ x < off % bsize + n
      · rw [store_of_mem hx.1 hx.2, store_of_mem hx.1 hx.2, List.getD_eq_getElem?_getD, List.getD_eq_getElem?_getD,
          List.getElem?_take_of_lt (by omega)]
      · rw [store_of_notMem (by omega), store_of_notMem (by omega)]
    rw [wp_bind, wp_onDisk, bread, wp_bind, wp_get, wp_pure, wp_bind, wp_onDisk, logWrite, wp_modify, htake]
    set u : FsState := { t with
      disk := ⟨update t.disk.blocks (t.live.block (s.icache c).inum (off / bsize))
        (store (t.disk.blocks (t.live.block (s.icache c).inum (off / bsize))) (off % bsize) (src.take n).length
          fun x => (src.take n).getD x 0),
        .logWrite (t.live.block (s.icache c).inum (off / bsize)) :: t.disk.trace⟩ } with hu
    obtain ⟨hsu, hcore, hown, hused, hnode⟩ := ht.put (t := u) off (src.take n) (by rwa [hi]) hfit (fun hm hdir => by
      rw [hi, hg.node] at hdir
      rw [hwhole hm hdir, List.take_length, hi]
      exact hlaw hm hsrc hdir) rfl (by rw [hi])
    rw [hi, hg.node] at hnode
    have hround : Wrote c off (src.take n) s u :=
      Wrote.round hg hsame ha0 (fun h0 => by rw [h0, List.length_nil] at hlen; simp only [bsize] at hmod hn; omega) hfit rfl
      hroom hcore hown hused hnode
    have hiu : (u.icache c).inum = (s.icache c).inum := hi
    have hlen' : (src.drop n).length = src.length - n := List.length_drop
    refine wp_mono (ih (off + n) (src.drop n) hsu (hg.valid hv) (by omega) (fun hlt => hrange (by omega))
      (fun x h1 h2 => hP x (by omega) (by omega)) (fun hno => hout fun hs => hno ?_) fun hm hne hdir => absurd ?_ hne) ?_
    · rw [hiu]
      exact (hroom P hfirst hs).congr hown hused
    · rw [hiu, hnode, update_self] at hdir
      rw [hwhole hm hdir, List.drop_length]
    rintro _ w ⟨hw, hrest⟩
    exact ⟨hw, hround.append hnle hrest⟩

omit sb in
theorem Volume.node_setCore {v : Volume} {i : ℕ} {d : Dinode} (hown : (v.setCore i d).own = v.own) (j : ℕ) :
    (v.setCore i d).node j = if j = i then ⟨d.type, d.major, d.minor, d.nlink, d.size, v.byte i⟩ else v.node j := by
  split_ifs with hj
  · subst hj
    have hcore : (v.setCore j d).core j = d := update_self _ _ _
    unfold node
    rw [hcore, byte_setCore hown]
  · have hcore : (v.setCore i d).core j = v.core j := update_of_ne hj _ _
    exact node_congr hcore rfl

/-- The inode of `c` is `d`, in the cache and on the disk. -/
structure Updated (c : Cell) (d : Dinode) (s t : FsState) : Prop where
  still : Still s t
  self : t.table.core (s.icache c).inum = t.core (s.icache c).inum
  apart : ∀ j, j ≠ (s.icache c).inum → t.table.core j = s.table.core j ∧ t.core j = s.core j
  live : t.live = s.live.setCore (s.icache c).inum d

section iupdate

variable {α : Type} {K : Unit → FsM α} {Q : α → FsState → Prop} {f : Dinode → Dinode} (h : Sound m b r l s) (hc : 0 < r c)
  (hv : (s.icache c).valid = true) (hfits : (f (s.icache c).d).Fits) (htype : (f (s.icache c).d).type = (s.icache c).d.type)
  (hwhole : Whole m (s.live.setCore (s.icache c).inum (f (s.icache c).d)))
include h hc hv hfits htype hwhole

theorem sound_setD_iupdate (hkept : m.tidy → (f (s.icache c).d).nlink = 0 → 0 < b c)
    (hQ : ∀ t, Sound m b r l t → Updated c (f (s.icache c).d) s t → wp (K ()) t Q E) :
    wp (setD c f >>= fun _ => iupdate c >>= K) s Q E := by
  rw [wp_bind, wp_setD, wp_bind, iupdate, wp_bind, wp_inode, wp_onDisk]
  simp only [FsState.set_icache, update_self]
  refine wp_putDinode (h.inum_lt c hc (.inr hv)) hfits fun dk hdk => ?_
  set t : FsState := { disk := dk, icache := (s.set c { s.icache c with d := f (s.icache c).d }).icache } with ht
  have hstill : Still s t := by
    intro c'
    by_cases hcc : c' = c
    · subst hcc
      simp [ht, Inode.head]
    · simp [ht, hcc]
  have hcells : ∀ c', c' ≠ c → t.icache c' = s.icache c' := fun c' hcc => by simp [ht, hcc]
  have hd : (t.icache c).d = f (s.icache c).d := by simp [ht]
  have htable : t.table = s.table.setCore (s.icache c).inum (f (s.icache c).d) := hdk
  have hcore : t.core = update s.core (s.icache c).inum (f (s.icache c).d) := by
    rw [h.core_of_still hc hv hstill hcells fun j hj => by rw [htable]; exact update_of_ne hj _ _, hd]
  have hlive : t.live = s.live.setCore (s.icache c).inum (f (s.icache c).d) := by
    unfold FsState.live
    rw [hcore, htable]
    rfl
  have hself : t.table.core (s.icache c).inum = t.core (s.icache c).inum := by
    rw [htable, hcore, update_self]
    exact update_self _ _ _
  have hapart : ∀ j, j ≠ (s.icache c).inum → t.table.core j = s.table.core j ∧ t.core j = s.core j := by
    intro j hj
    rw [htable, hcore, update_of_ne hj]
    exact ⟨update_of_ne hj _ _, rfl⟩
  refine hQ t ⟨hstill.at h.toAt, h.under, fun c' hc' => ?_, fun c' hc' => ?_, fun hm c' hl => ?_, fun c' hc' hv' => ?_,
    fun c' hc' hv' => ?_, fun hm c' hc' hv' => ?_, by rw [hlive]; exact hwhole,
    fun hm j htj hnj => ?_⟩ ⟨hstill, hself, hapart, hlive⟩
  · rw [hstill.dev]
    exact h.dev c' hc'
  · rw [hstill.inum, hstill.valid]
    exact h.inum_lt c' hc'
  · rw [hstill.valid]
    exact h.locked_of hm c' hl
  · rw [hstill.valid] at hv'
    by_cases hcc : c' = c
    · subst hcc
      rw [hd, htype]
      exact h.typed c' hc' hv'
    · rw [hcells c' hcc]
      exact h.typed c' hc' hv'
  · rw [hstill.valid] at hv'
    by_cases hcc : c' = c
    · subst hcc
      rwa [hd]
    · rw [hcells c' hcc]
      exact h.fits c' hc' hv'
  · rw [hstill.valid] at hv'
    by_cases hcc : c' = c
    · subst hcc
      rw [hstill.inum, hself, hcore, update_self, hd]
      exact Behind.refl _
    · have hi : (s.icache c').inum ≠ (s.icache c).inum := fun hi => hcc (h.eq_of_inum hc' hc hi)
      rw [hcells c' hcc, (hapart _ hi).1]
      exact h.behind_of hm c' hc' hv'
  · rw [hcore] at htj hnj
    by_cases hj : j = (s.icache c).inum
    · subst hj
      rw [update_self] at hnj
      exact ⟨c, hkept hm hnj, (hstill.valid c).trans hv, hstill.inum c⟩
    · rw [update_of_ne hj] at htj hnj
      obtain ⟨c', hb, hv', hi⟩ := h.kept_of hm j htj hnj
      exact ⟨c', hb, (hstill.valid c').trans hv', (hstill.inum c').trans hi⟩

theorem wp_setD_iupdate (hm : m.tidy) (hkept : (f (s.icache c).d).nlink = 0 → 0 < b c)
    (hahead : ∀ j, j ≠ (s.icache c).inum → s.table.core j ≠ s.core j → m.loose ∧
    (m.dense → ∃ c', 0 < b c' ∧ (s.icache c').inum = j))
    (hQ : ∀ t, Inv m b r l t → Updated c (f (s.icache c).d) s t → wp (K ()) t Q E) :
    wp (setD c f >>= fun _ => iupdate c >>= K) s Q E := by
  refine sound_setD_iupdate h hc hv hfits htype hwhole (fun _ => hkept) fun t ht hup => hQ t ⟨ht, hm, fun j hj => ?_⟩ hup
  have hne : j ≠ (s.icache c).inum := by
    rintro rfl
    exact hj hup.self
  obtain ⟨h1, h2⟩ := hup.apart j hne
  rw [h1, h2] at hj
  obtain ⟨hl, hh⟩ := hahead j hne hj
  exact ⟨hl, fun hdense => (hh hdense).imp fun c' hc' => ⟨hc'.1, (hup.still.inum c').trans hc'.2⟩⟩

end iupdate

theorem Inv.ahead_cell (h : Inv m b r l s) (hc : 0 < r c) (ha : s.table.core (s.icache c).inum ≠ s.core (s.icache c).inum)
    (hd : m.dense) : 0 < b c := by
  obtain ⟨c', hb, hi⟩ := (h.ahead _ ha).2 hd
  rwa [h.eq_of_inum hc (h.under c' hb) hi.symm]

theorem Sound.kept_cell (h : Sound m b r l s) (hm : m.tidy) (hc : 0 < r c) (hv : (s.icache c).valid = true)
    (hn : (s.icache c).d.nlink = 0) : 0 < b c := by
  obtain ⟨c', hb, -, hi⟩ := h.kept_of hm (s.icache c).inum (h.type_ne hc hv) (by rw [h.core_eq_d hc hv]; exact hn)
  rwa [h.eq_of_inum hc (h.under c' hb) hi.symm]

section writei

variable {off : ℕ} {src : List UInt8} (h : Sound m b r l s) (hc : 0 < r c) (hv : (s.icache c).valid = true)
  (ht : Sound m b r l t) (hw : Wrote c off src s t)
include h hc hv ht hw

omit h in
theorem Wrote.core_eq : t.core (s.icache c).inum = (t.icache c).d := by
  rw [← hw.still.inum c]
  exact ht.core_eq_d hc ((hw.still.valid c).trans hv)

omit ht in
theorem Wrote.core_other {j : ℕ} (hj : j ≠ (s.icache c).inum) : t.core j = s.core j := by
  rw [h.core_of_still hc hv hw.still hw.cells fun j _ => congrFun hw.table j, update_of_ne hj]

omit h in
theorem Wrote.whole_grown (hlaw : m.tidy → m.Lawful c off src s) (hoff : off ≤ (s.node (s.icache c).inum).size) :
    Whole m (t.live.setCore (t.icache c).inum { (t.icache c).d with size := off + src.length }) := by
  have hcore := hw.core_eq hc hv ht
  have hnode : t.live.node (s.icache c).inum = (s.node (s.icache c).inum).put off src := by
    change t.node _ = _
    rw [hw.node, update_self]
  have hold : (t.live.core (s.icache c).inum).size = (s.node (s.icache c).inum).size := congrArg Node.size hnode
  have htype : (t.live.core (s.icache c).inum).type = (t.icache c).d.type := congrArg Dinode.type hcore
  rw [hw.still.inum c]
  refine ht.whole.setCore (congrArg Dinode.addrs hcore).symm (by rw [htype]) (fun hdir k hk hm => ?_) fun hdense hty k hk => ?_
  · have hdir' : (t.live.core (s.icache c).inum).type = tDir := htype.trans hdir
    by_cases hin : direntSize * k + direntSize ≤ (s.node (s.icache c).inum).size
    · exact ht.whole.law _ k hdir' (hold ▸ hin) hm
    · obtain ⟨k', rfl, hlen, hl⟩ := hlaw hm ((congrArg Node.type hnode).symm.trans hdir')
      have hkk : k = k' := by
        simp only [direntSize] at hk hin hlen hoff
        omega
      rw [hnode, hkk, Node.entry_put_self _ hlen]
      exact hl hm
  · by_cases hin : k * bsize < (s.node (s.icache c).inum).size
    · exact ht.whole.full hdense _ k (by rw [htype]; exact hty) (hold ▸ hin)
    · have hfill := hw.filled (k * bsize) (by omega) hk
      rwa [Nat.mul_div_cancel _ (by decide)] at hfill

omit h in
theorem Wrote.node_grown (hgt : (s.node (s.icache c).inum).size < off + src.length) (j : ℕ) :
    (t.live.setCore (t.icache c).inum { (t.icache c).d with size := off + src.length }).node j =
      onNode (s.icache c).inum (Node.write off src) j (s.node j) := by
  have hcore := hw.core_eq hc hv ht
  have hnode : t.live.node (s.icache c).inum = (s.node (s.icache c).inum).put off src := by
    change t.node _ = _
    rw [hw.node, update_self]
  have hown := Volume.own_setCore (v := t.live) (d := { (t.icache c).d with size := off + src.length })
    (congrArg Dinode.addrs hcore).symm (by rw [← hcore]; rfl)
  rw [hw.still.inum c, Volume.node_setCore hown]
  unfold onNode
  split_ifs with hj
  · subst hj
    rw [Node.write, Nat.max_eq_right hgt.le, ← hnode, ← hcore]
    rfl
  · change t.node j = _
    rw [hw.node, update_of_ne hj]

omit h hc hv ht in
theorem Wrote.node_kept (hle : off + src.length ≤ (s.node (s.icache c).inum).size) (j : ℕ) :
    t.node j = onNode (s.icache c).inum (Node.write off src) j (s.node j) := by
  rw [hw.node]
  unfold onNode
  split_ifs with hj
  · subst hj
    rw [update_self, Node.write, Nat.max_eq_left hle]
    rfl
  · exact update_of_ne hj _ _

omit h in
theorem Wrote.fits_grown (hmax : off + src.length ≤ maxfile * bsize) :
    ({ (t.icache c).d with size := off + src.length } : Dinode).Fits := by
  have hfits := ht.fits c hc ((hw.still.valid c).trans hv)
  have hsize : off + src.length < 2 ^ 32 := Nat.lt_of_le_of_lt hmax (by decide)
  exact ⟨hfits.type, hfits.major, hfits.minor, hfits.nlink, hsize, hfits.addrs, hfits.short⟩

end writei

theorem wp_writei {dev : Option ℕ} {Q : Option ℕ → FsState → Prop} (h : Sound m b r l s) (hc : 0 < r c)
    (hv : (s.icache c).valid = true) (hout : off ≤ (s.node (s.icache c).inum).size → off + src.length ≤ maxfile * bsize →
      ¬ s.live.Room (s.icache c).inum (pointers off src.length) → E .outOfBlocks)
    (hlaw : m.tidy → m.Lawful c off src s) (hdev : (s.node (s.icache c).inum).type = tDev → ∀ res, Q res s)
    (hbad : (s.node (s.icache c).inum).size < off ∨ (off + src.length) % 2 ^ 32 < off ∨
    maxfile * bsize < off + src.length → Q none s)
    (hQ : ∀ t, Sound m b r l t → Wrote c off src s t → off ≤ (s.node (s.icache c).inum).size →
    off + src.length ≤ maxfile * bsize →
      (off + src.length ≤ (s.node (s.icache c).inum).size → Q (some src.length) t) ∧
      ((s.node (s.icache c).inum).size < off + src.length →
        wp (setD c (fun d => { d with size := off + src.length }) >>= fun _ => iupdate c >>= fun _ =>
          pure (some src.length)) t Q E)) :
    wp (writei dev c src off) s Q E := by
  obtain ⟨htype, hsize, -⟩ := h.fields hc hv
  rw [writei, wp_bind, wp_inode, htype, hsize, wp_ite]
  refine ⟨fun hd => wp_ret (hdev hd _), fun hd => ?_⟩
  rw [wp_ite]
  refine ⟨fun hno => wp_ret (hbad (hno.imp_right .inl)), fun hoff => ?_⟩
  rw [wp_ite]
  refine ⟨fun hno => wp_ret (hbad (.inr (.inr hno))), fun hmax => ?_⟩
  refine wp_seq (sound_writeiLoop src.length off src _ h hc hv le_rfl (fun hlt => absurd hlt hmax) (fun x => pointersTo_subset)
    (hout (by omega) (by omega)) fun hm _ => hlaw hm) ?_
  rintro _ t ⟨ht, hw⟩
  obtain ⟨hkeep, hgrow⟩ := hQ t ht hw (by omega) (by omega)
  have hsize' : (t.icache c).d.size = (s.node (s.icache c).inum).size := by
    rw [(ht.fields hc ((hw.still.valid c).trans hv)).2.1, hw.still.inum, hw.node, update_self]
    rfl
  rw [wp_bind, wp_inode, hsize']
  rw [wp_ite]
  exact ⟨fun hlt => hgrow hlt.2, fun hno => wp_ret (hkeep (by omega))⟩

theorem sound_writei (h : Sound m b r l s) (hm : ¬ m.tidy) (hc : 0 < r c) (hv : (s.icache c).valid = true) (dev : Option ℕ)
    (src : List UInt8) (off : ℕ) (hdev : (s.node (s.icache c).inum).type ≠ tDev)
    (hout : off ≤ (s.node (s.icache c).inum).size → off + src.length ≤ maxfile * bsize →
      ¬ s.live.Room (s.icache c).inum (pointers off src.length) → E .outOfBlocks) : wp (writei dev c src off) s (fun res t =>
      (res = none ∧ t = s ∧
        ((s.node (s.icache c).inum).size < off ∨ (off + src.length) % 2 ^ 32 < off ∨ maxfile * bsize < off + src.length)) ∨
      (res = some src.length ∧ Sound m b r l t ∧ Still s t ∧ off ≤ (s.node (s.icache c).inum).size ∧
      off + src.length ≤ maxfile * bsize ∧
        (∀ j, t.node j = onNode (s.icache c).inum (Node.write off src) j (s.node j)) ∧
        KeepsRoom c (pointers off src.length) s t)) E := by
  have hroom : ∀ {t}, Wrote c off src s t → KeepsRoom c (pointers off src.length) s t :=
    fun hw P hP => hw.room P fun x h1 h2 => (pointersTo_subset h1 h2).trans hP
  refine wp_writei h hc hv hout (fun hm' => absurd hm' hm) (fun hd => absurd hd hdev) (fun hbad => .inl ⟨rfl, rfl, hbad⟩)
    fun t ht hw hoff hmax => ⟨fun hle => ?_, fun hgt => ?_⟩
  · exact .inr ⟨rfl, ht, hw.still, hoff, hmax, hw.node_kept hle, hroom hw⟩
  refine sound_setD_iupdate ht hc ((hw.still.valid c).trans hv) (hw.fits_grown hc hv ht hmax) rfl
    (hw.whole_grown hc hv ht (fun hm' => absurd hm' hm) hoff) (fun hm' => absurd hm' hm) fun u hu hup => wp_ret (.inr ?_)
  refine ⟨rfl, hu, Trans.trans hw.still hup.still, hoff, hmax, fun j => ?_, fun P hP hs => ?_⟩
  · rw [FsState.node, hup.live]
    exact hw.node_grown hc hv ht hgt j
  · have hcore := hw.core_eq hc hv ht
    rw [hup.live, hw.still.inum c]
    exact (hroom hw P hP hs).congr (Volume.own_setCore (congrArg Dinode.addrs hcore).symm (by rw [← hcore]; rfl)) rfl

section inv

variable {off : ℕ} {src : List UInt8} (h : Inv m b r l s) (hc : 0 < r c) (hv : (s.icache c).valid = true)
  (ht : Sound m b r l t) (hw : Wrote c off src s t)
include h hc hv ht hw

theorem Inv.wrote (hle : off + src.length ≤ (s.node (s.icache c).inum).size) :
    Inv m b r l t ∧ Writes m r (onNode (s.icache c).inum (Node.write off src)) s t := by
  have hnode := hw.node_kept hle
  have hsame : m.dense → t.icache = s.icache := fun hd => hw.same fun x _ h2 => h.whole.full hd _ _ (h.type_ne hc hv) (by
    have := Nat.div_mul_le_self x bsize
    change _ < (s.node (s.icache c).inum).size
    omega)
  have hcore : m.dense → t.core = s.core := fun hd => funext fun j =>
    FsState.core_congr (hw.still.cached j) (fun c' _ => by rw [hsame hd]) (congrFun hw.table j)
  refine ⟨?_, hw.still.stays, fun c' _ => hnode _,
    fun c' _ _ => by rw [hnode]; exact onNode_type (f := Node.write off src) (fun _ => rfl) _ _, fun _ => hnode,
    fun hd j hj => by rw [hw.table, hcore hd, hj]⟩
  · by_cases hd : m.dense
    · refine ⟨ht, h.tidy, fun j hj => ?_⟩
      rw [hw.table, hcore hd] at hj
      rw [hsame hd]
      exact h.ahead j hj
    · exact ht.inv_of_not_dense h.tidy hd

theorem inv_grown {α : Type} {K : Unit → FsM α} {Q : α → FsState → Prop} (hlaw : m.Lawful c off src s)
    (hoff : off ≤ (s.node (s.icache c).inum).size) (hgt : (s.node (s.icache c).inum).size < off + src.length)
    (hmax : off + src.length ≤ maxfile * bsize)
    (hQ : ∀ u, Inv m b r l u → Writes m r (onNode (s.icache c).inum (Node.write off src)) s u → wp (K ()) u Q E) :
    wp (setD c (fun d => { d with size := off + src.length }) >>= fun _ => iupdate c >>= K) t Q E := by
  have hvt : (t.icache c).valid = true := (hw.still.valid c).trans hv
  have hi : (t.icache c).inum = (s.icache c).inum := hw.still.inum c
  refine wp_setD_iupdate ht hc hvt (hw.fits_grown hc hv ht hmax) rfl (hw.whole_grown hc hv ht (fun _ => hlaw) hoff) h.tidy
    (ht.kept_cell h.tidy hc hvt) (fun j hj ha => ?_) fun u hu hup => hQ u hu ?_
  · rw [hi] at hj
    rw [hw.table, hw.core_other h.toSound hc hv hj] at ha
    obtain ⟨hl, hh⟩ := h.ahead j ha
    exact ⟨hl, fun hdense => (hh hdense).imp fun c' hc' => ⟨hc'.1, (hw.still.inum c').trans hc'.2⟩⟩
  obtain ⟨hst, hself, hapart, hlive⟩ := hup
  have hnodes : ∀ j, u.node j = onNode (s.icache c).inum (Node.write off src) j (s.node j) := by
    intro j
    rw [FsState.node, hlive]
    exact hw.node_grown hc hv ht hgt j
  have hall : Still s u := Trans.trans hw.still hst
  rw [hi] at hself
  refine ⟨hall.stays, fun c' _ => hnodes _,
    fun c' _ _ => by rw [hnodes]; exact onNode_type (f := Node.write off src) (fun _ => rfl) _ _, fun _ => hnodes,
    fun _ j hj => ?_⟩
  · by_cases hji : j = (s.icache c).inum
    · rw [hji]
      exact hself
    · obtain ⟨h1, h2⟩ := hapart j (by rwa [hi])
      rw [h1, h2, hw.table, hw.core_other h.toSound hc hv hji, hj]

end inv

theorem inv_writei {dev : Option ℕ} (h : Inv m b r l s) (hc : 0 < r c) (hv : (s.icache c).valid = true)
    (hE : Benign E) (hlaw : m.Lawful c off src s) :
    wp (writei dev c src off) s (fun res t => Inv m b r l t ∧
      ((s.node (s.icache c).inum).type = tDev ∧ t = s ∨ res = none ∧ t = s ∨
      res = some src.length ∧ Writes m r (onNode (s.icache c).inum (Node.write off src)) s t)) E := by
  refine wp_writei h.toSound hc hv (fun _ _ _ => hE _ rfl) (fun _ => hlaw) (fun hdev _ => ⟨h, .inl ⟨hdev, rfl⟩⟩)
    (fun _ => ⟨h, .inr (.inl ⟨rfl, rfl⟩)⟩) fun t ht hw hoff hmax => ⟨fun hle => ?_, fun hgt => ?_⟩
  · obtain ⟨hinv, hwr⟩ := h.wrote hc hv ht hw hle
    exact ⟨hinv, .inr (.inr ⟨rfl, hwr⟩)⟩
  · exact inv_grown h hc hv ht hw hlaw hoff hgt hmax fun u hu hwr => wp_ret ⟨hu, .inr (.inr ⟨rfl, hwr⟩)⟩

end Laboratorio.Fs
