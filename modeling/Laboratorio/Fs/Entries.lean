import Laboratorio.Fs.CallRefs
import Laboratorio.Fs.Write

namespace Laboratorio.Fs

open Bytes Function

variable [sb : Superblock] {m : Mode} {b r : Cell → ℕ} {l : Cell → Bool} {s t : FsState} {c : Cell} {E : Fault → Prop}

def newEntry (name : Name) (inum : ℕ) : Dirent := ⟨inum % 2 ^ 16, strncpy name dirsiz⟩

omit sb in
theorem length_newEntry (name : Name) (inum : ℕ) : (newEntry name inum).bytes.length = direntSize :=
  Dirent.length_bytes (length_strncpy name dirsiz)

theorem inv_dirlink {name : Name} {inum i : ℕ} {a : Node} (h : Inv m b r l s) (hl : l c = true) (hi : (s.icache c).inum = i)
    (ha : s.node i = a) (hlaw : a.type = tDir → m.Law i (newEntry name inum)) :
    wp (dirlink c name inum) s (fun res t => Inv m b r l t ∧ (res = false ∧ Reads m r s t ∨
      res = true ∧ Writes m r (onNode i (Node.insert (newEntry name inum))) s t)) fun _ => True := by
  obtain ⟨hc, hv⟩ := h.locked c hl
  rw [dirlink]
  refine wp_seq (inv_dirlookup h hc hv hi ha (fun _ => trivial) (fun _ => trivial) (.inr benign_any)) ?_
  rintro res t ⟨⟨hdir, hres⟩, hst⟩
  cases hfind : a.find name with
  | some k =>
    rw [hfind] at hres
    obtain ⟨c', rfl, ht, hnext, hle⟩ := hres
    rw [wp_bind]
    cases hlc : l c' with
    | true =>
      refine wp_iput (fun _ => trivial) (fun h0 => ?_) fun h0 => ?_
      · rw [ht.lock, hlc] at h0
        cases h0
      · rw [ht.lock, hlc] at h0
        cases h0
    | false =>
      refine wp_mono (inv_iput ht h.under hlc) fun _ u ⟨hu, hst'⟩ => wp_ret ⟨hu, .inl ⟨rfl, ?_⟩⟩
      exact Trans.trans hst hst'
  | none =>
    rw [hfind] at hres
    obtain ⟨rfl, ht⟩ := hres
    have hit : (t.icache c).inum = i := (hst.stays c hc).2.1.trans hi
    have hat : t.node i = a := by
      have := hst.node c hc
      rwa [hi, ha] at this
    have hvt : (t.icache c).valid = true := (ht.locked c hl).2
    have hsize : (t.icache c).d.size = a.size := by rw [(ht.fields hc hvt).2.1, hit, hat]
    rw [wp_bind, wp_inode, hsize, wp_bind]
    have hempty := inv_emptySlot (k := 0) (n := slots a.size) ht hc hvt hit hat hdir benign_any
    rw [Nat.mul_zero, Nat.zero_add] at hempty
    refine wp_mono hempty ?_
    rintro off u ⟨⟨hu, hg, hoff, -⟩, hst'⟩
    have hoff' : off = direntSize * a.vacant := hoff
    subst hoff'
    have hiu : (u.icache c).inum = i := (hg.still.inum c).trans hit
    have hau : u.node i = a := by rw [hg.node, hat]
    rw [wp_bind]
    have hentry : m.Law (u.icache c).inum (Dirent.ofBytes (newEntry name inum).bytes) := by
      rw [hiu, Dirent.ofBytes_bytes (Nat.mod_lt _ (by decide))]
      exact hlaw hdir
    change wp (writei none c (newEntry name inum).bytes (direntSize * a.vacant)) u _ _
    refine wp_mono (inv_writei hu hc (hg.valid hvt) benign_any fun _ => ⟨a.vacant, rfl, length_newEntry name inum, hentry⟩) ?_
    rw [hiu, hau, length_newEntry]
    rintro res w ⟨hw, hcase⟩
    rcases hcase with ⟨hdev, -⟩ | ⟨rfl, -⟩ | ⟨rfl, hwr⟩
    · rw [hdir] at hdev
      exact absurd hdev (by decide)
    · exact (wp_throw _).mpr trivial
    refine wp_ret ⟨hw, .inr ⟨rfl, ?_⟩⟩
    have hread : Reads m r s u := Trans.trans hst hst'
    refine (hread.quiet.trans hwr).congr fun j _ => ?_
    unfold onNode
    split_ifs with hj
    · rw [hj, ha]
      rfl
    · rfl

variable {i : ℕ} {d : Dinode}

omit sb in
theorem Volume.node_born {v : Volume} (h0 : (v.core i).type = 0) (ha : ∀ k, d.addrs k = 0) (j : ℕ) :
    (v.setCore i d).node j = if j = i then ⟨d.type, d.major, d.minor, d.nlink, d.size, fun _ => 0⟩ else v.node j := by
  have hbyte : v.byte i = fun _ => 0 := by
    funext x
    exact if_pos (own_of_free h0)
  rw [node_setCore (own_setCore_empty (fun _ => own_of_free h0) ha), hbyte]

theorem Inv.not_cached (h : Inv m b r l s) (h0 : (s.table.core i).type = 0) (c' : Cell) : ¬ Cached s i c' := by
  rintro ⟨href, hv, rfl⟩
  have hc : 0 < r c' := by rwa [← h.ref]
  exact h.typed c' hc hv ((h.behind c' hc hv).type.symm.trans h0)

theorem Inv.born (h : Inv m b r l s) (htype : d.type ≠ 0) (hfits : d.Fits) (haddrs : ∀ k, d.addrs k = 0) (hsize : d.size = 0)
    (hnlink : d.nlink ≠ 0) (hi : i < ninodes) (h0 : (s.table.core i).type = 0) (hat : At t (plus r c) (update l c true))
    (hst : Stays r s t) (hcells : ∀ c', c' ≠ c → t.icache c' = s.icache c') (hci : (t.icache c).inum = i)
    (hdev : (t.icache c).dev = rootdev) (hv : (t.icache c).valid = true) (hd : (t.icache c).d = d)
    (htable : t.table = s.table.setCore i d) :
    Inv m b (plus r c) (update l c true) t ∧ t.live = s.live.setCore i d ∧ t.table.core i = t.core i ∧
      (∀ j, s.table.core j = s.core j → t.table.core j = t.core j) ∧ (s.core i).type = 0 := by
  have hfree := h.not_cached h0
  have hcorei : s.core i = s.table.core i := FsState.core_eq (fun c' hc' => absurd hc' (hfree c')) fun _ => rfl
  have hc := plus_self_pos r c
  have hold : ∀ c', 0 < plus r c c' → c' ≠ c → 0 < r c' := fun c' hc' hne => by rwa [plus_of_ne hne] at hc'
  have hother : ∀ c', 0 < r c' → c' ≠ c → (s.icache c').inum ≠ i := by
    intro c' hc' hne hi'
    have hdev' := hat.unique c' c (plus_pos c hc') hc
    rw [hcells c' hne, hdev, hci, h.dev c' hc'] at hdev'
    exact hne (hdev' rfl hi')
  have htself : t.table.core i = d := by
    rw [htable]
    exact update_self _ _ _
  have htother : ∀ j, j ≠ i → t.table.core j = s.table.core j := fun j hj => by
    rw [htable]
    exact update_of_ne hj _ _
  have hcore : t.core = update s.core i d := by
    funext j
    by_cases hj : j = i
    · subst hj
      rw [update_self]
      refine FsState.core_eq (fun c' hc' => ?_) fun _ => htself
      by_cases hcc : c' = c
      · rw [hcc, hd]
      · rw [Cached, hcells c' hcc] at hc'
        exact absurd hc' (hfree c')
    · rw [update_of_ne hj]
      refine FsState.core_congr (fun c' => ?_) (fun c' hc' => ?_) (htother j hj)
      · by_cases hcc : c' = c
        · subst hcc
          refine ⟨fun hx => absurd (hci.symm.trans hx.2.2).symm hj, fun hx => absurd ?_ hj⟩
          rw [← hx.2.2, ← hci, (hst c' (by rw [← h.ref]; exact hx.1)).2.1]
        · rw [Cached, hcells c' hcc]
          rfl
      · have hcc : c' ≠ c := by
          rintro rfl
          refine hj ?_
          rw [← hc'.2.2, ← hci, (hst c' (by rw [← h.ref]; exact hc'.1)).2.1]
        rw [hcells c' hcc]
  have hlive : t.live = s.live.setCore i d := by
    unfold FsState.live
    rw [hcore, htable]
    rfl
  refine ⟨⟨⟨hat, h.under.plus c, fun c' hc' => ?_, fun c' hc' _ => ?_, fun _ c' hl => ?_, fun c' hc' hv' => ?_,
    fun c' hc' hv' => ?_, fun _ c' hc' hv' => ?_, ?_, fun _ j htj hnj => ?_⟩, h.tidy, fun j hj => ?_⟩,
    hlive, by rw [htself, hcore, update_self], fun j hj => ?_, by rw [hcorei, h0]⟩
  · by_cases hcc : c' = c
    · rw [hcc, hdev]
    · rw [hcells c' hcc]
      exact h.dev c' (hold c' hc' hcc)
  · by_cases hcc : c' = c
    · rw [hcc, hci]
      exact hi
    · rw [hcells c' hcc]
      exact h.inum c' (hold c' hc' hcc)
  · by_cases hcc : c' = c
    · rw [hcc]
      exact ⟨hc, hv⟩
    · rw [update_of_ne hcc] at hl
      rw [hcells c' hcc]
      exact ⟨plus_pos c (h.locked c' hl).1, (h.locked c' hl).2⟩
  · by_cases hcc : c' = c
    · rwa [hcc, hd]
    · rw [hcells c' hcc] at hv' ⊢
      exact h.typed c' (hold c' hc' hcc) hv'
  · by_cases hcc : c' = c
    · rwa [hcc, hd]
    · rw [hcells c' hcc] at hv' ⊢
      exact h.fits c' (hold c' hc' hcc) hv'
  · by_cases hcc : c' = c
    · rw [hcc, hci, htself, hd]
      exact Behind.refl d
    · rw [hcells c' hcc] at hv' ⊢
      rw [htother _ (hother c' (hold c' hc' hcc) hcc)]
      exact h.behind c' (hold c' hc' hcc) hv'
  · rw [hlive]
    exact h.whole.start (by change (s.core i).type = 0; rw [hcorei, h0]) haddrs hsize
  · rw [hcore] at htj hnj
    have hj : j ≠ i := by
      rintro rfl
      rw [update_self] at hnj
      exact hnlink hnj
    rw [update_of_ne hj] at htj hnj
    obtain ⟨c', hb, hv', hi'⟩ := h.kept j htj hnj
    exact ⟨c', hb, (hst c' (h.under c' hb)).2.2 hv', (hst c' (h.under c' hb)).2.1.trans hi'⟩
  · have hji : j ≠ i := by
      rintro rfl
      refine hj ?_
      rw [htself, hcore, update_self]
    rw [htother j hji, hcore, update_of_ne hji] at hj
    obtain ⟨hl, hh⟩ := h.ahead j hj
    refine ⟨hl, fun hdense => ?_⟩
    obtain ⟨c', hb, hi'⟩ := hh hdense
    exact ⟨c', hb, (hst c' (h.under c' hb)).2.1.trans hi'⟩
  · by_cases hji : j = i
    · rw [hji, htself, hcore, update_self]
    · rw [htother j hji, hcore, update_of_ne hji, hj]

structure Taken (l : Cell → Bool) (type : ℕ) (s : FsState) (i : ℕ) (c : Cell) (t : FsState) : Prop where
  lt : i < ninodes
  free : (s.table.core i).type = 0
  unlocked : l c = false
  table : t.table = s.table.setCore i { Dinode.zero with type := type }
  cells : ∀ c', c' ≠ c → t.icache c' = s.icache c'
  inum : (t.icache c).inum = i
  dev : (t.icache c).dev = rootdev
  valid : (t.icache c).valid = false

theorem wp_ialloc {type : ℕ} (h : Inv m b r l s) (htype : type < 2 ^ 16) :
    wp (ialloc rootdev type) s (fun c t => ∃ i, Taken l type s i c t) fun _ => True := by
  have hloop : ∀ n i, (n ≠ 0 → i + n ≤ ninodes) → wp (iallocLoop rootdev type i n) s (fun c t => ∃ i, Taken l type s i c t)
    fun _ => True := by
    intro n
    induction n with
    | zero => exact fun _ _ => (wp_throw _).mpr trivial
    | succ n ih =>
      intro i hle
      have hlt : i < ninodes := by
        omega
      have hcore : s.table.core i = dinode s.disk.blocks i := volume_core hlt
      rw [iallocLoop, wp_bind, wp_get, wp_ite, ← hcore]
      refine ⟨fun h0 => ?_, fun _ => ih (i + 1) fun hn => by have := hle (Nat.succ_ne_zero n); omega⟩
      rw [wp_bind, wp_onDisk]
      refine wp_putDinode hlt ⟨htype, Nat.two_pow_pos 16, Nat.two_pow_pos 16, Nat.two_pow_pos 16, Nat.two_pow_pos 32,
        fun _ => Nat.two_pow_pos 32, fun _ _ => rfl⟩ fun dk hdk => ?_
      have hlocked : ∀ c, l c = true → Cached s (s.icache c).inum c := fun c hl => h.cached (h.locked c hl).1 (h.locked c hl).2
      refine wp_iget (fun c h1 h2 h3 => ⟨i, hlt, h0, ?_, hdk, fun c' hcc => ?_, ?_, ?_, ?_⟩)
        (fun c h1 _ => ⟨i, hlt, h0, ?_, hdk, fun c' hcc => ?_, ?_, ?_, ?_⟩) fun _ _ => trivial
      · by_contra hl
        have := hlocked c (by simpa using hl)
        rw [h3] at this
        exact h.not_cached h0 c this
      · simp [hcc]
      · simpa using h3
      · simpa using h2
      · by_contra hv
        exact h.not_cached h0 c ⟨h1, by simpa using hv, h3⟩
      · by_contra hl
        have := (hlocked c (by simpa using hl)).1
        simp only at h1
        omega
      · simp [hcc]
      · simp
      · simp
      · simp
  exact hloop _ 1 fun hn => by omega

def newNode (type major minor : ℕ) : Node := ⟨type, major % 2 ^ 16, minor % 2 ^ 16, 1, 0, fun _ => 0⟩

theorem wp_newInode {α : Type} {K : Cell → FsM α} {Q : α → FsState → Prop} {type major minor : ℕ} (h : Inv m b r l s)
    (htype : type ≠ 0) (hlt : type < 2 ^ 16)
    (hQ : ∀ i c t, (s.node i).type = 0 → l c = false → (t.icache c).inum = i → Inv m b (plus r c) (update l c true) t →
      t.table.core i = t.core i → t.node i = newNode type major minor →
      Writes m r (onNode i fun _ => newNode type major minor) s t → wp (K c) t Q fun _ => True) :
    wp (do
      let c ← ialloc rootdev type
      ilock c
      setD c fun d => { d with major := major % 2 ^ 16, minor := minor % 2 ^ 16, nlink := 1 }
      iupdate c
      K c) s Q fun _ => True := by
  rw [wp_bind]
  refine wp_given (at_ialloc h.toAt rootdev type) (wp_mono (wp_ialloc h hlt) ?_)
  rintro c t ⟨i, hi⟩ ⟨hat, hst⟩
  have hc := plus_self_pos r c
  rw [wp_bind]
  have hd : dinode t.disk.blocks (t.icache c).inum = { Dinode.zero with type := type } := by
    have hcore : t.table.core i = dinode t.disk.blocks i := volume_core hi.lt
    rw [hi.inum, ← hcore, hi.table]
    exact update_self _ _ _
  refine wp_ilock (by rwa [hat.ref]) (fun hl => ?_) (fun _ hv => ?_) (fun _ _ _ => ?_) fun h0 => ?_
  · rw [hat.lock, hi.unlocked] at hl
    cases hl
  · rw [hi.valid] at hv
    cases hv
  · rw [hd, wp_bind, wp_setD, wp_bind, iupdate, wp_bind, wp_inode, wp_onDisk]
    simp only [FsState.set_icache, update_self, FsState.set_set]
    have hfits : Dinode.Fits ⟨type, major % 2 ^ 16, minor % 2 ^ 16, 1, 0, fun _ => 0⟩ :=
      ⟨hlt, Nat.mod_lt _ (by decide), Nat.mod_lt _ (by decide), Nat.one_lt_two_pow (by decide), Nat.two_pow_pos 32,
      fun _ => Nat.two_pow_pos 32, fun _ _ => rfl⟩
    refine wp_putDinode (by rw [hi.inum]; exact hi.lt) hfits fun dk hdk => ?_
    rw [hi.inum] at hdk
    set n : Inode := { t.icache c with
      lock := true, valid := true, d := ⟨type, major % 2 ^ 16, minor % 2 ^ 16, 1, 0, fun _ => 0⟩ } with hn
    have ha := at_lock (n := n) hat hc rfl rfl rfl rfl
    have hs : Stays r s (t.set c n) := Trans.trans hst (stays_set (r := r) fun _ => ⟨rfl, rfl, fun _ => rfl⟩)
    obtain ⟨hinv, hlive, hsame, hsync, h0⟩ := h.born (t := ⟨dk, (t.set c n).icache⟩) htype hfits
      (fun _ => rfl) rfl Nat.one_ne_zero hi.lt hi.free ⟨ha.ref, ha.lock, ha.unique⟩ hs
      (fun c' hcc => by simp [hcc, hi.cells c' hcc]) (by simp [hn, hi.inum]) (by simp [hn, hi.dev]) (by simp [hn])
      (by simp [hn]) (by
        change volume dk.blocks = _
        rw [hdk]
        change t.table.setCore _ _ = _
        rw [hi.table, Volume.setCore, Volume.setCore, update_idem]
        rfl)
    have hnode : ∀ j, FsState.node ⟨dk, (t.set c n).icache⟩ j = onNode i (fun _ => newNode type major minor) j (s.node j) := by
      intro j
      rw [FsState.node, hlive, Volume.node_born h0 fun _ => rfl]
      rfl
    refine hQ i c _ h0 hi.unlocked (by simp [hi.inum]) hinv hsame ((hnode i).trans (if_pos rfl)) ⟨hs, fun c' _ => hnode _,
      fun c' hc' hv' => ?_, fun _ => hnode, fun _ => hsync⟩
    · have hne : (s.icache c').inum ≠ i := by
        intro he
        have htyped := h.typed c' hc' hv'
        rw [← h.core_eq_d hc' hv', he] at htyped
        exact htyped h0
      have hself := hnode (s.icache c').inum
      rw [onNode, if_neg hne] at hself
      exact congrArg Node.type hself
  · rw [hd] at h0
    exact absurd h0 htype

end Laboratorio.Fs
