import Laboratorio.Fs.Cells

/-!
Every function of `xv6/fs.c` gives back the references and locks it takes, but for those that it returns.
-/

namespace Laboratorio.Fs

open Function

def Inode.head (ip : Inode) : Inode := { ip with d := Dinode.zero }

def Still (s t : FsState) : Prop := ∀ c, (t.icache c).head = (s.icache c).head

instance : Std.Refl Still := ⟨fun _ _ => rfl⟩

instance : IsTrans FsState Still := ⟨fun _ _ _ h h' c => (h' c).trans (h c)⟩

/-- `r` counts the references to each cell and `l` tells which are locked. -/
structure At (s : FsState) (r : Cell → ℕ) (l : Cell → Bool) : Prop where
  ref : ∀ c, (s.icache c).ref = r c
  lock : ∀ c, (s.icache c).lock = l c
  unique : ∀ c c', 0 < r c → 0 < r c' → (s.icache c).dev = (s.icache c').dev → (s.icache c).inum = (s.icache c').inum → c = c'

def Stays (r : Cell → ℕ) (s t : FsState) : Prop :=
  ∀ c, 0 < r c → (t.icache c).dev = (s.icache c).dev ∧ (t.icache c).inum = (s.icache c).inum ∧
    ((s.icache c).valid = true → (t.icache c).valid = true)

instance (r : Cell → ℕ) : Std.Refl (Stays r) := ⟨fun _ _ _ => ⟨rfl, rfl, id⟩⟩

instance (r : Cell → ℕ) : IsTrans FsState (Stays r) := by
  refine ⟨fun s t u h h' c hc => ?_⟩
  obtain ⟨h1, h2, h3⟩ := h c hc
  obtain ⟨h1', h2', h3'⟩ := h' c hc
  exact ⟨h1'.trans h1, h2'.trans h2, fun hv => h3' (h3 hv)⟩

def Under (r r' : Cell → ℕ) : Prop := ∀ c, 0 < r c → 0 < r' c

theorem Under.refl (r : Cell → ℕ) : Under r r := fun _ => id

variable {r r' : Cell → ℕ}

theorem Under.trans {r'' : Cell → ℕ} (h : Under r r') (h' : Under r' r'') : Under r r'' := fun c hc => h' c (h c hc)

theorem Stays.mono {s t : FsState} (h : Stays r' s t) (hr : Under r r') : Stays r s t := fun c hc => h c (hr c hc)

theorem Under.call {α : Type} {m : FsM α} {s : FsState} {Q : α → FsState → Prop} {E : Fault → Prop}
    (hr : Under r r') (h : wpr (Stays r') m s Q E) : wpr (Stays r) m s Q E := h.mono (fun _ ht => ht.mono hr) fun _ _ => id

section still

variable {s t : FsState} {r : Cell → ℕ} {l : Cell → Bool} (h : Still s t)
include h

theorem Still.ref (c : Cell) : (t.icache c).ref = (s.icache c).ref :=
  show (t.icache c).head.ref = (s.icache c).head.ref from congrArg Inode.ref (h c)

theorem Still.lock (c : Cell) : (t.icache c).lock = (s.icache c).lock :=
  show (t.icache c).head.lock = (s.icache c).head.lock from congrArg Inode.lock (h c)

theorem Still.dev (c : Cell) : (t.icache c).dev = (s.icache c).dev :=
  show (t.icache c).head.dev = (s.icache c).head.dev from congrArg Inode.dev (h c)

theorem Still.inum (c : Cell) : (t.icache c).inum = (s.icache c).inum :=
  show (t.icache c).head.inum = (s.icache c).head.inum from congrArg Inode.inum (h c)

theorem Still.valid (c : Cell) : (t.icache c).valid = (s.icache c).valid :=
  show (t.icache c).head.valid = (s.icache c).head.valid from congrArg Inode.valid (h c)

theorem Still.at (ha : At s r l) : At t r l where
  ref := fun c => (h.ref c).trans (ha.ref c)
  lock := fun c => (h.lock c).trans (ha.lock c)
  unique := fun c c' hc hc' hd hi => ha.unique c c' hc hc' (by rwa [h.dev, h.dev] at hd) (by rwa [h.inum, h.inum] at hi)

theorem Still.stays : Stays r s t := fun c _ => ⟨h.dev c, h.inum c, fun hv => (h.valid c).trans hv⟩

end still

section quiet

variable {α : Type}

abbrev Quiet (m : FsM α) : Prop := Keeps Still Fault.Other m

theorem quiet_onDisk {m : DiskM α} (h : Keeps (fun _ _ => True) Fault.Other m) : Quiet (onDisk m) := by
  intro s
  rw [wp_onDisk]
  exact wp_mono (h s.disk) fun _ _ _ _ => rfl

theorem quiet_setD (c : Cell) (f : Dinode → Dinode) : Quiet (setD c f) := by
  refine Keeps.change fun s c' => ?_
  by_cases hc : c' = c
  · subst hc
    simp [Inode.head]
  · simp [hc]

theorem quiet_inode (c : Cell) : Quiet (inode c) := Keeps.read.bind fun _ => Keeps.ret _

instance : Std.Refl (fun _ _ : Disk => True) := ⟨fun _ => trivial⟩

instance : IsTrans Disk (fun _ _ => True) := ⟨fun _ _ _ _ _ => trivial⟩

section disk

variable {E : Fault → Prop}

theorem keeps_bread (b : ℕ) : Keeps (fun _ _ => True) E (bread b) := Keeps.read.bind fun _ => Keeps.ret _

theorem keeps_logWrite (b : ℕ) (f : Bytes) : Keeps (fun _ _ => True) E (logWrite b f) := Keeps.change fun _ => trivial

variable [sb : Superblock]

theorem keeps_balloc : Keeps (fun _ _ => True) Fault.Other balloc := by
  unfold balloc
  generalize (sb.size + bpb - 1) / bpb = n
  generalize 0 = b
  induction n generalizing b with
  | zero => exact Keeps.fail rfl
  | succ n ih =>
    refine (keeps_bread _).bind fun bp => ?_
    split
    · exact (keeps_logWrite _ _).bind fun _ => ((keeps_bread _).bind fun _ => keeps_logWrite _ _).bind fun _ => Keeps.ret _
    · exact ih _

theorem keeps_bfree (b : ℕ) : Keeps (fun _ _ => True) Fault.Other (bfree b) :=
  (keeps_bread _).bind fun _ => Keeps.ite (fun _ => Keeps.fail rfl) fun _ => keeps_logWrite _ _

theorem keeps_putDinode (i : ℕ) (d : Dinode) : Keeps (fun _ _ => True) E (putDinode i d) :=
  (keeps_bread _).bind fun _ => keeps_logWrite _ _

end disk

variable [Superblock]

theorem quiet_iupdate (c : Cell) : Quiet (iupdate c) := (quiet_inode c).bind fun _ => quiet_onDisk (keeps_putDinode _ _)

theorem quiet_bmap (c : Cell) (bn : ℕ) : Quiet (bmap c bn) := by
  have halloc : Quiet (onDisk balloc) := quiet_onDisk keeps_balloc
  refine (quiet_inode c).bind fun ip => Keeps.ite (fun _ => ?_) fun _ => Keeps.ite (fun _ => ?_) fun _ => Keeps.fail rfl
  · exact Keeps.ite (fun _ => halloc.bind fun _ => (quiet_setD _ _).bind fun _ => Keeps.ret _) fun _ => Keeps.ret _
  · refine Keeps.ite (fun _ => halloc.bind fun _ => (quiet_setD _ _).bind fun _ => (Keeps.ret _).bind fun _ => ?_)
      fun _ => (Keeps.ret _).bind fun _ => ?_
    all_goals
      refine (quiet_onDisk (keeps_bread _)).bind fun _ => Keeps.ite (fun _ => ?_) fun _ => Keeps.ret _
      exact halloc.bind fun _ => (quiet_onDisk (keeps_logWrite _ _)).bind fun _ => Keeps.ret _

theorem quiet_itrunc (c : Cell) : Quiet (itrunc c) := by
  have hfree : ∀ b, Quiet (onDisk (bfree b)) := fun b => quiet_onDisk (keeps_bfree b)
  have htail : Quiet (do setD c fun d => { d with size := 0 }; iupdate c) := (quiet_setD _ _).bind fun _ => quiet_iupdate c
  refine Keeps.bind (Keeps.forM (fun i => ?_) _) fun _ => (quiet_inode c).bind fun _ => ?_
  · refine (quiet_inode c).bind fun _ => Keeps.ite (fun _ => ?_) fun _ => Keeps.ret _
    exact (hfree _).bind fun _ => quiet_setD _ _
  · refine Keeps.ite (fun _ => ?_) fun _ => htail
    refine (quiet_onDisk (keeps_bread _)).bind fun _ => Keeps.bind (Keeps.forM (fun j => ?_) _) fun _ => ?_
    · exact Keeps.ite (fun _ => hfree _) fun _ => Keeps.ret _
    · exact (hfree _).bind fun _ => (quiet_setD _ _).bind fun _ => htail

theorem quiet_readiLoop (c : Cell) (fuel off n : ℕ) : Quiet (readiLoop c fuel off n) := by
  induction fuel generalizing off n with
  | zero => exact Keeps.ret _
  | succ fuel ih =>
    refine Keeps.ite (fun _ => Keeps.ret _) fun _ => (quiet_bmap _ _).bind fun _ =>
      (quiet_onDisk (keeps_bread _)).bind fun _ => ?_
    exact (ih _ _).bind fun _ => Keeps.ret _

theorem quiet_readi (dev : Option (List UInt8)) (c : Cell) (off n : ℕ) : Quiet (readi dev c off n) := by
  refine (quiet_inode c).bind fun ip => Keeps.ite (fun _ => Keeps.ret _) fun _ => Keeps.ite (fun _ => Keeps.ret _) fun _ => ?_
  exact (quiet_readiLoop _ _ _ _).bind fun _ => Keeps.ret _

theorem quiet_writeiLoop (c : Cell) (fuel off : ℕ) (src : List UInt8) : Quiet (writeiLoop c fuel off src) := by
  induction fuel generalizing off src with
  | zero => exact Keeps.ret _
  | succ fuel ih =>
    refine Keeps.ite (fun _ => Keeps.ret _) fun _ => (quiet_bmap _ _).bind fun _ =>
      (quiet_onDisk (keeps_bread _)).bind fun _ => ?_
    exact (quiet_onDisk (keeps_logWrite _ _)).bind fun _ => ih _ _

theorem quiet_writei (dev : Option ℕ) (c : Cell) (src : List UInt8) (off : ℕ) : Quiet (writei dev c src off) := by
  refine (quiet_inode c).bind fun ip => Keeps.ite (fun _ => Keeps.ret _) fun _ => Keeps.ite (fun _ => Keeps.ret _) fun _ =>
    Keeps.ite (fun _ => Keeps.ret _) fun _ => (quiet_writeiLoop _ _ _ _).bind fun _ => (quiet_inode c).bind fun _ => ?_
  refine Keeps.ite (fun _ => ?_) fun _ => (Keeps.ret _).bind fun _ => Keeps.ret _
  exact (quiet_setD _ _).bind fun _ => (quiet_iupdate c).bind fun _ => Keeps.ret _

theorem quiet_readDirent {e : Fault} (he : e.Other) (c : Cell) (off : ℕ) : Quiet (readDirent e c off) := by
  refine (quiet_readi _ _ _ _).bind fun l => ?_
  cases l with
  | none => exact Keeps.fail he
  | some l => exact Keeps.ite (fun _ => Keeps.ret _) fun _ => Keeps.fail he

theorem quiet_emptySlot (c : Cell) (off n : ℕ) : Quiet (emptySlot c off n) := by
  induction n generalizing off with
  | zero => exact Keeps.ret _
  | succ n ih =>
    exact (quiet_readDirent (e := .dirlinkRead) rfl c off).bind fun _ => Keeps.ite (fun _ => Keeps.ret _) fun _ => ih _

end quiet

def plus (r : Cell → ℕ) (c : Cell) : Cell → ℕ := update r c (r c + 1)

theorem plus_self (r : Cell → ℕ) (c : Cell) : plus r c c = r c + 1 := update_self _ _ _

theorem plus_of_ne {c c' : Cell} (h : c' ≠ c) : plus r c c' = r c' := update_of_ne h _ _

theorem plus_apply (r : Cell → ℕ) (c c' : Cell) : plus r c c' = r c' + if c' = c then 1 else 0 := by
  by_cases h : c' = c
  · rw [h, plus_self, if_pos rfl]
  · rw [plus_of_ne h, if_neg h, Nat.add_zero]

theorem plus_comm (r : Cell → ℕ) (c c' : Cell) : plus (plus r c) c' = plus (plus r c') c := by
  by_cases h : c = c'
  · rw [h]
  · unfold plus
    rw [update_of_ne (Ne.symm h), update_of_ne h, update_comm h]

theorem plus_pos (c : Cell) {c' : Cell} (h : 0 < r c') : 0 < plus r c c' := by
  by_cases hc : c' = c
  · rw [hc, plus_self]
    omega
  · rwa [plus_of_ne hc]

theorem Under.plus (h : Under r r') (c : Cell) : Under r (plus r' c) := fun _ hc => plus_pos c (h _ hc)

theorem plus_self_pos (r : Cell → ℕ) (c : Cell) : 0 < plus r c c := by
  rw [plus_self]
  omega

section at_

variable {s t : FsState} {r : Cell → ℕ} {l : Cell → Bool} {c : Cell}

theorem At.set (h : At s r l) {n : Inode} (hd : n.dev = (s.icache c).dev) (hi : n.inum = (s.icache c).inum)
    (hr : 0 < n.ref → 0 < r c) : At (s.set c n) (update r c n.ref) (update l c n.lock) where
  ref := fun c' => by
    by_cases hc : c' = c
    · simp [hc]
    · simp [hc, h.ref]
  lock := fun c' => by
    by_cases hc : c' = c
    · simp [hc]
    · simp [hc, h.lock]
  unique := by
    have hpos : ∀ c', 0 < update r c n.ref c' → 0 < r c' := by
      intro c' hc'
      by_cases hc : c' = c
      · rw [hc, update_self] at hc'
        exact hc ▸ hr hc'
      · rwa [update_of_ne hc] at hc'
    have hdev : ∀ c', ((s.set c n).icache c').dev = (s.icache c').dev ∧ ((s.set c n).icache c').inum = (s.icache c').inum := by
      intro c'
      by_cases hc : c' = c
      · simp [hc, hd, hi]
      · simp [hc]
    intro c' c'' h' h'' hdd hii
    rw [(hdev c').1, (hdev c'').1] at hdd
    rw [(hdev c').2, (hdev c'').2] at hii
    exact h.unique c' c'' (hpos c' h') (hpos c'' h'') hdd hii

variable {ip : Inode}

theorem stays_set (h : 0 < r c → ip.dev = (s.icache c).dev ∧ ip.inum = (s.icache c).inum ∧
    ((s.icache c).valid = true → ip.valid = true)) : Stays r s (s.set c ip) := by
  intro c' hc'
  by_cases hc : c' = c
  · subst hc
    simpa using h hc'
  · simp [hc]

theorem update_same (h : At s r l) (hip : ip.lock = (s.icache c).lock) : update l c ip.lock = l := by
  rw [hip, h.lock, update_eq_self]

theorem at_iget (h : At s r l) (dev inum : ℕ) : wpr (Stays r) (iget dev inum) s (fun c t => At t (plus r c) l) Fault.Other := by
  refine wp_iget (fun c h1 h2 h3 => ?_) (fun c h0 hno => ?_) fun _ _ => rfl
  · rw [h.ref] at h1
    have hset := h.set (n := { s.icache c with ref := (s.icache c).ref + 1 }) rfl rfl (fun _ => h1)
    rw [update_same h rfl] at hset
    refine ⟨?_, stays_set fun _ => ⟨rfl, rfl, id⟩⟩
    simpa only [plus, h.ref] using hset
  rw [h.ref] at h0
  refine ⟨⟨fun c' => ?_, fun c' => ?_, fun c' c'' h' h'' hdd hii => ?_⟩, stays_set fun hc => absurd hc (by omega)⟩
  · by_cases hc : c' = c
    · simp [hc, plus, h0]
    · simp [hc, plus, h.ref]
  · by_cases hc : c' = c
    · simp [hc, h.lock]
    · simp [hc, h.lock]
  by_cases hc' : c' = c
  · by_cases hc'' : c'' = c
    · rw [hc', hc'']
    · rw [plus_of_ne hc'', ← h.ref] at h''
      simp only [hc', FsState.set_icache, update_self, update_of_ne hc''] at hdd hii
      exact absurd hii.symm (hno c'' h'' hdd.symm)
  · by_cases hc'' : c'' = c
    · rw [plus_of_ne hc', ← h.ref] at h'
      simp only [hc'', FsState.set_icache, update_self, update_of_ne hc'] at hdd hii
      exact absurd hii (hno c' h' hdd)
    · rw [plus_of_ne hc'] at h'
      rw [plus_of_ne hc''] at h''
      simp only [FsState.set_icache, update_of_ne hc', update_of_ne hc''] at hdd hii
      exact h.unique c' c'' h' h'' hdd hii

theorem at_idup (h : At s r l) (hc : 0 < r c) {E : Fault → Prop} :
    wpr (Stays r) (idup c) s (fun c' t => c' = c ∧ At t (plus r c) l) E := by
  refine (wp_bind _ _).mpr (wp_setInode.mpr ?_)
  have hset := h.set (n := { s.icache c with ref := (s.icache c).ref + 1 }) rfl rfl (fun _ => hc)
  rw [update_same h rfl] at hset
  refine wp_ret ⟨⟨rfl, ?_⟩, stays_set fun _ => ⟨rfl, rfl, id⟩⟩
  simpa only [plus, h.ref] using hset

theorem at_lock (h : At s r l) (hc : 0 < r c) {n : Inode} {b : Bool} (hd : n.dev = (s.icache c).dev)
    (hi : n.inum = (s.icache c).inum) (hr : n.ref = (s.icache c).ref) (hb : n.lock = b) : At (s.set c n) r (update l c b) := by
  have hset := h.set hd hi (fun _ => hc)
  rw [hr, h.ref, update_eq_self, hb] at hset
  exact hset

theorem at_iunlock (h : At s r (update l c true)) (hc : 0 < r c) (hl : l c = false) {E : Fault → Prop} :
    wpr (Stays r) (iunlock c) s (fun _ t => At t r l) E := by
  refine wp_iunlock (by rw [h.lock, update_self]) (by rwa [h.ref]) ⟨?_, stays_set fun _ => ⟨rfl, rfl, id⟩⟩
  have := at_lock h hc (n := { s.icache c with lock := false }) rfl rfl rfl rfl
  have hupd : update (update l c true) c false = l := by rw [update_idem, ← hl, update_eq_self]
  rwa [hupd] at this

theorem at_drop (h : At s (plus r c) l) (hd : ip.dev = (s.icache c).dev) (hi : ip.inum = (s.icache c).inum)
    (hr : ip.ref = (s.icache c).ref - 1) (hl : ip.lock = (s.icache c).lock) : At (s.set c ip) r l := by
  have hset := h.set hd hi (fun _ => plus_self_pos r c)
  rw [update_same h hl, hr, h.ref, plus_self, Nat.add_sub_cancel] at hset
  have hupd : update (plus r c) c (r c) = r := by simp [plus]
  rwa [hupd] at hset

theorem Quiet.at {α : Type} {m : FsM α} (hm : Quiet m) (h : At s r l) : wpr (Stays r) m s (fun _ t => At t r l) Fault.Other :=
  wp_mono (hm s) fun _ _ ht => ⟨ht.at h, ht.stays⟩

def gain {α : Type} (r : Cell → ℕ) (res : Option (Cell × α)) : Cell → ℕ := res.elim r fun x => plus r x.1

variable [Superblock]

theorem at_ilock (h : At s r l) (hc : 0 < r c) :
    wpr (Stays r) (ilock c) s (fun _ t => l c = false ∧ At t r (update l c true)) Fault.Other := by
  refine wp_ilock (by rwa [h.ref]) (fun _ => rfl) (fun hl _ => ⟨⟨?_, ?_⟩, ?_⟩) (fun hl _ _ => ⟨⟨?_, ?_⟩, ?_⟩) fun _ _ => rfl
  · rw [← h.lock, hl]
  · exact at_lock h hc rfl rfl rfl rfl
  · exact stays_set fun _ => ⟨rfl, rfl, id⟩
  · rw [← h.lock, hl]
  · exact at_lock h hc rfl rfl rfl rfl
  · exact stays_set fun _ => ⟨rfl, rfl, fun _ => rfl⟩

theorem at_iput (h : At s (plus r c) l) : wpr (Stays r) (iput c) s (fun _ t => At t r l) Fault.Other := by
  refine wp_iput (fun _ => rfl) (fun _ _ => ⟨at_drop h rfl rfl rfl rfl, stays_set fun _ => ⟨rfl, rfl, id⟩⟩)
    fun hl hv hn hr => ?_
  have hrc : r c = 0 := by
    rw [h.ref, plus_self] at hr
    omega
  have hlock : At (s.set c { s.icache c with lock := true }) (plus r c) (update l c true) :=
    at_lock h (plus_self_pos r c) rfl rfl rfl rfl
  have hs : Stays r s (s.set c { s.icache c with lock := true }) := stays_set fun _ => ⟨rfl, rfl, id⟩
  refine wp_mono (quiet_itrunc c _) fun _ t1 h1 => wp_mono (quiet_setD c _ t1) fun _ t2 h2 => wp_mono (quiet_iupdate c t2)
    fun _ t3 h3 => ?_
  have hstill : Still (s.set c { s.icache c with lock := true }) t3 := Trans.trans (Trans.trans h1 h2) h3
  have ha := hstill.at hlock
  have hset := ha.set (n := { t3.icache c with valid := false, lock := false, ref := (t3.icache c).ref - 1 }) rfl rfl
    (fun _ => plus_self_pos r c)
  have hgone : Stays r t3 (t3.set c { t3.icache c with valid := false, lock := false, ref := (t3.icache c).ref - 1 }) :=
    stays_set fun hc => absurd hc (by omega)
  have hs' : Stays r s t3 := Trans.trans hs (hstill.stays (r := r))
  refine ⟨?_, Trans.trans hs' hgone⟩
  have hr' : update (plus r c) c ((t3.icache c).ref - 1) = r := by simp [ha.ref, plus]
  have hl' : update (update l c true) c false = l := by simp [← h.lock, hl]
  simpa only [hr', hl'] using hset

theorem at_iunlockput (h : At s (plus r c) (update l c true)) (hl : l c = false) :
    wpr (Stays r) (iunlockput c) s (fun _ t => At t r l) Fault.Other :=
  (((Under.refl r).plus c).call (at_iunlock h (plus_self_pos r c) hl)).bind fun _ _ h' => at_iput h'

theorem at_dirlookup (h : At s r l) (name : Name) :
    wpr (Stays r) (dirlookup c name) s (fun res t => At t (gain r res) l) Fault.Other := by
  have hloop : ∀ n off s, At s r l → wpr (Stays r) (dirlookupLoop c name off n) s
    (fun res t => At t (gain r res) l) Fault.Other := by
    intro n
    induction n with
    | zero => exact fun _ s h => wpr.ret h
    | succ n ih =>
      intro off s h
      refine ((quiet_readDirent (e := .dirlookupRead) rfl c off).at h).bind fun de t ht => wpr.ite (fun _ => ?_)
        fun _ => ih _ t ht
      exact ((quiet_inode c).at ht).bind fun _ u hu => (at_iget hu _ _).bind fun _ _ h => wpr.ret h
  exact ((quiet_inode c).at h).bind fun _ t ht => wpr.ite (fun _ => wpr.fail rfl) fun _ => hloop _ _ t ht

theorem at_dirlink (h : At s r l) (name : Name) (inum : ℕ) :
    wpr (Stays r) (dirlink c name inum) s (fun _ t => At t r l) Fault.Other := by
  refine (at_dirlookup h name).bind ?_
  rintro (_ | ⟨ip, off⟩) t ht
  · refine ((quiet_inode c).at ht).bind fun _ u hu => ((quiet_emptySlot c _ _).at hu).bind fun off v hv => ?_
    exact ((quiet_writei _ c _ off).at hv).bind fun n w hw => wpr.ite (fun _ => wpr.ret hw) fun _ => wpr.fail rfl
  · exact (at_iput ht).bind fun _ _ hu => wpr.ret hu

end at_

theorem skipelem_length {path path' : List UInt8} {name : Name} (h : skipelem path = some (name, path')) :
    path'.length < path.length := by
  unfold skipelem at h
  simp only at h
  split_ifs at h with h0
  obtain ⟨-, rfl⟩ := Prod.mk.inj (Option.some.inj h)
  have hle : (path.dropWhile (· = slash)).length ≤ path.length := (List.dropWhile_suffix _).length_le
  cases hp : path.dropWhile (· = slash) with
  | nil => simp [hp] at h0
  | cons a q =>
    have ha : a ≠ slash := by
      have := List.head_dropWhile_not (p := fun x => decide (x = slash)) (l := path) (by simp [hp])
      simpa [hp] using this
    have ha0 : a ≠ 0 := by simpa [hp] using h0
    rw [hp, List.length_cons] at hle
    have h1 := (List.dropWhile_suffix (l := q) fun c : UInt8 => decide (c ≠ slash ∧ c ≠ 0)).length_le
    have h2 := (List.dropWhile_suffix (l := q.dropWhile fun c => decide (c ≠ slash ∧ c ≠ 0)) fun c : UInt8 =>
      decide (c = slash)).length_le
    rw [List.dropWhile_cons_of_pos (by simp [ha, ha0])]
    omega

variable [Superblock] {s : FsState} {r : Cell → ℕ} {l : Cell → Bool}

theorem at_namexLoop {parent : Bool} {fuel : ℕ} {ip : Cell} {path : List UInt8} {name : Name} (h : At s (plus r ip) l)
    (hfuel : path.length < fuel) :
    wpr (Stays r) (namexLoop parent fuel ip path name) s (fun res t => At t (gain r res) l) Fault.Other := by
  induction fuel generalizing ip path name s with
  | zero => omega
  | succ fuel ih =>
    have hu : Under r (plus r ip) := (Under.refl r).plus ip
    rw [namexLoop]
    cases hskip : skipelem path with
    | none => exact wpr.ite (fun _ => (at_iput h).bind fun _ _ ht => wpr.ret ht) fun _ => wpr.ret h
    | some x =>
      obtain ⟨name', path'⟩ := x
      have hlen := skipelem_length hskip
      refine (hu.call (at_ilock h (plus_self_pos r ip))).bind fun _ t ⟨hl, ht⟩ => ?_
      refine (hu.call ((quiet_inode ip).at ht)).bind fun _ t ht => wpr.ite (fun _ => ?_) fun _ =>
        wpr.ite (fun _ => ?_) fun _ => ?_
      · exact (at_iunlockput ht hl).bind fun _ _ h => wpr.ret h
      · exact (hu.call (at_iunlock ht (plus_self_pos r ip) hl)).bind fun _ _ h => wpr.ret h
      · refine (hu.call (at_dirlookup ht name')).bind ?_
        rintro (_ | ⟨next, off⟩) t ht
        · exact (at_iunlockput ht hl).bind fun _ _ h => wpr.ret h
        · have ht' : At t (plus (plus r next) ip) (update l ip true) := plus_comm r ip next ▸ ht
          exact (((Under.refl r).plus next).call (at_iunlockput ht' hl)).bind fun _ _ h => ih h (by omega)

theorem at_namex {cwd : Option Cell} {path : List UInt8} {parent : Bool} (h : At s r l) (hcwd : ∃ c, cwd = some c ∧ 0 < r c) :
    wpr (Stays r) (namex cwd path parent) s (fun res t => At t (gain r res) l) Fault.Other := by
  obtain ⟨c, rfl, hc⟩ := hcwd
  refine wpr.ite (fun _ => ?_) fun _ => ?_
  · exact (at_iget h _ _).bind fun _ _ ht => at_namexLoop ht (Nat.lt_succ_self _)
  · refine (at_idup h hc).bind ?_
    rintro _ t ⟨rfl, ht⟩
    exact at_namexLoop ht (Nat.lt_succ_self _)

end Laboratorio.Fs
