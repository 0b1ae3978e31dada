import Laboratorio.Fs.Entries

namespace Laboratorio.Fs

open Bytes Function

variable [sb : Superblock] {m : Mode} {b r : Cell → ℕ} {l : Cell → Bool} {s t : FsState} {c : Cell} {E : Fault → Prop}

omit sb in
theorem under_both {r' : Cell → ℕ} (h : Under r r') (c : Cell) : Under (plus r c) (plus r' c) := by
  intro c' hc'
  by_cases hcc : c' = c
  · rw [hcc]
    exact plus_self_pos r' c
  · rw [plus_of_ne hcc] at hc'
    exact plus_pos c (h c' hc')

def Node.relink (f : ℕ → ℕ) (a : Node) : Node := { a with nlink := f a.nlink }

theorem inv_relink {α : Type} {K : Unit → FsM α} {Q : α → FsState → Prop} {f : ℕ → ℕ} (h : Inv m b r l s) (hl : l c = true)
    (hf : ∀ n, f n < 2 ^ 16) (hkept : f (s.icache c).d.nlink = 0 → 0 < b c)
    (hQ : ∀ t, Inv m b r l t → t.table.core (s.icache c).inum = t.core (s.icache c).inum →
      Settles m r (onNode (s.icache c).inum (Node.relink f)) s t → wp (K ()) t Q E) :
    wp (setD c (fun d => { d with nlink := f d.nlink }) >>= fun _ => iupdate c >>= K) s Q E := by
  obtain ⟨hc, hv⟩ := h.locked c hl
  have hcore : s.live.core (s.icache c).inum = (s.icache c).d := h.core_eq_d hc hv
  have hfits := h.fits c hc hv
  have haddrs : ({ (s.icache c).d with nlink := f (s.icache c).d.nlink } : Dinode).addrs =
    (s.live.core (s.icache c).inum).addrs := (congrArg Dinode.addrs hcore).symm
  have htype : ({ (s.icache c).d with nlink := f (s.icache c).d.nlink } : Dinode).type = (s.live.core (s.icache c).inum).type :=
    (congrArg Dinode.type hcore).symm
  have hsize : ({ (s.icache c).d with nlink := f (s.icache c).d.nlink } : Dinode).size = (s.live.core (s.icache c).inum).size :=
    (congrArg Dinode.size hcore).symm
  refine wp_setD_iupdate h.toSound hc hv ⟨hfits.type, hfits.major, hfits.minor, hf _, hfits.size, hfits.addrs,
    hfits.short⟩ rfl ?_ h.tidy hkept (fun j _ ha => h.ahead j ha) fun t ht hup => hQ t ht hup.self ?_
  · refine h.whole.setCore haddrs (by rw [htype]) (fun hdir k hk => ?_) fun hd hty k hk => ?_
    · exact h.whole.law _ k (htype ▸ hdir) (hsize ▸ hk)
    · exact h.whole.full hd _ k (htype ▸ hty) (hsize ▸ hk)
  obtain ⟨hst, hself, hapart, hlive⟩ := hup
  have hnode : ∀ j, t.node j = onNode (s.icache c).inum (Node.relink f) j (s.node j) := by
    intro j
    rw [FsState.node, hlive, Volume.node_setCore (Volume.own_setCore haddrs (by rw [htype]))]
    unfold onNode
    split_ifs with hj
    · subst hj
      rw [← hcore]
      rfl
    · rfl
  have hdata : t.live.data = s.live.data := by
    rw [hlive]
    rfl
  refine ⟨⟨hst.stays, fun c' _ => hnode _,
    fun c' _ _ => by rw [hnode]; exact onNode_type (f := Node.relink f) (fun _ => rfl) _ _, fun _ => hnode, fun _ j hj => ?_⟩,
    fun _ => ⟨hnode, fun j hj => ?_⟩⟩
  · by_cases hji : j = (s.icache c).inum
    · rw [hji, hself]
    · rw [(hapart j hji).1, (hapart j hji).2, hj]
  · by_cases hji : j = (s.icache c).inum
    · rw [hji]
      exact node_of_synced hself
    · rw [hnode, onNode, if_neg hji, ← hj]
      exact Volume.node_congr (hapart j hji).1 hdata

theorem inv_relinked {f : ℕ → ℕ} (h : Inv m b r l s) (hl : l c = true) (hf : ∀ n, f n < 2 ^ 16)
    (hkept : f (s.icache c).d.nlink = 0 → 0 < b c) :
    wp (setD c (fun d => { d with nlink := f d.nlink }) >>= fun _ => iupdate c) s (fun _ t => Inv m b r l t ∧
      t.table.core (s.icache c).inum = t.core (s.icache c).inum ∧
      Settles m r (onNode (s.icache c).inum (Node.relink f)) s t) E := by
  have hrelink := inv_relink (E := E) (Q := fun _ t => Inv m b r l t ∧ t.table.core (s.icache c).inum =
    t.core (s.icache c).inum ∧ Settles m r (onNode (s.icache c).inum (Node.relink f)) s t) h hl hf hkept fun t ht hsync hw =>
    wp_ret ⟨ht, hsync, hw⟩
  simpa only [bind_pure] using hrelink

theorem inv_iunlockput_last (h : Inv m (plus b c) (plus b c) (update l c true) s) (hl : l c = false)
    (hahead : s.table.core (s.icache c).inum ≠ s.core (s.icache c).inum → m.dense → 0 < b c) :
    wp (iunlockput c) s (fun _ t => Inv m b b l t ∧
      Settles m b (onNode (s.icache c).inum (Node.release (0 < b c))) s t) E := by
  have hc := plus_self_pos b c
  rw [iunlockput]
  refine wp_seq (inv_iunlock h hl) fun _ t ⟨ht, hst⟩ => ?_
  have hi : (t.icache c).inum = (s.icache c).inum := (hst.stays c hc).2.1
  rw [← hi] at hahead ⊢
  refine wp_mono (inv_iput_last ht hl fun hne hd => hahead ?_ hd) fun _ u ⟨hu, hw⟩ => ⟨hu, ?_⟩
  · rwa [hst.table_eq hd, hst.core_eq hd] at hne
  · exact (hst.mono ((Under.refl b).plus c)).still.compose hw

omit sb in
theorem Node.entry_insert {de : Dirent} (hlen : de.bytes.length = direntSize) (hlt : de.inum < 2 ^ 16) (a : Node) (k : ℕ) :
    (a.insert de).entry k = if k = a.vacant then de else a.entry k := by
  change (a.put (direntSize * a.vacant) de.bytes).entry k = _
  split_ifs with hk
  · rw [hk, entry_put_self a hlen, Dirent.ofBytes_bytes hlt]
  · refine entry_put_of_ne ?_
    rw [hlen]
    rcases Nat.lt_or_gt_of_ne hk with hlt' | hgt
    · exact .inl (by simp only [direntSize]; omega)
    · exact .inr (by simp only [direntSize]; omega)

omit sb in
theorem Node.size_insert {de : Dirent} (hlen : de.bytes.length = direntSize) (a : Node) :
    (a.insert de).size = max a.size (direntSize * a.vacant + direntSize) := by
  change max a.size (direntSize * a.vacant + de.bytes.length) = _
  rw [hlen]

omit sb in
theorem newEntry_lt (name : Name) (i : ℕ) : (newEntry name i).inum < 2 ^ 16 := Nat.mod_lt _ (by decide)

theorem law_newEntry {name : Name} {i j : ℕ} (hj : j < ninodes) (hself : m.strict → j = i → (newEntry name j).Dots) :
    m.Law i (newEntry name j) := by
  have hlt : j < 2 ^ 16 := hj.trans_le sb.ninodes_le
  have hinum : (newEntry name j).inum = j := Nat.mod_eq_of_lt hlt
  intro _ _
  rw [hinum]
  exact ⟨hj, hself⟩

section creating

variable {dp ip : Cell} {d i : ℕ} {name : Name}

def entered (d i : ℕ) (name : Name) (held : Bool) (j : ℕ) (a : Node) : Node :=
  onNode d (Node.release held) j (onNode d (Node.insert (newEntry name i)) j a)

theorem inv_createEnd {base : Cell → ℕ} (h : Inv m base (plus (plus b ip) dp) (update (update unlocked ip true) dp true) s)
    (hbase : Under base (plus (plus b ip) dp)) (hne : dp ≠ ip) (hd : (s.icache dp).inum = d)
    (hi : (s.icache ip).inum = i) (hdi : d ≠ i) (hlink : (s.node i).nlink ≠ 0) (hsync : m.dense → s.table.core i = s.core i)
    (hahead : m.dense → s.table.core d = s.core d ∨ 0 < b dp) :
    wp (do
      let ip' ← inode ip
      let ok ← dirlink dp name ip'.inum
      if (!ok) = true then throw .createDirlink
      else do
        iunlockput dp
        pure (some ip)) s (fun res t => res = some ip ∧ Inv m b (plus b ip) (update unlocked ip true) t ∧
          Writes m (plus b ip) (entered d i name (0 < b dp)) s t) fun _ => True := by
  have hR : Under (plus b ip) (plus (plus b ip) dp) := (Under.refl _).plus dp
  have hdc : 0 < plus (plus b ip) dp dp := plus_self_pos _ dp
  have hic : 0 < plus (plus b ip) dp ip := hR ip (plus_self_pos b ip)
  rw [wp_bind, wp_inode, hi]
  refine wp_seq (inv_dirlink h (update_self _ _ _) hd rfl fun _ => law_newEntry (hi ▸ h.inum ip hic) fun _ he =>
    absurd he.symm hdi) ?_
  rintro ok t ⟨ht, ⟨rfl, -⟩ | ⟨rfl, hw⟩⟩
  · exact (wp_throw _).mpr trivial
  have hdt : (t.icache dp).inum = d := (hw.stays dp hdc).2.1.trans hd
  have hit : (t.icache ip).inum = i := (hw.stays ip hic).2.1.trans hi
  rw [if_neg (by simp), wp_bind]
  have hall : Inv m (plus (plus b ip) dp) (plus (plus b ip) dp) (update (update unlocked ip true) dp true) t :=
    ht.mono hbase (Under.refl _)
  have hflag : plus b ip dp = b dp := plus_of_ne hne
  refine wp_mono (inv_iunlockput_last hall (by rw [update_of_ne hne]; rfl) fun hne' hdense => ?_) fun _ u ⟨hu, hw'⟩ =>
    wp_ret ⟨rfl, ?_, ?_⟩
  · rw [hdt] at hne'
    rw [hflag]
    exact (hahead hdense).resolve_left fun he => hne' (hw.sync hdense d he)
  · rw [hdt] at hw'
    have hiu : (u.icache ip).inum = i := (hw'.stays ip (plus_self_pos b ip)).2.1.trans hit
    have hnode : u.node i = s.node i := by
      have h1 := hw'.node ip (plus_self_pos b ip)
      have h2 := hw.node ip hic
      rw [hit] at h1
      rw [hi] at h2
      rw [h1, h2, onNode, onNode, if_neg hdi.symm, if_neg hdi.symm]
    refine hu.lower ((Under.refl b).plus ip) (fun _ hn => ?_) fun hne' hdense => ?_
    · rw [hiu] at hn
      exact absurd ((congrArg Node.nlink hnode).symm.trans hn) hlink
    · rw [hiu] at hne'
      exact absurd (hw'.sync hdense i (hw.sync hdense i (hsync hdense))) hne'
  · rw [hdt, hflag] at hw'
    exact (hw.mono hR).trans hw'.toWrites

def dotted (d i j : ℕ) (a : Node) : Node :=
  onNode i (Node.insert (newEntry dotdot d)) j
    (onNode i (Node.insert (newEntry dot i)) j (onNode d (Node.relink fun n => (n + 1) % 2 ^ 16) j a))

omit sb in
theorem dotted_self (hdi : d ≠ i) (a : Node) : dotted d i i a = (a.insert (newEntry dot i)).insert (newEntry dotdot d) := by
  unfold dotted onNode
  rw [if_pos rfl, if_pos rfl, if_neg hdi.symm]

omit sb in
theorem dots_dot (i : ℕ) : (newEntry dot i).Dots := by
  left
  change namecmp dot (strncpy dot dirsiz) = true
  decide

omit sb in
theorem dots_dotdot (i : ℕ) : (newEntry dotdot i).Dots := by
  right
  change namecmp dotdot (strncpy dotdot dirsiz) = true
  decide

theorem inv_dots {α : Type} {K : FsM α} {Q : α → FsState → Prop} (h : Inv m b r l s) (hld : l dp = true) (hli : l ip = true)
    (hb : 0 < b dp) (hd : (s.icache dp).inum = d) (hi : (s.icache ip).inum = i)
    (hQ : ∀ t, Inv m b r l t → Writes m r (dotted d i) s t → wp K t Q fun _ => True) :
    wp (do
      setD dp fun d => { d with nlink := (d.nlink + 1) % 2 ^ 16 }
      iupdate dp
      let ip' ← inode ip
      let ok ← dirlink ip dot ip'.inum
      if (!ok) = true then do
        throw .createDots
        K
      else do
        let dp' ← inode dp
        let ok ← dirlink ip dotdot dp'.inum
        if (!ok) = true then do
          throw .createDots
          K
        else K) s Q fun _ => True := by
  obtain ⟨hdc, -⟩ := h.locked dp hld
  obtain ⟨hic, -⟩ := h.locked ip hli
  refine inv_relink (f := fun n => (n + 1) % 2 ^ 16) h hld (fun _ => Nat.mod_lt _ (by decide)) (fun _ => hb)
    fun t1 ht1 _ hw1 => ?_
  rw [hd] at hw1
  have hi1 : (t1.icache ip).inum = i := (hw1.stays ip hic).2.1.trans hi
  rw [wp_bind, wp_inode, hi1, wp_bind]
  refine wp_mono (inv_dirlink ht1 hli hi1 rfl fun _ => law_newEntry (hi ▸ h.inum ip hic) fun _ _ => dots_dot i) ?_
  rintro ok t2 ⟨ht2, ⟨rfl, -⟩ | ⟨rfl, hw2⟩⟩
  · exact (wp_throw _).mpr trivial
  have hd2 : (t2.icache dp).inum = d := ((hw2.stays dp hdc).2.1.trans (hw1.stays dp hdc).2.1).trans hd
  have hi2 : (t2.icache ip).inum = i := (hw2.stays ip hic).2.1.trans hi1
  rw [if_neg (by simp), wp_bind, wp_inode, hd2, wp_bind]
  refine wp_mono (inv_dirlink ht2 hli hi2 rfl fun _ => law_newEntry (hd ▸ h.inum dp hdc) fun _ _ => dots_dotdot d) ?_
  rintro ok t3 ⟨ht3, ⟨rfl, -⟩ | ⟨rfl, hw3⟩⟩
  · exact (wp_throw _).mpr trivial
  exact hQ t3 ht3 ((hw1.toWrites.trans hw2).trans hw3)

end creating

inductive Created (m : Mode) (b : Cell → ℕ) (s : FsState) (cwd : ℕ) (path : List UInt8) (type : ℕ) :
  Option Cell → FsState → Prop
  | failed {t : FsState} (inv : Inv m b b unlocked t) (reads : Reads m b s t) (walk : ∀ d name, walkFrom s.node true cwd path =
      some (d, name) → (s.node d).find name ≠ none) : Created m b s cwd path type none t
  | found {ip : Cell} {t : FsState} {d : ℕ} {name : Name} (inv : Inv m b (plus b ip) (update unlocked ip true) t)
      (asked : type = tFile) (file : (t.icache ip).d.type = tFile) (reads : Reads m b s t)
      (walk : walkFrom s.node true cwd path = some (d, name) ∧ (s.node d).find name ≠ none) :
      Created m b s cwd path type (some ip) t
  | made {ip : Cell} {t : FsState} {d : ℕ} {name : Name} (inv : Inv m b (plus b ip) (update unlocked ip true) t)
      (typed : (t.icache ip).d.type = type) (walk : walkFrom s.node true cwd path = some (d, name) ∧ (s.node d).find name =
      none ∧ (s.node (t.icache ip).inum).type = 0) : Created m b s cwd path type (some ip) t

variable {cwd : Cell} {path : List UInt8} {type major minor : ℕ}

theorem inv_create (h : Inv m b b unlocked s) (hcwd : 0 < b cwd) (hroot : rootino < ninodes) (htype : type ≠ 0)
    (hlt : type < 2 ^ 16) :
    wp (create (some cwd) path type major minor) s (fun res t => Created m b s (s.icache cwd).inum path type res t)
      fun _ => True := by
  rw [create]
  refine wp_seq (inv_namex h hcwd hroot) ?_
  rintro (_ | ⟨dp, name⟩) t ⟨⟨ht, hreach⟩, hst⟩
  · refine wp_ret (.failed ht hst fun d name hwalk => ?_)
    rw [← hreach] at hwalk
    cases hwalk
  change Inv m b (plus b dp) unlocked t at ht
  have hu : Under b (plus b dp) := (Under.refl b).plus dp
  have hdc := plus_self_pos b dp
  refine wp_seq (inv_ilock ht hdc rfl fun _ => trivial) ?_
  rintro _ t1 ⟨ht1, hst1⟩
  have hst1' : Reads m b s t1 := Trans.trans hst (hst1.mono hu)
  have hsame1 : t1.node = s.node := hst1'.shown h.settled
  have hd1 : (t1.icache dp).inum = (t.icache dp).inum := (hst1.stays dp hdc).2.1
  have hv1 : (t1.icache dp).valid = true := (ht1.locked dp (update_self _ _ _)).2
  refine wp_seq (inv_dirlookup ht1 hdc hv1 hd1 rfl (fun _ => trivial) (fun _ => trivial) (.inr benign_any)) ?_
  rintro res t2 ⟨⟨hdir, hres⟩, hst2⟩
  have hst2' : Reads m b s t2 := Trans.trans hst1' (hst2.mono hu)
  cases hfind : (t1.node (t.icache dp).inum).find name with
  | some k =>
    rw [hfind] at hres
    obtain ⟨ip, rfl, ht2, hip, hle⟩ := hres
    have hui : Under b (plus b ip) := (Under.refl b).plus ip
    rw [plus_comm] at ht2
    refine wp_seq (inv_iunlockput ht2 hui rfl) ?_
    rintro _ t3 ⟨ht3, hst3⟩
    have hst3' : Reads m b s t3 := Trans.trans hst2' (hst3.mono hui)
    refine wp_seq (inv_ilock ht3 (plus_self_pos b ip) rfl fun _ => trivial) ?_
    rintro _ t4 ⟨ht4, hst4⟩
    have hst4' : Reads m b s t4 := Trans.trans hst3' (hst4.mono hui)
    rw [wp_bind, wp_inode, wp_ite]
    have hthere : (s.node (t.icache dp).inum).find name ≠ none := by
      rw [← hsame1, hfind]
      exact Option.some_ne_none k
    refine ⟨fun hfile => wp_ret (.found ht4 hfile.1 hfile.2 hst4' ⟨hreach.symm, hthere⟩), fun _ => ?_⟩
    refine wp_seq (inv_iunlockput ht4 (Under.refl b) rfl) ?_
    rintro _ t5 ⟨ht5, hst5⟩
    refine wp_ret (.failed ht5 (Trans.trans hst4' hst5) fun d name' hwalk => ?_)
    rw [← hreach] at hwalk
    cases hwalk
    exact hthere
  | none =>
    rw [hfind] at hres
    obtain ⟨rfl, ht2⟩ := hres
    have hd2 : (t2.icache dp).inum = (t.icache dp).inum := (hst2.stays dp hdc).2.1.trans hd1
    have hnode2 : t2.node (t.icache dp).inum = t1.node (t.icache dp).inum := by
      have := hst2.node dp hdc
      rwa [hd1] at this
    rw [wp_bind, wp_inode, ht2.dev dp hdc]
    refine wp_newInode ht2 htype hlt fun i ip t3 hfree hlip hi3 ht3 hsync3 hnode3 hw3 => ?_
    have hdi : (t.icache dp).inum ≠ i := by
      intro he
      rw [← he, hnode2, hdir] at hfree
      exact absurd hfree (by decide)
    have hne : dp ≠ ip := by
      rintro rfl
      rw [update_self] at hlip
      cases hlip
    have hd3 : (t3.icache dp).inum = (t.icache dp).inum := (hw3.stays dp hdc).2.1.trans hd2
    have hahead : m.dense → t3.table.core (t.icache dp).inum = t3.core (t.icache dp).inum ∨ 0 < b dp := by
      intro hdense
      by_cases he : t2.table.core (t.icache dp).inum = t2.core (t.icache dp).inum
      · exact .inl (hw3.sync hdense _ he)
      · rw [← hd2] at he
        exact .inr (ht2.ahead_cell hdc he hdense)
    have hlocks : update (update unlocked dp true) ip true = update (update unlocked ip true) dp true := update_comm hne _ _ _
    rw [hlocks, plus_comm] at ht3
    have hq : Under b (plus b ip) := (Under.refl b).plus ip
    have hicb := plus_self_pos b ip
    have hwalk : (s.node (t.icache dp).inum).find name = none ∧ (s.node i).type = 0 := by
      rw [← hst2'.shown h.settled, hnode2]
      exact ⟨hfind, hfree⟩
    have hmade : ∀ {g : ℕ → Node → Node} {u res}, (g i (newNode type major minor)).type = type → res = some ip ∧
      Inv m b (plus b ip) (update unlocked ip true) u ∧
      Writes m (plus b ip) (fun j a => entered (t.icache dp).inum i name (0 < b dp) j (g j a)) t3 u →
      Created m b s (s.icache cwd).inum path type res u := by
      rintro g u _ htyped ⟨rfl, hinv, hw⟩
      have hiu : (u.icache ip).inum = i := (hw.stays ip hicb).2.1.trans hi3
      have hnode : u.node i = g i (newNode type major minor) := by
        have := hw.node ip hicb
        rwa [hi3, hnode3, entered, onNode, onNode, if_neg hdi.symm, if_neg hdi.symm] at this
      refine .made hinv ?_ ⟨hreach.symm, hwalk.1, by rw [hiu, hwalk.2]⟩
      rw [(hinv.fields hicb (hinv.locked ip (update_self _ _ _)).2).1, hiu, hnode, htyped]
    by_cases hty : type = tDir
    · rw [if_pos hty]
      have hdp : Under b (plus b dp) := (Under.refl b).plus dp
      have hdu : Under (plus b dp) (plus (plus b ip) dp) := under_both hq dp
      refine inv_dots (ht3.mono hdp hdu) (update_self _ _ _) ?_ hdc hd3 hi3 fun t4 ht4 hw4 => ?_
      · rw [update_of_ne hne.symm, update_self]
      have hip4 := hw4.node ip (plus_pos dp hicb)
      rw [hi3, hnode3, dotted_self hdi] at hip4
      refine wp_mono (inv_createEnd ht4 hdu hne ((hw4.stays dp (plus_self_pos _ dp)).2.1.trans hd3)
        ((hw4.stays ip (plus_pos dp hicb)).2.1.trans hi3) hdi ?_ (fun hdense => hw4.sync hdense i hsync3) fun hdense =>
        (hahead hdense).imp_left (hw4.sync hdense _)) fun res u hend => hmade (g := dotted (t.icache dp).inum i) ?_
        ⟨hend.1, hend.2.1, ?_⟩
      · rw [hip4]
        exact Nat.one_ne_zero
      · rw [dotted_self hdi]
        rfl
      · exact (hw4.mono ((Under.refl _).plus dp)).trans hend.2.2
    · rw [if_neg hty]
      refine wp_mono (inv_createEnd ht3 (hq.plus dp) hne hd3 hi3 hdi (by rw [hnode3]; exact Nat.one_ne_zero)
        (fun _ => hsync3) hahead) fun res u hu => hmade rfl hu

end Laboratorio.Fs
