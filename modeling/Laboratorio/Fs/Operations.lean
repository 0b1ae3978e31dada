import Laboratorio.Fs.Creation

namespace Laboratorio.Fs

open Bytes Function

def Node.unlink (a : Node) : Node := a.relink fun n => (n + (2 ^ 16 - 1)) % 2 ^ 16

def FsState.event (s : FsState) (e : Event) : FsState := { s with disk := { s.disk with trace := e :: s.disk.trace } }

variable [sb : Superblock] {m : Mode} {b r : Cell → ℕ} {l : Cell → Bool} {s t : FsState} {c : Cell} {E : Fault → Prop}

omit sb in
theorem wp_beginOp {Q : Unit → FsState → Prop} : wp (onDisk beginOp) s Q E ↔ Q () (s.event .beginOp) := by
  rw [wp_onDisk, beginOp, wp_modify]
  rfl

omit sb in
theorem wp_endOp {Q : Unit → FsState → Prop} : wp (onDisk endOp) s Q E ↔ Q () (s.event .endOp) := by
  rw [wp_onDisk, endOp, wp_modify]
  rfl

theorem Sound.event (h : Sound m b r l s) (e : Event) : Sound m b r l (s.event e) :=
  { h with toAt := ⟨h.ref, h.lock, h.unique⟩ }

theorem Inv.event (h : Inv m b r l s) (e : Event) : Inv m b r l (s.event e) := ⟨h.toSound.event e, h.tidy, h.ahead⟩

def Answers (m : Mode) (b : Cell → ℕ) (s : FsState) (ok : Bool) (t : FsState) :
    Prop := Inv m b b unlocked t ∧ (ok = false → t.node = s.node)

variable {cwd : Cell} {path : List UInt8} {i : ℕ}

theorem Reads.answers (h : Reads m b (s.event .beginOp) t) (hinv : Inv m b b unlocked t) (hs : Settled b s) (ok : Bool) :
    Answers m b s ok (t.event .endOp) := ⟨hinv.event _, fun _ => h.shown hs⟩

theorem inv_namei (h : Inv m b r unlocked s) (hcwd : 0 < r cwd) (hroot : rootino < ninodes) :
    wpr (Reads m r) (namei (some cwd) path) s (fun res t => Inv m b (res.elim r (plus r)) unlocked t) fun _ => True := by
  refine (inv_namex h hcwd hroot).bind fun res t ⟨ht, _⟩ => wpr.ret ?_
  cases res with
  | none => exact ht
  | some x => exact ht

theorem inv_linkBad {ip : Cell} {Q : Bool → FsState → Prop} (h : Inv m (plus b ip) (plus b ip) unlocked s)
    (hv : (s.icache ip).valid = true)
    (hQ : ∀ t, Inv m b b unlocked t →
    Settles m b (fun j a => onNode (s.icache ip).inum (Node.release (0 < b ip)) j (onNode (s.icache ip).inum Node.unlink j a)) s
    t → Q false (t.event .endOp)) : wp (linkBad ip) s Q E := by
  have hc := plus_self_pos b ip
  have hu : Under b (plus b ip) := (Under.refl b).plus ip
  rw [linkBad]
  refine wp_seq (inv_ilock h hc rfl fun h0 => ?_) fun _ t1 ⟨ht1, hst1⟩ => ?_
  · rw [h.core_eq_d hc hv] at h0
    exact absurd h0 (h.typed ip hc hv)
  have hi1 : (t1.icache ip).inum = (s.icache ip).inum := (hst1.stays ip hc).2.1
  refine inv_relink (f := fun n => (n + (2 ^ 16 - 1)) % 2 ^ 16) ht1 (update_self _ _ _) (fun _ => Nat.mod_lt _ (by decide))
    (fun _ => hc) fun t2 ht2 hsync hw2 => ?_
  have hi2 : (t2.icache ip).inum = (s.icache ip).inum := (hw2.stays ip hc).2.1.trans hi1
  rw [hi1] at hsync hw2
  refine wp_seq (inv_iunlockput_last ht2 rfl fun hne => absurd ?_ hne) fun _ t3 ⟨ht3, hw3⟩ => ?_
  · rw [hi2, hsync]
  rw [hi2] at hw3
  rw [wp_bind, wp_endOp]
  exact wp_ret (hQ t3 ht3 (((hst1.still.compose hw2).lower hu).compose hw3))

omit sb in
theorem Node.unlink_relink {a : Node} (h : a.nlink < 2 ^ 16) : (a.relink fun n => (n + 1) % 2 ^ 16).unlink = a := by
  have hn : ((a.nlink + 1) % 2 ^ 16 + (2 ^ 16 - 1)) % 2 ^ 16 = a.nlink := by omega
  simp only [Node.unlink, Node.relink, hn]

omit sb in
theorem inum_zeros : (Dirent.ofBytes (List.replicate direntSize 0)).inum = 0 := by decide

theorem inv_clear {dp ip : Cell} {d k : ℕ} {Q : Bool → FsState → Prop}
    (h : Inv m b (plus (plus b ip) dp) (update (update unlocked ip true) dp true) s) (hne : ip ≠ dp)
    (hd : (s.icache dp).inum = d) (hi : (s.icache ip).inum = i) (hdir : (s.node d).type = tDir) (hE : Benign E)
    (hQ : ∀ t, Inv m b b unlocked t → Q true (t.event .endOp)) : wp (unlinkEntry dp ip (direntSize * k)) s Q E := by
  have hdc := plus_self_pos (plus b ip) dp
  have hR : Under (plus b ip) (plus (plus b ip) dp) := (Under.refl _).plus dp
  have hu : Under b (plus b ip) := (Under.refl b).plus ip
  have hic := plus_self_pos b ip
  have hflag : plus b ip dp = b dp := plus_of_ne hne.symm
  have hahead : m.dense → s.table.core d = s.core d ∨ 0 < b dp := by
    intro hdense
    rw [← hd]
    exact or_iff_not_imp_left.mpr fun hbad => h.ahead_cell hdc hbad hdense
  rw [unlinkEntry]
  refine wp_seq (inv_writei h hdc (h.locked dp (update_self _ _ _)).2 hE fun _ =>
    ⟨k, rfl, List.length_replicate, fun _ hz => absurd inum_zeros hz⟩) ?_
  rw [hd, hdir]
  rintro n t1 ⟨ht1, ⟨hdev, -⟩ | ⟨rfl, -⟩ | ⟨rfl, hw1⟩⟩
  · exact absurd hdev (by decide)
  · exact (wp_throw _).mpr (hE _ rfl)
  rw [List.length_replicate, if_neg (by simp), wp_bind, wp_inode]
  have hd1 : (t1.icache dp).inum = d := (hw1.stays dp hdc).2.1.trans hd
  have hi1 : (t1.icache ip).inum = i := (hw1.stays ip (hR ip hic)).2.1.trans hi
  have hraised := ht1.mono (hu.plus dp) (Under.refl _)
  have hlast : ∀ {g} t2, Inv m (plus (plus b ip) dp) (plus (plus b ip) dp) (update (update unlocked ip true) dp true) t2 →
      Writes m (plus (plus b ip) dp) g t1 t2 → wp (unlinkEnd dp ip) t2 Q E := by
    intro g t2 ht2 hw2
    rw [unlinkEnd]
    have hd2 : (t2.icache dp).inum = d := (hw2.stays dp hdc).2.1.trans hd1
    have hi2 : (t2.icache ip).inum = i := (hw2.stays ip (hR ip hic)).2.1.trans hi1
    refine wp_seq (inv_iunlockput_last ht2 (by rw [update_of_ne hne.symm]; rfl) fun hbad hdense => ?_) fun _ t3 ⟨ht3, hw3⟩ => ?_
    · rw [hd2] at hbad
      rw [hflag]
      exact (hahead hdense).resolve_left fun he => hbad (hw2.sync hdense d (hw1.sync hdense d he))
    have hi3 : (t3.icache ip).inum = i := (hw3.stays ip hic).2.1.trans hi2
    refine inv_relink (f := fun n => (n + (2 ^ 16 - 1)) % 2 ^ 16) ht3 (update_self _ _ _) (fun _ => Nat.mod_lt _ (by decide))
      (fun _ => hic) fun t4 ht4 hsync hw4 => ?_
    rw [hi3] at hsync hw4
    have hi4 : (t4.icache ip).inum = i := (hw4.stays ip hic).2.1.trans hi3
    refine wp_seq (inv_iunlockput_last ht4 rfl fun hbad => absurd (by rw [hi4, hsync]) hbad) fun _ t5 ⟨ht5, hw5⟩ => ?_
    rw [wp_bind, wp_endOp]
    exact wp_ret (hQ t5 ht5)
  rw [wp_ite]
  refine ⟨fun _ => ?_, fun _ => ?_⟩
  · refine inv_relink (f := fun n => (n + (2 ^ 16 - 1)) % 2 ^ 16) hraised (update_self _ _ _)
      (fun _ => Nat.mod_lt _ (by decide)) (fun _ => hdc) fun t2 ht2 _ hw2 => hlast t2 ht2 hw2.toWrites
  · have hid : Reads m (plus (plus b ip) dp) t1 t1 := refl t1
    exact hlast t1 hraised hid.quiet

inductive Opened (m : Mode) (b : Cell → ℕ) (s : FsState) (cwd : ℕ) (path : List UInt8) (omode : ℕ) :
  Option Cell → FsState → Prop
  | created {res : Option Cell} {t : FsState} (asked : omode &&& oCreate ≠ 0) (made : Created m b s cwd path tFile res t) :
      Opened m b s cwd path omode res t
  | failed {t : FsState} (asked : omode &&& oCreate = 0) (inv : Inv m b b unlocked t) (reads : Reads m b s t) :
      Opened m b s cwd path omode none t
  | found {ip : Cell} {t : FsState} (asked : omode &&& oCreate = 0) (inv : Inv m b (plus b ip) (update unlocked ip true) t)
      (dir : (t.icache ip).d.type = tDir → omode = 0) (reads : Reads m b s t) : Opened m b s cwd path omode (some ip) t

variable (h : Inv m b b unlocked s) (hcwd : 0 < b cwd) (hroot : rootino < ninodes)
include h hcwd hroot

theorem inv_make {type major minor : ℕ} (htype : type ≠ 0) (hfile : type ≠ tFile) (hlt : type < 2 ^ 16) :
    wp (do
      onDisk beginOp
      match ← create (some cwd) path type major minor with
      | none => do
        onDisk endOp
        pure false
      | some ip => do
        iunlockput ip
        onDisk endOp
        pure true) s (Answers m b s) fun _ => True := by
  rw [wp_bind, wp_beginOp]
  refine wp_seq (inv_create (h.event _) hcwd hroot htype hlt) fun res t ht => ?_
  cases ht with
  | failed hinv hst =>
    rw [wp_bind, wp_endOp]
    exact wp_ret (hst.answers hinv h.settled _)
  | found _ hasked => exact absurd hasked hfile
  | made hinv =>
    refine wp_seq (inv_iunlockput hinv (Under.refl b) rfl) fun _ u ⟨hu, _⟩ => ?_
    rw [wp_bind, wp_endOp]
    exact wp_ret ⟨hu.event _, nofun⟩

theorem inv_sysMknod {major minor : ℕ} : wp (sysMknod (some cwd) path major minor) s (Answers m b s) fun _ => True :=
  inv_make h hcwd hroot (by decide) (by decide) (by decide)

theorem inv_sysMkdir : wp (sysMkdir (some cwd) path) s (Answers m b s) fun _ => True :=
  inv_make h hcwd hroot (by decide) (by decide) (by decide)

theorem inv_sysLink {old new : List UInt8} : wp (sysLink (some cwd) old new) s (Answers m b s) fun _ => True := by
  rw [sysLink, wp_bind, wp_beginOp]
  refine wp_seq (inv_namei (h.event _) hcwd hroot) ?_
  rintro (_ | ip) t ⟨hres, hst⟩
  · rw [wp_bind, wp_endOp]
    exact wp_ret (hst.answers hres h.settled _)
  have ht : Inv m b (plus b ip) unlocked t := hres
  have hu : Under b (plus b ip) := (Under.refl b).plus ip
  have hic := plus_self_pos b ip
  refine wp_seq (inv_ilock ht hic rfl fun _ => trivial) ?_
  rintro _ t1 ⟨ht1, hst1⟩
  have hst1' : Reads m b (s.event .beginOp) t1 := Trans.trans hst (hst1.mono hu)
  have hsame1 : t1.node = s.node := hst1'.shown h.settled
  have hv1 : (t1.icache ip).valid = true := (ht1.locked ip (update_self _ _ _)).2
  rw [wp_bind, wp_inode, wp_ite]
  refine ⟨fun _ => ?_, fun hflat => ?_⟩
  · refine wp_seq (inv_iunlockput ht1 (Under.refl b) rfl) ?_
    rintro _ t2 ⟨ht2, hst2⟩
    have hst2' : Reads m b (s.event .beginOp) t2 := Trans.trans hst1' hst2
    rw [wp_bind, wp_endOp]
    exact wp_ret (hst2'.answers ht2 h.settled _)
  -- the inode gets its new link before the name is there
  obtain ⟨i, hi1⟩ : ∃ i, (t1.icache ip).inum = i := ⟨_, rfl⟩
  have hflat1 : (t1.node i).type ≠ tDir := by
    rw [← hi1, ← (ht1.fields hic hv1).1]
    exact hflat
  rw [← bind_assoc, wp_bind]
  refine wp_mono (inv_relinked (f := fun n => (n + 1) % 2 ^ 16) (ht1.mono hu (Under.refl _)) (update_self _ _ _)
    (fun _ => Nat.mod_lt _ (by decide)) fun _ => hic) ?_
  rintro _ t2 ⟨ht2, hsync2, hw2⟩
  rw [hi1] at hsync2 hw2
  refine wp_seq (inv_iunlock ht2 rfl) ?_
  rintro _ t3 ⟨ht3, hst3⟩
  have hi3 : (t3.icache ip).inum = i := ((hst3.stays ip hic).2.1.trans (hw2.stays ip hic).2.1).trans hi1
  have hv3 : (t3.icache ip).valid = true := (hst3.stays ip hic).2.2 ((hw2.stays ip hic).2.2 hv1)
  have hw3 : Settles m (plus b ip) (onNode i (Node.relink fun n => (n + 1) % 2 ^ 16)) t1 t3 := hw2.compose hst3.still
  have hsync3 : m.dense → t3.table.core i = t3.core i := fun hd => by rw [hst3.table_eq hd, hst3.core_eq hd, hsync2]
  have hundo : ∀ j, onNode i (Node.release (0 < b ip)) j
    (onNode i Node.unlink j (onNode i (Node.relink fun n => (n + 1) % 2 ^ 16) j (s.node j))) = s.node j := by
    intro j
    rw [← hsame1]
    by_cases hji : j = i
    · subst hji
      have hnlink := (ht1.fields hic hv1).2.2
      rw [hi1] at hnlink
      have hlt : (t1.node j).nlink < 2 ^ 16 := by
        rw [← hnlink]
        exact (ht1.fits ip hic hv1).nlink
      simp only [onNode, if_pos]
      rw [Node.unlink_relink hlt, Node.release, if_neg]
      rintro ⟨-, hn, hb⟩
      rw [← hnlink] at hn
      exact absurd (ht1.kept_cell ht1.tidy hic hv1 hn) (by simpa using hb)
    · simp only [onNode, if_neg hji]
  have hback : ∀ t5, Reads m (plus b ip) t3 t5 → Inv m (plus b ip) (plus b ip) unlocked t5 →
      wp (linkBad ip) t5 (Answers m b s) fun _ => True := by
    intro t5 hst5 ht5
    have hi5 : (t5.icache ip).inum = i := (hst5.stays ip hic).2.1.trans hi3
    refine inv_linkBad ht5 ((hst5.stays ip hic).2.2 hv3) fun u hu' hw => ?_
    rw [hi5] at hw
    have hall := (hst1'.still.compose ((hw3.compose hst5.still).lower hu)).compose hw
    refine ⟨hu'.event _, fun _ => funext fun j => ?_⟩
    exact ((hall.even h.settled).1 j).trans (hundo j)
  refine wp_seq (inv_namex ht3 (plus_pos ip hcwd) hroot) ?_
  rintro (_ | ⟨dp, name⟩) t4 ⟨⟨ht4, _⟩, hst4⟩
  · exact hback t4 hst4 ht4
  have hup : Under (plus b ip) (plus (plus b ip) dp) := (Under.refl _).plus dp
  have hdc := plus_self_pos (plus b ip) dp
  refine wp_seq (inv_ilock ht4 hdc rfl fun _ => trivial) ?_
  rintro _ t5 ⟨ht5, hst5⟩
  have hst5' : Reads m (plus b ip) t3 t5 := Trans.trans hst4 (hst5.mono hup)
  obtain ⟨d, hd4⟩ : ∃ d, (t4.icache dp).inum = d := ⟨_, rfl⟩
  have hd5 : (t5.icache dp).inum = d := (hst5.stays dp hdc).2.1.trans hd4
  have hi5 : (t5.icache ip).inum = i := (hst5'.stays ip hic).2.1.trans hi3
  have hnode5 : t5.node i = (t1.node i).relink fun n => (n + 1) % 2 ^ 16 := by
    have h1 := hst5'.node ip hic
    have h2 := hw3.node ip hic
    rw [hi3] at h1
    rw [hi1, onNode, if_pos rfl] at h2
    rw [h1, h2]
  rw [wp_bind, wp_inode, wp_bind, wp_inode]
  simp only [ht5.dev dp hdc, ht5.dev ip (hup ip hic), ne_eq, not_true_eq_false, if_false]
  rw [wp_bind, wp_inode, hi5, wp_bind]
  have hne : (t5.node d).type = tDir → i ≠ d := by
    rintro hdir rfl
    rw [hnode5] at hdir
    exact hflat1 hdir
  refine wp_mono (inv_dirlink ht5 (update_self _ _ _) hd5 rfl
    fun hdir => law_newEntry (hi5 ▸ ht5.inum ip (hup ip hic)) fun _ he => absurd he (hne hdir)) ?_
  rintro linked t6 ⟨ht6, ⟨rfl, hst6⟩ | ⟨rfl, hw6⟩⟩
  · rw [if_neg (by simp), wp_bind]
    refine wp_mono (inv_iunlockput ht6 (Under.refl _) rfl) ?_
    rintro _ t7 ⟨ht7, hst7⟩
    refine hback t7 ?_ ht7
    have hst6' : Reads m (plus b ip) t3 t6 := Trans.trans hst5' (hst6.mono hup)
    exact Trans.trans hst6' hst7
  rw [if_pos rfl, wp_bind]
  refine wp_mono (inv_iunlockput ht6 (Under.refl _) rfl) ?_
  rintro _ t7 ⟨ht7, hst7⟩
  have hi7 : (t7.icache ip).inum = i := ((hst7.stays ip hic).2.1.trans (hw6.stays ip (hup ip hic)).2.1).trans hi5
  refine wp_seq (inv_iput_last ht7 rfl fun hbad hdense => absurd ?_ hbad) ?_
  · rw [hi7, hst7.table_eq hdense, hst7.core_eq hdense]
    refine hw6.sync hdense i ?_
    rw [hst5'.table_eq hdense, hst5'.core_eq hdense, hsync3 hdense]
  rintro _ t8 ⟨ht8, hw8⟩
  rw [wp_bind, wp_endOp]
  exact wp_ret ⟨ht8.event _, fun hno => absurd hno.symm Bool.false_ne_true⟩

theorem inv_sysUnlink : wp (sysUnlink (some cwd) path) s (Answers m b s) fun _ => True := by
  rw [sysUnlink, wp_bind, wp_beginOp]
  refine wp_seq (inv_namex (h.event _) hcwd hroot) ?_
  rintro (_ | ⟨dp, name⟩) t ⟨⟨ht, hreach⟩, hst⟩
  · rw [wp_bind, wp_endOp]
    exact wp_ret (hst.answers ht h.settled _)
  have hu : Under b (plus b dp) := (Under.refl b).plus dp
  have hdc := plus_self_pos b dp
  refine wp_seq (inv_ilock ht hdc rfl fun _ => trivial) fun _ t1 ⟨ht1, hst1⟩ => ?_
  have hst1' : Reads m b (s.event .beginOp) t1 := Trans.trans hst (hst1.mono hu)
  obtain ⟨d, hd⟩ : ∃ d, (t.icache dp).inum = d := ⟨_, rfl⟩
  have hd1 : (t1.icache dp).inum = d := (hst1.stays dp hdc).2.1.trans hd
  have hv1 : (t1.icache dp).valid = true := (ht1.locked dp (update_self _ _ _)).2
  have hbad : ∀ t', Reads m b (s.event .beginOp) t' → Inv m b (plus b dp) (update unlocked dp true) t' →
      wp (unlinkBad dp) t' (Answers m b s) fun _ => True := by
    intro t' hst' ht'
    rw [unlinkBad]
    refine wp_seq (inv_iunlockput ht' (Under.refl b) rfl) fun _ u ⟨hinv, hstu⟩ => ?_
    have hall : Reads m b (s.event .beginOp) u := Trans.trans hst' hstu
    rw [wp_bind, wp_endOp]
    exact wp_ret (hall.answers hinv h.settled _)
  rw [wp_ite]
  refine ⟨fun _ => hbad t1 hst1' ht1, fun hdots => ?_⟩
  refine wp_seq (inv_dirlookup ht1 hdc hv1 hd1 rfl (fun _ => trivial) (fun _ => trivial) (.inr benign_any)) ?_
  rintro res t2 ⟨⟨hdir, hres⟩, hst2⟩
  have hst2' : Reads m b (s.event .beginOp) t2 := Trans.trans hst1' (hst2.mono hu)
  have hd2 : (t2.icache dp).inum = d := (hst2.stays dp hdc).2.1.trans hd1
  cases hfind : (t1.node d).find name with
  | none =>
    rw [hfind] at hres
    obtain ⟨rfl, ht2⟩ := hres
    exact hbad t2 hst2' ht2
  | some k =>
    rw [hfind] at hres
    obtain ⟨ip, rfl, ht2, hip, hle⟩ := hres
    rw [wp_bind]
    by_cases hself : ip = dp
    · subst hself
      have hlock : (t2.icache ip).lock = true := by rw [ht2.lock, update_self]
      refine wp_ilock (by rw [ht2.ref]; exact plus_self_pos _ ip) (fun _ => trivial)
        (fun h0 => ?_) (fun h0 => ?_) fun h0 hv => ?_
      · rw [hlock] at h0
        cases h0
      · rw [hlock] at h0
        cases h0
      · rw [(ht2.locked ip (update_self _ _ _)).2] at hv
        cases hv
    have huip : Under b (plus (plus b dp) ip) := hu.plus ip
    have hic := plus_self_pos (plus b dp) ip
    refine wp_mono (inv_ilock ht2 hic (by rw [update_of_ne hself]; rfl) fun _ => trivial) fun _ t3 ⟨ht3, hst3⟩ => ?_
    have hst3' : Reads m b (s.event .beginOp) t3 := Trans.trans hst2' (hst3.mono huip)
    obtain ⟨i, hi⟩ : ∃ i, ((t1.node d).entry k).inum = i := ⟨_, rfl⟩
    have hi3 : (t3.icache ip).inum = i := ((hst3.stays ip hic).2.1.trans hip).trans hi
    have hd3 : (t3.icache dp).inum = d := (hst3.stays dp (plus_pos ip hdc)).2.1.trans hd2
    have hv3 : (t3.icache ip).valid = true := (ht3.locked ip (update_self _ _ _)).2
    have hfields := ht3.fields hic hv3
    rw [hi3] at hfields
    rw [wp_bind, wp_inode, wp_ite]
    refine ⟨fun _ => (wp_throw _).mpr trivial, fun _ => ?_⟩
    have hgo : ∀ (busy : Bool) t4, Reads m (plus (plus b dp) ip) t3 t4 →
      Inv m b (plus (plus b dp) ip) (update (update unlocked dp true) ip true) t4 →
      wp (if busy = true then do iunlockput ip; unlinkBad dp else unlinkEntry dp ip (direntSize * k)) t4 (Answers m b s)
      fun _ => True := by
      intro busy t4 hst4 ht4
      have hst4' : Reads m b (s.event .beginOp) t4 := Trans.trans hst3' (hst4.mono huip)
      cases busy with
      | true =>
        rw [if_pos rfl, wp_bind]
        refine wp_mono (inv_iunlockput ht4 hu (by rw [update_of_ne hself]; rfl)) fun _ t5 ⟨ht5, hst5⟩ => hbad t5 ?_ ht5
        exact Trans.trans hst4' (hst5.mono hu)
      | false =>
        have hlocks : update (update unlocked dp true) ip true = update (update unlocked ip true) dp true :=
          update_comm (Ne.symm hself) _ _ _
        rw [hlocks, plus_comm] at ht4
        have hdir4 : (t4.node d).type = tDir := by
          have h4 := hst4.node dp (plus_pos ip hdc)
          have h3 := hst3.node dp (plus_pos ip hdc)
          have h2 := hst2.node dp hdc
          rw [hd3] at h4
          rw [hd2] at h3
          rw [hd1] at h2
          rw [h4, h3, h2, hdir]
        exact inv_clear ht4 hself ((hst4.stays dp (plus_pos ip hdc)).2.1.trans hd3)
          ((hst4.stays ip hic).2.1.trans hi3) hdir4 benign_any fun u hu' => ⟨hu'.event _, nofun⟩
    rw [wp_ite, hfields.1]
    refine ⟨fun hty => ?_, fun _ => hgo false t3 (refl t3) ht3⟩
    refine wp_seq (inv_isdirempty ht3 hic hv3 hi3 rfl hty benign_any) ?_
    rintro empty t4 ⟨⟨ht4, -, rfl⟩, hst4⟩
    exact hgo _ t4 hst4 ht4

theorem inv_openInode {omode : ℕ} :
    wp (openInode (some cwd) path omode) s (Opened m b s (s.icache cwd).inum path omode) fun _ => True := by
  rw [openInode, wp_ite]
  refine ⟨fun hcreate => ?_, fun hplain => ?_⟩
  · exact wp_mono (inv_create h hcwd hroot (by decide) (by decide)) fun res t ht => .created hcreate ht
  have hplain' : omode &&& oCreate = 0 := by simpa using hplain
  refine wp_seq (inv_namei h hcwd hroot) ?_
  rintro (_ | ip) t ⟨hres, hst⟩
  · exact wp_ret (.failed hplain' hres hst)
  have ht : Inv m b (plus b ip) unlocked t := hres
  have hu : Under b (plus b ip) := (Under.refl b).plus ip
  refine wp_seq (inv_ilock ht (plus_self_pos b ip) rfl fun _ => trivial) fun _ t1 ⟨ht1, hst1⟩ => ?_
  have hst1' : Reads m b s t1 := Trans.trans hst (hst1.mono hu)
  rw [wp_bind, wp_inode, wp_ite]
  refine ⟨fun _ => ?_, fun hmode => wp_ret (.found hplain' ht1 (fun hdir => by_contra fun h0 => hmode ⟨hdir, h0⟩) hst1')⟩
  exact wp_seq (inv_iunlockput ht1 (Under.refl b) rfl) fun _ t2 ⟨ht2, hst2⟩ =>
    wp_ret (.failed hplain' ht2 (Trans.trans hst1' hst2))

end Laboratorio.Fs
