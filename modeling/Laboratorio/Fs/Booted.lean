import Laboratorio.Fs.Holes
import Laboratorio.Fs.Failure

/-!
The kernel on an image that `mkfs` has made, through any calls that make, open, close and remove names.
-/

namespace Laboratorio.Fs

open Bytes Function Runs
open Procs (Slot)

def Call.names : Call → Bool
  | .opn _ _ | .close _ | .link _ _ | .unlink _ | .mkdir _ | .mknod _ _ _ => true
  | _ => false

def Orderly (m : Mode) [Superblock] (k : Kernel) : Prop := ∃ b, Inv m b b unlocked k.fs

section calls

variable [sb : Superblock] {m : Mode} {b : Cell → ℕ} {s t : FsState} {k : Kernel} {p : Slot} {cwd : Cell}
  {path : List UInt8} {omode : ℕ}

theorem Opened.inv {res : Option Cell} {i : ℕ} (h : Opened m b s i path omode res t) :
    match res with
    | none => Inv m b b unlocked t
    | some ip => Inv m b (plus b ip) (update unlocked ip true) t := by
  cases h with
  | failed _ h _ => exact h
  | found _ h _ _ => exact h
  | created _ h =>
    cases h with
    | failed h _ _ => exact h
    | found h _ _ _ _ => exact h
    | made h _ _ => exact h

theorem orderly_sysOpen (hb : Balanced k) (h : Inv m b b unlocked k.fs) (hcwd : k.cwd p = some cwd) (hc : 0 < b cwd)
    (hroot : rootino < ninodes) : wp (sysOpen p path omode) k (fun _ => Orderly m) fun _ => True := by
  rw [sysOpen, wp_bind, wp_onFs, wp_beginOp, wp_bind, wp_get, wp_bind, wp_onFs, hcwd]
  refine wp_mono (inv_openInode (h.event _) hc hroot) ?_
  rintro (_ | ip) t ht
  · rw [wp_bind, wp_onFs, wp_endOp]
    exact wp_ret ⟨b, ht.inv.event _⟩
  have hres : Inv m b (plus b ip) (update unlocked ip true) t := ht.inv
  have hend : ∀ k' : Kernel, k'.fs = t → wp (do onFs (iunlockput ip); onFs (onDisk endOp); pure none : KernelM (Option Fd)) k'
    (fun _ => Orderly m) fun _ => True := by
    rintro k' rfl
    refine wp_onFs_seq (inv_iunlockput hres (Under.refl _) rfl) ?_
    rintro _ u ⟨hu, -⟩
    rw [wp_bind, wp_onFs, wp_endOp]
    exact wp_ret ⟨b, hu.event _⟩
  rw [wp_bind]
  refine wp_filealloc (fun _ => hend _ rfl) fun f hf => ?_
  rw [wp_bind]
  refine wp_fdalloc (fun _ => ?_) fun fd _ => ?_
  · rw [wp_bind]
    refine wp_fileclose_fresh ?_ ?_ (hend _ rfl)
    · simp [Kernel.setFile]
    · simpa [Kernel.setFile] using hb.books.closed f hf
  · refine wp_onFs_seq (inv_iunlock hres rfl) ?_
    rintro _ u ⟨hu, -⟩
    rw [wp_bind, wp_onFs, wp_endOp, wp_bind, wp_modify]
    exact wp_ret ⟨plus b ip, (hu.mono ((Under.refl b).plus ip) (Under.refl _)).event _⟩

theorem orderly_fileclose {f : FileId} (hm : ¬ m.loose) (h : Inv m b b unlocked k.fs)
    (hf : ∀ c, (k.ftable f).type = .inode c → 0 < (k.ftable f).ref → 0 < b c) :
    wp (fileclose f) k (fun _ => Orderly m) fun _ => True := by
  rw [fileclose, wp_bind, wp_get, wp_ite]
  refine ⟨fun _ => (wp_throw _).mpr trivial, fun hpos => ?_⟩
  rw [wp_ite]
  refine ⟨fun _ => (wp_set _).mpr ⟨b, h⟩, fun _ => ?_⟩
  rw [wp_bind, wp_set]
  cases htype : (k.ftable f).type with
  | none => exact wp_ret ⟨b, h⟩
  | pipe page =>
    dsimp only
    rw [pipeclose, wp_bind, wp_get]
    cases (k.setFile f { k.ftable f with ref := 0, type := .none }).pipes page with
    | none => exact (wp_throw _).mpr trivial
    | some q => exact (wp_set _).mpr ⟨b, h⟩
  | inode c =>
    -- the reference of the file was one of those that `b` counts
    have hsplit : b = plus (update b c (b c - 1)) c := by
      rw [plus, update_self, Nat.sub_add_cancel (hf c htype (by omega)), update_idem, update_eq_self]
    rw [hsplit] at h
    dsimp only
    rw [wp_bind, wp_onFs, wp_beginOp]
    refine wp_onFs_seq (inv_iput_last (h.event _) rfl fun hne => absurd ((h.event _).ahead _ hne).1 hm) ?_
    rintro _ u ⟨hu, -⟩
    rw [wp_onFs, wp_endOp]
    exact ⟨_, hu.event _⟩

variable (hm : ¬ m.loose) (hroot : rootino < ninodes) (hb : Balanced k) (h : Orderly m k)
include hm hroot hb h

theorem orderly_call {c : Call} (ha : k.allows p c = true) (hc : c.names = true) :
    wp (runCall p c) k (fun _ => Orderly m) fun _ => True := by
  obtain ⟨b, h⟩ := h
  have hrefs : cellRefs k.ftable k.cwd (fun _ => 0) = b := funext fun c => (hb.cells.ref c).symm.trans (h.ref c)
  obtain ⟨cwd, hcwd, hpos⟩ := hb.cwd (Bool.and_eq_true_iff.mp ha).1
  rw [hrefs] at hpos
  have hfs : ∀ {prog : FsM Bool}, wp prog k.fs (Answers m b k.fs) (fun _ => True) →
      wp (onFs prog >>= fun _ => pure ()) k (fun _ => Orderly m) fun _ => True := by
    intro prog hprog
    exact wp_onFs_seq hprog fun _ _ ht => wp_ret ⟨b, ht.1⟩
  cases c with
  | opn path omode => exact wp_seq (orderly_sysOpen hb h hcwd hpos hroot) fun _ _ ht => wp_ret ht
  | close fd =>
    refine wp_seq ?_ fun _ _ ht => wp_ret ht
    rw [sysClose, wp_bind, wp_get]
    cases k.ofile p fd with
    | none => exact wp_ret ⟨b, h⟩
    | some f =>
      dsimp only
      rw [wp_bind, wp_modify]
      refine wp_seq (orderly_fileclose hm h fun c htype href => ?_) fun _ _ ht => wp_ret ht
      rw [← hrefs]
      exact cellRefs_pos_file htype href
  | link old new => exact (wp_bind _ _).mpr (wp_get.mpr (hcwd ▸ hfs (inv_sysLink h hpos hroot)))
  | unlink path => exact (wp_bind _ _).mpr (wp_get.mpr (hcwd ▸ hfs (inv_sysUnlink h hpos hroot)))
  | mkdir path => exact (wp_bind _ _).mpr (wp_get.mpr (hcwd ▸ hfs (inv_sysMkdir h hpos hroot)))
  | mknod path major minor => exact (wp_bind _ _).mpr (wp_get.mpr (hcwd ▸ hfs (inv_sysMknod h hpos hroot)))
  | _ => cases hc

theorem orderly_step {a : Slot × Call} {k' : Kernel} (hc : a.2.names = true) (hs : k.step a = some k') :
    Balanced k' ∧ Orderly m k' := by
  unfold Kernel.step at hs
  split_ifs at hs with ha
  split at hs
  · next hrun =>
    cases hs
    have hb' := wp_ok (balanced_call hb ha) hrun
    have h' := wp_ok (orderly_call hm hroot hb h ha hc) hrun
    exact ⟨hb', h'⟩
  · cases hs

theorem orderly_run {as : List (Slot × Call)} {k' : Kernel} (hcalls : ∀ a ∈ as, a.2.names = true)
    (hr : run Kernel.step k as = some k') : Balanced k' ∧ Orderly m k' := by
  induction as generalizing k with
  | nil =>
    cases hr
    exact ⟨hb, h⟩
  | cons a as ih =>
    obtain ⟨hc, hcalls⟩ := List.forall_mem_cons.mp hcalls
    obtain ⟨u, hu, hr⟩ := run_cons_eq.mp hr
    obtain ⟨hb, h⟩ := orderly_step hm hroot hb h hc hu
    exact ih hb h hcalls hr

end calls

namespace Mkfs

/-- What `mkfs` writes into the root directory. -/
def dirents (files : List HostFile) : List Dirent :=
  ⟨rootino, strncpy dot dirsiz⟩ :: ⟨rootino, strncpy dotdot dirsiz⟩ :: (files.zipIdx 2).map fun x =>
    ⟨x.2 % 2 ^ 16, strncpy x.1.target dirsiz⟩

def noEntry : Dirent := ⟨0, List.replicate dirsiz 0⟩

section entries

variable {files : List HostFile} {l : List Dirent} {k : ℕ} {e : Dirent}

theorem entry_fileNode (type : ℕ) (hl : ∀ e ∈ l, e.inum < 2 ^ 16 ∧ e.name.length = dirsiz) :
    (fileNode type (l.flatMap Dirent.bytes)).entry k = (l[k]?).getD noEntry := by
  induction l generalizing k with
  | nil => rfl
  | cons e l ih =>
    obtain ⟨⟨hi, hname⟩, hl⟩ := List.forall_mem_cons.mp hl
    have hlen := Dirent.length_bytes hname
    rw [Node.entry]
    cases k with
    | zero =>
      have hslice : slice (fileNode type ((e :: l).flatMap Dirent.bytes)).bytes (direntSize * 0) direntSize = e.bytes := by
        apply List.ext_getElem
        · rw [length_slice, hlen]
        · intro x _ h
          simp [slice, fileNode, List.getElem?_append_left h, h]
      rw [hslice, Dirent.ofBytes_bytes hi]
      rfl
    | succ k =>
      rw [List.getElem?_cons_succ, ← ih hl, Node.entry]
      congr 1
      apply List.map_congr_left
      intro x _
      simp only [fileNode, List.flatMap_cons, List.getD_eq_getElem?_getD]
      rw [Nat.mul_succ, Nat.add_comm (direntSize * k), Nat.add_assoc, ← hlen, List.getElem?_append_right (Nat.le_add_right _ _),
        Nat.add_sub_cancel_left]

theorem entries_eq (n : ℕ) :
    entries n files = ((files.zipIdx n).map fun x => (⟨x.2 % 2 ^ 16, strncpy x.1.target dirsiz⟩ : Dirent)).flatMap
      Dirent.bytes := by
  induction files generalizing n with
  | nil => rfl
  | cons f fs ih => rw [entries, ih, List.zipIdx_cons, List.map_cons, List.flatMap_cons, entry]

theorem mem_dirents (he : e ∈ dirents files) : e.inum < files.length + 2 ∧ e.name.length = dirsiz := by
  simp only [dirents, List.mem_cons, List.mem_map, Prod.exists] at he
  rcases he with rfl | rfl | ⟨f, j, hj, rfl⟩
  · exact ⟨Nat.lt_add_left _ Nat.one_lt_two, length_strncpy _ _⟩
  · exact ⟨Nat.lt_add_left _ Nat.one_lt_two, length_strncpy _ _⟩
  · exact ⟨(Nat.mod_le _ _).trans_lt (by simpa [Nat.add_comm] using List.snd_lt_add_of_mem_zipIdx hj), length_strncpy _ _⟩

end entries

/-- Every file has its blocks, the bitmap marks no other, and the disk has all that the inodes in memory have. -/
def Mode.exact : Mode := ⟨True, True, False, False, fun _ => trivial⟩

section made

variable {files : List HostFile} {blocks : ℕ → Bytes} (h : Made files (Fs.volume blocks))
include h

theorem Made.cases_core (i : ℕ) : ((Fs.volume blocks).core i).type = 0 ∨ i = rootino ∨ ∃ k,
    ∃ _ : k < files.length, i = k + 2 := by
  by_cases h0 : i = 0
  · subst h0
    exact .inl (congrArg Node.type h.zeroth)
  by_cases h1 : i = rootino
  · exact .inr (.inl h1)
  by_cases hlt : i < files.length + 2
  · unfold rootino at h1
    exact .inr (.inr ⟨i - 2, by omega, by omega⟩)
  · rw [h.fresh i (by omega)]
    exact .inl rfl

variable (hn : files.length + 2 ≤ ninodes)
include hn

theorem Made.entry_root (k : ℕ) : (((Fs.volume blocks).node rootino).entry k).inum < files.length + 2 := by
  have hl : ∀ e ∈ dirents files, e.inum < 2 ^ 16 ∧ e.name.length = dirsiz := by
    intro e he
    exact ⟨((mem_dirents he).1.trans_le hn).trans (by decide), (mem_dirents he).2⟩
  have hentry : ((Fs.volume blocks).node rootino).entry k = ((dirents files)[k]?).getD noEntry := by
    rw [← entry_fileNode tDir hl, h.root, rootBytes, entries_eq, List.append_assoc]
    rfl
  rw [hentry]
  cases he : (dirents files)[k]? with
  | none => exact Nat.succ_pos _
  | some e => exact (mem_dirents (List.mem_of_getElem? he)).1

theorem Made.whole (hroot : (files.length + 2) % 32 ≠ 0) : Whole Mode.exact (Fs.volume blocks) := by
  refine ⟨h.ledger, h.reserved, fun i k hdir _ _ _ => ?_, fun _ i n ht hlt => ?_, fun _ => h.covers⟩
  · have hi : i = rootino := by
      rcases h.cases_core i with h0 | h1 | ⟨k, hk, rfl⟩
      · cases h0.symm.trans hdir
      · exact h1
      · cases (congrArg Node.type (h.file k hk)).symm.trans hdir
    subst hi
    exact ⟨(h.entry_root hn k).trans_le hn, fun hstrict => hstrict.elim⟩
  · have hi : 1 ≤ i ∧ i < files.length + 2 := by
      rcases h.cases_core i with h0 | rfl | ⟨k, hk, rfl⟩
      · exact absurd h0 ht
      · exact ⟨le_rfl, Nat.lt_add_left _ Nat.one_lt_two⟩
      · omega
    have hlt' := hi.2.trans_le hn
    rw [volume_core hlt'] at hlt
    rw [Volume.block, h.pointer hi.1 hi.2 hn]
    exact (((h.noHoles_iff hn).mpr hroot).filled i hlt' n hlt).1

-- no inode is read yet, and the first cell alone is referred to, as the root directory
theorem Made.inv_boot {k : Kernel} (hroot : (files.length + 2) % 32 ≠ 0) (hk : Kernel.boot blocks = k) :
    Inv Mode.exact k.refs k.refs unlocked k.fs := by
  have hat := (balanced_boot blocks).cells
  rw [hk] at hat
  have hzero : ∀ c, 0 < k.refs c → c = 0 := by
    intro c hc
    by_contra hne
    simp [← hk, Kernel.refs, Kernel.boot, hne] at hc
  have hoff : ∀ {c} {p : Prop}, (k.fs.icache c).valid = true → p := by
    intro c p hv
    by_cases hc : c = 0
    · simp [← hk, Kernel.boot, hc] at hv
    · simp [← hk, Kernel.boot, hc] at hv
  have hcore : k.fs.core = (Fs.volume blocks).core := by
    funext i
    refine FsState.core_eq (fun c hc => hoff hc.2.1) fun _ => ?_
    rw [← hk]
    rfl
  have hlive : k.fs.live = Fs.volume blocks := by
    rw [FsState.live, hcore, ← hk]
    rfl
  refine ⟨⟨⟨fun _ => rfl, hat.lock, fun c c' hc hc' _ _ => (hzero c hc).trans (hzero c' hc').symm⟩, Under.refl _,
    fun c hc => ?_, fun c hc _ => ?_, fun _ c hl => absurd hl Bool.false_ne_true, fun c _ => hoff, fun c _ => hoff,
    fun _ c _ => hoff, hlive ▸ h.whole hn hroot, fun _ i ht h0 => ?_⟩, trivial, fun i hi => ?_⟩
  · rw [hzero c hc, ← hk]
    rfl
  · rw [hzero c hc, ← hk]
    exact show rootino < ninodes by decide
  · rw [hcore] at ht h0
    rcases h.cases_core i with h1 | rfl | ⟨k, hk, rfl⟩
    · exact absurd h1 ht
    · cases (congrArg Node.nlink h.root).symm.trans h0
    · cases (congrArg Node.nlink (h.file k hk)).symm.trans h0
  · rw [hcore, ← hk] at hi
    exact absurd rfl hi

end made

theorem names_keep_order {files : List HostFile} {image : State} {as : List (Slot × Call)} {k : Kernel}
    (hn : files.length + 2 ≤ ninodes) (hroot : (files.length + 2) % 32 ≠ 0) (hmain : main files start = .ok ((), image))
    (hcalls : ∀ a ∈ as, a.2.names = true) (hr : run Kernel.step (Kernel.boot image.blocks) as = some k) :
    (∀ x y, k.fs.live.own x ≠ 0 → k.fs.live.own x = k.fs.live.own y → x = y) ∧
      (∀ b, nmeta ≤ b → b < fssize → (k.fs.live.used b = true ↔ ∃ x, k.fs.live.own x = b)) ∧
      (∀ i, k.fs.table.core i = k.fs.core i) ∧ ∀ i, (k.fs.core i).type ≠ 0 → (k.fs.core i).nlink = 0 →
        ∃ c, (k.fs.icache c).inum = i ∧ 0 < count (fun f => (k.ftable f).cell) c + count k.cwd c := by
  obtain ⟨hmade, -⟩ := wp_ok (wp_main (E := fun _ => True) hn (fun _ => trivial) fun _ => trivial) hmain
  obtain ⟨hb, b, h⟩ := orderly_run (m := Mode.exact) id (by decide) (balanced_boot _) ⟨_, hmade.inv_boot hn hroot rfl⟩ hcalls hr
  refine ⟨h.whole.ledger.inj, fun x hlo hhi => ⟨h.whole.covers id x hlo hhi, ?_⟩, fun i => by_contra fun hi => (h.ahead i hi).1,
    fun i ht h0 => ?_⟩
  · rintro ⟨p, rfl⟩
    exact h.whole.ledger.held p (Nat.ne_of_gt (Nat.lt_of_lt_of_le (by decide) hlo))
  · obtain ⟨c, hc, -, hi⟩ := h.kept i ht h0
    rw [← h.ref, hb.cells.ref, cellRefs, Nat.add_zero] at hc
    exact ⟨c, hi, hc⟩

/-- A file is made and opened, loses its only name and is closed. -/
def removal : List (Slot × Call) := [(0, .opn [97] 0x202), (0, .unlink [97]), (0, .close ⟨0, Nat.succ_pos 15⟩)]

theorem names_keep_order_removal : ∃ image k, main [] start = .ok ((), image) ∧
    run Kernel.step (Kernel.boot image.blocks) removal = some k ∧
    ∀ b, nmeta ≤ b → b < fssize → (k.fs.live.used b = true ↔ ∃ x, k.fs.live.own x = b) := by
  have hok : (match main [] start with
      | .error _ => false
      | .ok (_, image) => (run Kernel.step (Kernel.boot image.blocks) removal).isSome) = true := by decide +kernel
  cases hmain : main [] start with
  | error e => simp [hmain] at hok
  | ok x =>
    obtain ⟨u, image⟩ := x
    simp only [hmain] at hok
    obtain ⟨k, hr⟩ := Option.isSome_iff_exists.mp hok
    exact ⟨image, k, rfl, hr, (names_keep_order (by decide) (by decide) hmain (by decide) hr).2.1⟩

end Mkfs

end Laboratorio.Fs
