import Laboratorio.Fs.Populate

namespace Laboratorio.Fs.Mkfs

open Bytes Function

def Takes {α : Type} (k : ℕ) (m : MkfsM α) : Prop := ∀ s, wp m s (fun _ s' => s'.freeinode = s.freeinode + k) fun _ => True

namespace Takes

variable {α β : Type} {k l : ℕ}

theorem ret (a : α) : Takes 0 (pure a) := fun _ => wp_ret rfl

theorem fail (e : Exit) : Takes k (throw e : MkfsM α) := fun _ => (wp_throw e).mpr trivial

variable {m : MkfsM α}

theorem bind {f : α → MkfsM β} (hm : Takes k m) (hf : ∀ a, Takes l (f a)) : Takes (k + l) (m >>= f) := by
  intro s
  refine wp_seq (hm s) fun a s1 h1 => wp_mono (hf a s1) fun _ s2 h2 => ?_
  omega

theorem next {f : α → MkfsM β} (hm : Takes 0 m) (hf : ∀ a, Takes l (f a)) : Takes l (m >>= f) :=
  Nat.zero_add l ▸ hm.bind hf

theorem ite {c : Prop} [Decidable c] {n : MkfsM α} (hm : Takes k m) (hn : Takes k n) : Takes k (if c then m else n) := by
  split_ifs
  · exact hm
  · exact hn

theorem change {f : State → State} (hf : ∀ s, (f s).freeinode = s.freeinode) : Takes 0 (modify f : MkfsM PUnit) :=
    fun s => (wp_modify f).mpr (hf s)

end Takes

theorem takes_wsect (sec : ℕ) (buf : Bytes) : Takes 0 (wsect sec buf) := Takes.change fun _ => rfl

theorem takes_rsect (sec : ℕ) : Takes 0 (rsect sec) := by
  intro s
  rw [wp_rsect]
  exact ⟨fun _ => rfl, fun _ => trivial⟩

theorem takes_takeBlock : Takes 0 takeBlock := by
  intro s
  rw [takeBlock, wp_bind, wp_get, wp_bind, wp_set, wp_pure]
  rfl

theorem takes_takeInode : Takes 1 takeInode := by
  intro s
  rw [takeInode, wp_bind, wp_get, wp_bind, wp_set, wp_pure]

theorem takes_rinode (inum : ℕ) : Takes 0 (rinode inum) := (takes_rsect _).next fun _ => Takes.ret _

theorem takes_winode (inum : ℕ) (d : Dinode) : Takes 0 (winode inum d) := (takes_rsect _).next fun _ => takes_wsect _ _

theorem takes_ialloc (type : ℕ) : Takes 1 (ialloc type) :=
  takes_takeInode.bind fun inum => (takes_winode inum _).next fun _ => Takes.ret inum

theorem takes_mapBlock (din : Dinode) (fbn : ℕ) : Takes 0 (mapBlock din fbn) := by
  refine Takes.ite ?_ ?_
  · exact Takes.ite (takes_takeBlock.next fun _ => Takes.ret _) (Takes.ret _)
  · refine Takes.ite (takes_takeBlock.next fun _ => (Takes.ret _).next fun _ => ?_) ((Takes.ret _).next fun _ => ?_)
    all_goals
      refine (takes_rsect _).next fun _ => Takes.ite ?_ (Takes.ret _)
      exact takes_takeBlock.next fun _ => (takes_wsect _ _).next fun _ => Takes.ret _

theorem takes_iappendLoop (fuel : ℕ) (din : Dinode) (off : ℕ) (p : List UInt8) : Takes 0 (iappendLoop fuel din off p) := by
  induction fuel generalizing din off p with
  | zero => exact Takes.ret _
  | succ fuel ih =>
    refine Takes.ite (Takes.ret _) (Takes.ite (Takes.fail _) ?_)
    exact (takes_mapBlock _ _).next fun _ => (takes_rsect _).next fun _ => (takes_wsect _ _).next fun _ => ih _ _ _

theorem takes_iappend (inum : ℕ) (p : List UInt8) : Takes 0 (iappend inum p) :=
  (takes_rinode _).next fun _ => (takes_iappendLoop _ _ _ _).next fun _ => takes_winode _ _

theorem takes_appendAll (inum : ℕ) (chunks : List (List UInt8)) : Takes 0 (appendAll inum chunks) := by
  induction chunks with
  | nil => exact Takes.ret _
  | cons c cs ih => exact (takes_iappend _ _).next fun _ => ih

theorem takes_addFile (root : ℕ) (f : HostFile) : Takes 1 (addFile root f) := by
  refine Takes.ite (Takes.fail _) ?_
  exact (takes_ialloc _).bind fun _ => (takes_iappend _ _).next fun _ => takes_appendAll _ _

theorem takes_addFiles (root : ℕ) (files : List HostFile) : Takes files.length (addFiles root files) := by
  induction files with
  | nil => exact Takes.ret _
  | cons f fs ih =>
    rw [List.length_cons, Nat.add_comm]
    exact (takes_addFile root f).bind fun _ => ih

theorem takes_populate (files : List HostFile) : Takes (1 + files.length) (populate files) := by
  refine Takes.next (Takes.change ?_) fun _ => Takes.next (Takes.change ?_) fun _ => (takes_wsect _ _).next fun _ => ?_
  · exact fun _ => rfl
  · exact fun _ => rfl
  refine (takes_ialloc _).bind fun root => Takes.ite (Takes.fail _) ?_
  refine (takes_iappend _ _).next fun _ => (takes_iappend _ _).next fun _ => ?_
  exact (takes_addFiles root files).bind fun _ => (takes_rinode _).next fun _ => takes_winode _ _

theorem takes_balloc (used : ℕ) : Takes 0 (balloc used) := Takes.ite (Takes.fail _) (takes_wsect _ _)

structure Within (s t : State) : Prop where
  inodes : ∀ i, 1 ≤ i → i < t.freeinode → i < ninodes
  pointers : ∀ i, 1 ≤ i → i < t.freeinode → ∀ m, (dinode t.blocks i).ptr t.blocks m ≠ 0 →
    nmeta ≤ (dinode t.blocks i).ptr t.blocks m ∧ (dinode t.blocks i).ptr t.blocks m < fssize
  area : ∀ i, 1 ≤ i → i < t.freeinode → inodestart ≤ iblock i ∧ iblock i < bmapstart
  kept : ∀ i, 1 ≤ i → i < t.freeinode → dinode t.blocks i = dinode s.blocks i

theorem Made.type_ne {files : List HostFile} {v : Volume} (h : Made files v) {i : ℕ} (h1 : 1 ≤ i) (h2 : i < files.length + 2) :
    (v.core i).type ≠ 0 := by
  by_cases hi : i = rootino
  · rw [hi, show (v.core rootino).type = tDir from congrArg Node.type h.root]
    decide
  · obtain ⟨k, rfl⟩ : ∃ k, i = k + 2 := ⟨i - 2, by unfold rootino at hi; omega⟩
    rw [show (v.core (k + 2)).type = tFile from congrArg Node.type (h.file k (by omega))]
    decide

theorem Made.pointer {files : List HostFile} {blocks : ℕ → Bytes} (h : Made files (Fs.volume blocks)) {i : ℕ} (h1 : 1 ≤ i)
    (h2 : i < files.length + 2) (hn : files.length + 2 ≤ ninodes) (m : ℕ) :
    (Fs.volume blocks).own (i, m) = (dinode blocks i).ptr blocks m := by
  have hcore : (Fs.volume blocks).core i = dinode blocks i := volume_core (show i < ninodes by omega)
  have ht := h.type_ne h1 h2
  rw [Volume.own_of_allocated ht, hcore]
  refine ptr_volume (fun hd => ?_) m
  rw [← hcore, ← Volume.own_ndirect ht] at hd ⊢
  exact (h.ledger.range _ hd).1

theorem mkfs_within_iff {files : List HostFile} {t : State} (h : main files start = .ok ((), t)) :
    ∃ s, populate files start = .ok ((), s) ∧ balloc s.freeblock s = .ok ((), t) ∧ (Within s t ↔ files.length ≤ 198) := by
  rw [main, bind_eq_ok] at h
  obtain ⟨_, s, hpop, hrest⟩ := h
  obtain ⟨_, _, hget, hbal⟩ := bind_eq_ok.mp hrest
  cases hget
  have hino : t.freeinode = files.length + 2 := by
    have h1 := wp_ok (takes_populate files start) hpop
    have h2 := wp_ok (takes_balloc _ _) hbal
    have h3 : start.freeinode = 1 := rfl
    omega
  refine ⟨s, hpop, hbal, fun hw => ?_, fun hlen => ?_⟩
  · have := hw.inodes (files.length + 1) (by omega) (by omega)
    unfold ninodes at this
    omega
  have hn : files.length + 2 ≤ ninodes := by unfold ninodes; omega
  obtain ⟨hmade, hused, _, _, hle, _⟩ := wp_ok (wp_populate (E := fun _ => True) hn (fun _ => trivial) fun _ => trivial) hpop
  have hblocks : t.blocks = update s.blocks bmapstart ((List.range s.freeblock).foldl setBit fun _ => 0) :=
    (wp_ok (wp_balloc (E := fun _ => True) hle) hbal).2
  have hmade' := hmade.bitmap hused hblocks
  have hlt : ∀ i, i < t.freeinode → i < ninodes := fun i hi => by omega
  refine ⟨fun i _ hi => hlt i hi, fun i h1 hi m hm => ?_, fun i _ hi => ?_, fun i _ hi => ?_⟩
  · rw [← hmade'.pointer h1 (by omega) hn] at hm ⊢
    exact hmade'.ledger.range _ hm
  · exact ⟨Nat.le_add_left _ _, iblock_lt (hlt i hi)⟩
  · rw [dinode, dinode, hblocks, update_of_ne (iblock_lt (hlt i hi)).ne]

def twoFiles : List HostFile := [⟨[97], [[1, 2, 3]]⟩, ⟨[98], [List.replicate 512 7, [8]]⟩]

theorem mkfs_within_iff_twoFiles : ∃ t, main twoFiles start = .ok ((), t) ∧
    ∃ s, populate twoFiles start = .ok ((), s) ∧ balloc s.freeblock s = .ok ((), t) ∧ (Within s t ↔ twoFiles.length ≤ 198) := by
  have hmain := wp_main (E := fun _ => False) (show twoFiles.length + 2 ≤ ninodes by decide)
    (fun hlt => absurd hlt (by decide +kernel)) (by decide +kernel)
  obtain ⟨_, t, ht, _⟩ := exists_of_wp hmain
  exact ⟨t, ht, mkfs_within_iff ht⟩

theorem addFiles_append (root : ℕ) (fs gs : List HostFile) :
    addFiles root (fs ++ gs) = addFiles root fs >>= fun _ => addFiles root gs := by
  induction fs with
  | nil => rfl
  | cons f fs ih => simp only [List.cons_append, addFiles, ih, bind_assoc]

theorem iblock_eq (i : ℕ) : iblock i = i / 8 + 32 := rfl

variable {s : State} {E : Exit → Prop}

theorem volume_beyond {s' : State} {i : ℕ} {b : Bytes} (h1 : ninodes ≤ i) (h2 : i < 208)
    (hb : s'.blocks = update s.blocks (iblock i) b) (hfree : s'.freeblock = s.freeblock) : s'.volume = s.volume := by
  have h1' : 200 ≤ i := h1
  have hi := iblock_eq i
  refine Volume.ext ?_ ?_ ?_
  · refine volume_congr_core fun j hj => ?_
    have hj' : j < 200 := hj
    have := iblock_eq j
    rw [hb, update_of_ne (by omega)]
  · simp only [State.volume, hfree]
  · refine volume_congr_data fun c hc => ?_
    have hc' : 59 ≤ c := hc
    rw [hb, update_of_ne (by omega)]

theorem wp_ialloc_beyond {Q : ℕ → State → Prop} (h : Image s) (h1 : ninodes ≤ s.freeinode) (h2 : s.freeinode < 208)
    (hQ : ∀ s', Image s' → s'.volume = s.volume → s'.freeblock = s.freeblock → Q s.freeinode s') : wp (ialloc tFile) s Q E := by
  rw [ialloc, wp_bind, takeInode, wp_bind, wp_get, wp_bind, wp_set, wp_pure, wp_bind, winode, wp_bind, wp_rsect]
  have hlt : iblock s.freeinode < fssize := by
    rw [iblock_eq]
    unfold fssize
    omega
  refine ⟨fun _ => ?_, fun hn => absurd (h.sectors ▸ hlt) hn⟩
  rw [wp_wsect, wp_pure]
  have hv : ∀ b n m, State.volume ⟨update s.blocks (iblock s.freeinode) b, n, m, s.freeblock⟩ = s.volume := fun b n m =>
    volume_beyond h1 h2 rfl rfl
  refine hQ _ ⟨hv _ _ _ ▸ h.packed, ?_, hv _ _ _ ▸ h.spans, fun i hi => ?_⟩ (hv _ _ _) rfl
  · simp only [h.sectors]
    omega
  · rw [hv]
    exact h.fresh i (Nat.le_of_succ_le hi)

theorem wp_main_beyond : wp (main (List.replicate 199 ⟨[97], []⟩)) start (fun _ _ => True) fun _ => False := by
  have hfs : List.replicate 199 (⟨[97], []⟩ : HostFile) = List.replicate 198 ⟨[97], []⟩ ++ [⟨[97], []⟩] := List.replicate_succ'
  rw [main, hfs, wp_bind]
  refine wp_populate_dots fun s1 h1 => ?_
  rw [addFiles_append, wp_bind]
  refine wp_seq (wp_addFiles h1 (by rw [List.length_replicate]; decide) (fun hlt => absurd hlt (by decide +kernel)) ?_
    (by decide +kernel)) fun _ s2 h2 => ?_
  · rintro ⟨f, hf, hbad⟩
    rw [List.eq_of_mem_replicate hf] at hbad
    exact absurd hbad (by decide)
  have hino : s2.freeinode = 200 := h2.freeinode
  rw [addFiles, wp_bind, addFile, wp_ite]
  refine ⟨fun hs => absurd hs (by decide), fun _ => ?_⟩
  rw [wp_bind]
  refine wp_ialloc_beyond h2.image hino.ge (by omega) fun s3 h3 hv hblk => ?_
  rw [wp_bind]
  have hroot : s3.volume.node rootino = s2.volume.node rootino := by rw [hv]
  have ht : (s3.volume.core rootino).type ≠ 0 := hv ▸ h2.type_ne_root
  refine wp_mono (wp_iappend h3 (by decide) ht ?_ ?_) fun _ s4 hg => ?_
  · rw [hroot, h2.root, hblk, h2.free, hino]
    exact fun hlt => absurd hlt (by decide +kernel)
  · rw [hroot, h2.root, hino]
    exact fun hlt => absurd hlt (by decide +kernel)
  refine wp_ret (wp_ret ?_)
  have ht4 : (s4.volume.core rootino).type ≠ 0 := by
    have : (s4.volume.core rootino).type = (s3.volume.core rootino).type := congrArg Node.type hg.node
    rwa [this]
  refine wp_mono (wp_round hg.image ht4) fun _ s5 h5 => ?_
  rw [wp_bind, wp_get]
  refine wp_mono (wp_balloc ?_) fun _ _ _ => trivial
  rw [h5.2.2.2]
  exact hg.image.packed.high

theorem mkfs_not_within : ∃ s t, main (List.replicate 199 ⟨[97], []⟩) start = .ok ((), t) ∧
    populate (List.replicate 199 ⟨[97], []⟩) start = .ok ((), s) ∧ balloc s.freeblock s = .ok ((), t) ∧
      t.freeinode = 201 ∧ ¬ Within s t := by
  obtain ⟨_, t, ht, _⟩ := exists_of_wp wp_main_beyond
  have h := ht
  rw [main, bind_eq_ok] at h
  obtain ⟨_, s, hpop, hrest⟩ := h
  obtain ⟨_, _, hget, hbal⟩ := bind_eq_ok.mp hrest
  cases hget
  have hino : t.freeinode = 201 := by
    have h1 := wp_ok (takes_populate _ start) hpop
    have h2 := wp_ok (takes_balloc _ _) hbal
    have h3 : start.freeinode = 1 := rfl
    rw [List.length_replicate] at h1
    omega
  refine ⟨s, t, ht, hpop, hbal, hino, fun hw => ?_⟩
  exact absurd (hw.inodes 200 (by decide) (by omega)) (by decide)

end Laboratorio.Fs.Mkfs
