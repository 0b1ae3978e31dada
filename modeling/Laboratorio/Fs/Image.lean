import Laboratorio.Fs.Append

namespace Laboratorio.Fs.Mkfs

open Bytes Function

structure Image (s : State) : Prop where
  packed : Packed s.volume s.freeblock
  sectors : s.sectors = fssize
  spans : ∀ i, (s.volume.core i).type ≠ 0 → Spans s.volume i (s.volume.core i).size
  fresh : ∀ i, s.freeinode ≤ i → s.volume.core i = Dinode.zero

theorem iblock_lt_fssize {i : ℕ} (hi : i < ninodes) : iblock i < fssize :=
    (iblock_lt (show i < Superblock.ninodes from hi)).trans (by decide)

section wp

variable {s : State} {i : ℕ} {E : Exit → Prop}

theorem wp_rinode {Q : Dinode → State → Prop} (hi : i < ninodes) (hsec : s.sectors = fssize) (hQ : Q (s.volume.core i) s) :
    wp (rinode i) s Q E := by
  rw [rinode, wp_bind, wp_rsect, hsec]
  refine ⟨fun _ => ?_, fun hn => absurd (iblock_lt_fssize hi) hn⟩
  rw [wp_pure]
  have hcore : s.volume.core i = dinode s.blocks i := volume_core (show i < Superblock.ninodes from hi)
  rw [hcore] at hQ
  exact hQ

theorem wp_winode {Q : Unit → State → Prop} {d : Dinode} (hi : i < ninodes) (hsec : s.sectors = fssize) (hd : d.Fits)
    (hQ : ∀ s' : State, s'.volume = s.volume.setCore i d → s'.sectors = fssize → s'.freeinode = s.freeinode →
    s'.freeblock = s.freeblock →
      Q () s') : wp (winode i d) s Q E := by
  have hlt := iblock_lt_fssize hi
  rw [winode, wp_bind, wp_rsect, hsec]
  refine ⟨fun _ => ?_, fun hn => absurd hlt hn⟩
  rw [wp_wsect]
  refine hQ _ ?_ ?_ rfl rfl
  · rw [State.volume, volume_putDinode (show i < Superblock.ninodes from hi) hd]
    rfl
  · simp only [hsec]
    omega

end wp

end Laboratorio.Fs.Mkfs

namespace Laboratorio.Fs

open Bytes

def Node.append (a : Node) (p : List UInt8) : Node :=
  { a with size := a.size + p.length, bytes := store a.bytes a.size p.length (fun i => p.getD i 0) }

namespace Mkfs

open Function

theorem size_le_of_spans {v : Volume} {i size : ℕ} (h : Spans v i size) : size ≤ maxfile * bsize := by
  by_contra hn
  have hlt : maxfile < span size := lt_span_iff.mpr (by omega)
  exact (h.blocks maxfile).mpr hlt (Volume.block_of_le le_rfl)

structure Grew (s s' : State) (inum : ℕ) (p : List UInt8) : Prop where
  image : Image s'
  freeinode : s'.freeinode = s.freeinode
  others : ∀ j, j ≠ inum → s'.volume.node j = s.volume.node j
  node : s'.volume.node inum = (s.volume.node inum).append p
  free : s'.freeblock + need (s.volume.node inum).size = s.freeblock + need ((s.volume.node inum).size + p.length)

variable {s : State} {inum : ℕ} {p : List UInt8} {E : Exit → Prop}

theorem with_self (s : State) (i : ℕ) : s.with i (s.volume.core i) = s.volume := by
  simp [State.with, Volume.setCore]

theorem Onward.fits {s' : State} {din' : Dinode} (ho : Onward s s' inum (s.volume.core inum) din')
    (hp : Packed (s'.with inum din') s'.freeblock) (ht : din'.type ≠ 0) {size : ℕ} (hsize : size < 2 ^ 32) :
    Dinode.Fits { din' with size := size } := by
  have hf : (s.volume.core inum).Fits := volume_fits inum
  obtain ⟨htype, hmajor, hminor, hnlink, _, _⟩ := Dinode.ext_iff.mp ho.fields
  refine ⟨htype ▸ hf.type, hmajor ▸ hf.major, hminor ▸ hf.minor, hnlink ▸ hf.nlink, hsize, fun k => ?_, fun k hk => ?_⟩
  · by_cases hk : k ≤ ndirect
    · have ht' : ((s'.with inum din').core inum).type ≠ 0 := by rwa [State.with_core]
      have hown : (s'.with inum din').own (inum, k) = din'.addrs k := by
        rw [Volume.own_of_allocated ht', State.with_core, Dinode.ptr_direct hk]
      by_cases h0 : din'.addrs k = 0
      · simp [h0]
      · have hlt := (hp.ledger.range (inum, k) (hown ▸ h0)).2
        rw [hown] at hlt
        exact hlt.trans (by decide)
    · simp [ho.short k (by omega), hf.short k (by omega)]
  · exact (ho.short k hk).trans (hf.short k hk)

theorem wp_iappend (h : Image s) (hi : inum < ninodes) (ht : (s.volume.core inum).type ≠ 0)
    (hE : fssize + need (s.volume.node inum).size < s.freeblock + need ((s.volume.node inum).size + p.length) → E .read)
    (hE' : maxfile * bsize < (s.volume.node inum).size + p.length → E .assert) :
    wp (iappend inum p) s (fun _ s' => Grew s s' inum p) E := by
  rw [iappend, wp_bind]
  refine wp_rinode hi h.sectors ?_
  have hw := with_self s inum
  refine wp_seq (wp_iappendLoop le_rfl (hw.symm ▸ h.packed) h.sectors ht (hw.symm ▸ h.spans inum ht) hE hE') ?_
  rintro din' s' ⟨happ, hfree⟩
  have ho := happ.onward
  have ht' : din'.type ≠ 0 := by rwa [ho.type]
  have hsize : (s.volume.core inum).size + p.length < 2 ^ 32 := (size_le_of_spans happ.spans).trans_lt (by decide)
  refine wp_winode hi (ho.sectors.trans h.sectors) (ho.fits happ.packed ht' hsize) fun s'' hv hsec hino hblk => ?_
  have hinum : inum < s.freeinode := by
    by_contra hn
    rw [h.fresh inum (by omega)] at ht
    exact ht rfl
  have hv' : s''.volume = (s'.with inum din').setCore inum { din' with size := (s.volume.core inum).size + p.length } := by
    rw [hv]
    simp [State.with, Volume.setCore]
  have hown : s''.volume.own = (s'.with inum din').own := by
    rw [hv']
    exact Volume.own_setCore (by rw [State.with_core]) (by rw [State.with_core])
  have hdata : s''.volume.data = (s'.with inum din').data := by rw [hv']; rfl
  have hbyte : ∀ j, s''.volume.byte j = (s'.with inum din').byte j := fun j => Volume.byte_congr hown fun n _ => by rw [hdata]
  have hcore : ∀ j, j ≠ inum → s''.volume.core j = s.volume.core j := by
    intro j hj
    rw [hv', ← ho.core]
    simp [State.with, Volume.setCore, hj]
  have hcore' : s''.volume.core inum = { din' with size := (s.volume.core inum).size + p.length } := by
    rw [hv']
    simp [Volume.setCore]
  refine ⟨⟨⟨?_, ?_, ?_, ?_, ?_, ?_⟩, hsec, fun i hti => ?_, fun i hfi => ?_⟩, hino.trans ho.freeinode, fun j hj => ?_, ?_, ?_⟩
  · rw [hown, hv']
    exact happ.packed.ledger
  · rw [hown, hv']
    exact happ.packed.covers
  · rw [hblk, hv']
    exact happ.packed.used
  · rw [hblk]
    exact happ.packed.low
  · rw [hblk]
    exact happ.packed.high
  · rw [hblk, hdata]
    exact happ.packed.zero
  · by_cases hii : i = inum
    · subst hii
      rw [hcore']
      exact ⟨fun n => by rw [Volume.block, hown]; exact happ.spans.blocks n, by rw [hown]; exact happ.spans.indirect⟩
    · have hsi := h.spans i (by rwa [hcore i hii] at hti)
      have hoi : ∀ m, s''.volume.own (i, m) = s.volume.own (i, m) := fun m => by rw [hown, ho.others i hii, hw]
      rw [hcore i hii]
      exact ⟨fun n => by rw [Volume.block, hoi]; exact hsi.blocks n, by rw [hoi]; exact hsi.indirect⟩
  · rw [hino, ho.freeinode] at hfi
    rw [hcore i (by omega)]
    exact h.fresh i hfi
  · have hb : s''.volume.byte j = s.volume.byte j := by
      funext x
      rw [hbyte, happ.bytes, if_neg (by simp [hj]), hw]
    rw [Volume.node, Volume.node, hcore j hj, hb]
  · obtain ⟨htype, hmajor, hminor, hnlink, _, _⟩ := Dinode.ext_iff.mp ho.fields
    have hb : s''.volume.byte inum = store (s.volume.byte inum) (s.volume.core inum).size p.length (fun i => p.getD i 0) := by
      funext x
      rw [hbyte, happ.bytes, hw]
      simp [store]
    rw [Volume.node, hcore', hb]
    exact Node.ext htype hmajor hminor hnlink rfl rfl
  · rw [hblk]
    exact hfree

def fileNode (type : ℕ) (l : List UInt8) : Node := ⟨type, 0, 0, 1, l.length, fun x => l.getD x 0⟩

theorem fileNode_append (type : ℕ) (l p : List UInt8) : (fileNode type l).append p = fileNode type (l ++ p) := by
  refine Node.ext rfl rfl rfl rfl (by simp [Node.append, fileNode]) ?_
  funext x
  simp only [Node.append, fileNode, store]
  by_cases h1 : x < l.length
  · rw [if_neg (by omega), List.getD_append _ _ _ _ h1]
  · by_cases h2 : x < l.length + p.length
    · rw [if_pos (by omega), List.getD_append_right _ _ _ _ (by omega)]
    · rw [if_neg (by omega), List.getD_eq_default _ _ (by omega), List.getD_eq_default _ _ (by rw [List.length_append]; omega)]

theorem wp_ialloc {type : ℕ} {Q : ℕ → State → Prop} (h : Image s) (hi : s.freeinode < ninodes) (ht : type < 2 ^ 16)
    (hQ : ∀ s', Image s' → s'.freeinode = s.freeinode + 1 → s'.freeblock = s.freeblock →
      (∀ j, j ≠ s.freeinode → s'.volume.node j = s.volume.node j) → s'.volume.node s.freeinode = fileNode type [] →
      Q s.freeinode s') :
    wp (ialloc type) s Q E := by
  rw [ialloc, wp_bind, takeInode, wp_bind, wp_get, wp_bind, wp_set, wp_pure, wp_bind]
  have hfits : Dinode.Fits { Dinode.zero with type := type, nlink := 1 } := ⟨ht, Nat.two_pow_pos 16, Nat.two_pow_pos 16,
    show 1 < 2 ^ 16 by decide, Nat.two_pow_pos 32, fun _ => Nat.two_pow_pos 32, fun _ _ => rfl⟩
  refine wp_winode hi h.sectors hfits fun s' hv hsec hino hblk => wp_ret ?_
  have hv' : s'.volume = s.volume.setCore s.freeinode { Dinode.zero with type := type, nlink := 1 } := hv
  have hfree : (s.volume.core s.freeinode).type = 0 := by rw [h.fresh _ le_rfl]; rfl
  have hown : s'.volume.own = s.volume.own := by
    rw [hv']
    exact Volume.own_setCore_empty (fun k => Volume.own_of_free hfree) fun _ => rfl
  have hdata : s'.volume.data = s.volume.data := by rw [hv']; rfl
  have hbyte : ∀ j, s'.volume.byte j = s.volume.byte j := fun j => Volume.byte_congr hown fun n _ => by rw [hdata]
  have hcore : ∀ j, j ≠ s.freeinode → s'.volume.core j = s.volume.core j := by
    intro j hj
    rw [hv']
    exact update_of_ne hj _ _
  have hcore' : s'.volume.core s.freeinode = { Dinode.zero with type := type, nlink := 1 } := by
    rw [hv']
    exact update_self _ _ _
  have hno : ∀ k, s'.volume.own (s.freeinode, k) = 0 := fun k => by rw [hown, Volume.own_of_free hfree]
  refine hQ s' ⟨⟨?_, ?_, ?_, ?_, ?_, ?_⟩, hsec, fun i hti => ?_, fun i hfi => ?_⟩ hino hblk (fun j hj => ?_) ?_
  · rw [hown, hv']
    exact h.packed.ledger
  · rw [hown, hv']
    exact h.packed.covers
  · rw [hblk, hv']
    exact h.packed.used
  · rw [hblk]
    exact h.packed.low
  · rw [hblk]
    exact h.packed.high
  · rw [hblk, hdata]
    exact h.packed.zero
  · by_cases hii : i = s.freeinode
    · rw [hii, hcore']
      have hs : span 0 = 0 := by decide
      exact ⟨fun n => by simp [Volume.block, hno, Dinode.zero, hs], by simp [hno, Dinode.zero, hs]⟩
    · have hsi := h.spans i (by rwa [hcore i hii] at hti)
      rw [hcore i hii]
      exact ⟨fun n => by rw [Volume.block, hown]; exact hsi.blocks n, by rw [hown]; exact hsi.indirect⟩
  · rw [hino] at hfi
    simp only at hfi
    rw [hcore i (by omega)]
    exact h.fresh i (by omega)
  · rw [Volume.node, Volume.node, hcore j hj, hbyte]
  · rw [Volume.node, hcore']
    refine Node.ext rfl rfl rfl rfl rfl ?_
    funext x
    simp [Volume.byte, Volume.block, hno, fileNode]

structure Holds (s : State) (dir : List UInt8) (files : List (List UInt8)) : Prop where
  image : Image s
  freeinode : s.freeinode = files.length + 2
  zeroth : s.volume.node 0 = ⟨0, 0, 0, 0, 0, fun _ => 0⟩
  root : s.volume.node rootino = fileNode tDir dir
  file : ∀ k (h : k < files.length), s.volume.node (k + 2) = fileNode tFile files[k]
  free : s.freeblock = nmeta + need dir.length + (files.map fun l => need l.length).sum

namespace Holds

variable {dir : List UInt8} {files : List (List UInt8)} {s' : State}

theorem appendRoot (h : Holds s dir files) (hg : Grew s s' rootino p) : Holds s' (dir ++ p) files where
  image := hg.image
  freeinode := hg.freeinode.trans h.freeinode
  zeroth := (hg.others 0 (by decide)).trans h.zeroth
  root := by rw [hg.node, h.root, fileNode_append]
  file := fun k hk => (hg.others _ (by unfold rootino; omega)).trans (h.file k hk)
  free := by
    have hf := hg.free
    rw [h.root, h.free] at hf
    simp only [fileNode] at hf
    rw [List.length_append]
    omega

theorem appendLast {l : List UInt8} (h : Holds s dir (files ++ [l])) (hg : Grew s s' (files.length + 2) p) :
    Holds s' dir (files ++ [l ++ p]) where
  image := hg.image
  freeinode := by rw [hg.freeinode, h.freeinode]; simp
  zeroth := (hg.others 0 (by omega)).trans h.zeroth
  root := (hg.others _ (by unfold rootino; omega)).trans h.root
  file := by
    intro k hk
    by_cases hlast : k = files.length
    · subst hlast
      rw [hg.node, h.file _ (by simp)]
      simp [fileNode_append]
    · rw [List.length_append, List.length_singleton] at hk
      have hk' : k < files.length := by omega
      rw [hg.others _ (by omega), h.file k (by simp; omega), List.getElem_append_left hk', List.getElem_append_left hk']
  free := by
    have hf := hg.free
    rw [h.file _ (by simp), h.free] at hf
    simp only [List.getElem_concat_length, fileNode] at hf
    simp only [List.map_append, List.map_cons, List.map_nil, List.sum_append, List.sum_singleton, List.length_append] at hf ⊢
    omega

theorem type_ne {k : ℕ} (h : Holds s dir files) (hk : k < files.length) : (s.volume.core (k + 2)).type ≠ 0 := by
  have := congrArg Node.type (h.file k hk)
  rw [show (s.volume.core (k + 2)).type = tFile from this]
  decide

theorem type_ne_root (h : Holds s dir files) : (s.volume.core rootino).type ≠ 0 := by
  have := congrArg Node.type h.root
  rw [show (s.volume.core rootino).type = tDir from this]
  decide

end Holds

theorem need_zero : need 0 = 0 := by decide

variable {dir : List UInt8} {files : List (List UInt8)}

theorem wp_ialloc_file (h : Holds s dir files) (hn : files.length + 2 < ninodes) :
    wp (ialloc tFile) s (fun inum s' => inum = files.length + 2 ∧ Holds s' dir (files ++ [[]])) E := by
  have hfree := h.freeinode
  refine wp_ialloc h.image (by rwa [hfree]) (by decide) fun s' himg hino hblk hothers hnode => ⟨hfree, himg, ?_, ?_, ?_, ?_, ?_⟩
  · rw [hino, hfree]
    simp
  · exact (hothers 0 (by omega)).trans h.zeroth
  · exact (hothers _ (by unfold rootino; omega)).trans h.root
  · intro k hk
    by_cases hlast : k = files.length
    · subst hlast
      rw [← hfree, hnode]
      simp
    · rw [List.length_append, List.length_singleton] at hk
      have hk' : k < files.length := by omega
      rw [hothers _ (by omega), h.file k hk', List.getElem_append_left hk']
  · rw [hblk, h.free]
    simp [need_zero]

theorem wp_appendRoot (h : Holds s dir files)
    (hr : fssize < nmeta + need (dir ++ p).length + (files.map fun l => need l.length).sum → E .read)
    (ha : maxfile * bsize < (dir ++ p).length → E .assert) :
    wp (iappend rootino p) s (fun _ s' => Holds s' (dir ++ p) files) E := by
  refine wp_mono (wp_iappend h.image (by decide) h.type_ne_root ?_ ?_) fun _ _ hg => h.appendRoot hg
  · rw [h.root, h.free]
    simp only [fileNode]
    rw [List.length_append] at hr
    intro hlt
    exact hr (by omega)
  · rw [h.root]
    rwa [List.length_append] at ha

theorem wp_appendAll {l : List UInt8} {chunks : List (List UInt8)} (h : Holds s dir (files ++ [l]))
    (hn : files.length + 2 < ninodes)
    (hr : fssize < nmeta + need dir.length + ((files ++ [l ++ chunks.flatten]).map fun l => need l.length).sum → E .read)
    (ha : maxfile * bsize < (l ++ chunks.flatten).length → E .assert) :
    wp (appendAll (files.length + 2) chunks) s (fun _ s' => Holds s' dir (files ++ [l ++ chunks.flatten])) E := by
  induction chunks generalizing l s with
  | nil =>
    refine wp_ret ?_
    simpa using h
  | cons c cs ih =>
    rw [appendAll, wp_bind]
    have hnode : s.volume.node (files.length + 2) = fileNode tFile l := by
      rw [h.file _ (by simp)]
      simp
    have hle : (l ++ c).length ≤ (l ++ (c :: cs).flatten).length := by simp
    refine wp_mono (wp_iappend h.image hn (h.type_ne (by simp)) ?_ ?_) fun _ s' hg => ?_
    · rw [hnode, h.free]
      simp only [fileNode]
      intro hlt
      apply hr
      have hmono := need_mono hle
      simp only [List.map_append, List.map_cons, List.map_nil, List.sum_append, List.sum_singleton,
        List.length_append] at hlt hmono ⊢
      omega
    · rw [hnode]
      simp only [fileNode]
      intro hlt
      apply ha
      simp only [List.length_append] at hle ⊢
      omega
    · have hassoc : l ++ (c :: cs).flatten = l ++ c ++ cs.flatten := by simp
      rw [hassoc] at hr ha ⊢
      exact ih (h.appendLast hg) hr ha

end Mkfs

end Laboratorio.Fs
