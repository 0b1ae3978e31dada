import Laboratorio.Fs.Image
import Laboratorio.Fs.Names

namespace Laboratorio.Fs.Mkfs

open Bytes Function

def HostFile.contents (f : HostFile) : List UInt8 := f.chunks.flatten

def entry (inum : ℕ) (name : Name) : List UInt8 := Dirent.bytes ⟨inum % 2 ^ 16, strncpy name dirsiz⟩

def entries : ℕ → List HostFile → List UInt8
  | _, [] => []
  | inum, f :: fs => entry inum f.target ++ entries (inum + 1) fs

def rootBytes (files : List HostFile) : List UInt8 := entry rootino dot ++ entry rootino dotdot ++ entries 2 files

theorem length_entry (inum : ℕ) (name : Name) : (entry inum name).length = direntSize := by
  simp [entry, Dirent.bytes, length_strncpy, dirsiz, direntSize]

theorem length_entries (inum : ℕ) (files : List HostFile) : (entries inum files).length = files.length * direntSize := by
  induction files generalizing inum with
  | nil => simp [entries]
  | cons f fs ih =>
    rw [entries, List.length_append, length_entry, ih, List.length_cons]
    exact (Nat.add_comm _ _).trans (Nat.succ_mul _ _).symm

theorem length_rootBytes (files : List HostFile) : (rootBytes files).length = (files.length + 2) * direntSize := by
  simp only [rootBytes, List.length_append, length_entry, length_entries, direntSize]
  omega

def demand (files : List HostFile) :
    ℕ := nmeta + need (rootBytes files).length + (files.map fun f => need f.contents.length).sum

section addFiles

variable {s : State} {dir : List UInt8} {files : List (List UInt8)} {E : Exit → Prop}

theorem wp_addFile {f : HostFile} (h : Holds s dir files) (hn : files.length + 2 < ninodes)
    (hr : fssize < nmeta + need (dir ++ entry (files.length + 2) f.target).length +
      ((files ++ [f.contents]).map fun l => need l.length).sum → E .read)
    (ha : slash ∈ f.name ∨ maxfile * bsize < f.contents.length → E .assert)
    (hdir : (dir ++ entry (files.length + 2) f.target).length ≤ maxfile * bsize) :
    wp (addFile rootino f) s (fun _ s' => Holds s' (dir ++ entry (files.length + 2) f.target) (files ++ [f.contents])) E := by
  have hsum : (files.map fun l => need l.length).sum ≤ ((files ++ [f.contents]).map fun l => need l.length).sum := by simp
  rw [addFile, wp_ite]
  refine ⟨fun hs => (wp_throw _).mpr (ha (.inl hs)), fun _ => ?_⟩
  refine wp_seq (wp_ialloc_file h hn) ?_
  rintro inum s1 ⟨rfl, h1⟩
  refine wp_seq (wp_appendRoot h1 (fun hlt => hr ?_) fun hlt => absurd hlt (by exact Nat.not_lt.mpr hdir)) fun _ s2 h2 => ?_
  · simp only [List.map_append, List.map_cons, List.map_nil, List.sum_append, List.sum_singleton, List.length_nil,
      need_zero] at hlt hsum ⊢
    exact lt_of_lt_of_le hlt (by rw [entry]; omega)
  · exact wp_appendAll h2 hn hr fun hlt => ha (.inr hlt)

theorem wp_addFiles {fs : List HostFile} (h : Holds s dir files) (hn : files.length + fs.length + 2 ≤ ninodes)
    (hr : fssize < nmeta + need (dir ++ entries (files.length + 2) fs).length +
      ((files ++ fs.map HostFile.contents).map fun l => need l.length).sum → E .read)
    (ha : (∃ f ∈ fs, slash ∈ f.name ∨ maxfile * bsize < f.contents.length) → E .assert)
    (hdir : (dir ++ entries (files.length + 2) fs).length ≤ maxfile * bsize) : wp (addFiles rootino fs) s
      (fun _ s' => Holds s' (dir ++ entries (files.length + 2) fs) (files ++ fs.map HostFile.contents)) E := by
  induction fs generalizing s dir files with
  | nil =>
    refine wp_ret ?_
    simpa [entries] using h
  | cons f fs ih =>
    have hdirs : dir ++ entries (files.length + 2) (f :: fs) =
        dir ++ entry (files.length + 2) f.target ++ entries ((files ++ [f.contents]).length + 2) fs := by
      simp [entries, Nat.add_right_comm]
    have hfiles : files ++ (f :: fs).map HostFile.contents = files ++ [f.contents] ++ fs.map HostFile.contents := by simp
    rw [hdirs, hfiles] at hr ⊢
    rw [hdirs] at hdir
    rw [List.length_cons] at hn
    rw [addFiles]
    refine wp_seq (wp_addFile h (by omega) (fun hlt => hr ?_) (fun hbad => ha ⟨f, by simp, hbad⟩) ?_) fun _ s' h' => ?_
    · have hle : (dir ++ entry (files.length + 2) f.target).length ≤
          (dir ++ entry (files.length + 2) f.target ++ entries ((files ++ [f.contents]).length + 2) fs).length := by
        exact List.length_append.ge.trans' (Nat.le_add_right _ _)
      have hsum : ((files ++ [f.contents]).map fun l => need l.length).sum ≤
          ((files ++ [f.contents] ++ fs.map HostFile.contents).map fun l => need l.length).sum := by
        rw [show (files ++ [f.contents] ++ fs.map HostFile.contents).map (fun l => need l.length) = _ from List.map_append,
          List.sum_append]
        exact Nat.le_add_right _ _
      have hmono := need_mono hle
      omega
    · rw [List.length_append] at hdir
      omega
    · refine ih h' ?_ hr (fun ⟨g, hg, hbad⟩ => ha ⟨g, by simp [hg], hbad⟩) hdir
      rw [List.length_append, List.length_singleton]
      omega

end addFiles

theorem decode_zero (a : ℕ) : Dinode.decode (fun _ => 0) a = Dinode.zero := by
  have hrd : ∀ n o, rd n (fun _ => 0) o = 0 := fun n o => rd_eq_zero fun _ _ _ => rfl
  simp only [Dinode.decode, rd32, hrd, Dinode.zero, ite_self]

theorem core_blank {s : State} (hb : ∀ b, b ≠ 1 → s.blocks b = fun _ => 0) (i : ℕ) : s.volume.core i = Dinode.zero := by
  simp only [State.volume, Fs.volume]
  split_ifs
  · have hi : iblock i ≠ 1 := Nat.ne_of_gt ((show 1 < inodestart by decide).trans_le (Nat.le_add_left _ _))
    rw [dinode, hb _ hi, decode_zero]
  · rfl

theorem image_blank {s : State} (hb : ∀ b, b ≠ 1 → s.blocks b = fun _ => 0) (hsec : s.sectors = fssize)
    (hfree : s.freeblock = nmeta) : Image s := by
  have hcore := core_blank hb
  have hown : ∀ p, s.volume.own p = 0 := fun p => Volume.own_of_free (by rw [hcore]; rfl)
  refine ⟨⟨⟨fun p hp => absurd (hown p) hp, fun p hp => absurd (hown p) hp, fun p q hp => absurd (hown p) hp⟩, ?_, rfl,
    hfree.ge, ?_, ?_⟩, hsec, fun i hi => absurd (by rw [hcore]; rfl) hi, fun i _ => hcore i⟩
  · intro b hlo _ hu
    simp only [State.volume, hfree, decide_eq_true_eq] at hu
    omega
  · rw [hfree]
    decide
  · intro b hle x
    have hb1 : b ≠ 1 := by
      have : 1 < nmeta := by decide
      omega
    simp [State.volume, Fs.volume, hb b hb1]

/-- A volume with the files of the list and nothing else. The size of the root directory is rounded up. -/
structure Made (files : List HostFile) (v : Volume) : Prop where
  ledger : Ledger v.own v.used nmeta fssize
  covers : Covers v.own v.used nmeta fssize
  reserved : ∀ b < nmeta, v.used b = true
  zeroth : v.node 0 = ⟨0, 0, 0, 0, 0, fun _ => 0⟩
  root : v.node rootino = { fileNode tDir (rootBytes files) with size := ((rootBytes files).length / bsize + 1) * bsize }
  file : ∀ k (h : k < files.length), v.node (k + 2) = fileNode tFile files[k].contents
  fresh : ∀ i, files.length + 2 ≤ i → v.core i = Dinode.zero
  rootSpan : Spans v rootino (rootBytes files).length
  fileSpan : ∀ k (h : k < files.length), Spans v (k + 2) files[k].contents.length

section populate

variable {files : List HostFile} {E : Exit → Prop} {s : State}

theorem wp_rootDir {Q : ℕ → State → Prop} (hb : ∀ b, b ≠ 1 → s.blocks b = fun _ => 0) (hsec : s.sectors = fssize)
    (hino : s.freeinode = 1) (hfree : s.freeblock = nmeta) (hQ : ∀ s', Holds s' [] [] → Q rootino s') :
    wp (ialloc tDir) s Q E := by
  have himg := image_blank hb hsec hfree
  refine wp_ialloc himg (by rw [hino]; decide) (by decide) fun s' himg' hino' hblk hothers hnode => ?_
  rw [hino] at hnode hothers ⊢
  refine hQ s' ⟨himg', by rw [hino', hino]; rfl, ?_, hnode, fun k hk => absurd hk (by simp), ?_⟩
  · rw [hothers 0 (by decide), Volume.node, core_blank hb]
    refine Node.ext rfl rfl rfl rfl rfl ?_
    funext x
    have hown : s.volume.block 0 (x / bsize) = 0 := Volume.own_of_free (by rw [core_blank hb]; rfl)
    simp [Volume.byte, hown]
  · rw [hblk, hfree]
    simp [need_zero]

theorem length_rootBytes_le (hn : files.length + 2 ≤ ninodes) : (rootBytes files).length ≤ maxfile * bsize := by
  have hmul : (files.length + 2) * direntSize ≤ ninodes * direntSize := Nat.mul_le_mul_right _ hn
  rw [length_rootBytes]
  exact hmul.trans (by decide)

theorem Holds.made {s' : State} {din : Dinode} (h : Holds s (rootBytes files) (files.map HostFile.contents))
    (hdin : din = { s.volume.core rootino with size := ((s.volume.core rootino).size / bsize + 1) * bsize })
    (hv : s'.volume = s.volume.setCore rootino din) : Made files s'.volume := by
  have hroot := h.root
  have hown : s'.volume.own = s.volume.own := by
    rw [hv]
    exact Volume.own_setCore (by rw [hdin]) (by rw [hdin])
  have hdata : s'.volume.data = s.volume.data := by rw [hv]; rfl
  have hused : s'.volume.used = s.volume.used := by rw [hv]; rfl
  have hbyte : ∀ i, s'.volume.byte i = s.volume.byte i := fun i => Volume.byte_congr hown fun n _ => by rw [hdata]
  have hcore : ∀ i, i ≠ rootino → s'.volume.core i = s.volume.core i := by
    intro i hi
    rw [hv]
    exact update_of_ne hi _ _
  have hnode : ∀ i, i ≠ rootino → s'.volume.node i = s.volume.node i :=
    fun i hi => by rw [Volume.node, Volume.node, hcore i hi, hbyte]
  have hspan : ∀ i size, Spans s.volume i size → Spans s'.volume i size := fun i size hs =>
    ⟨fun n => by rw [Volume.block, hown]; exact hs.blocks n, by rw [hown]; exact hs.indirect⟩
  have hsize : (s.volume.core rootino).size = (rootBytes files).length := congrArg Node.size hroot
  refine ⟨?_, ?_, ?_, ?_, ?_, ?_, ?_, ?_, ?_⟩
  · rw [hown, hused]
    exact h.image.packed.ledger
  · rw [hown, hused]
    exact h.image.packed.covers
  · intro b hb
    have := h.image.packed.low
    rw [hused, h.image.packed.used]
    exact decide_eq_true (by omega)
  · rw [hnode 0 (by decide), h.zeroth]
  · have hc : s'.volume.core rootino = din := by
      rw [hv]
      exact update_self rootino din s.volume.core
    obtain ⟨h1, h2, h3, h4, _, h6⟩ := Node.ext_iff.mp hroot
    rw [Volume.node, hc, hbyte, hdin]
    exact Node.ext h1 h2 h3 h4 (by rw [hsize]) h6
  · intro k hk
    rw [hnode _ (by unfold rootino; omega), h.file k (by simpa using hk), List.getElem_map]
  · intro i hi
    have hfree := h.freeinode
    rw [List.length_map] at hfree
    rw [hcore i (by unfold rootino; omega)]
    exact h.image.fresh i (by omega)
  · apply hspan
    rw [← hsize]
    exact h.image.spans _ h.type_ne_root
  · intro k hk
    apply hspan
    have hsize : (s.volume.core (k + 2)).size = files[k].contents.length := by
      have := congrArg Node.size (h.file k (by simpa using hk))
      rwa [List.getElem_map] at this
    rw [← hsize]
    exact h.image.spans _ (h.type_ne (by simpa using hk))

theorem wp_populate_dots {Q : Unit → State → Prop}
    (hQ : ∀ s, Holds s (entry rootino dot ++ entry rootino dotdot) [] →
    wp (addFiles rootino files >>= fun _ => rinode rootino >>= fun din =>
      winode rootino { din with size := (din.size / bsize + 1) * bsize }) s Q E) : wp (populate files) start Q E := by
  rw [populate, wp_bind, wp_modify, wp_bind, wp_modify, wp_bind, wp_wsect, wp_bind]
  refine wp_rootDir (fun b hb => ?_) rfl rfl rfl fun s1 h1 => ?_
  · simp [update_of_ne hb, start]
  rw [wp_ite]
  refine ⟨fun hne => absurd rfl hne, fun _ => ?_⟩
  refine wp_seq (wp_appendRoot h1 (fun hlt => absurd hlt (by decide)) fun hlt => absurd hlt (by decide)) fun _ s2 h2 => ?_
  refine wp_seq (wp_appendRoot h2 (fun hlt => absurd hlt (by decide)) fun hlt => absurd hlt (by decide)) fun _ s3 h3 => ?_
  exact hQ s3 h3

theorem wp_round (h : Image s) (ht : (s.volume.core rootino).type ≠ 0) :
    wp (rinode rootino >>= fun din => winode rootino { din with size := (din.size / bsize + 1) * bsize }) s
      (fun _ s' => s'.volume = s.volume.setCore rootino
          { s.volume.core rootino with size := ((s.volume.core rootino).size / bsize + 1) * bsize } ∧
        s'.sectors = fssize ∧ s'.freeinode = s.freeinode ∧ s'.freeblock = s.freeblock) E := by
  rw [wp_bind]
  refine wp_rinode (by decide) h.sectors ?_
  have hf : (s.volume.core rootino).Fits := volume_fits rootino
  have hle := size_le_of_spans (h.spans rootino ht)
  refine wp_winode (by decide) h.sectors ⟨hf.type, hf.major, hf.minor, hf.nlink, ?_, hf.addrs, hf.short⟩
    fun s' hv hsec hino hblk => ⟨hv, hsec, hino, hblk⟩
  simp only [maxfile, ndirect, nindirect, bsize] at hle ⊢
  omega

theorem wp_populate (hn : files.length + 2 ≤ ninodes) (hr : fssize < demand files → E .read)
    (ha : (∃ f ∈ files, slash ∈ f.name ∨ maxfile * bsize < f.contents.length) → E .assert) :
    wp (populate files) start (fun _ s => Made files s.volume ∧ s.volume.used = (fun b => decide (b < s.freeblock)) ∧
      s.freeinode = files.length + 2 ∧ s.freeblock = demand files ∧ s.freeblock ≤ fssize ∧ s.sectors = fssize) E := by
  have hlen := length_rootBytes_le hn
  refine wp_populate_dots fun s3 h3 => ?_
  refine wp_seq (wp_addFiles h3 (by simpa using hn) (fun hlt => hr ?_) ha hlen) fun _ s4 h4 => ?_
  · simpa [demand, rootBytes, entry, Function.comp_def] using hlt
  refine wp_mono (wp_round h4.image h4.type_ne_root) ?_
  rintro _ s5 ⟨hv, hsec, hino, hblk⟩
  have hpack := h4.image.packed
  have h4' : Holds s4 (rootBytes files) (files.map HostFile.contents) := h4
  refine ⟨h4'.made rfl hv, ?_, ?_, ?_, ?_, hsec⟩
  · rw [hv, hblk]
    exact hpack.used
  · rw [hino, h4'.freeinode, List.length_map]
  · rw [hblk, h4'.free, demand, List.map_map]
    rfl
  · rw [hblk]
    exact hpack.high

end populate

theorem bitClear_bitmap (n j : ℕ) : bitClear ((List.range n).foldl setBit fun _ => 0) j = decide (n ≤ j) := by
  induction n with
  | zero =>
    have : (0 : UInt8) &&& mask j = 0 := UInt8.zero_and
    simp [bitClear, this]
  | succ n ih =>
    rw [List.range_succ, List.foldl_append, List.foldl_cons, List.foldl_nil, bitClear_setBit, ih, ← Bool.decide_and]
    exact decide_eq_decide.mpr (by omega)

theorem volume_bitmapBlock {blocks : ℕ → Bytes} (n : ℕ) :
    Fs.volume (update blocks bmapstart ((List.range n).foldl setBit fun _ => 0)) =
      { Fs.volume blocks with used := fun b => decide (b < n) || decide (fssize ≤ b) } := by
  refine Volume.ext ?_ ?_ ?_
  · exact volume_congr_core fun i hi => update_of_ne (iblock_lt hi).ne _ _
  · funext b
    simp only [Fs.volume]
    split_ifs with hb
    · have hlt : b < fssize := hb
      have hbpb : b < bpb := hlt.trans (by decide)
      have hblock : bblock b = bmapstart := by rw [bblock, Nat.div_eq_of_lt hbpb, Nat.zero_add]
      rw [hblock, update_self, bitClear_bitmap, Nat.mod_eq_of_lt hbpb, decide_eq_false (Nat.not_le.mpr hlt),
        Bool.or_false, ← decide_not]
      exact decide_eq_decide.mpr (by omega)
    · have hle : fssize ≤ b := Nat.not_lt.mp hb
      simp [hle]
  · exact volume_congr_data fun b hb => update_of_ne (bmapstart_lt_datastart.trans_le hb).ne' _ _

variable {files : List HostFile} {E : Exit → Prop}

theorem wp_balloc {s : State} {n : ℕ} (hn : n ≤ fssize) : wp (balloc n) s (fun _ t => t.freeinode = s.freeinode ∧
    t.blocks = update s.blocks bmapstart ((List.range n).foldl setBit fun _ => 0)) E := by
  rw [balloc, wp_ite]
  refine ⟨fun hle => absurd (hle.trans hn) (by decide), fun _ => ?_⟩
  rw [wp_wsect]
  exact ⟨rfl, rfl⟩

theorem Made.bitmap {s : State} {t : State} (h : Made files s.volume) (hu : s.volume.used = fun b => decide (b < s.freeblock))
    (ht : t.blocks = update s.blocks bmapstart ((List.range s.freeblock).foldl setBit fun _ => 0)) :
    Made files (Fs.volume t.blocks) := by
  have hv : Fs.volume t.blocks = { s.volume with used := fun b => s.volume.used b || decide (fssize ≤ b) } := by
    rw [ht, volume_bitmapBlock, hu]
    rfl
  rw [hv]
  refine ⟨h.ledger.mono_used fun b hb => ?_, fun b hlo hhi hb => ?_, fun b hb => ?_, h.zeroth, h.root, h.file, h.fresh,
    ⟨h.rootSpan.blocks, h.rootSpan.indirect⟩, fun k hk => ⟨(h.fileSpan k hk).blocks, (h.fileSpan k hk).indirect⟩⟩
  · simp [hb]
  · refine h.covers b hlo hhi ?_
    simpa [Nat.not_le.mpr hhi] using hb
  · simp [h.reserved b hb]

theorem wp_main (hn : files.length + 2 ≤ ninodes) (hr : fssize < demand files → E .read)
    (ha : (∃ f ∈ files, slash ∈ f.name ∨ maxfile * bsize < f.contents.length) → E .assert) :
    wp (main files) start (fun _ t => Made files (Fs.volume t.blocks) ∧ t.freeinode = files.length + 2) E := by
  rw [main]
  refine wp_seq (wp_populate hn hr ha) ?_
  rintro _ s ⟨hmade, hused, hino, _, hle, _⟩
  rw [wp_bind, wp_get]
  exact wp_mono (wp_balloc hle) fun _ t ht => ⟨hmade.bitmap hused ht.2, ht.1.trans hino⟩

end Laboratorio.Fs.Mkfs
