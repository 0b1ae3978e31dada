import Laboratorio.Fs.Contents
import Laboratorio.Fs.Overflow

namespace Laboratorio.Fs.Mkfs

open Bytes

def Filled (blocks : ℕ → Bytes) (i : ℕ) : Prop :=
  ∀ bn, bn * bsize < (dinode blocks i).size → (dinode blocks i).ptr blocks (place bn) ≠ 0 ∧
    bitClear (blocks (bblock ((dinode blocks i).ptr blocks (place bn)))) ((dinode blocks i).ptr blocks (place bn) % bpb) = false

structure NoHoles (blocks : ℕ → Bytes) : Prop where
  filled : ∀ i < ninodes, Filled blocks i
  reads : ∀ (s : FsState) (c : Cell) (dev : Option (List UInt8)) (off n : ℕ), s.disk.blocks = blocks →
    (s.icache c).inum < ninodes → (s.icache c).d = dinode blocks (s.icache c).inum →
    wp (readi dev c off n) s (fun _ t => t = s) fun _ => False

variable {files : List HostFile} {blocks : ℕ → Bytes} {i : ℕ}

theorem Filled.size_le (h : Filled blocks i) : (dinode blocks i).size ≤ maxfile * bsize := by
  by_contra hlt
  have hle : nptr ≤ place maxfile := by decide
  exact (h maxfile (by omega)).1 (Dinode.ptr_of_le hle)

theorem noHoles_of_filled (h : ∀ i < ninodes, Filled blocks i) : NoHoles blocks := by
  refine ⟨h, ?_⟩
  rintro s c dev off n rfl hi hd
  apply wp_readi_mapped
  · rw [hd]
    exact (h _ hi).size_le
  · intro k hk
    rw [hd] at hk ⊢
    exact (h _ hi k hk).1

namespace Made

section

variable (h : Made files (Fs.volume blocks))

include h

theorem filled_of_span {size : ℕ} (h1 : 1 ≤ i) (h2 : i < files.length + 2)
    (hn : files.length + 2 ≤ ninodes) (hs : Spans (Fs.volume blocks) i size)
    (hle : ∀ bn, bn * bsize < (dinode blocks i).size → bn * bsize < size) : Filled blocks i := by
  intro bn hbn
  have hown := (hs.blocks bn).mpr (lt_span_iff.mpr (hle bn hbn))
  have hused := h.ledger.held _ hown
  have hlt := (h.ledger.range _ hown).2
  rw [Volume.block, h.pointer h1 h2 hn] at hown
  rw [h.pointer h1 h2 hn] at hused hlt
  refine ⟨hown, ?_⟩
  simpa [Fs.volume, show (dinode blocks i).ptr blocks (place bn) < superblock.size from hlt] using hused

theorem size_root : (dinode blocks rootino).size = ((files.length + 2) * direntSize / bsize + 1) * bsize := by
  have hcore : (Fs.volume blocks).core rootino = dinode blocks rootino := volume_core (by decide)
  rw [← hcore, ← length_rootBytes]
  exact congrArg Node.size h.root

theorem filled_of_empty (hi : i < ninodes) (h0 : i = 0 ∨ files.length + 2 ≤ i) : Filled blocks i := by
  have hsize : (dinode blocks i).size = 0 := by
    rw [← volume_core hi]
    obtain rfl | hle := h0
    · exact congrArg Node.size h.zeroth
    · rw [h.fresh i hle]
      rfl
  intro bn hbn
  omega

section

variable (hn : files.length + 2 ≤ ninodes)

include hn

theorem filled_file {k : ℕ} (hk : k < files.length) : Filled blocks (k + 2) := by
  apply h.filled_of_span (by omega) (by omega) hn (h.fileSpan k hk)
  intro bn hbn
  have hcore : (Fs.volume blocks).core (k + 2) = dinode blocks (k + 2) :=
    volume_core (show k + 2 < ninodes by omega)
  rw [← hcore] at hbn
  have hsize : ((Fs.volume blocks).core (k + 2)).size = files[k].contents.length := congrArg Node.size (h.file k hk)
  omega

theorem filled_root_iff : Filled blocks rootino ↔ (files.length + 2) % 32 ≠ 0 := by
  have hsize := h.size_root
  have hbound : rootino < files.length + 2 := by
    unfold rootino
    omega
  constructor
  · intro hm hmod
    have hlast := (hm ((files.length + 2) * direntSize / bsize) (by rw [hsize]; unfold bsize; omega)).1
    rw [← h.pointer (i := rootino) le_rfl hbound hn] at hlast
    have hlt := lt_span_iff.mp ((h.rootSpan.blocks _).mp hlast)
    rw [length_rootBytes] at hlt
    unfold direntSize bsize at hlt
    omega
  · intro hmod
    apply h.filled_of_span (i := rootino) le_rfl hbound hn h.rootSpan
    intro bn hbn
    rw [hsize] at hbn
    rw [length_rootBytes]
    unfold direntSize bsize at hbn ⊢
    omega

theorem noHoles_iff : NoHoles blocks ↔ (files.length + 2) % 32 ≠ 0 := by
  rw [← h.filled_root_iff hn]
  constructor
  · intro hm
    exact hm.filled rootino (by decide)
  · intro hroot
    apply noHoles_of_filled
    intro i hi
    by_cases hempty : i = 0 ∨ files.length + 2 ≤ i
    · exact h.filled_of_empty hi hempty
    by_cases h1 : i = rootino
    · rwa [h1]
    · obtain ⟨k, rfl⟩ : ∃ k, i = k + 2 := ⟨i - 2, by unfold rootino at h1; omega⟩
      exact h.filled_file hn (by omega)

end

end

end Made

theorem no_holes_iff {t : State} (h : main files start = .ok ((), t)) (hn : files.length + 2 ≤ ninodes) :
    NoHoles t.blocks ↔ (files.length + 2) % 32 ≠ 0 := by
  obtain ⟨hmade, -⟩ := wp_ok (wp_main (E := fun _ => True) hn (fun _ => trivial) fun _ => trivial) h
  exact hmade.noHoles_iff hn

theorem wp_main_empty {n : ℕ} (hn : n + 2 ≤ ninodes) (hd : demand (List.replicate n ⟨[97], []⟩) ≤ fssize) :
    wp (main (List.replicate n ⟨[97], []⟩)) start (fun _ t => Made (List.replicate n ⟨[97], []⟩) (Fs.volume t.blocks))
      fun _ => False := by
  have hlen : (List.replicate n (⟨[97], []⟩ : HostFile)).length = n := List.length_replicate
  refine wp_mono (wp_main (by rwa [hlen]) (fun hlt => absurd hd (by omega)) ?_) fun _ t ht => ht.1
  rintro ⟨f, hf, hbad⟩
  rw [List.eq_of_mem_replicate hf] at hbad
  exact absurd hbad (by decide)

theorem no_holes_iff_two : ∃ t, main (List.replicate 2 ⟨[97], []⟩) start = .ok ((), t) ∧
    (NoHoles t.blocks ↔ (2 + 2) % 32 ≠ 0) := by
  obtain ⟨_, t, ht, _⟩ := exists_of_wp (wp_main_empty (n := 2) (by decide) (by decide +kernel))
  exact ⟨t, ht, no_holes_iff ht (by decide)⟩

theorem root_has_hole : ∃ t, main (List.replicate 30 ⟨[97], []⟩) start = .ok ((), t) ∧
    (dinode t.blocks rootino).size = 2 * bsize ∧ (dinode t.blocks rootino).ptr t.blocks (place 1) = 0 ∧ ¬ NoHoles t.blocks := by
  obtain ⟨_, t, ht, hmade⟩ := exists_of_wp (wp_main_empty (n := 30) (by decide) (by decide +kernel))
  refine ⟨t, ht, ?_, ?_, ?_⟩
  · rw [hmade.size_root, List.length_replicate]
    rfl
  · rw [← hmade.pointer (i := rootino) le_rfl (by decide) (by decide)]
    by_contra hne
    have hlt := lt_span_iff.mp ((hmade.rootSpan.blocks 1).mp hne)
    rw [length_rootBytes, List.length_replicate] at hlt
    exact absurd hlt (by decide)
  · rw [hmade.noHoles_iff (by decide), List.length_replicate]
    decide

end Laboratorio.Fs.Mkfs
