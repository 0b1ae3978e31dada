import Laboratorio.Fs.Inode

/-!
The references to the cells of the inode cache, and their locks.
-/

namespace Laboratorio.Fs

open Function

def Fault.stale : Fault → Bool
  | .ilock | .iunlock | .filedup | .fileclose | .nullDeref => true
  | _ => false

def Fault.Other (e : Fault) : Prop := e.stale = false

namespace FsState

variable (s : FsState) (c : Cell) (ip : Inode)

@[simp] theorem set_icache : (s.set c ip).icache = update s.icache c ip := rfl

@[simp] theorem set_disk : (s.set c ip).disk = s.disk := rfl

@[simp] theorem set_set (ip' : Inode) : (s.set c ip).set c ip' = s.set c ip' := by
  simp [set]

@[simp] theorem set_self : s.set c (s.icache c) = s := by
  simp [set]

end FsState

theorem findCell_some {s : FsState} {p : Inode → Bool} {c : Cell} (h : findCell s p = some c) : p (s.icache c) = true := by
  simpa using List.find?_some h

theorem findCell_none {s : FsState} {p : Inode → Bool} (h : findCell s p = none) (c : Cell) : p (s.icache c) = false := by
  simpa using List.find?_eq_none.mp h c (List.mem_finRange c)

variable {α : Type} {s : FsState} {c : Cell} {E : Fault → Prop} {Q : Unit → FsState → Prop}

@[simp] theorem wp_inode {Q : Inode → FsState → Prop} : wp (inode c) s Q E ↔ Q (s.icache c) s := by
  simp [inode]

@[simp] theorem wp_setInode {f : Inode → Inode} : wp (setInode c f) s Q E ↔ Q () (s.set c (f (s.icache c))) := by
  simp [setInode]

@[simp] theorem wp_setD {f : Dinode → Dinode} :
    wp (setD c f) s Q E ↔ Q () (s.set c { s.icache c with d := f (s.icache c).d }) := by
  simp [setD]

@[simp] theorem wp_onDisk {Q : α → FsState → Prop} {m : DiskM α} :
    wp (onDisk m) s Q E ↔ wp m s.disk (fun a d => Q a { s with disk := d }) E := wp_within

theorem wp_iget {Q : Cell → FsState → Prop} {dev inum : ℕ}
    (hhit : ∀ c, 0 < (s.icache c).ref → (s.icache c).dev = dev → (s.icache c).inum = inum →
      Q c (s.set c { s.icache c with ref := (s.icache c).ref + 1 }))
    (hmiss : ∀ c, (s.icache c).ref = 0 → (∀ c', 0 < (s.icache c').ref → (s.icache c').dev = dev → (s.icache c').inum ≠ inum) →
      Q c (s.set c { s.icache c with dev := dev, inum := inum, ref := 1, valid := false }))
    (hfull : (∀ c, (s.icache c).ref ≠ 0) → (∀ c, 0 < (s.icache c).ref → (s.icache c).dev = dev → (s.icache c).inum ≠ inum) →
      E .igetNoInodes) :
    wp (iget dev inum) s Q E := by
  rw [iget, wp_bind, wp_get]
  cases hf : findCell s (fun ip => 0 < ip.ref ∧ ip.dev = dev ∧ ip.inum = inum) with
  | some c =>
    obtain ⟨h1, h2, h3⟩ : 0 < (s.icache c).ref ∧ (s.icache c).dev = dev ∧
      (s.icache c).inum = inum := by simpa using findCell_some hf
    rw [wp_bind, wp_setInode, wp_pure]
    exact hhit c h1 h2 h3
  | none =>
    have hnone : ∀ c, 0 < (s.icache c).ref → (s.icache c).dev = dev → (s.icache c).inum ≠ inum := by
      intro c h1 h2 h3
      simpa [h1, h2, h3] using findCell_none hf c
    cases hf' : findCell s (fun ip => ip.ref = 0) with
    | some c =>
      have h0 : (s.icache c).ref = 0 := by simpa using findCell_some hf'
      rw [wp_bind, wp_setInode, wp_pure]
      exact hmiss c h0 hnone
    | none =>
      refine (wp_throw _).mpr (hfull (fun c hc => ?_) hnone)
      simpa [hc] using findCell_none hf' c

theorem wp_acquiresleep (hdead : (s.icache c).lock = true → E .deadlock)
    (hQ : (s.icache c).lock = false → Q () (s.set c { s.icache c with lock := true })) : wp (acquiresleep c) s Q E := by
  rw [acquiresleep, wp_bind, wp_inode, wp_ite]
  exact ⟨fun h => (wp_throw _).mpr (hdead h), fun h => wp_setInode.mpr (hQ (by simpa using h))⟩

theorem wp_iunlock (hlock : (s.icache c).lock = true) (href : 0 < (s.icache c).ref)
    (hQ : Q () (s.set c { s.icache c with lock := false })) : wp (iunlock c) s Q E := by
  rw [iunlock, wp_bind, wp_inode, wp_ite]
  refine ⟨fun h => absurd h (by simp [hlock]; omega), fun _ => ?_⟩
  rw [releasesleep, wp_setInode]
  exact hQ

variable [Superblock]

theorem wp_ilock (href : 0 < (s.icache c).ref) (hdead : (s.icache c).lock = true → E .deadlock)
    (hhit : (s.icache c).lock = false → (s.icache c).valid = true → Q () (s.set c { s.icache c with lock := true }))
    (hload : (s.icache c).lock = false → (s.icache c).valid = false → (dinode s.disk.blocks (s.icache c).inum).type ≠ 0 →
      Q () (s.set c { s.icache c with lock := true, d := dinode s.disk.blocks (s.icache c).inum, valid := true }))
    (hfree : (dinode s.disk.blocks (s.icache c).inum).type = 0 → (s.icache c).valid = false → E .ilockNoType) :
      wp (ilock c) s Q E := by
  rw [ilock, wp_bind, wp_inode, wp_ite]
  refine ⟨fun h => absurd h (by omega), fun _ => ?_⟩
  rw [wp_bind]
  refine wp_acquiresleep hdead fun hl => ?_
  rw [wp_bind, wp_get]
  simp only [FsState.set_icache, update_self, FsState.set_disk]
  rw [wp_ite]
  refine ⟨fun hv => ?_, fun hv => ?_⟩
  · rw [wp_bind, wp_setInode, wp_ite]
    refine ⟨fun h0 => (wp_throw _).mpr (hfree h0 hv), fun h0 => wp_ret ?_⟩
    simpa using hload hl hv h0
  · exact wp_ret (hhit hl (by simpa using hv))

theorem wp_iput (hdead : (s.icache c).lock = true → E .deadlock)
    (hdrop : (s.icache c).lock = false → ¬ ((s.icache c).valid = true ∧ (s.icache c).d.nlink = 0 ∧ (s.icache c).ref = 1) →
      Q () (s.set c { s.icache c with ref := (s.icache c).ref - 1 }))
    (hlast : (s.icache c).lock = false → (s.icache c).valid = true → (s.icache c).d.nlink = 0 → (s.icache c).ref = 1 →
      wp (itrunc c) (s.set c { s.icache c with lock := true }) (fun _ t => wp (setD c fun d => { d with type := 0 }) t
      (fun _ t => wp (iupdate c) t (fun _ t =>
      Q () (t.set c { t.icache c with valid := false, lock := false, ref := (t.icache c).ref - 1 })) E) E) E) :
    wp (iput c) s Q E := by
  rw [iput, wp_bind]
  refine wp_acquiresleep hdead fun hl => ?_
  rw [wp_bind, wp_inode]
  simp only [FsState.set_icache, update_self]
  rw [wp_ite]
  refine ⟨fun ⟨hv, hn⟩ => ?_, fun hno => ?_⟩
  · rw [wp_ite]
    refine ⟨fun hr => ?_, fun hr => ?_⟩
    · refine wp_seq (hlast hl hv hn hr) fun _ t ht => ?_
      refine wp_seq ht fun _ t ht => ?_
      refine wp_seq ht fun _ t ht => ?_
      rw [wp_bind, wp_setInode, wp_bind, releasesleep, wp_setInode, wp_setInode]
      simpa using ht
    · rw [wp_bind, releasesleep, wp_setInode, wp_setInode]
      have := hdrop hl (fun h => hr h.2.2)
      simpa [hl] using this
  · rw [wp_bind, releasesleep, wp_setInode, wp_setInode]
    have := hdrop hl (fun h => hno ⟨h.1, h.2.1⟩)
    simpa [hl] using this

end Laboratorio.Fs
