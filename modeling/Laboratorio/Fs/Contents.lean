import Laboratorio.Fs.Alloc

namespace Laboratorio.Fs

open Bytes Function

def Node.read (a : Node) (dev : Option (List UInt8)) (off n : ℕ) : Option (List UInt8) :=
  if a.type = tDev then if a.major = console then dev else none
  else if off > a.size ∨ (off + n) % 2 ^ 32 < off then none
  else some (slice a.bytes off (if off + n > a.size then a.size - off else n))

variable [sb : Superblock]

section mapped

variable {s : FsState} {c : Cell} {E : Fault → Prop}

theorem wp_bmap_mapped {n : ℕ} (hn : n < maxfile) (h0 : (s.icache c).d.ptr s.disk.blocks (place n) ≠ 0) :
    wp (bmap c n) s (fun a t => a = (s.icache c).d.ptr s.disk.blocks (place n) ∧ t = s) E := by
  rw [bmap, wp_bind, wp_inode, wp_ite]
  refine ⟨fun hd => ?_, fun hd => ?_⟩
  · rw [place, if_pos hd, Dinode.ptr_direct (by omega)] at h0 ⊢
    rw [if_neg h0]
    exact wp_ret ⟨rfl, rfl⟩
  have hq : n - ndirect < nindirect := by
    unfold maxfile at hn
    omega
  have hind : (s.icache c).d.addrs ndirect ≠ 0 := by
    intro hz
    rw [place, if_neg hd, Dinode.ptr_of_no_indirect (by omega) hz] at h0
    exact h0 rfl
  have hsub : n + 1 - (ndirect + 1) = n - ndirect := by omega
  rw [place, if_neg hd, Dinode.ptr_indirect (by omega) (by unfold nptr; omega) hind, hsub] at h0 ⊢
  simp only [hq, if_true, hind, if_false, wp_bind, wp_pure, wp_onDisk, bread, wp_get, h0]
  exact ⟨trivial, trivial⟩

theorem wp_readi_mapped {dev : Option (List UInt8)} {off n : ℕ} (hsize : (s.icache c).d.size ≤ maxfile * bsize)
    (h : ∀ k, k * bsize < (s.icache c).d.size → (s.icache c).d.ptr s.disk.blocks (place k) ≠ 0) :
    wp (readi dev c off n) s (fun _ t => t = s) E := by
  have hloop : ∀ fuel off n, off + n ≤ (s.icache c).d.size → wp (readiLoop c fuel off n) s (fun _ t => t = s) E := by
    intro fuel
    induction fuel with
    | zero => exact fun _ _ _ => wp_ret rfl
    | succ fuel ih =>
      intro off n hle
      rw [readiLoop, wp_ite]
      refine ⟨fun _ => wp_ret rfl, fun hn => ?_⟩
      have hk : off / bsize * bsize ≤ off := Nat.div_mul_le_self _ _
      have hlt : off / bsize < maxfile := by
        apply Nat.div_lt_of_lt_mul
        rw [Nat.mul_comm]
        omega
      refine wp_seq (wp_bmap_mapped hlt (h _ (by omega))) ?_
      rintro a t ⟨-, rfl⟩
      rw [wp_bind, wp_onDisk, bread, wp_bind, wp_get, wp_pure, wp_bind]
      exact wp_mono (ih _ _ (by omega)) fun _ t ht => wp_ret ht
  rw [readi, wp_bind, wp_inode, wp_ite]
  refine ⟨fun _ => wp_ret rfl, fun _ => ?_⟩
  rw [wp_ite]
  refine ⟨fun _ => wp_ret rfl, fun hno => ?_⟩
  refine wp_seq (hloop _ _ _ ?_) fun _ t ht => wp_ret ht
  split_ifs <;> omega

end mapped

variable {m : Mode} {b r : Cell → ℕ} {l : Cell → Bool} {s : FsState} {c : Cell} {E : Fault → Prop}

theorem Sound.bytes_eq (h : Sound m b r l s) {i x : ℕ} (h0 : s.live.block i (x / bsize) ≠ 0) :
    s.disk.blocks (s.live.block i (x / bsize)) (x % bsize) = (s.node i).bytes x := by
  have hlo := (h.whole.ledger.range _ h0).1
  change _ = s.live.byte i x
  unfold Volume.byte
  rw [if_neg h0]
  exact (volume_data hlo (Nat.mod_lt _ (by decide))).symm

theorem sound_readiLoop (fuel off n : ℕ) (h : Sound m b r l s) (hc : 0 < r c) (hv : (s.icache c).valid = true)
    (hfuel : n ≤ fuel) (hrange : maxfile * bsize < off + n → E .bmapOutOfRange)
    (hout : (∃ x, off ≤ x ∧ x < off + n ∧ s.live.block (s.icache c).inum (x / bsize) = 0) → E .outOfBlocks) :
    wp (readiLoop c fuel off n) s (fun a t => a = slice (s.node (s.icache c).inum).bytes off n ∧ Sound m b r l t ∧ Grows c s t ∧
      ((∀ x, off ≤ x → x < off + n → s.live.block (s.icache c).inum (x / bsize) ≠ 0) → t = s)) E := by
  induction fuel generalizing off n s with
  | zero =>
    have hn : n = 0 := by omega
    subst hn
    exact wp_ret ⟨rfl, h, refl s, fun _ => rfl⟩
  | succ fuel ih =>
    rw [readiLoop, wp_ite]
    refine ⟨fun hn => ?_, fun hn => ?_⟩
    · subst hn
      exact wp_ret ⟨rfl, h, refl s, fun _ => rfl⟩
    have hmod : off % bsize < bsize := Nat.mod_lt _ (by decide)
    refine wp_seq (sound_bmap h hc hv (fun hle => hrange ?_) fun h0 _ => hout ⟨off, le_rfl, by omega, h0⟩) ?_
    · have : maxfile * bsize ≤ off / bsize * bsize := Nat.mul_le_mul_right _ hle
      have := Nat.div_mul_le_self off bsize
      omega
    rintro a t ⟨ht, hg, ha, ha0, hsame, -⟩
    have hi : (t.icache c).inum = (s.icache c).inum := hg.still.inum c
    rw [wp_bind, wp_onDisk, bread, wp_bind, wp_get, wp_pure]
    refine wp_seq (ih (off + min n (bsize - off % bsize)) (n - min n (bsize - off % bsize)) ht ((hg.still.valid c).trans hv)
      (by omega) (fun hlt => hrange (by omega)) fun hx => ?_) ?_
    · obtain ⟨x, h1, h2, h3⟩ := hx
      refine hout ⟨x, by omega, by omega, ?_⟩
      by_contra hne
      rw [hi, hg.block _ _ hne] at h3
      exact hne h3
    rintro rest u ⟨hrest, hu, hg', hsame'⟩
    refine wp_ret ⟨?_, hu, Trans.trans hg hg', fun hall => ?_⟩
    · rw [hi, hg.node] at hrest
      have hsplit : n = min n (bsize - off % bsize) + (n - min n (bsize - off % bsize)) := by omega
      conv_rhs => rw [hsplit, ← slice_append, ← hrest]
      congr 1
      refine List.map_congr_left fun x hx => ?_
      have hx' := List.mem_range.mp hx
      have hq : (off + x) / bsize = off / bsize ∧ (off + x) % bsize = off % bsize + x := by
        simp only [bsize] at hx' hmod ⊢
        omega
      rw [← hg.node, ← ht.bytes_eq, hq.1, hq.2, ← ha]
      rw [hq.1, ← ha]
      exact ha0
    · have hts := hsame (hall off le_rfl (by omega))
      subst hts
      exact hsame' fun x h1 h2 => hall x (by omega) (by omega)

theorem sound_readi {dev : Option (List UInt8)} {off n : ℕ} (h : Sound m b r l s) (hc : 0 < r c)
    (hv : (s.icache c).valid = true) (hrange : maxfile * bsize < (s.node (s.icache c).inum).size → E .bmapOutOfRange)
    (hout : (∃ x, off ≤ x ∧ x < off + n ∧ x < (s.node (s.icache c).inum).size ∧
    s.live.block (s.icache c).inum (x / bsize) = 0) →
      E .outOfBlocks) :
    wp (readi dev c off n) s (fun a t => a = (s.node (s.icache c).inum).read dev off n ∧ Sound m b r l t ∧ Grows c s t ∧
      (m.dense → t = s)) E := by
  have hcore : s.core (s.icache c).inum = (s.icache c).d := h.core_eq_d hc hv
  have hnode : (s.icache c).d.type = (s.node (s.icache c).inum).type ∧ (s.icache c).d.major = (s.node (s.icache c).inum).major ∧
      (s.icache c).d.size = (s.node (s.icache c).inum).size := by
    rw [← hcore]
    exact ⟨rfl, rfl, rfl⟩
  rw [readi, wp_bind, wp_inode, hnode.1, hnode.2.1, hnode.2.2]
  unfold Node.read
  rw [wp_ite]
  refine ⟨fun hdev => wp_ret ⟨by rw [if_pos hdev], h, refl s, fun _ => rfl⟩, fun hdev => ?_⟩
  rw [if_neg hdev, wp_ite]
  refine ⟨fun hbad => wp_ret ⟨by rw [if_pos hbad], h, refl s, fun _ => rfl⟩, fun hok => ?_⟩
  rw [if_neg hok]
  generalize hn' : (if off + n > (s.node (s.icache c).inum).size then (s.node (s.icache c).inum).size - off else n) = n'
  have hle : n' ≤ n ∧ off + n' ≤ (s.node (s.icache c).inum).size := by
    split_ifs at hn' <;> omega
  refine wp_seq (sound_readiLoop n' off n' h hc hv le_rfl (fun hlt => hrange (by omega)) fun ⟨x, h1, h2, h3⟩ =>
    hout ⟨x, h1, by omega, by omega, h3⟩) ?_
  rintro a t ⟨rfl, ht, hg, hsame⟩
  refine wp_ret ⟨rfl, ht, hg, fun hd => hsame fun x h1 h2 => ?_⟩
  refine h.whole.full hd _ _ (h.type_ne hc hv) ?_
  have := Nat.div_mul_le_self x bsize
  change _ < (s.node (s.icache c).inum).size
  omega

theorem Sound.inv_of_not_dense (h : Sound m b r l s) (hm : m.tidy) (hd : ¬ m.dense) : Inv m b r l s :=
  ⟨h, hm, fun _ _ => ⟨by_contra fun hl => hd (m.dense_of hl), fun hd' => absurd hd' hd⟩⟩

theorem Grows.reads {t : FsState} {q : Cell → ℕ} (h : Grows c s t) (hs : s.table.Trails s.live) (hsame : m.dense → t = s) :
    Reads m q s t := by
  refine ⟨h.still.stays, fun c' _ => congrFun h.node _, fun hd => ?_, (h.stored hs).2, fun _ => h.node⟩
  rw [hsame hd]
  exact ⟨rfl, rfl⟩

theorem inv_readi {dev : Option (List UInt8)} {off n : ℕ} (h : Inv m b r l s) (hc : 0 < r c) (hv : (s.icache c).valid = true)
    (hrange : maxfile * bsize < (s.node (s.icache c).inum).size → E .bmapOutOfRange)
    (hout : (∃ x, off ≤ x ∧ x < off + n ∧ x < (s.node (s.icache c).inum).size ∧
    s.live.block (s.icache c).inum (x / bsize) = 0) →
      E .outOfBlocks) :
    wpr (Reads m r) (readi dev c off n) s (fun a t => Inv m b r l t ∧ a = (s.node (s.icache c).inum).read dev off n ∧
      Grows c s t) E := by
  refine wp_mono (sound_readi h.toSound hc hv hrange hout) ?_
  rintro a t ⟨ha, ht, hg, hsame⟩
  refine ⟨⟨?_, ha, hg⟩, hg.reads (h.toSound.trails h.tidy) hsame⟩
  by_cases hd : m.dense
  · rw [hsame hd]
    exact h
  · exact ht.inv_of_not_dense h.tidy hd

end Laboratorio.Fs
