import Laboratorio.Fs.Volume

namespace Laboratorio.Fs

open Bytes Function

theorem mask_toBitVec (bi : ℕ) : (mask bi).toBitVec = BitVec.twoPow 8 (bi % 8) := by
  have hk : bi % 8 < 8 := Nat.mod_lt _ (by decide)
  unfold mask
  generalize bi % 8 = k at hk
  interval_cases k <;> rfl

theorem bitClear_eq (bp : Bytes) (bi : ℕ) : bitClear bp bi = !(bp (bi / 8)).toBitVec.getLsbD (bi % 8) := by
  have hk : bi % 8 < 8 := Nat.mod_lt _ (by decide)
  have h0 : BitVec.twoPow 8 (bi % 8) ≠ 0#8 := by
    intro h
    simpa [hk] using congrArg (fun x => x.getLsbD (bi % 8)) h
  have hiff : bp (bi / 8) &&& mask bi = 0 ↔ (bp (bi / 8)).toBitVec.getLsbD (bi % 8) = false := by
    rw [← UInt8.toBitVec_inj, UInt8.toBitVec_and, mask_toBitVec, BitVec.and_twoPow]
    cases (bp (bi / 8)).toBitVec.getLsbD (bi % 8)
    · simp
    · simpa using h0
  simp only [bitClear, hiff]
  cases (bp (bi / 8)).toBitVec.getLsbD (bi % 8) <;> rfl

theorem bitClear_setBit (bp : Bytes) (bi bj : ℕ) : bitClear (setBit bp bi) bj = (bitClear bp bj && decide (bj ≠ bi)) := by
  rw [bitClear_eq, bitClear_eq]
  by_cases hbyte : bj / 8 = bi / 8
  · have hk : bi % 8 < 8 := Nat.mod_lt _ (by decide)
    have hiff : bi % 8 = bj % 8 ↔ bj = bi := by omega
    simp [setBit, hbyte, mask_toBitVec, hk, hiff]
  · have hne : bj ≠ bi := fun he => hbyte (by rw [he])
    simp [setBit, hbyte, hne]

theorem bitClear_clearBit (bp : Bytes) (bi bj : ℕ) : bitClear (clearBit bp bi) bj = (bitClear bp bj || decide (bj = bi)) := by
  rw [bitClear_eq, bitClear_eq]
  by_cases hbyte : bj / 8 = bi / 8
  · have hk : bj % 8 < 8 := Nat.mod_lt _ (by decide)
    have hiff : bj % 8 = bi % 8 ↔ bj = bi := by omega
    simp [clearBit, hbyte, mask_toBitVec, hk, hiff]
  · have hne : bj ≠ bi := fun he => hbyte (by rw [he])
    simp [clearBit, hbyte, hne]

theorem findClear_eq_some {bp : Bytes} {bi n k : ℕ} (h : findClear bp bi n = some k) :
    bi ≤ k ∧ k < bi + n ∧ bitClear bp k = true := by
  induction n generalizing bi with
  | zero => simp [findClear] at h
  | succ n ih =>
    rw [findClear] at h
    split_ifs at h with hc
    · cases h
      exact ⟨le_rfl, by omega, hc⟩
    · have := ih h
      exact ⟨by omega, by omega, this.2.2⟩

theorem findClear_eq_none {bp : Bytes} {bi n : ℕ} (h : findClear bp bi n = none) (k : ℕ) (h1 : bi ≤ k) (h2 : k < bi + n) :
    bitClear bp k = false := by
  induction n generalizing bi with
  | zero => omega
  | succ n ih =>
    rw [findClear] at h
    split_ifs at h with hc
    by_cases hk : k = bi
    · simpa [hk] using hc
    · exact ih h (by omega) (by omega)

namespace Dinode

theorem decode_congr {b b' : Bytes} {a : ℕ} (h : ∀ x, a ≤ x → x < a + dinodeSize → b x = b' x) : decode b a = decode b' a := by
  have hrd : ∀ n o, o + n ≤ dinodeSize → rd n b (a + o) = rd n b' (a + o) := by
    intro n o ho
    apply rd_congr
    intro x h1 h2
    exact h x (by omega) (by omega)
  unfold decode
  congr 1
  · exact hrd 2 0 (by decide)
  · exact hrd 2 2 (by decide)
  · exact hrd 2 4 (by decide)
  · exact hrd 2 6 (by decide)
  · exact hrd 4 8 (by decide)
  · funext k
    split_ifs with hk
    · rw [Nat.add_assoc]
      refine hrd 4 (12 + 4 * k) ?_
      simp only [ndirect] at hk
      simp only [dinodeSize]
      omega
    · rfl

theorem decode_fits (b : Bytes) (a : ℕ) : (decode b a).Fits where
  type := rd_lt 2 b a
  major := rd_lt 2 b (a + 2)
  minor := rd_lt 2 b (a + 4)
  nlink := rd_lt 2 b (a + 6)
  size := rd_lt 4 b (a + 8)
  addrs := by
    intro k
    simp only [decode]
    split_ifs
    · exact rd_lt 4 b _
    · decide
  short := fun k hk => if_neg (by omega)

theorem zero_fits : zero.Fits :=
    ⟨by decide, by decide, by decide, by decide, by decide, fun _ => Nat.two_pow_pos 32, fun _ _ => rfl⟩

theorem rd_image_addrs (d : Dinode) {k : ℕ} (h : d.addrs k < 2 ^ 32) : rd32 d.image (12 + 4 * k) = d.addrs k := by
  simp only [image, rd32, wr32, wr16]
  rw [rd_wr_of_disjoint (by omega), rd_wr_of_disjoint (by omega), rd_wr_of_disjoint (by omega), rd_wr_of_disjoint (by omega),
    rd_wr_of_disjoint (by omega)]
  refine Eq.trans (rd_congr fun x h1 h2 => ?_) (rd_wr (fun _ => 0) (12 + 4 * k) h)
  have hk : (x - 12) / 4 = k := by omega
  have hx : (x - 12) % 4 = x - (12 + 4 * k) := by omega
  rw [wr, store_of_mem h1 h2, hk, hx]

theorem decode_store_image {d : Dinode} (h : d.Fits) (m : Bytes) (a : ℕ) : decode (store m a dinodeSize d.image) a = d := by
  have hrd : ∀ n o, o + n ≤ dinodeSize → rd n (store m a dinodeSize d.image) (a + o) = rd n d.image o := fun n o ho =>
    rd_store_inside m d.image ho
  have htype : rd16 d.image 0 = d.type := by
    simp only [image, rd16, wr32, wr16]
    rw [rd_wr_of_disjoint (by omega), rd_wr_of_disjoint (by omega), rd_wr_of_disjoint (by omega), rd_wr_of_disjoint (by omega)]
    exact rd_wr _ 0 h.type
  have hmajor : rd16 d.image 2 = d.major := by
    simp only [image, rd16, wr32, wr16]
    rw [rd_wr_of_disjoint (by omega), rd_wr_of_disjoint (by omega), rd_wr_of_disjoint (by omega)]
    exact rd_wr _ 2 h.major
  have hminor : rd16 d.image 4 = d.minor := by
    simp only [image, rd16, wr32, wr16]
    rw [rd_wr_of_disjoint (by omega), rd_wr_of_disjoint (by omega)]
    exact rd_wr _ 4 h.minor
  have hnlink : rd16 d.image 6 = d.nlink := by
    simp only [image, rd16, wr32, wr16]
    rw [rd_wr_of_disjoint (by omega)]
    exact rd_wr _ 6 h.nlink
  have hsize : rd32 d.image 8 = d.size := rd_wr _ 8 h.size
  refine Dinode.ext ?_ ?_ ?_ ?_ ?_ ?_
  · exact (hrd 2 0 (by decide)).trans htype
  · exact (hrd 2 2 (by decide)).trans hmajor
  · exact (hrd 2 4 (by decide)).trans hminor
  · exact (hrd 2 6 (by decide)).trans hnlink
  · exact (hrd 4 8 (by decide)).trans hsize
  · funext k
    simp only [decode]
    split_ifs with hk
    · rw [Nat.add_assoc]
      refine (hrd 4 (12 + 4 * k) ?_).trans (rd_image_addrs d (h.addrs k))
      simp only [ndirect] at hk
      simp only [dinodeSize]
      omega
    · exact (h.short k (by omega)).symm

end Dinode

variable [sb : Superblock]

theorem iblock_lt {i : ℕ} (h : i < ninodes) : iblock i < bmapstart := by
  have := sb.inodes_fit
  have : i / ipb ≤ ninodes / ipb := Nat.div_le_div_right (by omega)
  unfold iblock
  omega

theorem bmapstart_le_bblock (b : ℕ) : bmapstart ≤ bblock b := Nat.le_add_left _ _

theorem bmapstart_lt_datastart : bmapstart < datastart := Nat.lt_succ_of_le (Nat.le_add_right _ _)

theorem bblock_lt {b : ℕ} (h : b < sb.size) : bblock b < datastart := by
  have : b / bpb ≤ sb.size / bpb := Nat.div_le_div_right (by omega)
  unfold bblock datastart
  omega

def volume (blocks : ℕ → Bytes) : Volume where
  core := fun i => if i < ninodes then dinode blocks i else Dinode.zero
  used := fun b => if b < sb.size then !bitClear (blocks (bblock b)) (b % bpb) else true
  data := fun b x => if datastart ≤ b ∧ x < bsize then blocks b x else 0

variable {blocks : ℕ → Bytes} {i b : ℕ} {d : Dinode}

theorem volume_core (h : i < ninodes) : (volume blocks).core i = dinode blocks i := if_pos h

theorem volume_fits (i : ℕ) : ((volume blocks).core i).Fits := by
  simp only [volume]
  split_ifs
  · exact Dinode.decode_fits _ _
  · exact Dinode.zero_fits

variable {x : ℕ}

theorem volume_data (h : datastart ≤ b) (hx : x < bsize) : (volume blocks).data b x = blocks b x := if_pos ⟨h, hx⟩

variable {blocks' : ℕ → Bytes}

theorem volume_congr_core (h : ∀ i < ninodes, blocks' (iblock i) = blocks (iblock i)) :
    (volume blocks').core = (volume blocks).core := by
  funext i
  simp only [volume]
  split_ifs with hi
  · rw [dinode, dinode, h i hi]
  · rfl

theorem volume_congr_used (h : ∀ b < sb.size, blocks' (bblock b) = blocks (bblock b)) :
    (volume blocks').used = (volume blocks).used := by
  funext b
  simp only [volume]
  split_ifs with hb
  · rw [h b hb]
  · rfl

theorem volume_congr_data (h : ∀ b, datastart ≤ b → blocks' b = blocks b) : (volume blocks').data = (volume blocks).data := by
  funext b x
  simp only [volume]
  split_ifs with hb
  · rw [h b hb.1]
  · rfl

theorem volume_putDinode (hi : i < ninodes) (hd : d.Fits) :
    volume (update blocks (iblock i) (store (blocks (iblock i)) (dinodeSize * (i % ipb)) dinodeSize d.image)) =
      (volume blocks).setCore i d := by
  have hlt := iblock_lt hi
  refine Volume.ext ?_ ?_ ?_
  · funext j
    by_cases hji : j = i
    · subst hji
      simp only [volume, if_pos hi, Volume.setCore, update_self, dinode]
      exact Dinode.decode_store_image hd _ _
    simp only [volume, Volume.setCore, update_of_ne hji]
    split_ifs with hj
    · unfold dinode
      by_cases hb : iblock j = iblock i
      · rw [hb, update_self]
        apply Dinode.decode_congr
        intro x h1 h2
        apply store_of_notMem
        simp only [iblock, ipb, bsize, dinodeSize] at hb h1 h2 ⊢
        omega
      · rw [update_of_ne hb]
    · rfl
  · refine volume_congr_used fun b _ => update_of_ne ?_ _ _
    have := bmapstart_le_bblock b
    omega
  · refine volume_congr_data fun b hb => update_of_ne ?_ _ _
    have := bmapstart_lt_datastart
    omega

theorem iblock_ne_bblock (hi : i < ninodes) (b : ℕ) : iblock i ≠ bblock b := by
  have := iblock_lt hi
  have := bmapstart_le_bblock b
  omega

theorem iblock_ne_data (hi : i < ninodes) (hb : datastart ≤ b) : iblock i ≠ b := by
  have := iblock_lt hi
  have := bmapstart_lt_datastart
  omega

theorem bblock_eq_iff {c : ℕ} : bblock c = bblock b ∧ c % bpb = b % bpb ↔ c = b := by
  constructor
  · rintro ⟨h1, h2⟩
    rw [← Nat.div_add_mod c bpb, ← Nat.div_add_mod b bpb, h2, Nat.add_right_cancel h1]
  · rintro rfl
    exact ⟨rfl, rfl⟩

theorem volume_bitmap {bp : Bytes} {u : Bool} (hb : b < sb.size)
    (hbp : ∀ bj, (!bitClear bp bj) = if bj = b % bpb then u else !bitClear (blocks (bblock b)) bj) :
    volume (update blocks (bblock b) bp) = { volume blocks with used := update (volume blocks).used b u } := by
  have hlt := bblock_lt hb
  refine Volume.ext ?_ ?_ ?_
  · exact volume_congr_core fun i hi => update_of_ne (iblock_ne_bblock hi b) _ _
  · funext c
    simp only [volume]
    by_cases hcb : c = b
    · subst hcb
      simp only [if_pos hb, update_self, hbp, if_pos]
    · rw [update_of_ne hcb]
      split_ifs
      · by_cases hblock : bblock c = bblock b
        · have hmod : c % bpb ≠ b % bpb := fun hm => hcb (bblock_eq_iff.mp ⟨hblock, hm⟩)
          rw [hblock, update_self, hbp, if_neg hmod]
        · rw [update_of_ne hblock]
      · rfl
  · refine volume_congr_data fun c hc => update_of_ne ?_ _ _
    omega

theorem volume_setBit (hb : b < sb.size) :
    volume (update blocks (bblock b) (setBit (blocks (bblock b)) (b % bpb))) =
      { volume blocks with used := update (volume blocks).used b true } := by
  refine volume_bitmap hb fun bj => ?_
  rw [bitClear_setBit]
  by_cases h : bj = b % bpb <;> simp [h]

theorem volume_clearBit (hb : b < sb.size) :
    volume (update blocks (bblock b) (clearBit (blocks (bblock b)) (b % bpb))) = (volume blocks).give b := by
  refine volume_bitmap hb fun bj => ?_
  rw [bitClear_clearBit]
  by_cases h : bj = b % bpb <;> simp [h]

theorem volume_put (hb : datastart ≤ b) (f : Bytes) :
    volume (update blocks b f) = (volume blocks).put b fun x => if x < bsize then f x else 0 := by
  refine Volume.ext ?_ ?_ ?_
  · exact volume_congr_core fun i hi => update_of_ne (iblock_ne_data hi hb) _ _
  · refine volume_congr_used fun c hc => update_of_ne ?_ _ _
    have := bblock_lt hc
    omega
  · funext c x
    by_cases hcb : c = b
    · subst hcb
      simp [volume, Volume.put, hb]
    · simp [volume, Volume.put, hcb]

theorem rd32_volume (hb : datastart ≤ b) (hx : x + 4 ≤ bsize) : rd32 ((volume blocks).data b) x = rd32 (blocks b) x := by
  apply rd_congr
  intro y h1 h2
  exact volume_data hb (by omega)

theorem ptr_volume (h : d.addrs ndirect ≠ 0 → datastart ≤ d.addrs ndirect) (m : ℕ) :
    d.ptr (volume blocks).data m = d.ptr blocks m := by
  unfold Dinode.ptr
  split_ifs with h1 h2
  · rfl
  · refine rd32_volume (h h2.2) ?_
    have hm := h2.1
    simp only [nptr, ndirect, nindirect, bsize] at h1 hm ⊢
    omega
  · rfl

theorem volume_wr32 (hb : datastart ≤ b) {c : ℕ} (hx : x + 4 ≤ bsize) :
    volume (update blocks b (wr32 (blocks b) x c)) = (volume blocks).put b (wr32 ((volume blocks).data b) x c) := by
  rw [volume_put hb]
  congr 1
  funext y
  simp only [wr32, wr, store]
  by_cases hy : x ≤ y ∧ y < x + 4
  · rw [if_pos (by omega), if_pos hy, if_pos hy]
  · rw [if_neg hy, if_neg hy]
    simp [volume, hb]

end Laboratorio.Fs
