import Laboratorio.Fs.Mkfs
import Laboratorio.Fs.Write

namespace Laboratorio.Fs

open Bytes Function

theorem take_slice (f : Bytes) (a : ℕ) {m n : ℕ} (h : m ≤ n) : (slice f a n).take m = slice f a m := by
  rw [slice, slice, ← List.map_take, List.take_range, Nat.min_eq_left h]

theorem drop_slice (f : Bytes) (a m n : ℕ) : (slice f a n).drop m = slice f (a + m) (n - m) := by
  apply List.ext_getElem
  · simp
  · simp [slice, Nat.add_assoc]

def Node.contents (a : Node) : List UInt8 := slice a.bytes 0 a.size

def overwrite (l : List UInt8) (off : ℕ) (src : List UInt8) : List UInt8 := l.take off ++ src ++ l.drop (off + src.length)

namespace Node

variable {a : Node} {off n : ℕ}

theorem contents_write (src : List UInt8) (h : off ≤ a.size) : (a.write off src).contents = overwrite a.contents off src := by
  have hsize : (a.write off src).size = off + (src.length + (a.size - (off + src.length))) := by
    change max a.size (off + src.length) = _
    omega
  have hbytes : (a.write off src).bytes = store a.bytes off src.length fun x => src.getD x 0 := rfl
  rw [contents, hsize, hbytes, ← slice_append, ← slice_append, overwrite, contents, take_slice _ _ h, drop_slice,
    List.append_assoc]
  congr 1
  · exact slice_congr fun x _ h2 => store_of_notMem (by omega)
  · congr 1
    · rw [Nat.zero_add]
      exact slice_store a.bytes off src
    · simp only [Nat.zero_add]
      exact slice_congr fun x h1 _ => store_of_notMem (by omega)

theorem read_eq (dev : Option (List UInt8)) (htype : a.type ≠ tDev) (hoff : off < 2 ^ 32) (hn : n < 2 ^ 32) :
    a.read dev off n = if off ≤ a.size ∧ off + n < 2 ^ 32 then some ((a.contents.drop off).take n) else none := by
  rw [read, if_neg htype]
  by_cases hok : off ≤ a.size ∧ off + n < 2 ^ 32
  · have hgood : ¬ (off > a.size ∨ (off + n) % 2 ^ 32 < off) := by omega
    rw [if_pos hok, if_neg hgood, contents, drop_slice, Nat.zero_add]
    split_ifs with hlt
    · rw [List.take_of_length_le (by rw [length_slice]; omega)]
    · rw [take_slice _ _ (by omega)]
  · have hbad : off > a.size ∨ (off + n) % 2 ^ 32 < off := by omega
    rw [if_neg hok, if_pos hbad]

end Node

section state

variable [sb : Superblock] {s t : FsState} {c : Cell}

structure Laid (s : FsState) : Prop where
  unique : ∀ c c', 0 < (s.icache c).ref → 0 < (s.icache c').ref → (s.icache c).inum = (s.icache c').inum → c = c'
  dev : ∀ c, 0 < (s.icache c).ref → (s.icache c).dev = rootdev
  inum : ∀ c, 0 < (s.icache c).ref → (s.icache c).valid = true → (s.icache c).inum < ninodes
  typed : ∀ c, 0 < (s.icache c).ref → (s.icache c).valid = true → (s.icache c).d.type ≠ 0
  fits : ∀ c, 0 < (s.icache c).ref → (s.icache c).valid = true → (s.icache c).d.Fits
  ledger : Ledger s.live.own s.live.used datastart sb.size
  reserved : ∀ x < datastart, s.live.used x = true

structure Owned (s : FsState) : Prop extends Laid s where
  full : ∀ i n, (s.core i).type ≠ 0 → n * bsize < (s.core i).size → s.live.block i n ≠ 0

def Mode.bare : Mode := ⟨False, True, True, False, fun _ => trivial⟩

theorem Laid.sound {d : Prop} {hd} (h : Laid s)
    (hfull : d → ∀ i n, (s.core i).type ≠ 0 → n * bsize < (s.core i).size → s.live.block i n ≠ 0) :
    Sound ⟨False, d, True, False, hd⟩ (fun _ => 0) (fun c => (s.icache c).ref) (fun c => (s.icache c).lock) s where
  ref := fun _ => rfl
  lock := fun _ => rfl
  unique := fun c c' hc hc' _ => h.unique c c' hc hc'
  under := fun _ hc => absurd hc (Nat.lt_irrefl 0)
  dev := h.dev
  inum_lt := fun c hc hv => h.inum c hc (hv.resolve_left id)
  locked_of := False.elim
  typed := h.typed
  fits := h.fits
  behind_of := False.elim
  whole := ⟨h.ledger, h.reserved, fun _ _ _ _ => False.elim, hfull, fun hl => absurd trivial hl⟩
  kept_of := False.elim

theorem Owned.sound (h : Owned s) : Sound .bare (fun _ => 0) (fun c => (s.icache c).ref) (fun c => (s.icache c).lock) s :=
  h.toLaid.sound fun _ => h.full

theorem Sound.owned {m : Mode} {b r : Cell → ℕ} {l : Cell → Bool} (h : Sound m b r l s) (hd : m.dense) : Owned s where
  unique := fun c c' hc hc' => h.eq_of_inum (by rwa [← h.ref]) (by rwa [← h.ref])
  dev := fun c hc => h.dev c (by rwa [← h.ref])
  inum := fun c hc hv => h.inum_lt c (by rwa [← h.ref]) (.inr hv)
  typed := fun c hc => h.typed c (by rwa [← h.ref])
  fits := fun c hc => h.fits c (by rwa [← h.ref])
  ledger := h.whole.ledger
  reserved := h.whole.reserved
  full := h.whole.full hd

namespace Owned

theorem size_le {i : ℕ} (h : Owned s) (ht : (s.core i).type ≠ 0) : (s.core i).size ≤ maxfile * bsize := by
  by_contra hlt
  refine h.full i maxfile ht (by omega) ?_
  exact Volume.own_of_le (by decide)

variable (h : Owned s) (hc : 0 < (s.icache c).ref) (hv : (s.icache c).valid = true)
include h hc hv

theorem readi_eq (dev : Option (List UInt8)) (off n : ℕ) :
    readi dev c off n s = .ok ((s.node (s.icache c).inum).read dev off n, s) := by
  have htype := h.sound.type_ne hc hv
  have hfull : ¬ ∃ x, off ≤ x ∧ x < off + n ∧ x < (s.node (s.icache c).inum).size ∧
    s.live.block (s.icache c).inum (x / bsize) = 0 := by
    rintro ⟨x, -, -, hx, h0⟩
    exact h.full _ _ htype ((Nat.div_mul_le_self x bsize).trans_lt hx) h0
  obtain ⟨a, t, hrun, rfl, -, -, hsame⟩ :=
    exists_of_wp (sound_readi h.sound hc hv (fun hlt => absurd (h.size_le htype) (Nat.not_le_of_lt hlt)) hfull)
  rw [hrun, hsame trivial]

theorem room_below (off n : ℕ) (hle : off + n ≤ (s.node (s.icache c).inum).size) :
    s.live.Room (s.icache c).inum (pointers off n) := by
  have htype := h.sound.type_ne hc hv
  have hempty : s.live.lacks (s.icache c).inum (pointers off n) = ∅ := by
    refine Finset.filter_eq_empty_iff.mpr fun p hp h0 => ?_
    obtain ⟨x, hx, hp⟩ := Finset.mem_biUnion.mp hp
    have hx' := Finset.mem_Ico.mp hx
    have hblock : s.live.block (s.icache c).inum (x / bsize) ≠ 0 := by
      refine h.full _ _ htype (Nat.lt_of_le_of_lt (Nat.div_mul_le_self x bsize) ?_)
      change x < (s.node (s.icache c).inum).size
      omega
    refine hblock ?_
    unfold Volume.block place
    unfold pointersTo at hp
    split_ifs at hp ⊢ with hd
    · rwa [← Finset.mem_singleton.mp hp]
    · rcases Finset.mem_insert.mp hp with rfl | hp
      · rw [Volume.own_of_allocated htype, Dinode.ptr_direct le_rfl] at h0
        rw [Volume.own_of_allocated htype]
        exact Dinode.ptr_of_no_indirect (by omega) h0
      · rwa [← Finset.mem_singleton.mp hp]
  rw [Volume.Room, hempty]
  exact Nat.zero_le _

theorem wp_writei (dev : Option ℕ) (src : List UInt8) {off : ℕ} {E : Fault → Prop}
    (hdev : (s.node (s.icache c).inum).type ≠ tDev)
    (hout : off ≤ (s.node (s.icache c).inum).size → off + src.length ≤ maxfile * bsize →
      ¬ s.live.Room (s.icache c).inum (pointers off src.length) → E .outOfBlocks) : wp (writei dev c src off) s (fun res t =>
      (res = none ∧ t = s ∧
        ((s.node (s.icache c).inum).size < off ∨ (off + src.length) % 2 ^ 32 < off ∨ maxfile * bsize < off + src.length)) ∨
      (res = some src.length ∧ Owned t ∧ Still s t ∧ off ≤ (s.node (s.icache c).inum).size ∧
      off + src.length ≤ maxfile * bsize ∧
        ∀ j, t.node j = onNode (s.icache c).inum (Node.write off src) j (s.node j))) E := by
  apply wp_mono (sound_writei h.sound id hc hv dev src off hdev hout)
  rintro res t (hbad | ⟨hres, ht, hst, hoff, hmax, hnode, -⟩)
  · exact .inl hbad
  · exact .inr ⟨hres, ht.owned trivial, hst, hoff, hmax, hnode⟩

end Owned

theorem file_is_byte_array (h : Owned s) (hc : 0 < (s.icache c).ref) (hv : (s.icache c).valid = true)
    (hdev : (s.icache c).d.type ≠ tDev) : (∀ dev off n, off < 2 ^ 32 → n < 2 ^ 32 → readi dev c off n s =
      .ok (if off ≤ (s.icache c).d.size ∧
        off + n < 2 ^ 32 then some (((s.node (s.icache c).inum).contents.drop off).take n) else none, s)) ∧
    ∀ dev src off, off < 2 ^ 32 → src.length < 2 ^ 31 →
      (off ≤ (s.icache c).d.size → off + src.length ≤ maxfile * bsize →
      s.live.Room (s.icache c).inum (pointers off src.length)) → ∃ res t, writei dev c src off s = .ok (res, t) ∧
        (res = some src.length ↔ off ≤ (s.icache c).d.size ∧ off + src.length < 2 ^ 32 ∧ off + src.length ≤ maxfile * bsize) ∧
        (res ≠ some src.length → res = none ∧ t = s) ∧
        (res = some src.length → Owned t ∧ (t.icache c).d.size = max (s.icache c).d.size (off + src.length) ∧
          (t.node (s.icache c).inum).contents = overwrite (s.node (s.icache c).inum).contents off src ∧
          (∀ j, j ≠ (s.icache c).inum → t.node j = s.node j) ∧ ∀ dev' off' n, off' < 2 ^ 32 → n < 2 ^ 32 →
          readi dev' c off' n t =
            .ok (if off' ≤ max (s.icache c).d.size (off + src.length) ∧ off' + n < 2 ^ 32 then
              some (((overwrite (s.node (s.icache c).inum).contents off src).drop off').take n) else none, t)) := by
  obtain ⟨htype, hsize, -⟩ := h.sound.fields hc hv
  rw [hsize]
  rw [htype] at hdev
  refine ⟨fun dev off n hoff hn => ?_, fun dev src off hoff hlen hroom => ?_⟩
  · rw [h.readi_eq hc hv, Node.read_eq dev hdev hoff hn]
  obtain ⟨res, t, hrun, ⟨rfl, rfl, hbad⟩ | ⟨rfl, ht, hst, hle, hmax, hnode⟩⟩ :=
    exists_of_wp (h.wp_writei hc hv dev src hdev fun h1 h2 hno => hno (hroom h1 h2))
  · refine ⟨none, t, hrun, ⟨nofun, fun hgood => ?_⟩, fun _ => ⟨rfl, rfl⟩, nofun⟩
    omega
  have hmax' : off + src.length < 2 ^ 32 := Nat.lt_of_le_of_lt hmax (by decide)
  have hself : t.node (s.icache c).inum = (s.node (s.icache c).inum).write off src := by
    rw [hnode, onNode, if_pos rfl]
  have hcontents := Node.contents_write src hle
  have hct : 0 < (t.icache c).ref := by rwa [hst.ref]
  have hvt : (t.icache c).valid = true := (hst.valid c).trans hv
  obtain ⟨htype', hsize', -⟩ := ht.sound.fields hct hvt
  rw [hst.inum, hself] at htype' hsize'
  refine ⟨_, t, hrun, ⟨fun _ => ⟨hle, hmax', hmax⟩, fun _ => rfl⟩, fun hno => absurd rfl hno,
    fun _ => ⟨ht, hsize', ?_, fun j hj => ?_, ?_⟩⟩
  · rw [hself, hcontents]
  · rw [hnode, onNode, if_neg hj]
  · intro dev' off' n hoff' hn
    have hread := Node.read_eq (a := (s.node (s.icache c).inum).write off src) dev' hdev hoff' hn
    rw [ht.readi_eq hct hvt, hst.inum, hself, hread, hcontents]
    rfl

end state

def lone (type : ℕ) : FsState where
  disk := ⟨fun b x => if b = bmapstart ∧ x < 8 then 255 else 0, []⟩
  icache := fun c => ⟨rootdev, 1, if c = 0 then 1 else 0, false, true, { Dinode.zero with type := type, nlink := 1 }⟩

variable {type : ℕ}

theorem lone_ref {c : Cell} (h : 0 < ((lone type).icache c).ref) : c = 0 := by
  by_contra hc
  simp [lone, hc] at h

theorem dinode_zero {blocks : ℕ → Bytes} {i : ℕ} (h : blocks (iblock i) = fun _ => 0) : dinode blocks i = Dinode.zero := by
  rw [dinode, h]
  refine Dinode.ext rfl rfl rfl rfl rfl (funext fun k => ?_)
  change (if k ≤ ndirect then 0 else 0) = 0
  split_ifs <;> rfl

theorem table_lone (i : ℕ) : (lone type).table.core i = Dinode.zero := by
  change (if i < ninodes then dinode (lone type).disk.blocks i else Dinode.zero) = Dinode.zero
  split_ifs with hlt
  · exact dinode_zero (funext fun x => if_neg fun h => (iblock_lt hlt).ne h.1)
  · rfl

theorem core_lone (i : ℕ) : (lone type).core i = if i =
    1 then { Dinode.zero with type := type, nlink := 1 } else Dinode.zero := by
  refine FsState.core_eq (fun c hc => ?_) fun h0 => ?_
  · have hi : i = 1 := hc.2.2.symm
    rw [if_pos hi]
    rfl
  · have hi : i ≠ 1 := by
      rintro rfl
      exact h0 0 ⟨Nat.one_pos, rfl, rfl⟩
    rw [if_neg hi, table_lone]

theorem Volume.own_eq_zero {v : Volume} (h : ∀ i k, (v.core i).addrs k = 0) (p : ℕ × ℕ) : v.own p = 0 := by
  unfold Volume.own Dinode.ptr
  simp [h]

theorem own_lone : ∀ p, (lone type).live.own p = 0 := by
  refine Volume.own_eq_zero fun i k => ?_
  change ((lone type).core i).addrs k = 0
  rw [core_lone]
  split_ifs <;> rfl

theorem owned_lone (h0 : type ≠ 0) (hlt : type < 2 ^ 16) : Owned (lone type) where
  unique := fun c c' hc hc' _ => (lone_ref hc).trans (lone_ref hc').symm
  dev := fun _ _ => rfl
  inum := fun _ _ _ => show 1 < Mkfs.ninodes by decide
  typed := fun _ _ _ => h0
  fits := fun _ _ _ => ⟨hlt, Nat.two_pow_pos 16, Nat.two_pow_pos 16, show 1 < 2 ^ 16 by decide, Nat.two_pow_pos 32,
    fun _ => Nat.two_pow_pos 32, fun _ _ => rfl⟩
  ledger := ⟨fun p hp => absurd (own_lone p) hp, fun p hp => absurd (own_lone p) hp, fun p _ hp => absurd (own_lone p) hp⟩
  reserved := show ∀ x < datastart, (volume (lone 0).disk.blocks).used x = true by decide
  full := fun i n _ hn => by
    rw [core_lone] at hn
    split_ifs at hn <;> exact absurd hn (Nat.not_lt_zero _)

theorem file_is_byte_array_lone : ∃ t, writei none 0 [104, 105] 0 (lone tFile) = .ok (some 2, t) ∧
    readi none 0 1 5 t = .ok (some [105], t) := by
  have hfile := file_is_byte_array (s := lone tFile) (c := 0) (owned_lone (by decide) (by decide)) (by decide) rfl (by decide)
  have hroom : (lone tFile).live.Room 1 (pointers 0 2) := by
    have hlacks : ((lone tFile).live.lacks 1 (pointers 0 2)).card ≤ 1 := (Finset.card_filter_le _ _).trans (by decide)
    have hunused : 64 ∈ (lone tFile).live.unused := Finset.mem_filter.mpr ⟨Finset.mem_range.mpr (by decide), by decide⟩
    exact hlacks.trans (Finset.card_pos.mpr ⟨64, hunused⟩)
  obtain ⟨res, t, hrun, hres, -, hread⟩ := hfile.2 none [104, 105] 0 (by decide) (by decide) fun _ _ => hroom
  have hsome : res = some 2 := hres.mpr (by decide)
  obtain ⟨-, -, -, -, hread⟩ := hread hsome
  rw [hsome] at hrun
  exact ⟨t, hrun, hread none 1 5 (by decide) (by decide)⟩

end Laboratorio.Fs
