import Laboratorio.Lib.Slots
import Laboratorio.Fs.ByteArray
import Laboratorio.Fs.Creation

/-!
A directory as a finite map from names, of which the first 14 bytes count, to inode numbers.
-/

namespace Laboratorio.Fs

open Bytes Function

def shortName (name : Name) : List UInt8 := strncpy name dirsiz

def Dirent.named (e : Dirent) : Option (List UInt8 × ℕ) := if e.inum = 0 then none else some (shortName e.name, e.inum)

theorem named_newEntry {inum : ℕ} (h1 : 1 ≤ inum) (h2 : inum < 2 ^ 16) (name : Name) :
    (newEntry name inum).named = some (shortName name, inum) := by
  have hinum : (newEntry name inum).inum = inum := Nat.mod_eq_of_lt h2
  have hname : shortName (newEntry name inum).name = shortName name := strncpy_strncpy name dirsiz
  rw [Dirent.named, hinum, hname, if_neg (by omega)]

theorem named_eq_none {e : Dirent} : e.named = none ↔ e.inum = 0 := by
  simp [Dirent.named]

theorem slots_mul (n : ℕ) : slots (direntSize * n) = n := by
  simp only [slots, direntSize]
  omega

namespace Node

variable {a : Node} {k inum : ℕ} {name : Name}

def table (a : Node) : Slots (List UInt8) ℕ := ⟨slots a.size, fun k => (a.entry k).named⟩

theorem holds_iff : a.holds name k = true ↔ ∃ i, a.table.slot k = some (shortName name, i) := by
  have hcmp := namecmp_iff name (a.entry k).name
  simp only [holds, table, Dirent.named, shortName, Bool.and_eq_true, decide_eq_true_eq, hcmp]
  split_ifs with h0
  · simp [h0]
  · simp [h0, eq_comm]

theorem find_table (a : Node) (name : Name) : a.find name = a.table.find (shortName name) := by
  unfold find Slots.find
  congr 1
  funext k
  rw [Bool.eq_iff_iff, holds_iff, Option.any_eq_true]
  simp

theorem vacant_table (a : Node) : a.vacant = a.table.vacant := by
  unfold vacant Slots.vacant
  congr 2
  funext k
  rw [Bool.eq_iff_iff, decide_eq_true_iff, ← named_eq_none]
  exact Option.isNone_iff_eq_none.symm

def erase (k : ℕ) (a : Node) : Node := a.write (direntSize * k) (List.replicate direntSize 0)

section

variable (hsize : a.size = direntSize * slots a.size)

include hsize

theorem table_insert (h1 : 1 ≤ inum) (h2 : inum < 2 ^ 16) (name : Name) :
    (a.insert (newEntry name inum)).table = a.table.insert (shortName name) inum := by
  have hlen := length_newEntry name inum
  apply Slots.ext
  · change slots (a.insert (newEntry name inum)).size = max (slots a.size) (a.table.vacant + 1)
    rw [size_insert hlen, ← vacant_table]
    rw [hsize, slots_mul, ← Nat.mul_succ, Nat.mul_max_mul_left, slots_mul]
  · funext k
    change ((a.insert (newEntry name inum)).entry k).named = update a.table.slot a.table.vacant _ k
    rw [entry_insert hlen (newEntry_lt name inum), update_apply, vacant_table]
    split_ifs with hk
    · exact named_newEntry h1 h2 name
    · rfl

theorem size_erase (hk : k < slots a.size) : (a.erase k).size = a.size := by
  change max a.size (direntSize * k + (List.replicate direntSize (0 : UInt8)).length) = a.size
  rw [List.length_replicate, hsize, ← Nat.mul_succ]
  exact Nat.max_eq_left (Nat.mul_le_mul_left _ hk)

theorem table_erase (hk : k < slots a.size) : (a.erase k).table = a.table.put k none := by
  have hlen : (List.replicate direntSize (0 : UInt8)).length = direntSize := List.length_replicate
  apply Slots.ext
  · change slots (a.erase k).size = max (slots a.size) (k + 1)
    rw [size_erase hsize hk]
    omega
  funext j
  change ((a.put (direntSize * k) (List.replicate direntSize 0)).entry j).named = update a.table.slot k none j
  rw [update_apply]
  split_ifs with hj
  · subst hj
    rw [entry_put_self a hlen]
    rfl
  · rw [entry_put_of_ne]
    · rfl
    · rw [hlen]
      simp only [direntSize]
      omega

end

theorem lookup_eq_none : a.table.lookup (shortName name) = none ↔
    ∀ k < slots a.size, (a.entry k).inum ≠ 0 → namecmp name (a.entry k).name = false := by
  rw [Slots.lookup_eq_none]
  refine forall₂_congr fun k _ => ?_
  rw [← not_exists, ← holds_iff]
  simp [holds]

theorem distinct_iff : a.table.Distinct ↔ ∀ j k, j < slots a.size → k < slots a.size → (a.entry j).inum ≠ 0 →
    (a.entry k).inum ≠ 0 → namecmp (a.entry j).name (a.entry k).name = true → j = k := by
  constructor
  · intro h j k hj hk hej hek hcmp
    refine h j k (shortName (a.entry k).name) (a.entry j).inum (a.entry k).inum hj hk ?_ (if_neg hek)
    rw [shortName, ← (namecmp_iff _ _).mp hcmp]
    exact if_neg hej
  · intro h j k x v w hj hk hej hek
    simp only [table, Dirent.named, Option.ite_none_left_eq_some, Option.some.injEq, Prod.mk.injEq] at hej hek
    exact h j k hj hk hej.1 hek.1 ((namecmp_iff _ _).mpr (hej.2.1.trans hek.2.1.symm))

end Node

section state

variable [sb : Superblock] {s t : FsState} {dp : Cell} {E : Fault → Prop}

def FsState.file (s : FsState) (dp : Cell) : Node := s.node (s.icache dp).inum

def FsState.names (s : FsState) (dp : Cell) (name : Name) : Option ℕ := (s.file dp).table.lookup (shortName name)

structure IsDirectory (dp : Cell) (s : FsState) : Prop extends Owned s where
  held : 0 < (s.icache dp).ref
  valid : (s.icache dp).valid = true
  isDir : (s.file dp).type = tDir
  entries : (s.file dp).size = direntSize * slots (s.file dp).size
  distinct : (s.file dp).table.Distinct

structure Apart (dp : Cell) (s t : FsState) : Prop extends Owned t where
  held : 0 < (t.icache dp).ref
  valid : (t.icache dp).valid = true
  same : (t.icache dp).inum = (s.icache dp).inum
  node : t.node (s.icache dp).inum = s.node (s.icache dp).inum

namespace Apart

variable (h : Apart dp s t)
include h

theorem file_eq : t.file dp = s.file dp := by
  rw [FsState.file, h.same]
  exact h.node

theorem names_eq : t.names dp = s.names dp := by
  funext name
  rw [FsState.names, h.file_eq, FsState.names]

theorem isDirectory (hs : IsDirectory dp s) : IsDirectory dp t := by
  refine ⟨h.toOwned, h.held, h.valid, ?_, ?_, ?_⟩
  · rw [h.file_eq]
    exact hs.isDir
  · rw [h.file_eq]
    exact hs.entries
  · rw [h.file_eq]
    exact hs.distinct

end Apart

namespace IsDirectory

variable (h : IsDirectory dp s)
include h

variable {k : ℕ}

theorem below (hk : k < slots (s.file dp).size) : direntSize * k + direntSize ≤ (s.file dp).size := by
  rw [h.entries, ← Nat.mul_succ]
  exact Nat.mul_le_mul_left _ hk

theorem size_le : (s.file dp).size ≤ maxfile * bsize := h.toOwned.size_le (h.sound.type_ne h.held h.valid)

theorem wp_readDirent {e : Fault} (hk : k < slots (s.file dp).size) :
    wp (readDirent e dp (direntSize * k)) s (fun de t => de = (s.file dp).entry k ∧ t = s) E := by
  have hle := h.below hk
  have hsize := h.size_le
  have htype : (s.file dp).type ≠ tDev := by
    rw [h.isDir]
    decide
  have hgood : ¬ (direntSize * k > (s.file dp).size ∨ (direntSize * k + direntSize) % 2 ^ 32 < direntSize * k) := by
    simp only [direntSize, maxfile, ndirect, nindirect, bsize] at hle hsize ⊢
    omega
  have hread : readi none dp (direntSize * k) direntSize s =
    .ok (some (slice (s.file dp).bytes (direntSize * k) direntSize), s) := by
    rw [h.readi_eq h.held h.valid]
    change Except.ok ((s.file dp).read none _ _, s) = _
    rw [Node.read, if_neg htype, if_neg hgood, if_neg (by omega)]
  rw [readDirent, wp_bind]
  refine wp_of_eq hread ?_
  exact wp_ret ⟨rfl, rfl⟩

theorem wp_dirlookupLoop {name : Name} {Q : Option (Cell × ℕ) → FsState → Prop} {n : ℕ} (hn : k + n = slots (s.file dp).size)
    (hnone : (List.range' k n).find? ((s.file dp).holds name) = none → Q none s)
    (hsome : ∀ j, (List.range' k n).find? ((s.file dp).holds name) = some j →
      wp (iget rootdev ((s.file dp).entry j).inum) s (fun c t => Q (some (c, direntSize * j)) t) E) :
    wp (dirlookupLoop dp name (direntSize * k) n) s Q E := by
  induction n generalizing k with
  | zero => exact wp_ret (hnone rfl)
  | succ n ih =>
    rw [dirlookupLoop]
    refine wp_seq (h.wp_readDirent (by omega)) ?_
    rintro de t ⟨rfl, rfl⟩
    rw [List.range'_succ] at hnone hsome
    rw [wp_ite]
    refine ⟨fun hfound => ?_, fun hno => ?_⟩
    · have hholds : (t.file dp).holds name k = true := by simpa [Node.holds] using hfound
      rw [wp_bind, wp_inode, h.dev dp h.held, wp_bind]
      exact wp_mono (hsome k (List.find?_cons_of_pos hholds)) fun _ _ => wp_ret
    · have hholds : ¬ (t.file dp).holds name k = true := fun hh => hno (by simpa [Node.holds] using hh)
      rw [List.find?_cons_of_neg hholds] at hnone hsome
      exact ih (by omega) hnone hsome

theorem wp_dirlookup (name : Name) {Q : Option (Cell × ℕ) → FsState → Prop} (hnone : s.names dp name = none → Q none s)
    (hsome : ∀ k i, k < slots (s.file dp).size → (s.file dp).table.slot k = some (shortName name, i) →
    s.names dp name = some i →
      wp (iget rootdev i) s (fun c t => Q (some (c, direntSize * k)) t) E) : wp (dirlookup dp name) s Q E := by
  obtain ⟨htype, hsize, -⟩ := h.sound.fields h.held h.valid
  rw [dirlookup, wp_bind, wp_inode, wp_ite, htype, hsize]
  refine ⟨fun hno => absurd h.isDir hno, fun _ => ?_⟩
  refine h.wp_dirlookupLoop (Nat.zero_add _) (fun hf => hnone ?_) fun j hf => ?_
  · have hf' : (s.file dp).table.find (shortName name) = none := by rw [← Node.find_table]; exact hf
    rw [FsState.names, Slots.lookup, hf']
    rfl
  · have hf' : (s.file dp).table.find (shortName name) = some j := by rw [← Node.find_table]; exact hf
    obtain ⟨i, hslot, hlook⟩ := Slots.lookup_of_find hf'
    have hi : ((s.file dp).entry j).inum = i := by
      simp only [Node.table, Dirent.named, Option.ite_none_left_eq_some, Option.some.injEq, Prod.mk.injEq] at hslot
      exact hslot.2.2
    rw [hi]
    exact hsome j i (Slots.find_eq_some hf').1 hslot hlook

theorem wp_iget {i : ℕ} {Q : Cell → FsState → Prop}
    (hfull : (∀ c, 0 < (s.icache c).ref ∧ (s.icache c).inum ≠ i) → E .igetNoInodes)
    (hQ : ∀ c t, Apart dp s t → t.node = s.node → (t.icache c).inum = i → 0 < (t.icache c).ref → (∀ {E' : Fault → Prop},
      ((t.icache c).lock = true → E' .deadlock) → wp (iput c) t (fun _ u => Apart dp s u ∧ u.node = s.node) E') → Q c t) :
    wp (iget rootdev i) s Q E := by
  refine wp_mono (sound_iget h.sound False.elim hfull) ?_
  rintro c t ⟨ht, hi, hst, hdisk, hcore, hfresh⟩
  have apart : ∀ {u : FsState} {r : Cell → ℕ}, Sound .bare (fun _ => 0) r (fun c => (s.icache c).lock) u →
    Stays (fun c => (s.icache c).ref) s u → 0 < r dp → u.disk = s.disk → u.core = s.core → Apart dp s u ∧ u.node = s.node := by
    intro u r hu hst hr hdisk hcore
    have hnode : u.node = s.node := by
      funext j
      rw [FsState.node, FsState.node, FsState.live_congr hcore (by rw [hdisk])]
    obtain ⟨-, hinum, hvalid⟩ := hst dp h.held
    exact ⟨⟨hu.owned trivial, by rwa [hu.ref], hvalid h.valid, hinum, by rw [hnode]⟩, hnode⟩
  obtain ⟨hapart, hnode⟩ := apart ht hst (plus_pos c h.held) hdisk hcore
  refine hQ c t hapart hnode hi (by rw [ht.ref]; exact plus_self_pos _ _) fun hdead => ?_
  refine wp_mono (sound_iput ht (fun _ h0 => absurd h0 (Nat.lt_irrefl 0)) (fun hl => hdead (by rw [ht.lock, hl])) ?_) ?_
  · by_cases hr : 0 < (s.icache c).ref
    · exact .inl hr
    · exact .inr (hfresh (Nat.eq_zero_of_not_pos hr))
  · rintro _ u ⟨hu, hst', hdisk', hcore'⟩
    exact apart hu (Trans.trans hst hst') h.held (hdisk'.trans hdisk) (hcore'.trans hcore)

theorem wp_emptySlot {n : ℕ} (hn : k + n = slots (s.file dp).size) : wp (emptySlot dp (direntSize * k) n) s (fun off t =>
      off = direntSize * ((List.range' k n).find? fun x => ((s.file dp).entry x).inum = 0).getD (k + n) ∧ t = s) E := by
  induction n generalizing k with
  | zero => exact wp_ret ⟨rfl, rfl⟩
  | succ n ih =>
    rw [emptySlot]
    refine wp_seq (h.wp_readDirent (by omega)) ?_
    rintro de t ⟨rfl, rfl⟩
    rw [List.range'_succ, wp_ite]
    refine ⟨fun h0 => ?_, fun h0 => ?_⟩
    · rw [List.find?_cons_of_pos (by simpa using h0)]
      exact wp_ret ⟨rfl, rfl⟩
    · rw [List.find?_cons_of_neg (by simpa using h0), ← Nat.mul_succ]
      refine wp_mono (ih (by omega)) ?_
      rintro off u ⟨hoff, rfl⟩
      refine ⟨?_, rfl⟩
      rw [hoff]
      congr 2
      omega

theorem written {off : ℕ} {src : List UInt8} (ht : Owned t) (hst : Still s t)
    (hnode : ∀ j, t.node j = onNode (s.icache dp).inum (Node.write off src) j (s.node j))
    (hsize : ((s.file dp).write off src).size = direntSize * slots ((s.file dp).write off src).size)
    (hdistinct : ((s.file dp).write off src).table.Distinct) : IsDirectory dp t ∧ t.file dp = (s.file dp).write off src := by
  have hfile : t.file dp = (s.file dp).write off src := by
    rw [FsState.file, hst.inum, hnode, onNode, if_pos rfl]
    rfl
  refine ⟨⟨ht, by rw [hst.ref]; exact h.held, (hst.valid dp).trans h.valid, ?_, ?_, ?_⟩, hfile⟩
  · rw [hfile]
    exact h.isDir
  · rwa [hfile]
  · rwa [hfile]

end IsDirectory

omit sb in
theorem Node.vacant_cases (a : Node) : (a.vacant < slots a.size ∧ (a.entry a.vacant).inum = 0) ∨
    a.vacant = slots a.size ∧ ∀ k < slots a.size, (a.entry k).inum ≠ 0 := by
  rw [vacant_table]
  refine a.table.vacant_cases.imp (fun h => ⟨h.1, named_eq_none.mp h.2⟩) fun h =>
    ⟨h.1, fun k hk h0 => h.2 k hk (named_eq_none.mpr h0)⟩

omit sb in
theorem Node.size_inserted {a : Node} (hsize : a.size = direntSize * slots a.size) {de : Dirent}
    (hlen : de.bytes.length = direntSize) : (a.insert de).size = a.size + if ∀ k < slots a.size,
    (a.entry k).inum ≠ 0 then direntSize else 0 := by
  rw [size_insert hlen]
  rcases a.vacant_cases with ⟨hv, h0⟩ | ⟨hv, hall⟩
  · rw [if_neg fun hall => hall a.vacant hv h0]
    simp only [direntSize] at hsize ⊢
    omega
  · rw [if_pos hall, hv, ← hsize]
    exact Nat.max_eq_right (Nat.le_add_right _ _)

omit sb in
theorem Node.entries_insert {a : Node} (hsize : a.size = direntSize * slots a.size) {de : Dirent}
    (hlen : de.bytes.length = direntSize) : (a.insert de).size = direntSize * slots (a.insert de).size := by
  have hmul : (a.insert de).size = direntSize * max (slots a.size) (a.vacant + 1) := by
    rw [size_insert hlen, ← Nat.mul_succ, ← Nat.mul_max_mul_left, ← hsize]
  rw [hmul, slots_mul]

inductive LinkFails (dp : Cell) (s : FsState) (name : Name) : Fault → Prop
  | noCell (i : ℕ) : s.names dp name = some i → (∀ c, 0 < (s.icache c).ref ∧ (s.icache c).inum ≠ i) →
      LinkFails dp s name .igetNoInodes
  | locked (c : Cell) (off : ℕ) (t : FsState) : s.names dp name ≠ none → dirlookup dp name s = .ok (some (c, off), t) →
      (t.icache c).lock = true → LinkFails dp s name .deadlock
  | full : s.names dp name = none → (∀ k < slots (s.file dp).size, ((s.file dp).entry k).inum ≠ 0) →
      maxfile * bsize ≤ (s.file dp).size → LinkFails dp s name .dirlink
  | noBlock : s.names dp name = none →
      ¬ s.live.Room (s.icache dp).inum (pointers (direntSize * (s.file dp).vacant) direntSize) →
      LinkFails dp s name .outOfBlocks

def addName (names : Name → Option ℕ) (name : Name) (inum : ℕ) (x : Name) : Option ℕ :=
  if shortName x = shortName name then some inum else names x

def dropName (names : Name → Option ℕ) (name : Name) (x : Name) : Option ℕ :=
  if shortName x = shortName name then none else names x

/-- The zeroing of an entry in `sys_unlink`; the reference to the inode stays with the caller. -/
def removeEntry (dp : Cell) (name : Name) : FsM Bool := do
  match ← dirlookup dp name with
  | none => return false
  | some (_, off) =>
    if (← writei none dp (List.replicate direntSize 0) off) ≠ some direntSize then throw .unlinkWritei
    else return true

namespace IsDirectory

variable (h : IsDirectory dp s)
include h

theorem dirlink_spec {name : Name} {inum : ℕ} (h1 : 1 ≤ inum) (h2 : inum < 2 ^ 16) :
    wp (dirlink dp name inum) s (fun res t => IsDirectory dp t ∧ (res = true ↔ s.names dp name = none) ∧
      t.names dp = (if res then addName (s.names dp) name inum else s.names dp) ∧
      (t.file dp).size = (s.file dp).size +
      (if res = true ∧ ∀ k < slots (s.file dp).size, ((s.file dp).entry k).inum ≠ 0 then direntSize else 0) ∧
      ∀ j, j ≠ (s.icache dp).inum → t.node j = s.node j) (LinkFails dp s name) := by
  rw [dirlink]
  refine wp_seq (wp_self (h.wp_dirlookup name (Q := fun res t => match res with
    | none => s.names dp name = none ∧ t = s
    | some (c, _) => s.names dp name ≠ none ∧ ∀ {E' : Fault → Prop}, ((t.icache c).lock = true → E' .deadlock) →
      wp (iput c) t (fun _ u => Apart dp s u ∧ u.node = s.node) E') (fun hno => ⟨hno, rfl⟩) ?_)) ?_
  · intro k i hk hslot hlook
    refine h.wp_iget (fun hall => .noCell i hlook hall) fun c t hapart hnode hi _ hput => ⟨?_, hput⟩
    rw [hlook]
    simp
  rintro (_ | ⟨c, off⟩) t ⟨hres, hrun⟩
  · obtain ⟨hno, rfl⟩ := hres
    obtain ⟨htype, hsize, -⟩ := h.sound.fields h.held h.valid
    dsimp only
    rw [wp_bind, wp_inode, hsize, wp_bind]
    have hempty := h.wp_emptySlot (E := LinkFails dp t name) (Nat.zero_add (slots (t.file dp).size))
    rw [Nat.mul_zero, Nat.zero_add] at hempty
    refine wp_mono hempty ?_
    rintro off u ⟨hoff, rfl⟩
    obtain rfl : off = direntSize * (u.file dp).vacant := hoff
    have hlen := length_newEntry name inum
    have hdev : (u.file dp).type ≠ tDev := by
      rw [h.isDir]
      decide
    refine wp_seq (h.wp_writei h.held h.valid none (newEntry name inum).bytes hdev fun _ _ hroom =>
      .noBlock hno (by rwa [hlen] at hroom)) ?_
    rw [hlen]
    rintro res t (⟨rfl, rfl, hbad⟩ | ⟨rfl, ht, hst, -, -, hnode⟩)
    · refine (wp_throw _).mpr ?_
      have hmax := h.size_le
      have hentries := h.entries
      change (t.file dp).size < _ ∨ _ at hbad
      rcases (t.file dp).vacant_cases with ⟨hv, -⟩ | ⟨hv, hall⟩
      · simp only [direntSize, maxfile, ndirect, nindirect, bsize] at *
        omega
      · refine .full hno hall ?_
        simp only [direntSize, maxfile, ndirect, nindirect, bsize] at *
        omega
    · have htable := Node.table_insert h.entries h1 h2 name
      have hsize := Node.size_inserted h.entries hlen
      obtain ⟨hdir, hfile⟩ := h.written ht hst hnode (Node.entries_insert h.entries hlen) (by
        change ((u.file dp).insert (newEntry name inum)).table.Distinct
        rw [htable]
        exact h.distinct.insert hno inum)
      refine wp_ret ⟨hdir, by simpa using hno, ?_, ?_, fun j hj => ?_⟩
      · funext x
        rw [if_pos rfl, FsState.names, hfile]
        change ((u.file dp).insert (newEntry name inum)).table.lookup _ = _
        rw [htable, h.distinct.lookup_insert hno]
        rfl
      · rw [hfile]
        change ((u.file dp).insert (newEntry name inum)).size = _
        rw [hsize]
        simp
      · rw [hnode, onNode, if_neg hj]
  · obtain ⟨hsome, hput⟩ := hres
    refine wp_seq (hput fun hl => .locked c off t hsome hrun hl) ?_
    rintro _ u ⟨hapart, hnode⟩
    refine wp_ret ⟨hapart.isDirectory h, by simpa using hsome, ?_, ?_, fun j _ => by rw [hnode]⟩
    · simpa using hapart.names_eq
    · rw [hapart.file_eq]
      simp

theorem removeEntry_spec {name : Name} :
    wp (removeEntry dp name) s (fun res t => IsDirectory dp t ∧ (res = true ↔ s.names dp name ≠ none) ∧
      t.names dp = dropName (s.names dp) name ∧ (t.file dp).size = (s.file dp).size ∧ ∀ j, j ≠ (s.icache dp).inum →
        t.node j = s.node j)
      (fun e => e = .igetNoInodes ∧ ∃ i, s.names dp name = some i ∧ ∀ c, 0 < (s.icache c).ref ∧ (s.icache c).inum ≠ i) := by
  rw [removeEntry, wp_bind]
  refine h.wp_dirlookup name (fun hno => ?_) fun k i hk hslot hlook => ?_
  · refine wp_ret ⟨h, by simp [hno], ?_, rfl, fun _ _ => rfl⟩
    funext x
    unfold dropName
    split_ifs with hx
    · rw [← hno, FsState.names, hx, FsState.names]
    · rfl
  refine h.wp_iget (fun hall => ⟨rfl, i, hlook, hall⟩) fun c t hapart hnode _ _ _ => ?_
  have ht := hapart.isDirectory h
  have hdev : (t.file dp).type ≠ tDev := by
    rw [ht.isDir]
    decide
  have hlen : (List.replicate direntSize (0 : UInt8)).length = direntSize := List.length_replicate
  have hfile := hapart.file_eq
  have hk' : k < slots (t.file dp).size := by rwa [hfile]
  have hle := ht.below hk'
  have hmax := ht.size_le
  have hroom := ht.room_below ht.held ht.valid (direntSize * k) direntSize hle
  refine wp_seq (ht.wp_writei ht.held ht.valid none (List.replicate direntSize 0) hdev fun _ _ hno =>
    absurd (by rwa [hlen]) hno) ?_
  rw [hlen]
  rintro res u (⟨rfl, rfl, hbad⟩ | ⟨rfl, hu, hst, -, -, hnode'⟩)
  · change (u.file dp).size < _ ∨ _ at hbad
    simp only [direntSize, maxfile, ndirect, nindirect, bsize] at *
    omega
  have htable := Node.table_erase ht.entries hk'
  have hsize := Node.size_erase ht.entries hk'
  obtain ⟨hdir, hfile'⟩ := ht.written hu hst hnode' (by
    change ((t.file dp).erase k).size = direntSize * slots ((t.file dp).erase k).size
    rw [hsize]
    exact ht.entries) (by
    change ((t.file dp).erase k).table.Distinct
    rw [htable]
    exact ht.distinct.clear hk')
  refine wp_ret ⟨hdir, by simp [hlook], ?_, ?_, fun j hj => ?_⟩
  · funext x
    rw [FsState.names, hfile']
    change ((t.file dp).erase k).table.lookup _ = _
    rw [htable, hfile, h.distinct.lookup_clear hk hslot]
    rfl
  · rw [hfile', ← hfile]
    exact hsize
  · rw [hnode', onNode, hapart.same, if_neg hj, hnode]

theorem dirlookup_spec (name : Name) :
    wp (dirlookup dp name) s (fun res t => IsDirectory dp t ∧ t.node = s.node ∧ s.names dp name = res.map fun r =>
      (t.icache r.1).inum) (fun e => e = .igetNoInodes ∧ ∃ i, s.names dp name = some i ∧ ∀ c, 0 < (s.icache c).ref ∧
      (s.icache c).inum ≠ i) := by
  refine h.wp_dirlookup name (fun hno => ⟨h, rfl, hno⟩) fun k i _ _ hlook => ?_
  refine h.wp_iget (fun hall => ⟨rfl, i, hlook, hall⟩) fun c t hapart hnode hi _ _ => ⟨hapart.isDirectory h, hnode, ?_⟩
  rw [hlook, Option.map_some, hi]

end IsDirectory

inductive DirOp
  | link (name : Name) (inum : ℕ)
  | remove (name : Name)

namespace DirOp

def Valid : DirOp → Prop
  | link _ inum => 1 ≤ inum ∧ inum < 2 ^ 16
  | remove _ => True

def perform (dp : Cell) : DirOp → FsM Bool
  | link name inum => dirlink dp name inum
  | remove name => removeEntry dp name

def effect (names : Name → Option ℕ) : DirOp → Bool × (Name → Option ℕ)
  | link name inum => if names name = none then (true, addName names name inum) else (false, names)
  | remove name => (names name ≠ none, dropName names name)

end DirOp

/-- Operations on directory `dp` with their answers; in between the
rest of the kernel does what it likes, but leaves it alone. -/
inductive DirRun (dp : Cell) (s : FsState) : List (DirOp × Bool) → FsState → Prop
  | start : DirRun dp s [] s
  | op {ops : List (DirOp × Bool)} {t u : FsState} {o : DirOp} {res : Bool} (hrun : DirRun dp s ops t) (hvalid : o.Valid)
      (hstep : o.perform dp t = .ok (res, u)) : DirRun dp s (ops ++ [(o, res)]) u
  | other {ops : List (DirOp × Bool)} {t u : FsState} (hrun : DirRun dp s ops t) (hapart : Apart dp t u) : DirRun dp s ops u

def play (names : Name → Option ℕ) : List DirOp → List Bool × (Name → Option ℕ)
  | [] => ([], names)
  | o :: os => ((o.effect names).1 :: (play (o.effect names).2 os).1, (play (o.effect names).2 os).2)

omit sb in
theorem play_append (names : Name → Option ℕ) (os : List DirOp) (o : DirOp) :
    play names (os ++ [o]) = ((play names os).1 ++ [(o.effect (play names os).2).1], (o.effect (play names os).2).2) := by
  induction os generalizing names with
  | nil => rfl
  | cons o' os ih => simp [play, ih]

theorem IsDirectory.perform_spec (h : IsDirectory dp s) {o : DirOp} (hvalid : o.Valid) {res : Bool}
    (hstep : o.perform dp s = .ok (res, t)) : IsDirectory dp t ∧ (res, t.names dp) = o.effect (s.names dp) := by
  cases o with
  | link name inum =>
    obtain ⟨hdir, hres, hnames, -⟩ := wp_ok (h.dirlink_spec hvalid.1 hvalid.2) hstep
    refine ⟨hdir, ?_⟩
    rw [hnames, DirOp.effect]
    cases res with
    | true => rw [if_pos (hres.mp rfl), if_pos rfl]
    | false =>
      have hsome : s.names dp name ≠ none := by simpa using hres
      rw [if_neg hsome, if_neg (by simp)]
  | remove name =>
    obtain ⟨hdir, hres, hnames, -⟩ := wp_ok h.removeEntry_spec hstep
    refine ⟨hdir, ?_⟩
    congr 1
    rw [Bool.eq_iff_iff, hres, decide_eq_true_iff]

theorem DirRun.isDirectory {ops : List (DirOp × Bool)} (h : IsDirectory dp s) (hrun : DirRun dp s ops t) :
    IsDirectory dp t ∧ play (s.names dp) (ops.map Prod.fst) = (ops.map Prod.snd, t.names dp) := by
  induction hrun with
  | start => exact ⟨h, rfl⟩
  | op _ hvalid hstep ih =>
    obtain ⟨hdir, heffect⟩ := ih.1.perform_spec hvalid hstep
    refine ⟨hdir, ?_⟩
    rw [List.map_append, List.map_cons, List.map_nil, play_append, ih.2, ← heffect, List.map_append]
    rfl
  | other _ hapart ih =>
    refine ⟨hapart.isDirectory ih.1, ?_⟩
    rw [ih.2, hapart.names_eq]

theorem directory_is_finite_map {ops : List (DirOp × Bool)} (h : IsDirectory dp s) (hrun : DirRun dp s ops t) :
    (∀ j k, j < slots (t.file dp).size → k < slots (t.file dp).size → ((t.file dp).entry j).inum ≠ 0 →
    ((t.file dp).entry k).inum ≠ 0 →
      namecmp ((t.file dp).entry j).name ((t.file dp).entry k).name = true → j = k) ∧
    play (s.names dp) (ops.map Prod.fst) = (ops.map Prod.snd, t.names dp) ∧
    (∀ name, wp (dirlookup dp name) t (fun res u => u.node = t.node ∧ t.names dp name = res.map fun r => (u.icache r.1).inum)
      (fun e => e = .igetNoInodes ∧ ∃ i, t.names dp name = some i ∧ ∀ c, 0 < (t.icache c).ref ∧ (t.icache c).inum ≠ i)) ∧
    (∀ name inum, 1 ≤ inum → inum < 2 ^ 16 → wp (dirlink dp name inum) t (fun res u =>
      (res = true ↔ ∀ k < slots (t.file dp).size, ((t.file dp).entry k).inum ≠ 0 →
      namecmp name ((t.file dp).entry k).name = false) ∧
      u.names dp = (if res then addName (t.names dp) name inum else t.names dp) ∧
      (u.file dp).size = (t.file dp).size +
      (if res = true ∧ ∀ k < slots (t.file dp).size, ((t.file dp).entry k).inum ≠ 0 then direntSize else 0))
      (LinkFails dp t name)) ∧
    ∀ name, wp (removeEntry dp name) t (fun res u => (res = true ↔ t.names dp name ≠ none) ∧
      u.names dp = dropName (t.names dp) name ∧ (u.file dp).size = (t.file dp).size)
      (fun e => e = .igetNoInodes ∧ ∃ i, t.names dp name = some i ∧ ∀ c, 0 < (t.icache c).ref ∧ (t.icache c).inum ≠ i) := by
  obtain ⟨ht, hplay⟩ := hrun.isDirectory h
  refine ⟨Node.distinct_iff.mp ht.distinct, hplay, fun name => ?_, fun name inum h1 h2 => ?_, fun name => ?_⟩
  · exact wp_mono (ht.dirlookup_spec name) fun _ _ hres => hres.2
  · refine wp_mono (ht.dirlink_spec h1 h2) fun res u hres => ⟨?_, hres.2.2.1, hres.2.2.2.1⟩
    rw [hres.2.1]
    exact Node.lookup_eq_none
  · exact wp_mono ht.removeEntry_spec fun _ _ hres => ⟨hres.2.1, hres.2.2.1, hres.2.2.2.1⟩

end state

theorem file_lone : (lone tDir).file 0 = ⟨tDir, 0, 0, 1, 0, (lone tDir).live.byte 1⟩ := by
  rfl

theorem isDirectory_lone : IsDirectory 0 (lone tDir) where
  toOwned := owned_lone (by decide) (by decide)
  held := by decide
  valid := rfl
  isDir := by rw [file_lone]
  entries := by rw [file_lone]; rfl
  distinct := by
    intro j k x v w hj
    exact absurd hj (Nat.not_lt_zero j)

theorem directory_is_finite_map_removal :
    ∃ t, DirRun 0 (lone tDir) [(.link [97] 5, true), (.link [98] 6, true), (.link [97] 7, false), (.remove [97], true)] t ∧
      t.names 0 [97] = none ∧ t.names 0 [98] = some 6 := by
  have hend : ((do
      let r1 ← dirlink 0 [97] 5
      let r2 ← dirlink 0 [98] 6
      let r3 ← dirlink 0 [97] 7
      let r4 ← removeEntry 0 [97]
      return (r1, r2, r3, r4)) (lone tDir)).toOption.map Prod.fst = some (true, true, false, true) := by decide +kernel
  obtain ⟨⟨rs, t⟩, hrun, hrs⟩ := Option.map_eq_some_iff.mp hend
  obtain ⟨r1, t1, h1, hrun⟩ := bind_eq_ok.mp (toOption_eq_some.mp hrun)
  obtain ⟨r2, t2, h2, hrun⟩ := bind_eq_ok.mp hrun
  obtain ⟨r3, t3, h3, hrun⟩ := bind_eq_ok.mp hrun
  obtain ⟨r4, t4, h4, hrun⟩ := bind_eq_ok.mp hrun
  cases hrun
  cases hrs
  have hdir : DirRun 0 (lone tDir) [(.link [97] 5, true), (.link [98] 6, true), (.link [97] 7, false),
    (.remove [97], true)] t := .op (o := .remove [97])
    (.op (o := .link [97] 7) (.op (o := .link [98] 6) (.op (o := .link [97] 5) .start ⟨by decide, by decide⟩ h1)
    ⟨by decide, by decide⟩ h2) ⟨by decide, by decide⟩ h3) trivial h4
  have hnone : (lone tDir).names 0 = fun _ => none := by
    funext x
    exact Node.lookup_eq_none.mpr fun k hk => absurd hk (Nat.not_lt_zero k)
  obtain ⟨-, hplay, -⟩ := directory_is_finite_map isDirectory_lone hdir
  rw [hnone] at hplay
  have hnames := congrArg Prod.snd hplay
  exact ⟨t, hdir, (congrFun hnames [97]).symm.trans (by decide), (congrFun hnames [98]).symm.trans (by decide)⟩

end Laboratorio.Fs
