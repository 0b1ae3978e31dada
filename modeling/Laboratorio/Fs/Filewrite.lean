import Laboratorio.Fs.Balance
import Laboratorio.Fs.ByteArray
import Laboratorio.Fs.Operations

namespace Laboratorio.Fs

open Bytes Function

namespace Node

variable {a : Node} {off : ℕ}

theorem write_nil (h : off ≤ a.size) : a.write off [] = a := by
  rw [write, put_nil, List.length_nil, Nat.add_zero, Nat.max_eq_left h]

theorem write_write (src : List UInt8) {n : ℕ} (hn : n ≤ src.length) :
    (a.write off (src.take n)).write (off + n) (src.drop n) = a.write off src := by
  have hput := congrArg bytes (a.put_put off src hn)
  have hsize : max (max a.size (off + (src.take n).length)) (off + n + (src.drop n).length) =
    max a.size (off + src.length) := by
    rw [List.length_take, List.length_drop]
    omega
  exact Node.ext rfl rfl rfl rfl hsize hput

end Node

section state

variable [sb : Superblock] {s t : FsState} {c : Cell} {i : ℕ}

theorem Volume.Room.mono {v : Volume} {P P' : Finset ℕ} (h : v.Room i P) (hP : P' ⊆ P) : v.Room i P' :=
  (Finset.card_le_card (Finset.filter_subset_filter _ hP)).trans h

def Mode.sparse : Mode := ⟨False, False, True, False, fun h => absurd trivial h⟩

abbrev Steady (s t : FsState) : Prop := Sound .sparse (fun _ => 0) (fun c => (s.icache c).ref) (fun c => (s.icache c).lock) t

theorem Laid.steady (h : Laid s) : Steady s s := h.sound False.elim

theorem Sound.steady {r : Cell → ℕ} {l : Cell → Bool} (h : Sound .sparse (fun _ => 0) r l s) : Steady s s := by
  have hr : (fun c => (s.icache c).ref) = r := funext h.ref
  have hl : (fun c => (s.icache c).lock) = l := funext h.lock
  rw [Steady, hr, hl]
  exact h

structure Regular (i : ℕ) (c : Cell) (s : FsState) : Prop where
  steady : Steady s s
  held : 0 < (s.icache c).ref
  free : (s.icache c).lock = false
  inum : (s.icache c).inum = i
  type : (s.node i).type = tFile

theorem Regular.event (h : Regular i c s) (e : Event) : Regular i c (s.event e) :=
  ⟨h.steady.event e, h.held, h.free, h.inum, h.type⟩

theorem Regular.lt (h : Regular i c s) : i < ninodes := by
  have htype := h.type
  rw [← h.inum] at htype ⊢
  cases hv : (s.icache c).valid with
  | true => exact h.steady.inum_lt c h.held (.inr hv)
  | false =>
    by_contra hge
    have hcore : s.core (s.icache c).inum = Dinode.zero := (h.steady.core_eq_table h.held hv).trans (if_neg hge)
    have hzero : (s.node (s.icache c).inum).type = 0 := congrArg Dinode.type hcore
    rw [hzero] at htype
    cases htype

theorem wp_locked_writei {off : ℕ} {src : List UInt8} {dev : Option ℕ} {Q : Option ℕ → FsState → Prop} {E : Fault → Prop}
    (h : Regular i c s) (hroom : off ≤ (s.node i).size → off + src.length ≤ maxfile * bsize →
    s.live.Room i (pointers off src.length))
    (hbad : ∀ v, Regular i c v → v.node = s.node → (s.node i).size < off ∨ maxfile * bsize < off + src.length → Q none v)
    (hok : ∀ v, Regular i c v → off ≤ (s.node i).size → off + src.length ≤ maxfile * bsize →
      (∀ j, v.node j = onNode i (Node.write off src) j (s.node j)) →
      (∀ P, pointers off src.length ⊆ P → s.live.Room i P → v.live.Room i P) → Q (some src.length) v) :
    wp (ilock c) s (fun _ t => wp (writei dev c src off) t (fun res u => wp (iunlock c) u (fun _ v => Q res v) E) E) E := by
  have hi := h.inum
  have hend : ∀ {u v : FsState}, (u.icache c).inum = i → (u.node i).type = tFile → Steady s v →
    Stays (fun c => (s.icache c).ref) u v → u.core = v.core → u.disk = v.disk → Regular i c v ∧ v.live = u.live := by
    intro u v hiu hty hv hst hcore hdisk
    have hlive : v.live = u.live := FsState.live_congr hcore.symm (by rw [hdisk])
    refine ⟨⟨hv.steady, ?_, ?_, (hst c h.held).2.1.trans hiu, ?_⟩, hlive⟩
    · rw [hv.ref]
      exact h.held
    · rw [hv.lock]
      exact h.free
    · rw [FsState.node, hlive]
      exact hty
  apply wp_mono (sound_ilock h.steady h.held (fun hl => absurd (h.free.symm.trans hl) (by decide))
    (by rw [hi]; exact h.lt) fun h0 => ?_)
  · rintro _ t ⟨-, ht, hv, hst, hdisk, hcore⟩
    have hlive : t.live = s.live := FsState.live_congr hcore (by rw [hdisk])
    have hnode : t.node = s.node := by
      funext j
      rw [FsState.node, FsState.node, hlive]
    have hit : (t.icache c).inum = i := (hst c h.held).2.1.trans hi
    have hty : (t.node i).type = tFile := by rw [hnode, h.type]
    apply wp_mono (sound_writei ht id h.held hv dev src off (by rw [hit, hty]; decide) fun h1 h2 hno => ?_)
    · rintro res u (⟨rfl, rfl, hno⟩ | ⟨rfl, hu, hstill, hoff, hmax, hwrote, hkeep⟩)
      · apply wp_mono (sound_iunlock ht h.held h.free)
        rintro _ v ⟨hv, hst', hdisk', hcore'⟩
        obtain ⟨hreg, hlive'⟩ := hend hit hty hv hst' hcore'.symm hdisk'.symm
        apply hbad v hreg
        · funext j
          rw [FsState.node, hlive', hlive]
          rfl
        · rw [hit, hnode] at hno
          rcases hno with hno | hno | hno
          · exact .inl hno
          · right
            simp only [maxfile, ndirect, nindirect, bsize]
            omega
          · exact .inr hno
      · apply wp_mono (sound_iunlock hu h.held h.free)
        rintro _ v ⟨hv, hst', hdisk', hcore'⟩
        rw [hit, hnode] at hoff hwrote
        rw [KeepsRoom, hit, hlive] at hkeep
        have hty' : (u.node i).type = tFile := by
          rw [hwrote, onNode, if_pos rfl]
          exact h.type
        obtain ⟨hreg, hlive'⟩ := hend ((hstill.inum c).trans hit) hty' hv hst' hcore'.symm hdisk'.symm
        apply hok v hreg hoff hmax
        · intro j
          rw [← hwrote, FsState.node, hlive']
          rfl
        · rw [hlive']
          exact hkeep
    · rw [hit, hnode] at h1
      rw [hit, hlive] at hno
      exact absurd (hroom h1 h2) hno
  · have hty := h.type
    have hzero : (s.node i).type = 0 := by
      rw [hi] at h0
      exact h0
    rw [hzero] at hty
    cases hty

structure Progress (i off n : ℕ) (src : List UInt8) (f : FileId) (k k' : Kernel) : Prop where
  le : n ≤ src.length
  moved : (k'.ftable f).off = off + n
  node : ∀ j, k'.fs.node j = onNode i (Node.write off (src.take n)) j (k.fs.node j)
  fits : 0 < n → off + min src.length maxWrite ≤ maxfile * bsize ∧ off + n ≤ maxfile * bsize
  stop : n < src.length → maxfile * bsize < off + n + min (src.length - n) maxWrite

structure Kept (i n : ℕ) (c : Cell) (src : List UInt8) (P : Finset ℕ) (f : FileId) (k k' : Kernel) : Prop where
  regular : Regular i c k'.fs
  room : n = src.length → k'.fs.live.Room i P
  ofile : k'.ofile = k.ofile
  file : k'.ftable f = { k.ftable f with off := (k'.ftable f).off }

section loop

variable {f : FileId} {i off fuel : ℕ} {src : List UInt8} {other : Option ℕ} {k k' : Kernel}

theorem Progress.zero (hle : off ≤ (k.fs.node i).size) (hoff : (k'.ftable f).off = off) (hnode : k'.fs.node = k.fs.node)
    (hstop : 0 < src.length → maxfile * bsize < off + min src.length maxWrite) : Progress i off 0 src f k k' := by
  refine ⟨Nat.zero_le _, hoff, fun j => ?_, fun h0 => absurd h0 (Nat.lt_irrefl 0), hstop⟩
  rw [hnode, List.take_zero, onNode]
  split_ifs with hj
  · rw [hj, Node.write_nil hle]
  · rfl

theorem Progress.chunk {k₁ : Kernel} {m n : ℕ} (hm : m = min src.length maxWrite) (hmax : off + m ≤ maxfile * bsize)
    (hnode : ∀ j, k₁.fs.node j = onNode i (Node.write off (src.take m)) j (k.fs.node j))
    (h : Progress i (off + m) n (src.drop m) f k₁ k') : Progress i off (m + n) src f k k' := by
  have hlen : (src.drop m).length = src.length - m := List.length_drop
  have hle := h.le
  refine ⟨by omega, by rw [h.moved, Nat.add_assoc], fun j => ?_, fun _ => ⟨by omega, ?_⟩, fun hlt => ?_⟩
  · have hdrop : (src.drop m).take n = (src.take (m + n)).drop m := by rw [List.drop_take, Nat.add_sub_cancel_left]
    have htake : src.take m = (src.take (m + n)).take m := by rw [List.take_take, Nat.min_eq_left (Nat.le_add_right m n)]
    rw [h.node, hnode, hdrop, htake]
    unfold onNode
    split_ifs with hj
    · rw [Node.write_write]
      rw [List.length_take]
      omega
    · rfl
  · by_cases hn : 0 < n
    · have hfits := (h.fits hn).2
      omega
    · omega
  · have hstop := h.stop (by omega)
    omega

theorem wp_filewriteLoop {P : Finset ℕ} {E : Fault → Prop} (h : Regular i c k.fs) (hfuel : src.length ≤ fuel)
    (hoff : (k.ftable f).off = off) (h32 : off < 2 ^ 32) (hle : off ≤ (k.fs.node i).size) (hroom : k.fs.live.Room i P)
    (hP : ∀ x, off ≤ x → x < off + src.length → x < maxfile * bsize → pointersTo (x / bsize) ⊆ P) :
    wp (filewriteLoop f c other fuel src) k (fun n k' => Progress i off n src f k k' ∧ Kept i n c src P f k k') E := by
  induction fuel generalizing k src off with
  | zero => exact wp_ret ⟨.zero hle hoff rfl fun h0 => absurd h0 (by omega), h, fun _ => hroom, rfl, rfl⟩
  | succ fuel ih =>
    rw [filewriteLoop, wp_ite]
    refine ⟨fun hsrc => wp_ret ⟨.zero hle hoff rfl fun h0 => absurd h0 (by simp [hsrc]), h, fun _ => hroom,
      rfl, rfl⟩, fun hsrc => ?_⟩
    obtain ⟨m, hm⟩ : ∃ m, m = min src.length maxWrite := ⟨_, rfl⟩
    have hpos : 0 < m := by
      have hlen : 0 < src.length := List.length_pos_of_ne_nil hsrc
      rw [hm]
      exact Nat.lt_min.mpr ⟨hlen, by decide⟩
    have hlen : (src.take m).length = m := by
      rw [List.length_take]
      omega
    have hchunk : off + m ≤ maxfile * bsize → pointers off (src.take m).length ⊆ P := by
      intro hmax
      rw [hlen, pointers, Finset.biUnion_subset]
      intro x hx
      obtain ⟨h1, h2⟩ := Finset.mem_Ico.mp hx
      exact hP x h1 (by omega) (by omega)
    simp only [wp_bind, wp_onFs, wp_beginOp, wp_endOp, wp_get, addOff, wp_modify, Kernel.setFile, ← hm, hoff]
    apply wp_locked_writei (h.event .beginOp)
    · intro _ hmax
      rw [hlen] at hmax
      exact hroom.mono (hchunk hmax)
    · intro v hreg hnode hno
      apply wp_ret
      refine ⟨Progress.zero hle ?_ ?_ ?_, hreg.event .endOp,
        fun h0 => absurd h0.symm (List.length_pos_of_ne_nil hsrc).ne', rfl, by simp⟩
      · simp only [update_self, Option.getD_none, Nat.add_zero]
        exact Nat.mod_eq_of_lt h32
      · exact hnode
      · intro _
        rw [hlen] at hno
        rw [← hm]
        exact hno.resolve_left (Nat.not_lt.mpr hle)
    · intro v hreg _ hmax hnode hkeep
      rw [hlen] at hmax
      have hlt : off + m < 2 ^ 32 := Nat.lt_of_le_of_lt hmax (by decide)
      rw [hlen] at hkeep ⊢
      dsimp only
      rw [if_neg (not_not.mpr rfl), wp_bind]
      have hself : v.node i = (k.fs.node i).write off (src.take m) := by
        rw [hnode, onNode, if_pos rfl]
        rfl
      have hgrown : off + m ≤ (v.node i).size := by
        rw [hself]
        change off + m ≤ max _ (off + (src.take m).length)
        rw [hlen]
        exact Nat.le_max_right _ _
      have hdrop : (src.drop m).length = src.length - m := List.length_drop
      have hmod : (off + m) % 2 ^ 32 = off + m := Nat.mod_eq_of_lt hlt
      rw [Option.getD_some, hmod]
      have hrest := @ih (off + m) (src.drop m) { k with
        fs := v.event .endOp, ftable := update k.ftable f { k.ftable f with off := off + m } } (hreg.event .endOp) (by omega)
        (by simp) hlt hgrown (hkeep P (by rw [← hlen]; exact hchunk hmax) hroom) fun x h1 h2 h3 => hP x (by omega) (by omega) h3
      apply wp_mono hrest
      rintro n k' ⟨hp, hkept⟩
      have hfile := hkept.file
      simp only [update_self] at hfile
      exact wp_ret ⟨hp.chunk hm hmax hnode, hkept.regular, fun hn => hkept.room (by omega), hkept.ofile, hfile⟩

theorem wp_filewriteLoop_beyond {E : Fault → Prop} (h : Regular i c k.fs) (hoff : (k.ftable f).off = off) (h32 : off < 2 ^ 32)
    (hgt : (k.fs.node i).size < off) :
    wp (filewriteLoop f c other fuel src) k (fun n k' => n = 0 ∧ (k'.ftable f).off = off ∧ k'.fs.node = k.fs.node) E := by
  cases fuel with
  | zero => exact wp_ret ⟨rfl, hoff, rfl⟩
  | succ fuel =>
    rw [filewriteLoop, wp_ite]
    refine ⟨fun _ => wp_ret ⟨rfl, hoff, rfl⟩, fun _ => ?_⟩
    simp only [wp_bind, wp_onFs, wp_beginOp, wp_endOp, wp_get, addOff, wp_modify, Kernel.setFile, hoff]
    apply wp_locked_writei (h.event .beginOp)
    · intro hle _
      exact absurd hle (Nat.not_le.mpr hgt)
    · intro v _ hnode _
      apply wp_ret
      refine ⟨rfl, ?_, hnode⟩
      simp only [update_self, Option.getD_none, Nat.add_zero]
      exact Nat.mod_eq_of_lt h32
    · intro v _ hle _ _ _
      exact absurd hle (Nat.not_le.mpr hgt)

end loop

def writeOnce (dev : Option ℕ) (c : Cell) (src : List UInt8) (off : ℕ) : FsM (Option ℕ) := do
  ilock c
  let r ← writei dev c src off
  iunlock c
  return r

def AllOrNothing (f : FileId) (c : Cell) (src : List UInt8) (other : Option ℕ) (k : Kernel) (r : Option ℕ)
    (k' : Kernel) : Prop :=
  (r = some src.length ∧ (∃ res t, writeOnce other c src (k.ftable f).off k.fs = .ok (res, t) ∧ ∀ j, k'.fs.node j = t.node j) ∧
    (k'.ftable f).off = (k.ftable f).off + src.length) ∨
  (r = none ∧ (∀ j, k'.fs.node j = k.fs.node j) ∧ (k'.ftable f).off = (k.ftable f).off)

section filewrite

variable {f : FileId} {src : List UInt8} (other : Option ℕ) {k : Kernel}

theorem filewrite_of_loop {n : ℕ} {k' : Kernel} (hw : (k.ftable f).writable = true) (htype : (k.ftable f).type = .inode c)
    (hrun : filewriteLoop f c other src.length src k = .ok (n, k')) :
    filewrite f src other k = .ok (if n = src.length then some n else none, k') := by
  have hget : (get : KernelM Kernel) k = .ok (k, k) := rfl
  rw [filewrite, bind_of_ok hget]
  simp only [hw, htype, Bool.true_eq_false, if_false]
  exact bind_of_ok hrun

theorem filewrite_progress (h : Regular i c k.fs) (hw : (k.ftable f).writable = true) (htype : (k.ftable f).type = .inode c)
    (h32 : (k.ftable f).off < 2 ^ 32) (hle : (k.ftable f).off ≤ (k.fs.node i).size)
    (hroom : k.fs.live.Room i (pointers (k.ftable f).off (min src.length (maxfile * bsize - (k.ftable f).off)))) :
    ∃ n k', filewrite f src other k = .ok (if n = src.length then some n else none, k') ∧
      Progress i (k.ftable f).off n src f k k' := by
  have hP : ∀ x, (k.ftable f).off ≤ x → x < (k.ftable f).off + src.length → x < maxfile * bsize →
      pointersTo (x / bsize) ⊆ pointers (k.ftable f).off (min src.length (maxfile * bsize - (k.ftable f).off)) :=
    fun x h1 h2 h3 => pointersTo_subset h1 (by omega)
  obtain ⟨n, k', hrun, hp, -⟩ := exists_of_wp (wp_filewriteLoop h le_rfl rfl h32 hle hroom hP)
  exact ⟨n, k', filewrite_of_loop other hw htype hrun, hp⟩

theorem wp_writeOnce (src : List UInt8) (off : ℕ) (h : Regular i c k.fs)
    (hroom : off ≤ (k.fs.node i).size → off + src.length ≤ maxfile * bsize → k.fs.live.Room i (pointers off src.length)) :
    ∃ res t, writeOnce other c src off k.fs = .ok (res, t) ∧
      ((k.fs.node i).size < off ∨ maxfile * bsize < off + src.length → t.node = k.fs.node) ∧
      (off ≤ (k.fs.node i).size → off + src.length ≤ maxfile * bsize → ∀ j, t.node j = onNode i (Node.write off src) j
      (k.fs.node j)) := by
  have hwp : wp (writeOnce other c src off) k.fs (fun _ t => ((k.fs.node i).size < off ∨ maxfile * bsize < off + src.length →
    t.node = k.fs.node) ∧ (off ≤ (k.fs.node i).size → off + src.length ≤ maxfile * bsize → ∀ j,
    t.node j = onNode i (Node.write off src) j (k.fs.node j))) fun _ => False := by
    simp only [writeOnce, wp_bind, wp_pure]
    apply wp_locked_writei h hroom
    · intro v _ hnode hno
      exact ⟨fun _ => hnode, fun h1 h2 => absurd hno (by omega)⟩
    · intro v _ h1 h2 hnode _
      exact ⟨fun hno => absurd hno (by omega), fun _ _ => hnode⟩
  exact exists_of_wp hwp

section outcome

variable {i : ℕ} (h : Regular i c k.fs) (hw : (k.ftable f).writable = true) (htype : (k.ftable f).type = .inode c)
  (h32 : (k.ftable f).off < 2 ^ 32)
  (hroom : (k.ftable f).off ≤ (k.fs.node i).size →
    k.fs.live.Room i (pointers (k.ftable f).off (min src.length (maxfile * bsize - (k.ftable f).off))))
include h hw htype h32 hroom

theorem filewrite_partial (hle : (k.ftable f).off ≤ (k.fs.node i).size)
    (hfirst : (k.ftable f).off + min src.length maxWrite ≤ maxfile * bsize)
    (hlast : maxfile * bsize < (k.ftable f).off + src.length) :
    ∃ n k', 0 < n ∧ filewrite f src other k = .ok (none, k') ∧ Progress i (k.ftable f).off n src f k k' := by
  obtain ⟨n, k', hrun, hp⟩ := filewrite_progress other h hw htype h32 hle (hroom hle)
  have hlt : n < src.length := by
    by_contra hge
    have hfits := hp.fits (by omega)
    omega
  have hpos : 0 < n := by
    have hstop := hp.stop hlt
    omega
  rw [if_neg hlt.ne] at hrun
  exact ⟨n, k', hpos, hrun, hp⟩

theorem filewrite_whole (hgood : ¬ ((k.ftable f).off ≤ (k.fs.node i).size ∧
    (k.ftable f).off + min src.length maxWrite ≤ maxfile * bsize ∧
    maxfile * bsize < (k.ftable f).off + src.length)) : ∃ r k', filewrite f src other k = .ok (r, k') ∧
      AllOrNothing f c src other k r k' := by
  obtain ⟨res, t, honce, hsame, hwrote⟩ := wp_writeOnce other src (k.ftable f).off h fun h1 h2 => by
    have hr := hroom h1
    rwa [Nat.min_eq_left (by omega)] at hr
  by_cases hle : (k.ftable f).off ≤ (k.fs.node i).size
  · obtain ⟨n, k', hrun, hp⟩ := filewrite_progress other h hw htype h32 hle (hroom hle)
    have hle' := hp.le
    have hzero : n = 0 → ∀ j, k'.fs.node j = k.fs.node j := by
      rintro rfl j
      rw [hp.node, List.take_zero, onNode]
      split_ifs with hj
      · rw [hj, Node.write_nil hle]
      · rfl
    refine ⟨_, k', hrun, ?_⟩
    by_cases hn : n = src.length
    · refine .inl ⟨by rw [if_pos hn, hn], ⟨res, t, honce, fun j => ?_⟩, by rw [hp.moved, hn]⟩
      by_cases hmax : (k.ftable f).off + src.length ≤ maxfile * bsize
      · rw [hp.node, hn, List.take_length, hwrote hle hmax]
      · have h0 : n = 0 := by
          by_contra hpos
          have hfits := hp.fits (by omega)
          omega
        rw [hzero h0, hsame (.inr (by omega))]
    · have h0 : n = 0 := by
        by_contra hpos
        have hfits := hp.fits (by omega)
        have hstop := hp.stop (by omega)
        omega
      exact .inr ⟨if_neg hn, hzero h0, by rw [hp.moved, h0, Nat.add_zero]⟩
  · have hgt : (k.fs.node i).size < (k.ftable f).off := by omega
    have hloop : wp (filewriteLoop f c other src.length src) k (fun n k' => n = 0 ∧ (k'.ftable f).off = (k.ftable f).off ∧
      k'.fs.node = k.fs.node) fun _ => False := wp_filewriteLoop_beyond h rfl h32 hgt
    obtain ⟨n, k', hrun, rfl, hoff, hnode⟩ := exists_of_wp hloop
    refine ⟨_, k', filewrite_of_loop other hw htype hrun, ?_⟩
    by_cases hn : 0 = src.length
    · refine .inl ⟨by rw [if_pos hn, hn], ⟨res, t, honce, fun j => ?_⟩, by rw [hoff, ← hn, Nat.add_zero]⟩
      rw [hnode, hsame (.inl hgt)]
    · refine .inr ⟨if_neg hn, fun j => ?_, hoff⟩
      rw [hnode]

end outcome

theorem filewrite_all_or_nothing_iff (h : Laid k.fs) (hw : (k.ftable f).writable = true) (htype : (k.ftable f).type = .inode c)
    (hheld : 0 < (k.fs.icache c).ref) (hfree : (k.fs.icache c).lock = false)
    (hreg : (k.fs.node (k.fs.icache c).inum).type = tFile) (h32 : (k.ftable f).off < 2 ^ 32)
    (hroom : (k.ftable f).off ≤ (k.fs.node (k.fs.icache c).inum).size →
      k.fs.live.Room (k.fs.icache c).inum (pointers (k.ftable f).off (min src.length (maxfile * bsize - (k.ftable f).off)))) :
    (∃ r k', filewrite f src other k = .ok (r, k') ∧ AllOrNothing f c src other k r k') ↔
      ¬ ((k.ftable f).off ≤ (k.fs.node (k.fs.icache c).inum).size ∧
        (k.ftable f).off + min src.length maxWrite ≤ maxfile * bsize ∧ maxfile * bsize < (k.ftable f).off + src.length) := by
  have hreg' : Regular (k.fs.icache c).inum c k.fs := ⟨h.steady, hheld, hfree, rfl, hreg⟩
  refine ⟨?_, filewrite_whole other hreg' hw htype h32 hroom⟩
  rintro ⟨r, k', hrun, hall⟩ ⟨hle, hfirst, hlast⟩
  obtain ⟨n, k'', hpos, hrun', hp⟩ := filewrite_partial other hreg' hw htype h32 hroom hle hfirst hlast
  rw [hrun'] at hrun
  cases hrun
  rcases hall with ⟨hr, -⟩ | ⟨-, -, hoff⟩
  · cases hr
  · rw [hp.moved] at hoff
    omega

end filewrite

end state

def loneKernel : Kernel where
  fs := lone tFile
  ftable := fun _ => ⟨.inode 0, 1, true, true, 0⟩
  ofile := fun _ _ => none
  cwd := fun _ => none
  pipes := fun _ => none
  ptable := ⟨fun _ => Procs.bssProc, 1⟩
  initproc := 0

theorem loneKernel_laid : Laid loneKernel.fs := (show Owned (lone tFile) from owned_lone (by decide) (by decide)).toLaid

theorem loneKernel_node : (loneKernel.fs.node 1).type = tFile ∧ (loneKernel.fs.node 1).size = 0 := by
  have hcore : loneKernel.fs.core 1 = { Dinode.zero with type := tFile, nlink := 1 } := (core_lone 1).trans (if_pos rfl)
  exact ⟨congrArg Dinode.type hcore, congrArg Dinode.size hcore⟩

theorem loneKernel_room (n : ℕ) : loneKernel.fs.live.Room 1 (pointers 0 (min n (maxfile * bsize - 0))) := by
  have hall : ∀ q < 140, pointersTo q ⊆ Finset.range 141 := by decide +kernel
  have hlacks : (loneKernel.fs.live.lacks 1 (pointers 0 (min n (maxfile * bsize - 0)))).card ≤ 141 := by
    rw [← Finset.card_range 141]
    apply Finset.card_le_card
    apply (Finset.filter_subset _ _).trans
    rw [pointers, Finset.biUnion_subset]
    intro x hx
    apply hall
    have hlt := (Finset.mem_Ico.mp hx).2
    simp only [maxfile, ndirect, nindirect, bsize] at hlt ⊢
    omega
  have hunused : 141 ≤ loneKernel.fs.live.unused.card := by
    have hfree : ∀ x ∈ Finset.Ico 64 205, loneKernel.fs.live.used x = false := by decide +kernel
    have hsub : Finset.Ico 64 205 ⊆ loneKernel.fs.live.unused := by
      intro x hx
      refine Finset.mem_filter.mpr ⟨Finset.mem_range.mpr ?_, hfree x hx⟩
      exact (Finset.mem_Ico.mp hx).2.trans (by decide)
    exact (Nat.card_Ico 64 205).symm.le.trans (Finset.card_le_card hsub)
  exact hlacks.trans hunused

theorem filewrite_all_or_nothing_two : ∃ r k', filewrite 0 [104, 105] none loneKernel = .ok (r, k') ∧
    AllOrNothing 0 0 [104, 105] none loneKernel r k' := by
  apply (filewrite_all_or_nothing_iff none loneKernel_laid rfl rfl (by decide) rfl loneKernel_node.1 (by decide) fun _ =>
    loneKernel_room ([104, 105] : List UInt8).length).mpr
  rintro ⟨-, -, hlast⟩
  exact absurd hlast (by decide)

theorem loneKernel_overlong {src : List UInt8} (hlen : src.length = maxfile * bsize + 1) :
    (∃ n k', 0 < n ∧ filewrite 0 src none loneKernel = .ok (none, k') ∧ (k'.ftable 0).off = n ∧ (k'.fs.node 1).size = n) ∧
      ¬ ∃ r k', filewrite 0 src none loneKernel = .ok (r, k') ∧ AllOrNothing 0 0 src none loneKernel r k' := by
  have hreg : Regular 1 0 loneKernel.fs := ⟨loneKernel_laid.steady, by decide, rfl, rfl, loneKernel_node.1⟩
  obtain ⟨n, k', hpos, hrun, hp⟩ := filewrite_partial none (f := 0) hreg rfl rfl (by decide)
    (fun _ => loneKernel_room src.length) (Nat.zero_le _) (by rw [hlen]; decide) (by rw [hlen]; decide)
  have hoff : (k'.ftable 0).off = n := hp.moved.trans (Nat.zero_add n)
  refine ⟨⟨n, k', hpos, hrun, hoff, ?_⟩, ?_⟩
  · have hle := hp.le
    rw [hp.node, onNode, if_pos rfl]
    change max (loneKernel.fs.node 1).size (0 + (src.take n).length) = n
    rw [loneKernel_node.2, List.length_take]
    omega
  · rintro ⟨r, k'', hrun', hall⟩
    rw [hrun] at hrun'
    cases hrun'
    rcases hall with ⟨hr, -⟩ | ⟨-, -, hsame⟩
    · cases hr
    · rw [hoff] at hsame
      exact absurd hsame hpos.ne'

theorem filewrite_cut_short :
    Laid loneKernel.fs ∧ (loneKernel.fs.node 1).type = tFile ∧
      loneKernel.fs.live.Room 1 (pointers 0 (min (maxfile * bsize + 1) (maxfile * bsize - 0))) ∧
      (∃ n k', 0 < n ∧ filewrite 0 (List.replicate (maxfile * bsize + 1) 0) none loneKernel = .ok (none, k') ∧
      (k'.ftable 0).off = n ∧
        (k'.fs.node 1).size = n) ∧ ¬ ∃ r k',
        filewrite 0 (List.replicate (maxfile * bsize + 1) 0) none loneKernel = .ok (r, k') ∧
        AllOrNothing 0 0 (List.replicate (maxfile * bsize + 1) 0) none loneKernel r k' :=
  ⟨loneKernel_laid, loneKernel_node.1, loneKernel_room _, loneKernel_overlong List.length_replicate⟩

end Laboratorio.Fs
