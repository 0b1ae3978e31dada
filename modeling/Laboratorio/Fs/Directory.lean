import Laboratorio.Fs.Calls
import Laboratorio.Fs.Contents

/-!
What `dirlookup`, `isdirempty` and `namex` find, in terms of the nodes.
-/

namespace Laboratorio.Fs

open Bytes Function

def Fault.benign : Fault → Bool
  | .deadlock | .freeingFreeBlock | .ilockNoType => false
  | _ => true

def Benign (E : Fault → Prop) : Prop := ∀ e, e.benign = true → E e

def unlocked : Cell → Bool := fun _ => false

namespace Node

def holds (a : Node) (name : Name) (k : ℕ) : Bool := (a.entry k).inum ≠ 0 && namecmp name (a.entry k).name

def find (a : Node) (name : Name) : Option ℕ := (List.range' 0 (slots a.size)).find? (a.holds name)

def vacant (a : Node) : ℕ := ((List.range' 0 (slots a.size)).find? fun k => (a.entry k).inum = 0).getD (slots a.size)

def isEmpty (a : Node) : Bool := (List.range' 2 (slots a.size - 2)).all fun k => (a.entry k).inum = 0

end Node

def walk (nd : ℕ → Node) (parent : Bool) : ℕ → ℕ → List UInt8 → Name → Option (ℕ × Name)
  | 0, _, _, _ => none
  | fuel + 1, i, path, name =>
    match skipelem path with
    | none => if parent then none else some (i, name)
    | some (name, path) =>
      if (nd i).type ≠ tDir then none
      else if parent ∧ path.headD 0 = 0 then some (i, name)
      else
        match (nd i).find name with
        | none => none
        | some k => walk nd parent fuel ((nd i).entry k).inum path name

def walkFrom (nd : ℕ → Node) (parent : Bool) (cwd : ℕ) (path : List UInt8) : Option (ℕ × Name) :=
  walk nd parent (path.length + 1) (if path.headD 0 = slash then rootino else cwd) path []

def Closed (nd : ℕ → Node) : Prop :=
  ∀ i k, (nd i).type = tDir → k < slots (nd i).size → ((nd i).entry k).inum ≠ 0 → (nd ((nd i).entry k).inum).type ≠ 0

variable {name : Name} {k : ℕ}

theorem Node.find_eq_some {a : Node} (h : a.find name = some k) :
    k < slots a.size ∧ (a.entry k).inum ≠ 0 ∧ namecmp name (a.entry k).name = true := by
  have hholds := List.find?_some h
  have hmem := List.mem_range'_1.mp (List.mem_of_find?_eq_some h)
  simp only [holds, Bool.and_eq_true, decide_eq_true_eq] at hholds
  exact ⟨by omega, hholds.1, hholds.2⟩

variable [sb : Superblock] {m : Mode} {b r : Cell → ℕ} {l : Cell → Bool} {s t : FsState} {c : Cell} {E : Fault → Prop}

omit sb in
theorem wpr_inode {α : Type} {R : FsState → FsState → Prop} {f : Inode → FsM α} {Q : α → FsState → Prop}
    (h : wpr R (f (s.icache c)) s Q E) : wpr R (inode c >>= f) s Q E := (wp_bind _ _).mpr (wp_inode.mpr h)

structure FsState.Smooth (s : FsState) (i k : ℕ) : Prop where
  below : direntSize * k + direntSize ≤ (s.node i).size
  small : (s.node i).size ≤ maxfile * bsize
  mapped : s.live.block i (direntSize * k / bsize) ≠ 0

variable {i : ℕ}

theorem FsState.Smooth.grows (h : s.Smooth i k) (hg : Grows c s t) : t.Smooth i k where
  below := by
    rw [hg.node]
    exact h.below
  small := by
    rw [hg.node]
    exact h.small
  mapped := by
    rw [hg.block i _ h.mapped]
    exact h.mapped

theorem Grows.valid (h : Grows c s t) (hv : (s.icache c).valid = true) : (t.icache c).valid = true := (h.still.valid c).trans hv

theorem Sound.fields (h : Sound m b r l s) (hc : 0 < r c) (hv : (s.icache c).valid = true) :
    (s.icache c).d.type = (s.node (s.icache c).inum).type ∧ (s.icache c).d.size = (s.node (s.icache c).inum).size ∧
      (s.icache c).d.nlink = (s.node (s.icache c).inum).nlink := by
  rw [← h.core_eq_d hc hv]
  exact ⟨rfl, rfl, rfl⟩

section reading

variable {k : ℕ} {e : Fault}

theorem inv_readDirent (h : Inv m b r l s) (hc : 0 < r c) (hv : (s.icache c).valid = true)
    (ht : (s.node (s.icache c).inum).type = tDir) (he : e.benign = true) (hE : s.Smooth (s.icache c).inum k ∨ Benign E) :
    wpr (Reads m r) (readDirent e c (direntSize * k)) s (fun de t => Inv m b r l t ∧ Grows c s t ∧
      de = (s.node (s.icache c).inum).entry k ∧ direntSize * k + direntSize ≤ (s.node (s.icache c).inum).size) E := by
  have hbenign : ¬ s.Smooth (s.icache c).inum k → Benign E := fun hn => hE.resolve_left hn
  have hq : ∀ x, direntSize * k ≤ x → x < direntSize * k + direntSize → x / bsize = direntSize * k / bsize := by
    intro x h1 h2
    simp only [direntSize, bsize] at h1 h2 ⊢
    omega
  refine (inv_readi h hc hv (fun hlt => hbenign (fun hs => absurd hs.small (by omega)) .bmapOutOfRange rfl)
    fun hx => ?_).bind ?_
  · obtain ⟨x, h1, h2, -, h0⟩ := hx
    exact hbenign (fun hs => hs.mapped (hq x h1 h2 ▸ h0)) .outOfBlocks rfl
  rintro a t ⟨hinv, ha, hg⟩
  have htype : (s.node (s.icache c).inum).type ≠ tDev := by
    rw [ht]
    decide
  rw [Node.read, if_neg htype] at ha
  by_cases hbad : direntSize * k > (s.node (s.icache c).inum).size ∨ (direntSize * k + direntSize) % 2 ^ 32 < direntSize * k
  · rw [if_pos hbad] at ha
    subst ha
    refine wpr.fail (hbenign (fun hs => ?_) e he)
    have h1 := hs.below
    have h2 := hs.small
    simp only [direntSize, maxfile, ndirect, nindirect, bsize] at hbad h1 h2
    omega
  · rw [if_neg hbad] at ha
    subst ha
    refine wpr.ite (fun hlen => wpr.ret ⟨hinv, hg, ?_⟩) fun hlen => wpr.fail (hbenign (fun hs => ?_) e he)
    · rw [length_slice] at hlen
      have hle : direntSize * k + direntSize ≤ (s.node (s.icache c).inum).size := by
        split_ifs at hlen with hgt
        · omega
        · omega
      rw [if_neg (by omega)]
      exact ⟨rfl, hle⟩
    · rw [length_slice, if_neg (by have := hs.below; omega)] at hlen
      exact hlen rfl

def Located (m : Mode) (b r : Cell → ℕ) (l : Cell → Bool) (a : Node) (o : Option ℕ) (res : Option (Cell × ℕ))
    (t : FsState) : Prop :=
  match o with
  | none => res = none ∧ Inv m b r l t
  | some k => ∃ c, res = some (c, direntSize * k) ∧ Inv m b (plus r c) l t ∧ (t.icache c).inum = (a.entry k).inum ∧
      direntSize * k + direntSize ≤ a.size

variable {i n : ℕ} {a : Node} {name : Name}

section

variable (h : Inv m b r l s) (hc : 0 < r c) (hv : (s.icache c).valid = true) (hi : (s.icache c).inum = i) (ha : s.node i = a)

include h hc hv hi ha

theorem inv_dirlookupLoop (ht : a.type = tDir) (hfull : (∀ c, 0 < r c) → E .igetNoInodes)
    (hE : (∀ j, k ≤ j → j < k + n → (∀ x, k ≤ x → x < j → a.holds name x = false) → s.Smooth i j) ∨ Benign E) :
    wpr (Reads m r) (dirlookupLoop c name (direntSize * k) n) s
      (Located m b r l a ((List.range' k n).find? (a.holds name))) E := by
  induction n generalizing k s with
  | zero => exact wpr.ret ⟨rfl, h⟩
  | succ n ih =>
    subst hi ha
    refine (inv_readDirent h hc hv ht rfl (hE.imp_left fun hs => hs k le_rfl (by omega) fun x h1 h2 => by omega)).bind ?_
    rintro de t ⟨hinv, hg, rfl, hle⟩
    have hit : (t.icache c).inum = (s.icache c).inum := hg.still.inum c
    rw [List.range'_succ]
    refine wpr.ite (fun hfound => ?_) fun hno => ?_
    · have hholds : (s.node (s.icache c).inum).holds name k = true := by simpa [Node.holds] using hfound
      have hlt := (h.whole.law _ k ht hle h.tidy hfound.1).1
      rw [List.find?_cons_of_pos hholds]
      refine wpr_inode ?_
      rw [hinv.dev c hc]
      exact (inv_iget hinv hlt hfull).bind fun c' u ⟨hu, hc'⟩ => wpr.ret ⟨c', rfl, hu, hc', hle⟩
    · have hholds : (s.node (s.icache c).inum).holds name k = false := by
        by_contra hne
        exact hno (by simpa [Node.holds] using hne)
      rw [List.find?_cons_of_neg (by simp [hholds])]
      rw [← Nat.mul_succ]
      refine ih hinv (hg.valid hv) hit (by rw [hg.node]) (hE.imp_left fun hs j h1 h2 hbefore =>
        (hs j (by omega) (by omega) fun x h3 h4 => ?_).grows hg)
      by_cases hx : x = k
      · rw [hx, hholds]
      · exact hbefore x (by omega) h4

theorem inv_dirlookup (hdir : a.type ≠ tDir → E .dirlookupNotDir) (hfull : (∀ c, 0 < r c) → E .igetNoInodes)
    (hE : (∀ j < slots a.size, (∀ x < j, a.holds name x = false) → s.Smooth i j) ∨ Benign E) :
    wpr (Reads m r) (dirlookup c name) s (fun res t => a.type = tDir ∧ Located m b r l a (a.find name) res t) E := by
  have hfields := h.fields hc hv
  rw [hi, ha] at hfields
  refine wpr_inode ?_
  rw [hfields.1, hfields.2.1]
  refine wpr.ite (fun hno => wpr.fail (hdir hno)) fun hno => ?_
  have ht : a.type = tDir := by simpa using hno
  have hloop := inv_dirlookupLoop (n := slots a.size) h hc hv hi ha ht hfull
    (hE.imp_left fun hs j _ h2 hbefore => hs j (by omega) fun x hx => hbefore x (Nat.zero_le x) hx)
  exact hloop.mono (fun _ => id) fun res t hres => ⟨ht, hres⟩

section

variable (ht : a.type = tDir) (hE : Benign E)

include ht hE

theorem inv_emptySlot : wpr (Reads m r) (emptySlot c (direntSize * k) n) s (fun off t => Inv m b r l t ∧ Grows c s t ∧
      off = direntSize * ((List.range' k n).find? fun x => (a.entry x).inum = 0).getD (k + n) ∧
        (off = direntSize * k ∧ n = 0 ∨ off ≤ a.size)) E := by
  induction n generalizing k s with
  | zero => exact wpr.ret ⟨h, refl s, rfl, .inl ⟨rfl, rfl⟩⟩
  | succ n ih =>
    subst hi ha
    refine (inv_readDirent h hc hv ht rfl (.inr hE)).bind ?_
    rintro de t ⟨hinv, hg, rfl, hle⟩
    rw [List.range'_succ]
    refine wpr.ite (fun hfound => ?_) fun hno => ?_
    · rw [List.find?_cons_of_pos (by simpa using hfound)]
      exact wpr.ret ⟨hinv, hg, rfl, .inr (by omega)⟩
    rw [List.find?_cons_of_neg (by simpa using hno), ← Nat.mul_succ]
    refine (ih hinv (hg.valid hv) (hg.still.inum c) (by rw [hg.node])).mono (fun _ => id) ?_
    rintro off u ⟨hu, hg', hoff, hlast⟩
    refine ⟨hu, Trans.trans hg hg', ?_, .inr ?_⟩
    · rw [hoff]
      congr 2
      omega
    · rcases hlast with ⟨h1, -⟩ | h1
      · rw [h1, Nat.mul_succ]
        exact hle
      · exact h1

theorem inv_isdiremptyLoop : wpr (Reads m r) (isdiremptyLoop c (direntSize * k) n) s (fun res t => Inv m b r l t ∧ Grows c s t ∧
      res = (List.range' k n).all fun x => (a.entry x).inum = 0) E := by
  induction n generalizing k s with
  | zero => exact wpr.ret ⟨h, refl s, rfl⟩
  | succ n ih =>
    subst hi ha
    refine (inv_readDirent h hc hv ht rfl (.inr hE)).bind ?_
    rintro de t ⟨hinv, hg, rfl, hle⟩
    rw [List.range'_succ]
    refine wpr.ite (fun hfound => ?_) fun hno => ?_
    · exact wpr.ret ⟨hinv, hg, by simp [hfound]⟩
    · rw [← Nat.mul_succ]
      refine (ih hinv (hg.valid hv) (hg.still.inum c) (by rw [hg.node])).mono (fun _ => id) ?_
      rintro res u ⟨hu, hg', hres⟩
      refine ⟨hu, Trans.trans hg hg', ?_⟩
      have h0 : ((s.node (s.icache c).inum).entry k).inum = 0 := by simpa using hno
      simp [hres, h0]

theorem inv_isdirempty : wpr (Reads m r) (isdirempty c) s (fun res t => Inv m b r l t ∧ Grows c s t ∧ res = a.isEmpty) E := by
  have hfields := h.fields hc hv
  rw [hi, ha] at hfields
  refine wpr_inode ?_
  rw [hfields.2.1, Nat.mul_comm]
  exact inv_isdiremptyLoop h hc hv hi ha ht hE

end

end

end reading

variable {parent : Bool} {path : List UInt8}

structure Clear (m : Mode) (r : Cell → ℕ) (nd : ℕ → Node) : Prop where
  dense : m.dense
  neat : ∀ i, (nd i).type = tDir → direntSize ∣ (nd i).size ∧ (nd i).size ≤ maxfile * bsize
  spare : ∀ c, ∃ c', c' ≠ c ∧ r c' = 0

theorem Clear.smooth {q : Cell → ℕ} (hclear : Clear m q s.node) (h : Sound m b r l s) (hdir : (s.node i).type = tDir)
    (hk : k < slots (s.node i).size) : s.Smooth i k := by
  obtain ⟨⟨n, hn⟩, hmax⟩ := hclear.neat i hdir
  have hbelow : direntSize * k + direntSize ≤ (s.node i).size := by
    rw [hn] at hk ⊢
    simp only [slots, direntSize] at hk ⊢
    omega
  refine ⟨hbelow, hmax, h.whole.full hclear.dense i _ ?_ ?_⟩
  · change (s.node i).type ≠ 0
    rw [hdir]
    decide
  · change _ < (s.node i).size
    have := Nat.div_mul_le_self (direntSize * k) bsize
    simp only [direntSize] at hbelow this ⊢
    omega

theorem inv_namexLoop {parent : Bool} {fuel : ℕ} {ip : Cell} {path : List UInt8} {name : Name}
    (h : Inv m b (plus r ip) unlocked s) (hs : Settled r s) (hu : Under b r) (hfuel : path.length < fuel)
    (hE : Clear m r s.node ∨ Benign E) (hno : ¬ (Closed s.node ∧ (s.node (s.icache ip).inum).type ≠ 0) → E .ilockNoType) :
    wpr (Reads m r) (namexLoop parent fuel ip path name) s (fun res t => Inv m b (gain r res) unlocked t ∧
      res.map (fun x => ((t.icache x.1).inum, x.2)) = walk s.node parent fuel (s.icache ip).inum path name) E := by
  induction fuel generalizing ip path name s with
  | zero => omega
  | succ fuel ih =>
    have hup : Under r (plus r ip) := (Under.refl r).plus ip
    have hc := plus_self_pos r ip
    rw [namexLoop]
    unfold walk
    cases hskip : skipelem path with
    | none =>
      refine wpr.ite (fun hp => ?_) fun hp => ?_
      · refine (inv_iput h hu rfl).bind fun _ t ht => wpr.ret ⟨ht, ?_⟩
        simp [hp]
      · refine wpr.ret ⟨h, ?_⟩
        simp [hp]
    | some x =>
      obtain ⟨name', path'⟩ := x
      have hlen := skipelem_length hskip
      refine (inv_ilock h hc rfl fun h0 => hno fun hs => hs.2 h0).step (fun t ht => ht.mono hup) fun _ t ht hst => ?_
      have hv : (t.icache ip).valid = true := (ht.locked ip (update_self _ _ _)).2
      have hi : (t.icache ip).inum = (s.icache ip).inum := (hst.stays ip hc).2.1
      have hst1 := hst.mono hup
      have hnode : t.node (t.icache ip).inum = s.node (s.icache ip).inum := by rw [hi, hst1.shown hs]
      refine wpr_inode ?_
      rw [(ht.fields hc hv).1, hnode]
      refine wpr.ite (fun hdir => ?_) fun hdir => wpr.ite (fun hpar => ?_) fun hpar => ?_
      · refine (inv_iunlockput ht hu rfl).bind fun _ u hu' => wpr.ret ⟨hu', ?_⟩
        simp [hdir]
      · refine (inv_iunlock ht rfl).step (fun u hu' => hu'.mono hup) fun _ u hu' hst' => wpr.ret ⟨hu', ?_⟩
        have hiu : (u.icache ip).inum = (s.icache ip).inum := (hst'.stays ip hc).2.1.trans hi
        simp only [Option.map_some, hiu]
        rw [if_neg hdir, if_pos hpar]
      have hfull : (∀ c, 0 < plus r ip c) → E .igetNoInodes := by
        intro hall
        rcases hE with hclear | hE
        · obtain ⟨c', hne, h0⟩ := hclear.spare ip
          have := hall c'
          rw [plus_of_ne hne] at this
          omega
        · exact hE _ rfl
      have hsmooth : (∀ j < slots (s.node (s.icache ip).inum).size,
        (∀ x < j, (s.node (s.icache ip).inum).holds name' x = false) → t.Smooth (t.icache ip).inum j) ∨ Benign E := by
        refine hE.imp_left fun hclear j hj _ => ?_
        rw [← hst1.shown hs] at hclear
        rw [← hnode] at hj
        exact hclear.smooth ht.toSound (by rw [hnode]; simpa using hdir) hj
      refine (inv_dirlookup ht hc hv rfl hnode (fun hno => absurd hno hdir) hfull hsmooth).step (fun u hu' => hu'.mono hup) ?_
      rintro res u ⟨hdir', hres⟩ hst'
      simp only [if_neg hdir, if_neg hpar]
      cases hfind : (s.node (s.icache ip).inum).find name' with
      | none =>
        rw [hfind] at hres
        obtain ⟨rfl, hinv⟩ := hres
        exact (inv_iunlockput hinv hu rfl).bind fun _ v hv' => wpr.ret ⟨hv', rfl⟩
      | some k =>
        rw [hfind] at hres
        obtain ⟨next, rfl, hinv, hnext, hle⟩ := hres
        rw [plus_comm] at hinv
        have hrn : Under r (plus r next) := (Under.refl r).plus next
        refine (inv_iunlockput hinv (hu.trans hrn) rfl).step (fun v hv' => hv'.mono hrn) fun _ v hv' hst'' => ?_
        have hiv : (v.icache next).inum = ((s.node (s.icache ip).inum).entry k).inum :=
          (hst''.stays next (plus_self_pos r next)).2.1.trans hnext
        have hall : Reads m r s v := Trans.trans (Trans.trans hst1 (hst'.mono hup)) (hst''.mono hrn)
        have hsame : v.node = s.node := hall.shown hs
        obtain ⟨hk, hne, -⟩ := Node.find_eq_some hfind
        have hrec := @ih v next path' name' hv' (hall.settled hs) (by omega) (by rwa [hsame]) fun hbad =>
          hno fun hgood => hbad ?_
        · refine hrec.mono (fun _ => id) fun res w hw => ⟨hw.1, ?_⟩
          rw [hw.2, hsame, hiv]
        · rw [hsame, hiv]
          exact ⟨hgood.1, hgood.1 _ k hdir' hk hne⟩

def Reached (s : FsState) (parent : Bool) (cwd : ℕ) (path : List UInt8) (res : Option (Cell × Name)) (t : FsState) : Prop :=
  res.map (fun x => ((t.icache x.1).inum, x.2)) = walkFrom s.node parent cwd path

theorem inv_namex_walk (h : Inv m b r unlocked s) (hc : 0 < r c) (hroot : rootino < ninodes) (hE : Clear m r s.node ∨ Benign E)
    (hno : ¬ (Closed s.node ∧ (s.node (if path.headD 0 = slash then rootino else (s.icache c).inum)).type ≠ 0) →
    E .ilockNoType) : wpr (Reads m r) (namex (some c) path parent) s (fun res t => Inv m b (gain r res) unlocked t ∧
      Reached s parent (s.icache c).inum path res t) E := by
  have hloop : ∀ ip t, Reads m r s t → Inv m b (plus r ip) unlocked t →
      (t.icache ip).inum = (if path.headD 0 = slash then rootino else (s.icache c).inum) →
      wpr (Reads m r) (namexLoop parent (path.length + 1) ip path []) t (fun res t => Inv m b (gain r res) unlocked t ∧
        res.map (fun x => ((t.icache x.1).inum, x.2)) =
          walk s.node parent (path.length + 1) (if path.headD 0 = slash then rootino else (s.icache c).inum) path []) E := by
    intro ip t hst ht hi
    have hsame := hst.shown h.settled
    refine (inv_namexLoop ht (hst.settled h.settled) h.under (Nat.lt_succ_self _) (by rwa [hsame]) fun hbad => hno fun hok =>
      hbad ?_).mono (fun _ => id) fun res u hu => ⟨hu.1, ?_⟩
    · rw [hsame, hi]
      exact hok
    · rw [hu.2, hsame, hi]
  refine wpr.ite (fun habs => ?_) fun hrel => ?_
  · have hfull : (∀ c, 0 < r c) → E .igetNoInodes := by
      intro hall
      rcases hE with hclear | hE
      · obtain ⟨c', -, h0⟩ := hclear.spare c
        have := hall c'
        omega
      · exact hE _ rfl
    refine (inv_iget h hroot hfull).step (fun _ => id) fun ip t ht hst => hloop ip t hst ht.1 ?_
    rw [if_pos habs, ht.2]
  · refine (inv_idup h hc).step (fun _ => id) ?_
    rintro ip t ⟨rfl, ht, hi⟩ hst
    refine hloop ip t hst ht ?_
    rw [if_neg hrel, hi]

omit sb in
theorem benign_any : Benign fun _ => True := fun _ _ => trivial

theorem inv_namex (h : Inv m b r unlocked s) (hc : 0 < r c) (hroot : rootino < ninodes) :
    wpr (Reads m r) (namex (some c) path parent) s (fun res t => Inv m b (gain r res) unlocked t ∧
      Reached s parent (s.icache c).inum path res t) fun _ => True :=
  inv_namex_walk h hc hroot (.inr benign_any) fun _ => trivial

end Laboratorio.Fs
