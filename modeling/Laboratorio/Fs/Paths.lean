import Laboratorio.Fs.ByteArray
import Laboratorio.Fs.Operations

/-!
Paths as lists of components, which `namex` looks up one after the other.
-/

namespace Laboratorio.Fs

open Bytes Function

/-- The parts between slashes that are not empty, cut to `dirsiz` bytes; the string ends at its first 0. -/
def components (path : List UInt8) : List Name :=
  (((path.takeWhile (· ≠ 0)).splitOn slash).filter (· ≠ [])).map (List.take dirsiz)

section components

variable {path : List UInt8}

theorem components_slash (path : List UInt8) : components (slash :: path) = components path := by
  rfl

theorem components_dropWhile (path : List UInt8) : components (path.dropWhile (· = slash)) = components path := by
  induction path with
  | nil => rfl
  | cons x path ih =>
    by_cases hx : x = slash
    · subst hx
      rw [components_slash, ← ih]
      simp
    · simp [hx]

theorem components_of_end (h : path.headD 0 = 0) : components path = [] := by
  cases path with
  | nil => rfl
  | cons x path =>
    have hx : x = 0 := h
    simp [components, hx]

theorem components_append {e rest : List UInt8} (he : e ≠ []) (hmem : ∀ x ∈ e, x ≠ slash ∧ x ≠ 0)
    (hrest : rest.headD 0 = 0 ∨ rest.headD 0 = slash) : components (e ++ rest) = e.take dirsiz :: components rest := by
  have hno : slash ∉ e := fun h => (hmem slash h).1 rfl
  have htake : (e ++ rest).takeWhile (· ≠ 0) = e ++ rest.takeWhile (· ≠ 0) :=
    List.takeWhile_append_of_pos fun x hx => by simpa using (hmem x hx).2
  rcases hrest with h0 | hslash
  · have hend : rest.takeWhile (· ≠ 0) = [] := by
      cases rest with
      | nil => rfl
      | cons x rest =>
        have hx : x = 0 := h0
        simp [hx]
    rw [components_of_end h0, components, htake, hend, List.append_nil, List.splitOn_eq_singleton hno]
    simp [he]
  · cases rest with
    | nil => exact absurd hslash (by decide)
    | cons x rest =>
      obtain rfl : x = slash := hslash
      have hne : slash ≠ 0 := by decide
      rw [components_slash, components, htake, List.takeWhile_cons_of_pos (by simpa using hne),
        List.splitOn_append_cons_self_of_not_mem hno]
      simp [he, components]

theorem head_dropWhile_ne (p : UInt8 → Bool) (path : List UInt8) (h : p 0 = false) :
    p ((path.dropWhile p).headD 0) = false := by
  induction path with
  | nil => exact h
  | cons x path ih =>
    by_cases hx : p x = true
    · rwa [List.dropWhile_cons_of_pos hx]
    · rw [List.dropWhile_cons_of_neg hx]
      simpa using hx

theorem components_skipelem (path : List UInt8) :
    match skipelem path with
    | none => components path = []
    | some (name, rest) => components path = name :: components rest ∧ rest.headD 0 ≠ slash := by
  rw [← components_dropWhile path]
  unfold skipelem
  simp only
  have hhead : (path.dropWhile (· = slash)).headD 0 ≠ slash := by
    simpa using head_dropWhile_ne (fun x => decide (x = slash)) path (by decide)
  generalize path.dropWhile (· = slash) = path at hhead
  split_ifs with h0
  · exact components_of_end h0
  have hsplit := List.takeWhile_append_dropWhile (p := fun c : UInt8 => decide (c ≠ slash ∧ c ≠ 0)) (l := path)
  have hne : path.takeWhile (fun c : UInt8 => decide (c ≠ slash ∧ c ≠ 0)) ≠ [] := by
    cases path with
    | nil => exact absurd rfl h0
    | cons x path =>
      have hx : x ≠ slash ∧ x ≠ 0 := ⟨hhead, h0⟩
      simp [hx]
  have hmem : ∀ x ∈ path.takeWhile (fun c : UInt8 => decide (c ≠ slash ∧ c ≠ 0)), x ≠ slash ∧ x ≠ 0 := fun x hx => by
    simpa using List.all_eq_true.mp List.all_takeWhile x hx
  have hend := head_dropWhile_ne (fun c : UInt8 => decide (c ≠ slash ∧ c ≠ 0)) path (by decide)
  generalize path.takeWhile (fun c : UInt8 => decide (c ≠ slash ∧ c ≠ 0)) = e at hsplit hne hmem
  generalize path.dropWhile (fun c : UInt8 => decide (c ≠ slash ∧ c ≠ 0)) = rest at hsplit hend
  refine ⟨?_, by simpa using head_dropWhile_ne (fun x => decide (x = slash)) rest (by decide)⟩
  rw [components_dropWhile, ← hsplit]
  refine components_append hne hmem ?_
  by_cases hr : rest.headD 0 = 0
  · exact .inl hr
  · exact .inr (by_contra fun hs => of_decide_eq_false hend ⟨hs, hr⟩)

theorem components_eq_nil (h : path.headD 0 ≠ slash) : components path = [] ↔ path.headD 0 = 0 := by
  refine ⟨fun hc => ?_, components_of_end⟩
  have hskip := components_skipelem path
  cases hs : skipelem path with
  | none =>
    by_contra h0
    cases path with
    | nil => exact h0 rfl
    | cons x path =>
      have hx : x ≠ slash := h
      have hx0 : x ≠ 0 := h0
      simp [skipelem, hx, hx0] at hs
  | some y =>
    rw [hs] at hskip
    rw [hskip.1] at hc
    cases hc

end components

def child (nd : ℕ → Node) (i : ℕ) (name : Name) : Option ℕ :=
  if (nd i).type = tDir then ((nd i).find name).map fun k => ((nd i).entry k).inum else none

def descend (nd : ℕ → Node) (i : ℕ) (names : List Name) : Option ℕ := names.foldlM (child nd) i

def descendParent (nd : ℕ → Node) (i : ℕ) (names : List Name) : Option (ℕ × Name) := do
  let name ← names.getLast?
  let d ← descend nd i names.dropLast
  if (nd d).type = tDir then some (d, name) else none

section descend

variable {nd : ℕ → Node} {i fuel : ℕ} {name : Name} {names : List Name} {path : List UInt8}

theorem descend_cons : descend nd i (name :: names) = (child nd i name).bind fun j => descend nd j names := List.foldlM_cons

theorem descendParent_cons (h : names ≠ []) :
    descendParent nd i (name :: names) = (child nd i name).bind fun j => descendParent nd j names := by
  obtain ⟨x, names, rfl⟩ := List.exists_cons_of_ne_nil h
  unfold descendParent
  cases hc : child nd i name with
  | none | some j => simp [descend_cons, hc]

theorem descend_eq_none : descend nd i names = none ↔ ∃ before name after, names = before ++ name :: after ∧
    ∃ j, descend nd i before = some j ∧ ((nd j).type ≠ tDir ∨ (nd j).find name = none) := by
  induction names generalizing i with
  | nil =>
    refine ⟨fun h => (Option.some_ne_none i h).elim, ?_⟩
    rintro ⟨before, name, after, h, -⟩
    simp at h
  | cons x names ih =>
    rw [descend_cons]
    constructor
    · intro h
      cases hc : child nd i x with
      | none =>
        refine ⟨[], x, names, rfl, i, rfl, ?_⟩
        unfold child at hc
        split_ifs at hc with ht
        · exact .inr (by simpa using hc)
        · exact .inl ht
      | some j =>
        rw [hc] at h
        obtain ⟨before, name, after, rfl, k, hk, hbad⟩ := ih.mp h
        refine ⟨x :: before, name, after, rfl, k, ?_, hbad⟩
        rw [descend_cons, hc]
        exact hk
    · rintro ⟨before, name, after, hsplit, k, hk, hbad⟩
      cases before with
      | nil =>
        obtain ⟨rfl, rfl⟩ := List.cons.inj hsplit
        obtain rfl : i = k := Option.some.inj hk
        have hc : child nd i x = none := by
          unfold child
          rcases hbad with ht | hf
          · rw [if_neg ht]
          · rw [hf, Option.map_none, ite_self]
        rw [hc]
        rfl
      | cons y before =>
        obtain ⟨rfl, rfl⟩ := List.cons.inj hsplit
        rw [descend_cons] at hk
        cases hc : child nd i x with
        | none => rfl
        | some j =>
          rw [hc] at hk
          exact ih.mpr ⟨before, name, after, rfl, k, hk, hbad⟩

theorem walk_eq_descend (hfuel : path.length < fuel) :
    (walk nd false fuel i path name).map Prod.fst = descend nd i (components path) := by
  induction fuel generalizing i path name with
  | zero => omega
  | succ fuel ih =>
    have hcomp := components_skipelem path
    unfold walk
    cases hskip : skipelem path with
    | none =>
      rw [hskip] at hcomp
      rw [hcomp]
      rfl
    | some x =>
      obtain ⟨name', rest⟩ := x
      have hlen := skipelem_length hskip
      rw [hskip] at hcomp
      rw [hcomp.1, descend_cons, child]
      by_cases ht : (nd i).type = tDir
      · cases hfind : (nd i).find name' with
        | none => simp [ht, hfind]
        | some k =>
          have hrec := @ih ((nd i).entry k).inum name' rest (by omega)
          simpa [ht, hfind] using hrec
      · simp [ht]

theorem walk_eq_descendParent (hfuel : path.length < fuel) :
    walk nd true fuel i path name = descendParent nd i (components path) := by
  induction fuel generalizing i path name with
  | zero => omega
  | succ fuel ih =>
    have hcomp := components_skipelem path
    unfold walk
    cases hskip : skipelem path with
    | none =>
      rw [hskip] at hcomp
      rw [hcomp]
      rfl
    | some x =>
      obtain ⟨name', rest⟩ := x
      have hlen := skipelem_length hskip
      rw [hskip] at hcomp
      rw [hcomp.1]
      dsimp only
      by_cases hlast : rest.headD 0 = 0
      · rw [components_of_end hlast]
        by_cases ht : (nd i).type = tDir
        · rw [if_neg (not_not_intro ht), if_pos ⟨rfl, hlast⟩]
          simp [ht, descendParent, descend]
        · simp [ht, descendParent, descend]
      · rw [descendParent_cons fun h => hlast ((components_eq_nil hcomp.2).mp h), child]
        by_cases ht : (nd i).type = tDir
        · rw [if_neg (not_not_intro ht), if_neg fun h => hlast h.2, if_pos ht]
          cases hfind : (nd i).find name' with
          | none => rfl
          | some k => exact ih (by omega)
        · simp [ht]

end descend

section state

variable [sb : Superblock]

def startAt (cwd : Option Cell) (path : List UInt8) : FsM Cell :=
  if path.headD 0 = slash then iget rootdev rootino
  else match cwd with
    | none => throw .nullDeref
    | some c => idup c

def search (ip : Cell) (name : Name) : FsM (Option Cell) := do
  ilock ip
  if (← inode ip).d.type ≠ tDir then
    iunlockput ip
    return none
  else
    let next ← dirlookup ip name
    iunlockput ip
    return next.map Prod.fst

def follow (ip : Cell) : List Name → FsM (Option Cell)
  | [] => return some ip
  | name :: names => do
    match ← search ip name with
    | none => return none
    | some next => follow next names

def followParent (ip : Cell) : List Name → FsM (Option (Cell × Name))
  | [] => do
    iput ip
    return none
  | name :: names => do
    if names = [] then
      ilock ip
      if (← inode ip).d.type ≠ tDir then
        iunlockput ip
        return none
      else
        iunlock ip
        return some (ip, name)
    else
      match ← search ip name with
      | none => return none
      | some next => followParent next names

section programs

variable {fuel : ℕ} {ip : Cell} {path : List UInt8} {name : Name}

theorem namexLoop_round {parent : Bool} {name' : Name} {rest : List UInt8} (hskip : skipelem path = some (name', rest))
    (hgo : ¬ (parent = true ∧ rest.headD 0 = 0)) :
    namexLoop parent (fuel + 1) ip path name = (do
      match ← search ip name' with
      | none => return none
      | some next => namexLoop parent fuel next rest name') := by
  rw [namexLoop, hskip]
  unfold search
  simp only [bind_assoc, if_neg hgo]
  refine bind_congr fun _ => bind_congr fun dp => ?_
  split_ifs with ht
  · simp only [bind_assoc, pure_bind]
  · simp only [bind_assoc, pure_bind]
    refine bind_congr fun res => ?_
    cases res with
    | none => rfl
    | some x => rfl

theorem namexLoop_eq_follow (hfuel : path.length < fuel) :
    (Option.map Prod.fst <$> namexLoop false fuel ip path name) = follow ip (components path) := by
  induction fuel generalizing ip path name with
  | zero => omega
  | succ fuel ih =>
    have hcomp := components_skipelem path
    cases hskip : skipelem path with
    | none =>
      rw [hskip] at hcomp
      rw [hcomp, namexLoop, hskip]
      rfl
    | some x =>
      have hlen := skipelem_length hskip
      rw [hskip] at hcomp
      rw [hcomp.1, follow, namexLoop_round hskip (by simp), map_bind]
      refine bind_congr fun next => ?_
      cases next with
      | none => rfl
      | some next => exact ih (by omega)

theorem namexLoop_eq_followParent (hfuel : path.length < fuel) :
    namexLoop true fuel ip path name = followParent ip (components path) := by
  induction fuel generalizing ip path name with
  | zero => omega
  | succ fuel ih =>
    have hcomp := components_skipelem path
    cases hskip : skipelem path with
    | none =>
      rw [hskip] at hcomp
      rw [hcomp, namexLoop, hskip]
      rfl
    | some x =>
      obtain ⟨name', rest⟩ := x
      have hlen := skipelem_length hskip
      rw [hskip] at hcomp
      rw [hcomp.1, followParent]
      by_cases hlast : rest.headD 0 = 0
      · rw [if_pos (components_of_end hlast), namexLoop, hskip]
        simp only [hlast, and_self, if_true]
      · rw [if_neg fun h => hlast ((components_eq_nil hcomp.2).mp h), namexLoop_round hskip fun h => hlast h.2]
        refine bind_congr fun next => ?_
        cases next with
        | none => rfl
        | some next => exact ih (by omega)

theorem namex_eq (cwd : Option Cell) (path : List UInt8) (parent : Bool) :
    namex cwd path parent = (do namexLoop parent (path.length + 1) (← startAt cwd path) path []) := by
  unfold namex startAt
  split_ifs
  · rfl
  · cases cwd with
    | none => rfl
    | some c => rfl

theorem namei_eq (cwd : Option Cell) (path : List UInt8) :
    namei cwd path = (do follow (← startAt cwd path) (components path)) := by
  rw [namei, namex_eq, bind_pure_comp, map_bind]
  exact bind_congr fun ip => namexLoop_eq_follow (Nat.lt_succ_self _)

theorem nameiparent_eq (cwd : Option Cell) (path : List UInt8) :
    nameiparent cwd path = (do followParent (← startAt cwd path) (components path)) := by
  rw [nameiparent, namex_eq]
  exact bind_congr fun ip => namexLoop_eq_followParent (Nat.lt_succ_self _)

end programs

def Counts (r : Cell → ℕ) (s : FsState) : Prop := ∀ c, (s.icache c).ref = r c

section counts

variable {r : Cell → ℕ} {s : FsState} {c : Cell} {E : Fault → Prop}

section

variable (h : Counts r s)

include h

omit sb in
theorem Counts.set {ip : Inode} {n : ℕ} (hip : ip.ref = n) : Counts (update r c n) (s.set c ip) := by
  intro c'
  by_cases hc : c' = c
  · simp [hc, hip]
  · simp [hc, h c']

omit sb in
theorem Counts.keep {ip : Inode} (hip : ip.ref = (s.icache c).ref) : Counts r (s.set c ip) := by
  have hset : Counts (update r c (r c)) (s.set c ip) := h.set (hip.trans (h c))
  rwa [update_eq_self] at hset

omit sb in
theorem Counts.still {t : FsState} (hst : Still s t) : Counts r t := fun c => (hst.ref c).trans (h c)

omit sb in
theorem Counts.quiet {α : Type} {p : FsM α} (hp : Quiet p) : wp p s (fun _ t => Counts r t) fun _ => True :=
  wp_imp (hp s) (fun _ _ hst => h.still hst) fun _ _ => trivial

omit sb in
theorem counts_iget (dev inum : ℕ) : wp (iget dev inum) s (fun c t => Counts (plus r c) t) fun _ => True := by
  refine wp_iget (fun c _ _ _ => h.set ?_) (fun c h0 _ => h.set ?_) fun _ _ => trivial
  · rw [h c]
  · rw [← h c, h0]

omit sb in
theorem counts_idup (c : Cell) : wp (idup c) s (fun c' t => Counts (plus r c') t) fun _ => True := by
  rw [idup, wp_bind, wp_setInode]
  refine wp_ret (h.set ?_)
  rw [h c]

theorem counts_ilock (hc : 0 < r c) : wp (ilock c) s (fun _ t => Counts r t) fun _ => True :=
  wp_ilock (by rwa [h c]) (fun _ => trivial) (fun _ _ => h.keep rfl) (fun _ _ _ => h.keep rfl) fun _ _ => trivial

omit sb in
theorem counts_iunlock : wp (iunlock c) s (fun _ t => Counts r t) fun _ => True := by
  rw [iunlock, wp_bind, wp_inode, wp_ite]
  exact ⟨fun _ => (wp_throw _).mpr trivial, fun _ => wp_setInode.mpr (h.keep rfl)⟩

end

theorem counts_iput (h : Counts (plus r c) s) : wp (iput c) s (fun _ t => Counts r t) fun _ => True := by
  have hdown : ∀ {t : FsState} (ip : Inode), Counts (plus r c) t → ip.ref = (t.icache c).ref - 1 → Counts r (t.set c ip) := by
    intro t ip ht hip
    rw [ht c, plus_self, Nat.add_sub_cancel] at hip
    have hset : Counts (update (plus r c) c (r c)) (t.set c ip) := ht.set hip
    rwa [plus, update_idem, update_eq_self] at hset
  refine wp_iput (fun _ => trivial) (fun _ _ => hdown _ h rfl) fun _ _ _ _ => ?_
  have hlock : Counts (plus r c) (s.set c { s.icache c with lock := true }) := h.keep rfl
  refine wp_mono (hlock.quiet (quiet_itrunc c)) fun _ t ht => ?_
  refine wp_mono (ht.quiet (quiet_setD c _)) fun _ t ht => ?_
  exact wp_mono (ht.quiet (quiet_iupdate c)) fun _ t ht => hdown _ ht rfl

theorem counts_iunlockput (h : Counts (plus r c) s) : wp (iunlockput c) s (fun _ t => Counts r t) fun _ => True := by
  rw [iunlockput]
  exact wp_seq (counts_iunlock h) fun _ t ht => counts_iput ht

theorem counts_dirlookupLoop (n off : ℕ) (h : Counts r s) (name : Name) :
    wp (dirlookupLoop c name off n) s (fun res t => Counts (gain r res) t) fun _ => True := by
  induction n generalizing off s with
  | zero => exact wp_ret h
  | succ n ih =>
    rw [dirlookupLoop]
    refine wp_seq (h.quiet (quiet_readDirent (e := .dirlookupRead) rfl c off)) fun de t ht => ?_
    rw [wp_ite]
    refine ⟨fun _ => ?_, fun _ => ih _ ht⟩
    rw [wp_bind, wp_inode]
    exact wp_seq (counts_iget ht _ _) fun c' u hu => wp_ret hu

theorem counts_dirlookup (h : Counts r s) (name : Name) :
    wp (dirlookup c name) s (fun res t => Counts (gain r res) t) fun _ => True := by
  rw [dirlookup, wp_bind, wp_inode, wp_ite]
  exact ⟨fun _ => (wp_throw _).mpr trivial, fun _ => counts_dirlookupLoop _ _ h name⟩

theorem counts_search (h : Counts (plus r c) s) (name : Name) :
    wp (search c name) s (fun res t => Counts (res.elim r (plus r)) t) fun _ => True := by
  rw [search]
  refine wp_seq (counts_ilock h (plus_self_pos r c)) fun _ t ht => ?_
  rw [wp_bind, wp_inode, wp_ite]
  refine ⟨fun _ => ?_, fun _ => ?_⟩
  · exact wp_seq (counts_iunlockput ht) fun _ u hu => wp_ret hu
  · refine wp_seq (counts_dirlookup ht name) fun res u hu => ?_
    rw [wp_bind]
    cases res with
    | none => exact wp_mono (counts_iunlockput hu) fun _ v hv => wp_ret hv
    | some x =>
      have hu' : Counts (plus (plus r x.1) c) u := plus_comm r c x.1 ▸ hu
      exact wp_mono (counts_iunlockput hu') fun _ v hv => wp_ret hv

theorem counts_follow (names : List Name) (h : Counts (plus r c) s) :
    wp (follow c names) s (fun res t => Counts (res.elim r (plus r)) t) fun _ => True := by
  induction names generalizing c s with
  | nil => exact wp_ret h
  | cons name names ih =>
    rw [follow]
    refine wp_seq (counts_search h name) fun res t ht => ?_
    cases res with
    | none => exact wp_ret ht
    | some next => exact ih ht

theorem counts_followParent (names : List Name) (h : Counts (plus r c) s) :
    wp (followParent c names) s (fun res t => Counts (gain r res) t) fun _ => True := by
  induction names generalizing c s with
  | nil =>
    rw [followParent]
    exact wp_seq (counts_iput h) fun _ t ht => wp_ret ht
  | cons name names ih =>
    rw [followParent, wp_ite]
    refine ⟨fun _ => ?_, fun _ => ?_⟩
    · refine wp_seq (counts_ilock h (plus_self_pos r c)) fun _ t ht => ?_
      rw [wp_bind, wp_inode, wp_ite]
      refine ⟨fun _ => ?_, fun _ => ?_⟩
      · exact wp_seq (counts_iunlockput ht) fun _ u hu => wp_ret hu
      · exact wp_seq (counts_iunlock ht) fun _ u hu => wp_ret hu
    · refine wp_seq (counts_search h name) fun res t ht => ?_
      cases res with
      | none => exact wp_ret ht
      | some next => exact ih ht

section

variable (h : Counts r s) (cwd : Option Cell) (path : List UInt8)

include h cwd path

omit sb in
theorem counts_startAt : wp (startAt cwd path) s (fun c t => Counts (plus r c) t) fun _ => True := by
  unfold startAt
  split_ifs
  · exact counts_iget h _ _
  · cases cwd with
    | none => exact (wp_throw _).mpr trivial
    | some c => exact counts_idup h c

theorem counts_namei : wp (namei cwd path) s (fun res t => Counts (res.elim r (plus r)) t) fun _ => True := by
  rw [namei_eq]
  exact wp_seq (counts_startAt h cwd path) fun c t ht => counts_follow _ ht

theorem counts_nameiparent : wp (nameiparent cwd path) s (fun res t => Counts (gain r res) t) fun _ => True := by
  rw [nameiparent_eq]
  exact wp_seq (counts_startAt h cwd path) fun c t ht => counts_followParent _ ht

end

end counts

def OneMore (res : Option Cell) (s t : FsState) : Prop := ∀ c, (t.icache c).ref = (s.icache c).ref + if res =
    some c then 1 else 0

omit sb in
theorem Counts.oneMore {s t : FsState} {res : Option Cell}
    (h : Counts (res.elim (fun c => (s.icache c).ref) (plus fun c => (s.icache c).ref)) t) : OneMore res s t := by
  intro c
  rw [h c]
  cases res with
  | none => rfl
  | some c' =>
    by_cases hc : c = c'
    · rw [hc, Option.elim_some, plus_self, if_pos rfl]
    · rw [Option.elim_some, plus_of_ne hc, if_neg fun h => hc (Option.some.inj h).symm, Nat.add_zero]

section resolution

variable {m : Mode} {b r : Cell → ℕ} {s : FsState} {c : Cell} {path : List UInt8} {E : Fault → Prop}

section

variable (h : Inv m b r unlocked s) (hc : 0 < r c) (hroot : rootino < ninodes) (hE : Clear m r s.node ∨ Benign E)
  (hno : ¬ (Closed s.node ∧ (s.node (if path.headD 0 = slash then rootino else (s.icache c).inum)).type ≠ 0) → E .ilockNoType)

include h hc hroot hE hno

theorem inv_namei_descend : wp (namei (some c) path) s (fun res t => res.map (fun c => (t.icache c).inum) =
      descend s.node (if path.headD 0 = slash then rootino else (s.icache c).inum) (components path) ∧ t.node = s.node) E := by
  rw [namei]
  refine wp_seq (inv_namex_walk h hc hroot hE hno) fun res t ⟨⟨_, hwalk⟩, hst⟩ => wp_ret ⟨?_, hst.shown h.settled⟩
  rw [← walk_eq_descend (Nat.lt_succ_self path.length), ← walkFrom, ← hwalk, Option.map_map, Option.map_map]
  rfl

theorem inv_nameiparent_descend : wp (nameiparent (some c) path) s (fun res t => res.map (fun x => ((t.icache x.1).inum, x.2)) =
      descendParent s.node (if path.headD 0 = slash then rootino else (s.icache c).inum) (components path) ∧
        t.node = s.node) E := by
  refine wp_mono (inv_namex_walk h hc hroot hE hno) fun res t ⟨⟨_, hwalk⟩, hst⟩ => ⟨?_, hst.shown h.settled⟩
  rw [hwalk, walkFrom]
  exact walk_eq_descendParent (Nat.lt_succ_self path.length)

end

/-- In every state `namei` and `nameiparent` look up the components of the path one after the other, from the root or the
working directory on, and take one reference to what they return. Where the file system is in order they find what its nodes
say, change nothing and, unless the inode cache is full, return. -/
theorem path_resolution (s : FsState) (cwd : Option Cell) (path : List UInt8) :
    namei cwd path = (do follow (← startAt cwd path) (components path)) ∧
    nameiparent cwd path = (do followParent (← startAt cwd path) (components path)) ∧
    (∀ res t, namei cwd path s = .ok (res, t) → OneMore res s t) ∧
    (∀ res t, nameiparent cwd path s = .ok (res, t) → OneMore (res.map Prod.fst) s t) ∧
    ∀ m b r c i, Inv m b r unlocked s → rootino < ninodes → cwd = some c → 0 < r c →
      i = (if path.headD 0 = slash then rootino else (s.icache c).inum) →
      (∀ res t, namei cwd path s = .ok (res, t) → res.map (fun c => (t.icache c).inum) = descend s.node i (components path) ∧
        (res = none ↔ ∃ before name after, components path = before ++ name :: after ∧
          ∃ j, descend s.node i before = some j ∧ ((s.node j).type ≠ tDir ∨ (s.node j).find name = none)) ∧ t.node = s.node) ∧
      (∀ res t, nameiparent cwd path s = .ok (res, t) →
        res.map (fun x => ((t.icache x.1).inum, x.2)) = descendParent s.node i (components path) ∧ t.node = s.node) ∧
      (Clear m r s.node → Closed s.node → (s.node i).type ≠ 0 →
        (∃ res t, namei cwd path s = .ok (res, t)) ∧ ∃ res t, nameiparent cwd path s = .ok (res, t)) := by
  refine ⟨namei_eq cwd path, nameiparent_eq cwd path, fun res t hrun => ?_, fun res t hrun => ?_, ?_⟩
  · exact (wp_ok (counts_namei (fun _ => rfl) cwd path) hrun).oneMore
  · have hcounts := wp_ok (counts_nameiparent (fun _ => rfl) cwd path) hrun
    apply Counts.oneMore
    cases res with
    | none | some x => exact hcounts
  rintro m b r c i h hroot rfl hc rfl
  have hany : Clear m r s.node ∨ Benign fun _ => True := .inr fun _ _ => trivial
  refine ⟨fun res t hrun => ?_, fun res t hrun => ?_, fun hclear hclosed htype => ?_⟩
  · obtain ⟨hres, hsame⟩ := wp_ok (inv_namei_descend h hc hroot hany fun _ => trivial) hrun
    refine ⟨hres, ?_, hsame⟩
    rw [← descend_eq_none, ← hres, Option.map_eq_none_iff]
  · have hres := wp_ok (inv_nameiparent_descend h hc hroot hany fun _ => trivial) hrun
    exact hres
  · obtain ⟨res, t, hrun, -⟩ := exists_of_wp (inv_namei_descend h hc hroot (.inl hclear) fun hbad => hbad ⟨hclosed, htype⟩)
    obtain ⟨res', t', hrun', -⟩ := exists_of_wp (inv_nameiparent_descend h hc hroot (.inl hclear) fun hbad =>
      hbad ⟨hclosed, htype⟩)
    exact ⟨⟨res, t, hrun⟩, res', t', hrun'⟩

end resolution

end state

def rootDinode : Dinode := { Dinode.zero with type := tDir, nlink := 1 }

def rooted : FsState :=
  { lone tDir with
    disk := ⟨update (lone tDir).disk.blocks (iblock 1)
      (store ((lone tDir).disk.blocks (iblock 1)) (dinodeSize * (1 % ipb)) dinodeSize rootDinode.image), []⟩ }

def everything : Mode := ⟨True, True, True, True, fun _ => trivial⟩

theorem rootDinode_fits : rootDinode.Fits :=
  ⟨by decide, Nat.two_pow_pos 16, Nat.two_pow_pos 16, by decide, Nat.two_pow_pos 32,
    fun _ => Nat.two_pow_pos 32, fun _ _ => rfl⟩

theorem table_rooted : rooted.table = (lone tDir).table.setCore 1 rootDinode := volume_putDinode (by decide) rootDinode_fits

theorem core_rooted (i : ℕ) : rooted.core i = if i = 1 then rootDinode else Dinode.zero := by
  refine FsState.core_eq (fun c hc => ?_) fun h0 => ?_
  · have hi : i = 1 := hc.2.2.symm
    rw [if_pos hi]
    rfl
  · have hi : i ≠ 1 := by
      rintro rfl
      exact h0 0 ⟨Nat.one_pos, rfl, rfl⟩
    rw [if_neg hi, table_rooted]
    simp only [Volume.setCore, update_of_ne hi, table_lone]

theorem synced_rooted (i : ℕ) : rooted.table.core i = rooted.core i := by
  rw [core_rooted, table_rooted]
  by_cases hi : i = 1
  · simp [Volume.setCore, hi]
  · simp [Volume.setCore, hi, table_lone]

theorem size_rooted (i : ℕ) : (rooted.core i).size = 0 := by
  rw [core_rooted]
  split_ifs <;> rfl

theorem own_rooted : ∀ p, rooted.live.own p = 0 := by
  refine Volume.own_eq_zero fun i k => ?_
  change (rooted.core i).addrs k = 0
  rw [core_rooted]
  split_ifs <;> rfl

theorem inv_rooted : Inv everything (fun c => (rooted.icache c).ref) (fun c => (rooted.icache c).ref) unlocked rooted where
  ref := fun _ => rfl
  lock := fun _ => rfl
  unique := fun c c' hc hc' _ _ => (lone_ref hc).trans (lone_ref hc').symm
  under := Under.refl _
  dev := fun _ _ => rfl
  inum_lt := fun _ _ _ => show 1 < Mkfs.ninodes by decide
  locked_of := fun _ c hl => by cases hl
  typed := fun _ _ _ => show tDir ≠ 0 by decide
  fits := fun _ _ _ => rootDinode_fits
  behind_of := fun _ c _ _ => by
    rw [synced_rooted, core_rooted]
    exact Behind.refl _
  whole := {
    ledger := ⟨fun p hp => absurd (own_rooted p) hp, fun p hp => absurd (own_rooted p) hp,
      fun p _ hp => absurd (own_rooted p) hp⟩
    reserved := by
      have hused : rooted.table.used = (lone tDir).table.used := by
        rfl
      change ∀ b < datastart, rooted.table.used b = true
      rw [hused]
      exact (owned_lone (by decide) (by decide)).reserved
    law := fun i k _ hk => absurd hk (by rw [show (rooted.live.core i).size = 0 from size_rooted i]; simp [direntSize])
    full := fun _ i n _ hn => absurd hn (by rw [show (rooted.live.core i).size = 0 from size_rooted i]; simp)
    covers := fun hl => absurd trivial hl }
  kept_of := fun _ i ht hn => by
    rw [core_rooted] at ht hn
    split_ifs at ht hn with hi
    · cases hn
    · exact absurd rfl ht
  tidy := trivial
  ahead := fun i hi => absurd (synced_rooted i) hi

def roundTrip : List UInt8 := [slash, 97, slash, 46, 46, slash, 97]

def noSuch : List UInt8 := [slash, 97, slash, 98]

theorem path_resolution_subdirectory : ∃ s, sysMkdir (some 0) [slash, 97] rooted = .ok (true, s) ∧
    (∃ c t, namei (some 0) roundTrip s = .ok (some c, t) ∧ (t.icache c).inum = 2 ∧ (t.icache c).ref = (s.icache c).ref + 1) ∧
    ∃ t, namei (some 0) noSuch s = .ok (none, t) := by
  have hend : (sysMkdir (some 0) [slash, 97] rooted).toOption.map
    (fun x => (x.1, descend x.2.node rootino (components roundTrip), descend x.2.node rootino (components noSuch),
    (namei (some 0) roundTrip x.2).isOk, (namei (some 0) noSuch x.2).isOk)) = some (true, some 2, none, true, true) := by
    decide +kernel
  cases hmkdir : sysMkdir (some 0) [slash, 97] rooted with
  | error e => simp [hmkdir, Except.toOption] at hend
  | ok x =>
    obtain ⟨res, s⟩ := x
    simp only [hmkdir, Except.toOption, Option.map_some, Option.some.injEq, Prod.mk.injEq] at hend
    obtain ⟨rfl, hthere, hnot, hok, hok'⟩ := hend
    have hinv := (wp_ok (inv_sysMkdir inv_rooted (show 0 < (rooted.icache 0).ref from Nat.one_pos) (by decide)) hmkdir).1
    have hfind : ∀ p, p.headD 0 = slash → (namei (some 0) p s).isOk → ∃ res t, namei (some 0) p s = .ok (res, t) ∧
      OneMore res s t ∧ res.map (fun c => (t.icache c).inum) = descend s.node rootino (components p) := by
      intro p hp hok
      obtain ⟨-, -, hrefs, -, hnodes⟩ := path_resolution s (some 0) p
      cases hrun : namei (some 0) p s with
      | error e => simp [hrun, Except.isOk, Except.toBool] at hok
      | ok y =>
        obtain ⟨hres, -⟩ := (hnodes everything _ _ 0 rootino hinv (by decide) rfl Nat.one_pos (if_pos hp).symm).1 _ _ hrun
        exact ⟨y.1, y.2, rfl, hrefs _ _ hrun, hres⟩
    obtain ⟨res, t, hrun, hmore, hres⟩ := hfind roundTrip rfl hok
    obtain ⟨res', t', hrun', -, hres'⟩ := hfind noSuch rfl hok'
    rw [hthere] at hres
    obtain ⟨c, rfl, hc⟩ := Option.map_eq_some_iff.mp hres
    rw [hnot, Option.map_eq_none_iff] at hres'
    exact ⟨s, rfl, ⟨c, t, hrun, hc, by rw [hmore c, if_pos rfl]⟩, t', hres' ▸ hrun'⟩

end Laboratorio.Fs
