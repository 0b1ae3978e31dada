import Laboratorio.Lib.Count
import Laboratorio.Fs.CallRefs

/-!
The reference counts of open files and inodes against the tables that point to them.
-/

namespace Laboratorio.Fs

open Function
open Procs (Slot Ptable)

section rules

variable {α : Type} {k : Kernel} {E : Fault → Prop} {f : FileId} {p : Slot}

@[simp] theorem wp_onFs {Q : α → Kernel → Prop} {m : FsM α} :
    wp (onFs m) k Q E ↔ wp m k.fs (fun a s => Q a { k with fs := s }) E := wp_within

theorem wp_onFs_seq {β : Type} {m : FsM β} {g : β → KernelM α} {P : β → FsState → Prop} {Q : α → Kernel → Prop}
    (h : wp m k.fs P E) (hg : ∀ b s, P b s → wp (g b) { k with fs := s } Q E) : wp (onFs m >>= g) k Q E :=
  (wp_bind _ g).mpr (wp_onFs.mpr (wp_mono h hg))

theorem wp_filealloc {Q : Option FileId → Kernel → Prop} (hfull : (∀ f, (k.ftable f).ref ≠ 0) → Q none k)
    (hfree : ∀ f, (k.ftable f).ref = 0 → Q (some f) (k.setFile f { k.ftable f with ref := 1 })) : wp filealloc k Q E := by
  rw [filealloc, wp_bind, wp_get]
  cases hf : (List.finRange nfile).find? fun f => (k.ftable f).ref = 0 with
  | none => exact wp_ret (hfull fun f => by simpa using List.find?_eq_none.mp hf f (List.mem_finRange f))
  | some f =>
    rw [wp_bind, wp_set, wp_pure]
    exact hfree f (by simpa using List.find?_some hf)

theorem wp_filedup {Q : Unit → Kernel → Prop} (href : 0 < (k.ftable f).ref)
    (hQ : Q () (k.setFile f { k.ftable f with ref := (k.ftable f).ref + 1 })) : wp (filedup f) k Q E := by
  rw [filedup, wp_bind, wp_get, wp_ite]
  exact ⟨fun h => absurd h (by omega), fun _ => (wp_set _).mpr hQ⟩

theorem wp_fdalloc {Q : Option Fd → Kernel → Prop} (hfull : (∀ fd, k.ofile p fd ≠ none) → Q none k)
    (hfree : ∀ fd, k.ofile p fd = none → Q (some fd) (k.setOfile p fd (some f))) : wp (fdalloc p f) k Q E := by
  rw [fdalloc, wp_bind, wp_get]
  cases hf : (List.finRange nofile).find? fun fd => k.ofile p fd = none with
  | none => exact wp_ret (hfull fun fd => by simpa using List.find?_eq_none.mp hf fd (List.mem_finRange fd))
  | some fd =>
    rw [wp_bind, wp_set, wp_pure]
    exact hfree fd (by simpa using List.find?_some hf)

end rules

def slotsOf (of : Slot → Fd → Option FileId) (x : Slot × Fd) : Option FileId := of x.1 x.2

def File.cell (x : File) : Option Cell :=
  match x.type with
  | .inode c => if 0 < x.ref then some c else none
  | _ => none

/-- Of the references to file `f`, `xf f` are held by the call that is running. -/
structure Books (ft : FileId → File) (of : Slot → Fd → Option FileId) (pi : ℕ → Option Pipe) (xf : FileId → ℕ) : Prop where
  refs : ∀ f, (ft f).ref = count (slotsOf of) f + xf f
  closed : ∀ f, (ft f).ref = 0 → (ft f).type = .none
  reading : ∀ a q, pi a = some q → (q.readopen = true ↔ ∃ f, (ft f).type = .pipe a ∧ (ft f).writable = false)
  writing : ∀ a q, pi a = some q → (q.writeopen = true ↔ ∃ f, (ft f).type = .pipe a ∧ (ft f).writable = true)
  single : ∀ f f' a, (ft f).type = .pipe a → (ft f').type = .pipe a → (ft f).writable = (ft f').writable → f = f'
  piped : ∀ f a, (ft f).type = .pipe a → (pi a).isSome

def cellRefs (ft : FileId → File) (cwd : Slot → Option Cell) (y : Cell → ℕ) (c : Cell) : ℕ :=
  count (fun f => (ft f).cell) c + count cwd c + y c

def Tenure (t : Ptable) (of : Slot → Fd → Option FileId) (cwd : Slot → Option Cell) : Prop :=
  ∀ p, if t.states p = .unused ∨ t.states p = .zombie then cwd p = none ∧ ∀ fd, of p fd = none else (cwd p).isSome

namespace Books

variable {ft : FileId → File} {of : Slot → Fd → Option FileId} {pi : ℕ → Option Pipe} {xf : FileId → ℕ} {f : FileId} {x : File}
  {p : Slot} {fd : Fd}

theorem ref_pos (h : Books ft of pi xf) (hf : of p fd = some f) : 0 < (ft f).ref := by
  have := count_pos (g := slotsOf of) (i := (p, fd)) hf
  rw [h.refs]
  omega

variable {a : ℕ}

section

variable (h : Books ft of pi xf)

include h

theorem ref_ne_zero (hf : (ft f).type = .pipe a) : (ft f).ref ≠ 0 := by
  intro h0
  rw [h.closed f h0] at hf
  cases hf

theorem setFile {n : ℕ} (href : x.ref + xf f = (ft f).ref + n) (hclosed : x.ref = 0 → x.type = .none)
    (hpipe : ∀ a, x.type = .pipe a ↔ (ft f).type = .pipe a) (hw : ∀ a, x.type = .pipe a → x.writable = (ft f).writable) :
    Books (update ft f x) of pi (update xf f n) := by
  have hends : ∀ g a b, ((update ft f x g).type = .pipe a ∧ (update ft f x g).writable = b) ↔
    ((ft g).type = .pipe a ∧ (ft g).writable = b) := by
    intro g a b
    by_cases hg : g = f
    · subst hg
      rw [update_self, ← hpipe a]
      exact and_congr_right fun hx => by rw [hw a hx]
    · rw [update_of_ne hg]
  refine ⟨fun g => ?_, fun g hg => ?_, fun a q hq => ?_, fun a q hq => ?_, fun g g' a hg hg' hw' => ?_, fun g a hg => ?_⟩
  · have := h.refs g
    by_cases hg : g = f
    · subst hg
      rw [update_self, update_self]
      omega
    · rw [update_of_ne hg, update_of_ne hg, this]
  · by_cases hgf : g = f
    · subst hgf
      rw [update_self] at hg ⊢
      exact hclosed hg
    · rw [update_of_ne hgf] at hg ⊢
      exact h.closed g hg
  · rw [h.reading a q hq]
    exact exists_congr fun g => (hends g a false).symm
  · rw [h.writing a q hq]
    exact exists_congr fun g => (hends g a true).symm
  · obtain ⟨h1, h2⟩ := (hends g a _).mp ⟨hg, rfl⟩
    obtain ⟨h1', h2'⟩ := (hends g' a _).mp ⟨hg', rfl⟩
    exact h.single g g' a h1 h1' (by rw [h2, h2', hw'])
  · exact h.piped g a ((hends g a _).mp ⟨hg, rfl⟩).1

theorem alloc (h0 : (ft f).ref = 0) : Books (update ft f { ft f with ref := 1 }) of pi (update xf f (xf f + 1)) := by
  refine h.setFile (by simp only; omega) (fun h => absurd h (by simp)) (fun a => Iff.rfl) fun _ _ => rfl

theorem dup (f : FileId) : Books (update ft f { ft f with ref := (ft f).ref + 1 }) of pi (update xf f (xf f + 1)) := by
  refine h.setFile (by simp only; omega) (fun h => absurd h (by simp)) (fun a => Iff.rfl) fun _ _ => rfl

end

theorem setOfile (h : Books ft of pi xf) {y : Option FileId} {xf' : FileId → ℕ}
    (hx : ∀ g, xf' g + (if y = some g then 1 else 0) = xf g + if of p fd = some g then 1 else 0) :
    Books ft (update of p (update (of p) fd y)) pi xf' := by
  have hslots : slotsOf (update of p (update (of p) fd y)) = update (slotsOf of) (p, fd) y := by
    funext ⟨q, e⟩
    by_cases hq : q = p
    · subst hq
      by_cases he : e = fd
      · simp [slotsOf, he]
      · simp [slotsOf, he]
    · simp [slotsOf, hq]
  refine ⟨fun g => ?_, h.closed, h.reading, h.writing, h.single, h.piped⟩
  have hc := count_update (slotsOf of) (p, fd) y g
  have := hx g
  rw [hslots, h.refs g]
  change _ + (if of p fd = some g then 1 else 0) = _ at hc
  omega

theorem takeBack (h : Books ft of pi xf) (hfd : of p fd = some f) :
    Books ft (update of p (update (of p) fd none)) pi (update xf f (xf f + 1)) := by
  refine h.setOfile fun g => ?_
  by_cases hg : g = f
  · simp [hg, hfd]
  · simp [hg, Ne.symm hg, hfd]

def shut (q : Pipe) (writable : Bool) : Pipe := if writable then { q with writeopen := false } else { q with readopen := false }

section

variable (h : Books ft of pi (update xf f (xf f + 1)))

include h

theorem drop (href : 0 < (ft f).ref - 1) : Books (update ft f { ft f with ref := (ft f).ref - 1 }) of pi xf := by
  have := h.setFile (x := { ft f with ref := (ft f).ref - 1 }) (n := xf f) (by simp only [update_self]; omega)
    (fun h => absurd h (by simp only; omega)) (fun a => Iff.rfl) fun _ _ => rfl
  rwa [update_idem, update_eq_self] at this

theorem give (hfd : of p fd = none) : Books ft (update of p (update (of p) fd (some f))) pi xf := by
  refine h.setOfile fun g => ?_
  by_cases hg : g = f
  · simp [hg, hfd]
  · simp [hg, Ne.symm hg, hfd]

theorem close (href : (ft f).ref = 1) (hno : ∀ a, (ft f).type ≠ .pipe a) :
    Books (update ft f { ft f with ref := 0, type := .none }) of pi xf := by
  have := h.setFile (x := { ft f with ref := 0, type := .none }) (n := xf f) (by simp only [update_self]; omega)
    (fun _ => rfl) (fun a => ⟨fun hx => (by cases hx), fun hx => absurd hx (hno a)⟩) fun _ hx => (by cases hx)
  rwa [update_idem, update_eq_self] at this

theorem closePipe {q : Pipe} (href : (ft f).ref = 1) (hf : (ft f).type = .pipe a)
    (hq : pi a = some q) : Books (update ft f { ft f with ref := 0, type := .none }) of
      (update pi a (if (shut q (ft f).writable).readopen = false ∧ (shut q (ft f).writable).writeopen = false then none
        else some (shut q (ft f).writable))) xf := by
  have hends : ∀ g a', (update ft f { ft f with ref := 0, type := .none } g).type = .pipe a' ↔ g ≠ f ∧
    (ft g).type = .pipe a' := by
    intro g a'
    by_cases hg : g = f
    · simp [hg]
    · simp [hg]
  have hother : ∀ g, g ≠ f → (ft g).type = .pipe a → (ft g).writable ≠ (ft f).writable := fun g hg ht hw =>
    hg (h.single g f a ht hf hw)
  have hrest : ∀ a' b, a' ≠ a → ((∃ g, (ft g).type = .pipe a' ∧ (ft g).writable = b) ↔
      ∃ g, (update ft f { ft f with ref := 0, type := .none } g).type = .pipe a' ∧
        (update ft f { ft f with ref := 0, type := .none } g).writable = b) := by
    intro a' b ha
    refine exists_congr fun g => ?_
    by_cases hg : g = f
    · subst hg
      simp [hf, ha.symm]
    · simp [hg]
  have hsame : ∀ b, (∃ g, (update ft f { ft f with ref := 0, type := .none } g).type = .pipe a ∧
      (update ft f { ft f with ref := 0, type := .none } g).writable = b) ↔
        b ≠ (ft f).writable ∧ ∃ g, (ft g).type = .pipe a ∧ (ft g).writable = b := by
    intro b
    constructor
    · rintro ⟨g, hg, hb⟩
      obtain ⟨hgf, ht⟩ := (hends g a).mp hg
      rw [update_of_ne hgf] at hb
      exact ⟨hb ▸ hother g hgf ht, g, ht, hb⟩
    · rintro ⟨hb, g, ht, hgb⟩
      have hgf : g ≠ f := fun he => hb (by rw [← hgb, he])
      exact ⟨g, (hends g a).mpr ⟨hgf, ht⟩, by rw [update_of_ne hgf, hgb]⟩
  have hr : (shut q (ft f).writable).readopen = true ↔ false ≠ (ft f).writable ∧ q.readopen = true := by
    cases (ft f).writable <;> simp [shut]
  have hw : (shut q (ft f).writable).writeopen = true ↔ true ≠ (ft f).writable ∧ q.writeopen = true := by
    cases (ft f).writable <;> simp [shut]
  refine ⟨fun g => ?_, fun g hg => ?_, fun a' q' hq' => ?_, fun a' q' hq' => ?_, fun g g' a' hg hg' hw' => ?_,
    fun g a' hg => ?_⟩
  · have := h.refs g
    by_cases hg : g = f
    · subst hg
      rw [update_self] at this ⊢
      simp only
      omega
    · rw [update_of_ne hg] at this ⊢
      exact this
  · by_cases hgf : g = f
    · simp [hgf]
    · rw [update_of_ne hgf] at hg ⊢
      exact h.closed g hg
  · by_cases ha : a' = a
    · subst ha
      rw [update_self] at hq'
      split_ifs at hq'
      cases hq'
      rw [hr, h.reading a' q hq, hsame]
    · rw [update_of_ne ha] at hq'
      rw [h.reading a' q' hq', hrest a' false ha]
  · by_cases ha : a' = a
    · subst ha
      rw [update_self] at hq'
      split_ifs at hq'
      cases hq'
      rw [hw, h.writing a' q hq, hsame]
    · rw [update_of_ne ha] at hq'
      rw [h.writing a' q' hq', hrest a' true ha]
  · obtain ⟨h1, h2⟩ := (hends g a').mp hg
    obtain ⟨h1', h2'⟩ := (hends g' a').mp hg'
    rw [update_of_ne h1, update_of_ne h1'] at hw'
    exact h.single g g' a' h2 h2' hw'
  · obtain ⟨h1, h2⟩ := (hends g a').mp hg
    by_cases ha : a' = a
    · subst ha
      rw [update_self, if_neg]
      · rfl
      rintro ⟨hr0, hw0⟩
      have hne := hother g h1 h2
      cases hb : (ft g).writable with
      | false =>
        have := hr.mpr ⟨hb ▸ hne, (h.reading a' q hq).mpr ⟨g, h2, hb⟩⟩
        simp [hr0] at this
      | true =>
        have := hw.mpr ⟨hb ▸ hne, (h.writing a' q hq).mpr ⟨g, h2, hb⟩⟩
        simp [hw0] at this
    · rw [update_of_ne ha]
      exact h.piped g a' h2

end

theorem newPipe {rf wf : FileId} (h : Books ft of pi xf) (ha : pi a = none) (hne : rf ≠ wf) (hr : (ft rf).type = .none)
    (hw : (ft wf).type = .none) (hr0 : (ft rf).ref ≠ 0) (hw0 : (ft wf).ref ≠ 0) :
    Books (update (update ft rf { ft rf with type := .pipe a, readable := true, writable := false }) wf
      { ft wf with type := .pipe a, readable := false, writable := true }) of (update pi a (some ⟨true, true⟩)) xf := by
  have hnone : ∀ g, (ft g).type ≠ .pipe a := by
    intro g hg
    have := h.piped g a hg
    simp [ha] at this
  have hfile : ∀ g, update (update ft rf { ft rf with type := .pipe a, readable := true, writable := false }) wf
      { ft wf with type := .pipe a, readable := false, writable := true } g =
      if g = wf then { ft wf with type := .pipe a, readable := false, writable := true }
      else if g = rf then { ft rf with type := .pipe a, readable := true, writable := false } else ft g := by
    intro g
    by_cases hgw : g = wf
    · simp [hgw]
    · by_cases hgr : g = rf
      · simp [hgr, hne]
      · simp [hgw, hgr]
  generalize update (update ft rf _) wf _ = ft' at hfile
  have hrest : ∀ g a', a' ≠ a → ((ft' g).type = .pipe a' ↔ (ft g).type = .pipe a') := by
    intro g a' ha'
    rw [hfile]
    split_ifs with h1 h2
    · simp [h1, hw, ha'.symm]
    · simp [h2, hr, ha'.symm]
    · rfl
  have hkeep : ∀ g a', a' ≠ a → (ft g).type = .pipe a' → ft' g = ft g := by
    intro g a' ha' hg
    rw [hfile]
    split_ifs with h1 h2
    · rw [h1, hw] at hg
      cases hg
    · rw [h2, hr] at hg
      cases hg
    · rfl
  have hends : ∀ g, (ft' g).type = .pipe a → (ft' g).writable = decide (g = wf) ∧ (g = wf ∨ g = rf) := by
    intro g hg
    rw [hfile] at hg ⊢
    split_ifs at hg ⊢ with h1 h2
    · simp [h1]
    · simp [h2, hne]
    · exact absurd hg (hnone g)
  have hpipe : ∀ a' b, a' ≠ a → ((∃ g, (ft g).type = .pipe a' ∧ (ft g).writable = b) ↔ ∃ g, (ft' g).type = .pipe a' ∧
    (ft' g).writable = b) := by
    intro a' b ha'
    refine exists_congr fun g => ?_
    rw [hrest g a' ha']
    exact and_congr_right fun hg => by rw [hkeep g a' ha' hg]
  refine ⟨fun g => ?_, fun g hg => ?_, fun a' q hq => ?_, fun a' q hq => ?_, fun g g' a' hg hg' hww => ?_, fun g a' hg => ?_⟩
  · rw [← h.refs g, hfile]
    split_ifs with h1 h2
    · rw [h1]
    · rw [h2]
    · rfl
  · rw [hfile] at hg ⊢
    split_ifs at hg ⊢ with h1 h2
    · exact absurd hg hw0
    · exact absurd hg hr0
    · exact h.closed g hg
  · by_cases ha' : a' = a
    · subst ha'
      rw [update_self] at hq
      cases hq
      simp only [true_iff]
      exact ⟨rf, by rw [hfile, if_neg hne, if_pos rfl]; exact ⟨rfl, rfl⟩⟩
    · rw [update_of_ne ha'] at hq
      rw [h.reading a' q hq, hpipe a' false ha']
  · by_cases ha' : a' = a
    · subst ha'
      rw [update_self] at hq
      cases hq
      simp only [true_iff]
      exact ⟨wf, by rw [hfile, if_pos rfl]; exact ⟨rfl, rfl⟩⟩
    · rw [update_of_ne ha'] at hq
      rw [h.writing a' q hq, hpipe a' true ha']
  · by_cases ha' : a' = a
    · subst ha'
      obtain ⟨h1, h2⟩ := hends g hg
      obtain ⟨h1', h2'⟩ := hends g' hg'
      rw [h1, h1', decide_eq_decide] at hww
      rcases h2 with rfl | rfl
      · exact (hww.mp rfl).symm
      · rcases h2' with rfl | rfl
        · exact hww.mpr rfl
        · rfl
    · have ht := (hrest g a' ha').mp hg
      have ht' := (hrest g' a' ha').mp hg'
      rw [hkeep g a' ha' ht, hkeep g' a' ha' ht'] at hww
      exact h.single g g' a' ht ht' hww
  · by_cases ha' : a' = a
    · simp [ha']
    · rw [update_of_ne ha']
      exact h.piped g a' ((hrest g a' ha').mp hg)

end Books

end Laboratorio.Fs
