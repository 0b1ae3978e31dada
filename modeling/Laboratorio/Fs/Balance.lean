import Laboratorio.Procs.Exit
import Laboratorio.Fs.Mkfs
import Laboratorio.Fs.Accounts

namespace Laboratorio.Fs

open Function Runs
open Procs (Slot Ptable)

section cellRefs

variable {t : FileId → File} {w : Slot → Option Cell} {y : Cell → ℕ} {f : FileId} {x : File} {c : Cell} {p : Slot}

theorem cellRefs_plus : cellRefs t w (plus y c) = plus (cellRefs t w y) c := by
  funext c'
  simp only [cellRefs, plus_apply]
  omega

theorem count_update_some {ι : Type} [Fintype ι] [DecidableEq ι] {g : ι → Option Cell} {i : ι} (h : g i = none) :
    count (update g i (some c)) = plus (count g) c := by
  funext c'
  simpa [h, plus_apply, eq_comm] using count_update g i (some c) c'

theorem cells_update : (fun g => (update t f x g).cell) = update (fun g => (t g).cell) f x.cell := by
  funext g
  by_cases hg : g = f
  · simp [hg]
  · simp [hg]

theorem cellRefs_same (h : x.cell = (t f).cell) : cellRefs (update t f x) w y = cellRefs t w y := by
  have hself : update (fun g => (t g).cell) f x.cell = fun g => (t g).cell := by rw [h]; exact update_eq_self f _
  funext c
  rw [cellRefs, cells_update, hself]
  rfl

theorem cellRefs_open (h : (t f).cell = none) (hx : x.cell = some c) :
    cellRefs (update t f x) w y = plus (cellRefs t w y) c := by
  funext c'
  rw [cellRefs, cells_update, hx, count_update_some (g := fun g => (t g).cell) h]
  simp only [cellRefs, plus_apply]
  omega

theorem cellRefs_close (h : (t f).cell = some c) (hx : x.cell = none) :
    cellRefs t w y = plus (cellRefs (update t f x) w y) c := by
  have := cellRefs_open (t := update t f x) (w := w) (y := y) (by rwa [update_self]) h
  rwa [update_idem, update_eq_self] at this

theorem cellRefs_cwd (h : w p = none) : cellRefs t (update w p (some c)) y = plus (cellRefs t w y) c := by
  funext c'
  rw [cellRefs, count_update_some h]
  simp only [cellRefs, plus_apply]
  omega

theorem cellRefs_leave (h : w p = some c) : cellRefs t w y = plus (cellRefs t (update w p none) y) c := by
  have := cellRefs_cwd (t := t) (w := update w p none) (y := y) (c := c) (update_self _ _ _)
  rwa [update_idem, ← h, update_eq_self] at this

theorem cellRefs_pos (h : w p = some c) : 0 < cellRefs t w y c := by
  rw [cellRefs_leave h]
  exact plus_self_pos _ _

theorem cellRefs_pos_file (h : (t f).type = .inode c) (href : 0 < (t f).ref) : 0 < cellRefs t w y c := by
  have := count_pos (g := fun g => (t g).cell) (i := f) (b := c) (by simp [File.cell, h, href])
  unfold cellRefs
  omega

end cellRefs

/-- The state between calls, or within one that holds the file references `xf`, the inode references `y` and the locks `l`. -/
structure Accounts (k : Kernel) (xf : FileId → ℕ) (y : Cell → ℕ) (l : Cell → Bool) : Prop where
  books : Books k.ftable k.ofile k.pipes xf
  cells : At k.fs (cellRefs k.ftable k.cwd y) l
  tenure : Tenure k.ptable k.ofile k.cwd

abbrev Balanced (k : Kernel) : Prop := Accounts k (fun _ => 0) (fun _ => 0) fun _ => false

abbrev Balances {α : Type} (prog : KernelM α) (k : Kernel) : Prop := wp prog k (fun _ => Balanced) Fault.Other

variable {k : Kernel} {xf : FileId → ℕ} {y : Cell → ℕ} {l : Cell → Bool} {f : FileId} {p : Slot} {α : Type}

theorem Balances.void {prog : KernelM α} (h : Balances prog k) : Balances (prog >>= fun _ => pure ()) k :=
    wp_seq h fun _ _ h => wp_ret h

theorem Accounts.fs {s : FsState} (h : Accounts k xf y l) (ha : At s (cellRefs k.ftable k.cwd y) l) :
    Accounts { k with fs := s } xf y l :=
  ⟨h.books, ha, h.tenure⟩

theorem Accounts.cwd (h : Accounts k xf y l) (hp : (k.ptable.proc p).canRun = true) :
    ∃ c, k.cwd p = some c ∧ 0 < cellRefs k.ftable k.cwd y c := by
  have hst : k.ptable.states p = .runnable ∨
    k.ptable.states p = .running := by simpa [Procs.Proc.canRun, Ptable.states] using hp
  have ht := h.tenure p
  rw [if_neg (by rcases hst with h | h <;> simp [h])] at ht
  obtain ⟨c, hc⟩ := Option.isSome_iff_exists.mp ht
  exact ⟨c, hc, cellRefs_pos hc⟩

variable {t : Ptable} {of : Slot → Fd → Option FileId} {cwd : Slot → Option Cell}

theorem Tenure.setOfile (h : Tenure t of cwd) {fd : Fd}
    {x : Option FileId} (hx : x = none ∨ ¬ (t.states p = .unused ∨ t.states p = .zombie)) :
    Tenure t (update of p (update (of p) fd x)) cwd := by
  intro q
  have hq := h q
  split_ifs at hq ⊢ with hd
  · refine ⟨hq.1, fun e => ?_⟩
    by_cases hqp : q = p
    · subst hqp
      rw [update_self]
      by_cases he : e = fd
      · rw [he, update_self]
        exact hx.resolve_right (not_not_intro hd)
      · rw [update_of_ne he]
        exact hq.2 e
    · rw [update_of_ne hqp]
      exact hq.2 e
  · exact hq

theorem Tenure.setCwd (h : Tenure t of cwd)
    (hp : ¬ (t.states p = .unused ∨ t.states p = .zombie)) (c : Cell) : Tenure t of (update cwd p (some c)) := by
  intro q
  have hq := h q
  by_cases hqp : q = p
  · subst hqp
    rw [if_neg hp, update_self]
    rfl
  · rwa [update_of_ne hqp]

theorem Tenure.table {t' : Ptable} (h : Tenure t of cwd)
    (ht : ∀ p, (t'.states p = .unused ∨ t'.states p = .zombie) ↔ (t.states p = .unused ∨ t.states p = .zombie)) :
    Tenure t' of cwd := by
  intro p
  have := h p
  simpa only [ht p] using this

theorem Tenure.exit (h : Tenure t of cwd)
    (hof : ∀ fd, of p fd = none) (ip : Slot) : Tenure (Procs.exit t p ip) of (update cwd p none) := by
  have hexit := Procs.exit_exited t p ip
  intro q
  by_cases hq : q = p
  · subst hq
    rw [if_pos (.inr hexit.zombie)]
    exact ⟨update_self _ _ _, hof⟩
  · have hw := hexit.state q hq
    simpa only [hw.eq_iff (x := .unused) (by simp) (by simp), hw.eq_iff (x := .zombie) (by simp) (by simp),
      update_of_ne hq] using h q

theorem alive_of_canRun (hp : (t.proc p).canRun = true) : ¬ (t.states p = .unused ∨ t.states p = .zombie) := by
  have hst : t.states p = .runnable ∨ t.states p = .running := by simpa [Procs.Proc.canRun, Ptable.states] using hp
  rcases hst with h | h <;> simp [h]

theorem balanced_onFs {m : FsM α} (h : Balanced k)
    (hm : wpr (Stays (cellRefs k.ftable k.cwd fun _ => 0)) m k.fs
    (fun _ t => At t (cellRefs k.ftable k.cwd fun _ => 0) fun _ => false) Fault.Other) : Balances (onFs m) k := by
  rw [Balances, wp_onFs]
  exact wp_mono hm fun _ s hs => h.fs hs.1

theorem Balances.onFile {g : FileId → KernelM (Option α)} (h : Balanced k) (fd : Fd)
    (hg : ∀ f, 0 < (k.ftable f).ref → Balances (g f) k) : Balances (do
      match (← get).ofile p fd with
      | none => return none
      | some f => g f) k := by
  rw [Balances, wp_bind, wp_get]
  cases hfd : k.ofile p fd with
  | none => exact wp_ret h
  | some f => exact hg f (h.books.ref_pos hfd)

theorem balanced_sysDup {fd : Fd} (h : Balanced k) (hp : (k.ptable.proc p).canRun = true) : Balances (sysDup p fd) k := by
  rw [Balances, sysDup, wp_bind, wp_get]
  cases hfd : k.ofile p fd with
  | none => exact wp_ret h
  | some f =>
    rw [wp_bind]
    refine wp_fdalloc (fun _ => wp_ret h) fun fd' hfd' => ?_
    rw [wp_bind]
    refine wp_filedup (h.books.ref_pos hfd)
      (wp_ret ⟨(h.books.dup f).give hfd', ?_, h.tenure.setOfile (.inr (alive_of_canRun hp))⟩)
    have href := h.books.ref_pos hfd
    have hcell : cellRefs (update k.ftable f { k.ftable f with ref := (k.ftable f).ref + 1 }) k.cwd (fun _ => 0) =
      cellRefs k.ftable k.cwd fun _ => 0 := cellRefs_same (by simp only [File.cell, href, Nat.succ_pos])
    change At k.fs (cellRefs (update k.ftable f { k.ftable f with ref := (k.ftable f).ref + 1 }) k.cwd fun _ => 0) _
    rw [hcell]
    exact h.cells

theorem Accounts.addOff (h : Accounts k xf y l) (f : FileId) (n : ℕ) :
    Accounts (k.setFile f { k.ftable f with off := ((k.ftable f).off + n) % 2 ^ 32 }) xf y l := by
  have hb := h.books.setFile (x := { k.ftable f with off := ((k.ftable f).off + n) % 2 ^ 32 }) rfl (h.books.closed f)
    (fun _ => Iff.rfl) fun _ _ => rfl
  rw [update_eq_self] at hb
  refine ⟨hb, ?_, h.tenure⟩
  change At k.fs (cellRefs (update k.ftable f { k.ftable f with off := ((k.ftable f).off + n) % 2 ^ 32 }) k.cwd y) l
  rw [cellRefs_same (by simp [File.cell])]
  exact h.cells

theorem Books.inode_pos {ft : FileId → File} {pi : ℕ → Option Pipe} (h : Books ft of pi xf) {c : Cell}
    (hf : (ft f).type = .inode c) : 0 < (ft f).ref := by
  refine Nat.pos_of_ne_zero fun h0 => ?_
  rw [h.closed f h0] at hf
  cases hf

theorem wp_forkFiles {cur np : Slot} {fds : List Fd} {Q : Unit → Kernel → Prop} (hb : Books k.ftable k.ofile k.pipes fun _ => 0)
    (hnodup : fds.Nodup) (hnp : ∀ fd ∈ fds, k.ofile np fd = none)
    (hQ : ∀ ft of, Books ft of k.pipes (fun _ => 0) → (∀ cwd y, cellRefs ft cwd y = cellRefs k.ftable cwd y) →
    (∀ q, q ≠ np → of q = k.ofile q) →
      Q () { k with ftable := ft, ofile := of }) : wp (forkFiles cur np fds) k Q Fault.Other := by
  induction fds generalizing k with
  | nil => exact wp_ret (hQ k.ftable k.ofile hb (fun _ _ => rfl) fun _ _ => rfl)
  | cons fd fds ih =>
    obtain ⟨hfd, hnodup⟩ := List.nodup_cons.mp hnodup
    rw [forkFiles, wp_bind, wp_get]
    cases hf : k.ofile cur fd with
    | none =>
      refine ih hb hnodup (fun e he => hnp e (by simp [he])) hQ
    | some f =>
      have href := hb.ref_pos hf
      rw [wp_bind]
      refine wp_filedup href ?_
      rw [wp_bind, wp_modify]
      refine ih ((hb.dup f).give (hnp fd (by simp))) hnodup (fun e he => ?_) fun ft of hb' hcell hof =>
        hQ ft of hb' (fun cwd y => ?_) fun q hq => ?_
      · have hefd : e ≠ fd := fun h => hfd (h ▸ he)
        simpa [Kernel.setOfile, Kernel.setFile, hefd] using hnp e (by simp [he])
      · rw [hcell cwd y]
        exact cellRefs_same (by simp only [File.cell, href, Nat.succ_pos])
      · rw [hof q hq]
        simp [Kernel.setOfile, Kernel.setFile, hq]

theorem fork_states {t' : Ptable} {cur : Slot} {kstackOk copyOk : Bool} {res : Option Slot}
    (h : Procs.fork t cur kstackOk copyOk = (t', res)) :
    match res with
    | none => t'.states = t.states
    | some np => t.states np = .unused ∧ t'.states = update t.states np .runnable := by
  unfold Procs.fork at h
  cases ha : Procs.allocproc t with
  | none =>
    rw [ha] at h
    obtain ⟨rfl, rfl⟩ := Prod.mk.inj h
    rfl
  | some x =>
    obtain ⟨np, u⟩ := x
    obtain ⟨hunused, hu⟩ := Procs.allocproc_states ha
    have hback : update u.states np .unused = t.states := by rw [hu, update_idem, ← hunused, update_eq_self]
    rw [ha] at h
    split_ifs at h
    · obtain ⟨rfl, rfl⟩ := Prod.mk.inj h
      simpa using hback
    · obtain ⟨rfl, rfl⟩ := Prod.mk.inj h
      simpa using hback
    · obtain ⟨rfl, rfl⟩ := Prod.mk.inj h
      exact ⟨hunused, by simp [hu]⟩

theorem balanced_wait (h : Balanced k) (hp : (k.ptable.proc p).canRun = true) : Balances (wait p) k := by
  rw [Balances, wait, wp_bind, wp_get]
  cases hw : Procs.wait k.ptable p with
  | failed => exact wp_ret h
  | sleep =>
    refine (wp_set _).mpr ⟨h.books, h.cells, h.tenure.table fun q => ?_⟩
    by_cases hq : q = p
    · subst hq
      have := alive_of_canRun hp
      simp [Procs.waitSleep, this]
    · simp [Procs.waitSleep, hq]
  | reaped i pid t =>
    obtain ⟨_, hz, _, hst, _⟩ := Procs.wait_reaped hw
    refine (wp_set _).mpr ⟨h.books, h.cells, h.tenure.table fun q => ?_⟩
    by_cases hq : q = i
    · subst hq
      simp [hst, hz]
    · simp [hst, hq]

theorem balanced_fork {kstackOk copyOk : Bool} (h : Balanced k) (hp : (k.ptable.proc p).canRun = true) :
    Balances (fork p kstackOk copyOk) k := by
  obtain ⟨c, hc, hpos⟩ := h.cwd hp
  rw [Balances, fork, wp_bind, wp_get]
  cases hfork : Procs.fork k.ptable p kstackOk copyOk with
  | mk t res =>
    have hst := fork_states hfork
    cases res with
    | none =>
      rw [wp_bind, wp_set]
      refine wp_ret ⟨h.books, h.cells, h.tenure.table fun q => ?_⟩
      rw [hst]
    | some np =>
      obtain ⟨hunused, hst⟩ := hst
      have hnp := h.tenure np
      rw [if_pos (.inl hunused)] at hnp
      rw [wp_bind, wp_set, wp_bind]
      refine wp_forkFiles h.books (List.nodup_finRange _) (fun fd _ => hnp.2 fd) fun ft of hb hcell hof => ?_
      simp only [hc]
      rw [wp_bind, wp_onFs]
      have hcells : At k.fs (cellRefs ft k.cwd fun _ => 0) fun _ => false := by
        rw [hcell]
        exact h.cells
      refine wp_mono (at_idup hcells (by rwa [hcell])) ?_
      rintro c' s ⟨⟨rfl, hs⟩, _⟩
      rw [wp_bind, wp_modify]
      refine wp_ret ⟨hb, ?_, fun q => ?_⟩
      · change At s (cellRefs ft (update k.cwd np (some c')) fun _ => 0) _
        rw [cellRefs_cwd hnp.1]
        exact hs
      · have hq := h.tenure q
        by_cases hqn : q = np
        · subst hqn
          simp [Kernel.setCwd, hst]
        · simpa [Kernel.setCwd, hst, hqn, hof q hqn] using hq

theorem balanced_boot (blocks : ℕ → Bytes) : Balanced (Kernel.boot blocks) := by
  have hrefs : ∀ c : Cell, cellRefs (Kernel.boot blocks).ftable (Kernel.boot blocks).cwd (fun _ => 0) c = if c =
    0 then 1 else 0 := by
    intro c
    have h1 : count (fun f => ((Kernel.boot blocks).ftable f).cell) c = 0 :=
      count_eq_zero fun f => by simp [Kernel.boot, File.cell]
    have h2 := count_update (fun _ : Slot => (none : Option Cell)) 0 (some 0) c
    have h3 : count (fun _ : Slot => (none : Option Cell)) c = 0 := count_eq_zero fun _ => by simp
    simp only [h3, reduceCtorEq, if_false, Nat.add_zero, Nat.zero_add, Option.some.injEq, eq_comm (a := (0 : Cell))] at h2
    simp only [cellRefs, h1, Nat.add_zero, Nat.zero_add]
    exact h2
  refine ⟨⟨fun f => ?_, fun _ _ => rfl, fun a q hq => by simp [Kernel.boot] at hq, fun a q hq => by simp [Kernel.boot] at hq,
    fun f f' a hf => by simp [Kernel.boot] at hf, fun f a hf => by simp [Kernel.boot] at hf⟩,
    ⟨fun c => ?_, fun c => ?_, ?_⟩, fun p => ?_⟩
  · rw [count_eq_zero fun x => by simp [slotsOf, Kernel.boot]]
    rfl
  · rw [hrefs]
    by_cases hc : c = 0
    · simp [Kernel.boot, hc]
    · simp [Kernel.boot, hc]
  · by_cases hc : c = 0
    · simp [Kernel.boot, hc]
    · simp [Kernel.boot, hc]
  · intro c c' hc hc' _ _
    rw [hrefs] at hc hc'
    split_ifs at hc hc' with h h'
    · rw [h, h']
    all_goals omega
  · by_cases hp : p = 0
    · subst hp
      simp [Kernel.boot, Ptable.states, Procs.bootTable]
    · simp [Kernel.boot, Ptable.states, Procs.bootTable, Procs.bssProc, hp]

section calls

variable [Superblock]

theorem wp_fileclose (of : Slot → Fd → Option FileId) (xf : FileId → ℕ) {Q : Unit → Kernel → Prop}
    (hb : Books k.ftable of k.pipes (update xf f (xf f + 1))) (ha : At k.fs (cellRefs k.ftable k.cwd y) l)
    (hQ : ∀ s ft pi, Books ft of pi xf → At s (cellRefs ft k.cwd y) l → Stays (cellRefs ft k.cwd y) k.fs s →
      Q () { k with fs := s, ftable := ft, pipes := pi }) : wp (fileclose f) k Q Fault.Other := by
  have href : 0 < (k.ftable f).ref := by
    rw [hb.refs, update_self]
    omega
  rw [fileclose, wp_bind, wp_get, wp_ite]
  refine ⟨fun h => absurd h (by omega), fun _ => ?_⟩
  rw [wp_ite]
  refine ⟨fun hpos => ?_, fun hpos => ?_⟩
  · rw [wp_set]
    have hcell : cellRefs (update k.ftable f { k.ftable f with ref := (k.ftable f).ref - 1 }) k.cwd y =
      cellRefs k.ftable k.cwd y := by
      refine cellRefs_same ?_
      simp only [File.cell, hpos, href]
    exact hQ k.fs _ k.pipes (hb.drop hpos) (by rwa [hcell]) (refl _)
  have href1 : (k.ftable f).ref = 1 := by omega
  rw [wp_bind, wp_set]
  cases htype : (k.ftable f).type with
  | none =>
    refine wp_ret (hQ k.fs _ k.pipes (hb.close href1 fun a => by simp [htype]) ?_ (refl _))
    rwa [cellRefs_same (by simp [File.cell, htype])]
  | pipe a =>
    obtain ⟨q, hq⟩ := Option.isSome_iff_exists.mp (hb.piped f a htype)
    simp only
    rw [pipeclose, wp_bind, wp_get]
    simp only [Kernel.setFile, hq]
    rw [wp_set]
    refine hQ k.fs _ _ (hb.closePipe href1 htype hq) ?_ (refl _)
    rwa [cellRefs_same (by simp [File.cell, htype])]
  | inode c =>
    have hclose := cellRefs_close (w := k.cwd) (y := y) (f := f) (x := { k.ftable f with ref := 0, type := .none })
      (t := k.ftable) (c := c) (by simp [File.cell, htype, href]) (by simp [File.cell])
    rw [wp_bind, wp_onFs]
    rw [hclose] at ha
    have hu := (Under.refl (cellRefs (update k.ftable f { k.ftable f with ref := 0, type := .none }) k.cwd y)).plus c
    refine wp_mono (hu.call (quiet_beginOp.at ha)) fun _ s1 h1 => ?_
    refine wp_onFs_seq (at_iput h1.1) fun _ s2 h2 => ?_
    rw [wp_onFs]
    refine wp_mono (quiet_endOp.at h2.1) fun _ s3 h3 => ?_
    exact hQ s3 _ k.pipes (hb.close href1 fun a => by simp [htype]) h3.1 (Trans.trans (Trans.trans h1.2 h2.2) h3.2)

def opened (x : File) (ip : Cell) (omode : ℕ) : File where
  type := .inode ip
  ref := x.ref
  readable := omode &&& oWronly = 0
  writable := omode &&& oWronly ≠ 0 ∨ omode &&& oRdwr ≠ 0
  off := 0

omit [Superblock] in
theorem wp_addOff_iunlock {ip : Cell} {n : ℕ} {g : Unit → KernelM α} {Q : α → Kernel → Prop}
    (h : Accounts k (fun _ => 0) (fun _ => 0) (update (fun _ => false) ip true)) (htype : (k.ftable f).type = .inode ip)
    (hg : ∀ k', Balanced k' → (k'.ftable f).type = .inode ip → wp (g ()) k' Q Fault.Other) :
    wp (do addOff f n; onFs (iunlock ip) >>= g) k Q Fault.Other := by
  have h' := h.addOff f n
  rw [wp_bind, addOff, wp_modify]
  refine wp_onFs_seq (at_iunlock h'.cells ?_ rfl) fun _ s hs => hg _ ⟨h'.books, hs.1, h'.tenure⟩
    (by simp [Kernel.setFile, htype])
  change 0 < cellRefs (update k.ftable f _) k.cwd _ ip
  rw [cellRefs_same (by simp [File.cell])]
  exact cellRefs_pos_file htype (h.books.inode_pos htype)

theorem balanced_filewriteLoop {ip : Cell} {other : Option ℕ} {fuel : ℕ} {src : List UInt8} (h : Balanced k)
    (htype : (k.ftable f).type = .inode ip) : Balances (filewriteLoop f ip other fuel src) k := by
  induction fuel generalizing src k with
  | zero => exact wp_ret h
  | succ fuel ih =>
    have hpos : 0 < cellRefs k.ftable k.cwd (fun _ => 0) ip := cellRefs_pos_file htype (h.books.inode_pos htype)
    rw [Balances, filewriteLoop, wp_ite]
    refine ⟨fun _ => wp_ret h, fun _ => ?_⟩
    refine wp_onFs_seq (quiet_beginOp.at h.cells) fun _ s0 h0 => ?_
    refine wp_onFs_seq (at_ilock h0.1 hpos) fun _ s1 ⟨⟨hl, h1⟩, _⟩ => ?_
    rw [wp_bind, wp_get]
    refine wp_onFs_seq ((quiet_writei _ ip _ _).at h1) fun r s2 h2 => wp_addOff_iunlock ⟨h.books, h2.1, h.tenure⟩ htype
      fun k3 h3 ht3 => ?_
    refine wp_onFs_seq (quiet_endOp.at h3.cells) fun _ s4 h4 => ?_
    have hbal := h3.fs h4.1
    cases r with
    | none => exact wp_ret hbal
    | some r =>
      rw [wp_ite]
      refine ⟨fun _ => (wp_throw _).mpr rfl, fun _ => ?_⟩
      exact wp_seq (ih hbal ht3) fun _ _ h => wp_ret h

omit [Superblock] in
theorem held_swap {rf wf : FileId} (hne : rf ≠ wf) :
    update (update (fun _ : FileId => 0) rf 1) wf 1 = update (update (fun _ => 0) wf 1) rf
      (update (fun _ => 0) wf 1 rf + 1) := by
  rw [update_of_ne hne, update_comm hne]

theorem wp_closePair {a : α} {rf wf : FileId} {Q : α → Kernel → Prop}
    (hb : Books k.ftable k.ofile k.pipes (update (update (fun _ => 0) rf 1) wf 1)) (hne : rf ≠ wf)
    (ha : At k.fs (cellRefs k.ftable k.cwd fun _ => 0) fun _ => false) (ht : Tenure k.ptable k.ofile k.cwd)
    (hQ : ∀ k', Balanced k' → k'.ptable = k.ptable → Q a k') : wp (do fileclose rf; fileclose wf; pure a) k Q Fault.Other := by
  rw [held_swap hne] at hb
  rw [wp_bind]
  refine wp_fileclose k.ofile (update (fun _ => 0) wf 1) hb ha fun s ft pi hb' ha' _ => ?_
  rw [wp_bind]
  refine wp_fileclose k.ofile (fun _ => 0) hb' ha' fun s ft pi hb' ha' _ => ?_
  exact wp_ret (hQ _ ⟨hb', ha', ht⟩ rfl)

theorem wp_exitFiles {cur : Slot} {fds : List Fd} {Q : Unit → Kernel → Prop} (h : Balanced k)
    (hdone : ∀ fd, fd ∉ fds → k.ofile cur fd = none)
    (hQ : ∀ k', Balanced k' → k'.ptable = k.ptable → k'.cwd = k.cwd → k'.initproc = k.initproc →
    (∀ fd, k'.ofile cur fd = none) → Q () k') : wp (exitFiles cur fds) k Q Fault.Other := by
  induction fds generalizing k with
  | nil => exact wp_ret (hQ k h rfl rfl rfl fun fd => hdone fd (by simp))
  | cons fd fds ih =>
    rw [exitFiles, wp_bind, wp_get]
    cases hf : k.ofile cur fd with
    | none =>
      refine ih h (fun e he => ?_) hQ
      by_cases hefd : e = fd
      · rw [hefd, hf]
      · exact hdone e (by simp [hefd, he])
    | some f =>
      rw [wp_bind]
      refine wp_fileclose (update k.ofile cur (update (k.ofile cur) fd none)) (fun _ => 0)
        (h.books.takeBack hf) h.cells fun s ft pi hb ha _ => ?_
      rw [wp_bind, wp_modify]
      refine ih ⟨hb, ha, h.tenure.setOfile (.inl rfl)⟩ (fun e he => ?_) hQ
      by_cases hefd : e = fd
      · simp [Kernel.setOfile, hefd]
      · simpa [Kernel.setOfile, hefd] using hdone e (by simp [hefd, he])

section

variable (h : Balanced k)
include h

theorem balanced_sysClose {fd : Fd} : Balances (sysClose p fd) k := by
  rw [Balances, sysClose, wp_bind, wp_get]
  cases hfd : k.ofile p fd with
  | none => exact wp_ret h
  | some f =>
    rw [wp_bind, wp_modify, wp_bind]
    refine wp_fileclose (update k.ofile p (update (k.ofile p) fd none)) (fun _ => 0)
      (h.books.takeBack hfd) h.cells fun s ft pi hb ha _ => wp_ret ⟨hb, ha, ?_⟩
    exact h.tenure.setOfile (.inl rfl)

theorem balanced_fileread {n : ℕ} {other : Option (List UInt8)} (href : 0 < (k.ftable f).ref) :
    Balances (fileread f n other) k := by
  rw [Balances, fileread, wp_bind, wp_get, wp_ite]
  refine ⟨fun _ => wp_ret h, fun _ => ?_⟩
  cases htype : (k.ftable f).type with
  | none => exact (wp_throw _).mpr rfl
  | pipe a => exact wp_ret h
  | inode ip =>
    have hpos : 0 < cellRefs k.ftable k.cwd (fun _ => 0) ip := cellRefs_pos_file htype href
    refine wp_onFs_seq (at_ilock h.cells hpos) fun _ s1 ⟨⟨hl, h1⟩, _⟩ => ?_
    exact wp_onFs_seq ((quiet_readi _ ip _ _).at h1) fun r s2 h2 => wp_addOff_iunlock ⟨h.books, h2.1, h.tenure⟩ htype
      fun _ h3 _ => wp_ret h3

theorem balanced_filestat (href : 0 < (k.ftable f).ref) : Balances (filestat f) k := by
  rw [Balances, filestat, wp_bind, wp_get]
  cases htype : (k.ftable f).type with
  | none | pipe a => exact wp_ret h
  | inode ip =>
    have hpos : 0 < cellRefs k.ftable k.cwd (fun _ => 0) ip := cellRefs_pos_file htype href
    refine wp_onFs_seq (at_ilock h.cells hpos) fun _ s1 ⟨⟨hl, h1⟩, _⟩ => ?_
    rw [wp_bind, wp_onFs, stati, wp_bind, wp_inode, wp_pure]
    exact wp_onFs_seq (at_iunlock h1 hpos hl) fun _ s2 h2 => wp_ret ⟨h.books, h2.1, h.tenure⟩

theorem balanced_filewrite {src : List UInt8} {other : Option ℕ} : Balances (filewrite f src other) k := by
  rw [Balances, filewrite, wp_bind, wp_get, wp_ite]
  refine ⟨fun _ => wp_ret h, fun _ => ?_⟩
  cases htype : (k.ftable f).type with
  | none => exact (wp_throw _).mpr rfl
  | pipe a => exact wp_ret h
  | inode ip =>
    exact wp_seq (balanced_filewriteLoop h htype) fun _ _ h => wp_ret h

theorem balanced_pipealloc {page : Option ℕ} {Q : Option (FileId × FileId) → Kernel → Prop}
    (hpage : ∀ a, page = some a → k.pipes a = none) (hnone : ∀ k', Balanced k' → k'.ptable = k.ptable → Q none k')
    (hsome : ∀ rf wf k', Accounts k' (update (update (fun _ => 0) rf 1) wf 1) (fun _ => 0) (fun _ => false) → rf ≠ wf →
      k'.ofile = k.ofile → k'.ptable = k.ptable → Q (some (rf, wf)) k') : wp (pipealloc page) k Q Fault.Other := by
  have hb := h.books
  rw [pipealloc, wp_bind]
  refine wp_filealloc (fun _ => wp_ret (hnone k h rfl)) fun rf hrf => ?_
  have hrnone : (k.ftable rf).type = .none := hb.closed rf hrf
  have hcell : cellRefs (update k.ftable rf { k.ftable rf with ref := 1 }) k.cwd (fun _ => 0) = cellRefs k.ftable k.cwd fun _ =>
    0 := cellRefs_same (by simp [File.cell, hrnone])
  have hcells : At k.fs (cellRefs (update k.ftable rf { k.ftable rf with ref := 1 }) k.cwd fun _ => 0) fun _ => false := by
    rw [hcell]
    exact h.cells
  rw [wp_bind]
  refine wp_filealloc (fun _ => ?_) fun wf hwf => ?_
  · rw [wp_bind]
    refine wp_fileclose k.ofile (fun _ => 0) (hb.alloc hrf) hcells fun s ft pi hb' ha' _ => ?_
    exact wp_ret (hnone _ ⟨hb', ha', h.tenure⟩ rfl)
  have hne : wf ≠ rf := by
    rintro rfl
    simp [Kernel.setFile] at hwf
  have hwf' : (update k.ftable rf { k.ftable rf with ref := 1 } wf).ref = 0 := hwf
  have hb2 := (hb.alloc hrf).alloc hwf'
  rw [update_of_ne hne] at hb2 hwf'
  have hwnone : (k.ftable wf).type = .none := hb.closed wf hwf'
  have hxf : update (update (fun _ : FileId => 0) rf 1) wf (update (fun _ => 0) rf 1 wf + 1) =
    update (update (fun _ => 0) rf 1) wf 1 := by
    rw [update_of_ne hne]
  have hcell2 : cellRefs (update (update k.ftable rf { k.ftable rf with ref := 1 }) wf { k.ftable wf with ref := 1 }) k.cwd
    (fun _ => 0) = cellRefs k.ftable k.cwd fun _ => 0 := by
    rw [cellRefs_same (by simp [File.cell, hwnone, hne]), hcell]
  have hcells2 : At k.fs (cellRefs (update (update k.ftable rf { k.ftable rf with ref := 1 }) wf { k.ftable wf with ref := 1 })
    k.cwd fun _ => 0) fun _ => false := by
    rw [hcell2]
    exact h.cells
  simp only [Kernel.setFile]
  rw [update_of_ne hne]
  cases page with
  | none =>
    rw [zero_add, hxf] at hb2
    exact wp_closePair hb2 hne.symm hcells2 h.tenure hnone
  | some a =>
    rw [wp_bind, wp_modify, wp_bind, wp_modify, wp_bind, wp_modify]
    simp only [Kernel.setPipe]
    rw [zero_add, hxf] at hb2
    generalize hft : update (update k.ftable rf { k.ftable rf with ref := 1 }) wf { k.ftable wf with ref := 1 } =
      ft at hb2 hcells2 ⊢
    have hrf' : (ft rf).type = .none ∧ (ft rf).ref ≠ 0 := by simp [← hft, hne.symm, hrnone]
    have hwf'' : (ft wf).type = .none ∧ (ft wf).ref ≠ 0 := by simp [← hft, hwnone]
    have hnew := hb2.newPipe (hpage a rfl) hne.symm hrf'.1 hwf''.1 hrf'.2 hwf''.2
    rw [update_of_ne hne]
    refine wp_ret (hsome rf wf _ ⟨hnew, ?_, h.tenure⟩ hne.symm rfl rfl)
    rw [cellRefs_same (by simp [File.cell, hne, hwf''.1]), cellRefs_same (by simp [File.cell, hrf'.1])]
    exact hcells2

variable (hp : (k.ptable.proc p).canRun = true)
include hp

theorem balanced_sysOpen {path : List UInt8} {omode : ℕ} : Balances (sysOpen p path omode) k := by
  have hb := h.books
  refine wp_onFs_seq (quiet_beginOp.at h.cells) fun _ s1 h1 => ?_
  rw [wp_bind, wp_get]
  refine wp_onFs_seq (at_openInode h1.1 (h.cwd hp)) ?_
  rintro (_ | ip) s2 ⟨h2, _⟩
  · exact wp_onFs_seq (quiet_endOp.at h2) fun _ s3 h3 => wp_ret (h.fs h3.1)
  obtain ⟨hl, h2⟩ := h2
  have hend : ∀ s ft pi, Books ft k.ofile pi (fun _ => 0) → At s (plus (cellRefs ft k.cwd fun _ => 0) ip)
    (update (fun _ => false) ip true) → Balances (do onFs (iunlockput ip); onFs (onDisk endOp); pure none : KernelM (Option Fd))
    { k with fs := s, ftable := ft, pipes := pi } := by
    intro s ft pi hb hs
    refine wp_onFs_seq (at_iunlockput hs hl) fun _ s3 h3 => ?_
    exact wp_onFs_seq (quiet_endOp.at h3.1) fun _ s4 h4 => wp_ret ⟨hb, h4.1, h.tenure⟩
  rw [wp_bind]
  refine wp_filealloc (fun _ => hend s2 k.ftable k.pipes hb h2) fun f hf => ?_
  rw [wp_bind]
  have hnone : (k.ftable f).type = .none := hb.closed f hf
  have hcell : cellRefs (update k.ftable f { k.ftable f with ref := 1 }) k.cwd (fun _ => 0) = cellRefs k.ftable k.cwd fun _ =>
    0 := cellRefs_same (by simp [File.cell, hnone])
  refine wp_fdalloc (fun _ => ?_) fun fd hfd => ?_
  · rw [wp_bind]
    refine wp_fileclose k.ofile (fun _ => 0) (y := plus (fun _ => 0) ip) (l := update (fun _ => false) ip true) (hb.alloc hf) ?_
      fun s ft pi hb' ha' _ => hend s ft pi hb' ?_
    · rw [cellRefs_plus]
      change At s2 (plus (cellRefs (update k.ftable f { k.ftable f with ref := 1 }) k.cwd fun _ => 0) ip) _
      rwa [hcell]
    · rwa [cellRefs_plus] at ha'
  · refine wp_onFs_seq (at_iunlock h2 (plus_self_pos _ ip) hl) fun _ s3 h3 => ?_
    refine wp_onFs_seq (quiet_endOp.at h3.1) fun _ s4 h4 => ?_
    rw [wp_bind, wp_modify]
    have hopen : Books (update (update k.ftable f { k.ftable f with ref := 1 }) f
      (opened { k.ftable f with ref := 1 } ip omode)) (update k.ofile p (update (k.ofile p) fd (some f))) k.pipes
      (update (fun _ => 0) f 0) := ((hb.alloc hf).give hfd).setFile (by simp [opened]) (fun h => absurd h (by simp [opened]))
      (fun a => by simp [opened, hnone]) fun a ha => by simp [opened] at ha
    have hrefs := cellRefs_open (t := update k.ftable f { k.ftable f with ref := 1 }) (w := k.cwd) (y := fun _ => 0) (f := f)
      (c := ip) (x := opened { k.ftable f with ref := 1 } ip omode) (by simp [File.cell, hnone]) (by simp [File.cell, opened])
    rw [hcell] at hrefs
    refine wp_ret ⟨?_, ?_, h.tenure.setOfile (.inr (alive_of_canRun hp))⟩
    · simpa [Kernel.setFile, Kernel.setOfile, opened] using hopen
    · rw [← hrefs] at h4
      simpa [Kernel.setFile, Kernel.setOfile, opened] using h4.1

theorem balanced_sysChdir {path : List UInt8} : Balances (sysChdir p path) k := by
  obtain ⟨c, hc, _⟩ := h.cwd hp
  have hleave := cellRefs_leave (t := k.ftable) (y := fun _ => 0) hc
  refine wp_onFs_seq (quiet_beginOp.at h.cells) fun _ s0 h0 => ?_
  rw [wp_bind, wp_get]
  refine wp_onFs_seq (at_namei h0.1 (h.cwd hp)) ?_
  rintro (_ | ip) s1 ⟨h1, _⟩
  · exact wp_onFs_seq (quiet_endOp.at h1) fun _ s2 h2 => wp_ret (h.fs h2.1)
  refine wp_onFs_seq (at_ilock h1 (plus_self_pos _ ip)) fun _ s2 ⟨⟨hl, h2⟩, _⟩ => ?_
  rw [wp_bind, wp_onFs, wp_inode, wp_ite]
  refine ⟨fun _ => ?_, fun _ => ?_⟩
  · refine wp_onFs_seq (at_iunlockput h2 hl) fun _ s3 h3 => ?_
    exact wp_onFs_seq (quiet_endOp.at h3.1) fun _ s4 h4 => wp_ret (h.fs h4.1)
  refine wp_onFs_seq (at_iunlock h2 (plus_self_pos _ ip) hl) fun _ s3 ⟨h3, _⟩ => ?_
  simp only [hc]
  rw [wp_bind, wp_onFs]
  rw [Option.elim_some, hleave, plus_comm] at h3
  refine wp_mono (at_iput h3) fun _ s4 h4 => ?_
  refine wp_onFs_seq (quiet_endOp.at h4.1) fun _ s5 h5 => ?_
  rw [wp_bind, wp_modify]
  refine wp_ret ⟨h.books, ?_, h.tenure.setCwd (alive_of_canRun hp) ip⟩
  · have := cellRefs_cwd (t := k.ftable) (w := update k.cwd p none) (y := fun _ => 0) (c := ip) (update_self _ _ _)
    rw [update_idem] at this
    change At s5 (cellRefs k.ftable (update k.cwd p (some ip)) fun _ => 0) _
    rw [this]
    exact h5.1

theorem balanced_sysPipe {page : Option ℕ} (hpage : ∀ a, page = some a → k.pipes a = none) : Balances (sysPipe p page) k := by
  rw [Balances, sysPipe, wp_bind]
  refine balanced_pipealloc h hpage (fun k' h' _ => wp_ret h') fun rf wf k' h' hne hof hpt => ?_
  have hb := h'.books
  have hclose : Balances (do fileclose rf; fileclose wf; pure none : KernelM (Option (Fd × Fd))) k' :=
    wp_closePair hb hne h'.cells h'.tenure fun _ h _ => h
  rw [wp_bind]
  refine wp_fdalloc (fun _ => hclose) fun fd0 hfd0 => ?_
  rw [wp_bind]
  have hp' : (k'.ptable.proc p).canRun = true := by rwa [hpt]
  refine wp_fdalloc (fun _ => ?_) fun fd1 hfd1 => ?_
  · have hback : update k'.ofile p (update (k'.ofile p) fd0 none) = k'.ofile := by rw [← hfd0, update_eq_self, update_eq_self]
    simpa [Kernel.setOfile, hback] using hclose
  · rw [held_swap hne] at hb
    refine wp_ret ⟨?_, h'.cells, ?_⟩
    · exact (hb.give hfd0).give hfd1
    · exact (h'.tenure.setOfile (.inr (alive_of_canRun hp'))).setOfile (.inr (alive_of_canRun hp'))

theorem balanced_exit : Balances (exit p) k := by
  rw [Balances, exit, wp_bind, wp_get, wp_ite]
  refine ⟨fun _ => (wp_throw _).mpr rfl, fun _ => ?_⟩
  rw [wp_bind]
  refine wp_exitFiles h (fun fd hfd => absurd (List.mem_finRange fd) hfd) fun k1 h1 hpt hcwd hinit hof => ?_
  have hp1 : (k1.ptable.proc p).canRun = true := by rwa [hpt]
  obtain ⟨c, hc, _⟩ := h1.cwd hp1
  refine wp_onFs_seq (quiet_beginOp.at h1.cells) fun _ s1 hs1 => ?_
  rw [wp_bind, wp_get]
  simp only [hc]
  rw [wp_bind, wp_onFs]
  have hs1' := hs1.1
  rw [cellRefs_leave hc] at hs1'
  refine wp_mono (at_iput hs1') fun _ s2 hs2 => ?_
  refine wp_onFs_seq (quiet_endOp.at hs2.1) fun _ s3 hs3 => ?_
  rw [wp_bind, wp_modify, wp_modify]
  have hten := h1.tenure.exit hof k1.initproc
  simp only [Kernel.setCwd]
  exact ⟨h1.books, hs3.1, hten⟩

end

theorem balanced_call {c : Call} (h : Balanced k) (ha : k.allows p c = true) : Balances (runCall p c) k := by
  have hp : (k.ptable.proc p).canRun = true := by
    exact (Bool.and_eq_true_iff.mp ha).1
  have hcwd := h.cwd hp
  cases c with
  | opn path omode => exact (balanced_sysOpen h hp).void
  | close fd => exact (balanced_sysClose h).void
  | dup fd => exact (balanced_sysDup h hp).void
  | read fd n other => exact (Balances.onFile h fd fun _ hf => balanced_fileread h hf).void
  | write fd src other => exact (Balances.onFile h fd fun _ _ => balanced_filewrite h).void
  | fstat fd => exact (Balances.onFile h fd fun _ hf => balanced_filestat h hf).void
  | link old new => exact (wp_bind _ _).mpr (wp_get.mpr (balanced_onFs h (at_sysLink h.cells hcwd)).void)
  | unlink path => exact (wp_bind _ _).mpr (wp_get.mpr (balanced_onFs h (at_sysUnlink h.cells hcwd)).void)
  | mkdir path => exact (wp_bind _ _).mpr (wp_get.mpr (balanced_onFs h (at_sysMkdir h.cells hcwd)).void)
  | mknod path major minor => exact (wp_bind _ _).mpr (wp_get.mpr (balanced_onFs h (at_sysMknod h.cells hcwd)).void)
  | chdir path => exact (balanced_sysChdir h hp).void
  | exec path reads => exact (wp_bind _ _).mpr (wp_get.mpr (balanced_onFs h (at_exec h.cells hcwd)))
  | pipe page =>
    refine (balanced_sysPipe h hp ?_).void
    rintro a rfl
    exact Option.isNone_iff_eq_none.mp (Bool.and_eq_true_iff.mp ha).2
  | fork kstackOk copyOk => exact (balanced_fork h hp).void
  | exit => exact balanced_exit h hp
  | wait => exact balanced_wait h hp

theorem balanced_run {blocks : ℕ → Bytes} {as : List (Slot × Call)} (hr : run Kernel.step (Kernel.boot blocks) as = some k) :
    Balanced k := by
  refine invariant (fun k a k' h hs => ?_) (balanced_boot blocks) hr
  unfold Kernel.step at hs
  split_ifs at hs with ha
  have hcall := balanced_call h ha
  split at hs
  · next hrun =>
    cases hs
    have := wp_ok hcall hrun
    exact this
  · cases hs

theorem reference_accounting {blocks : ℕ → Bytes} {as : List (Slot × Call)} {k : Kernel}
    (hr : run Kernel.step (Kernel.boot blocks) as = some k) : (∀ f, (k.ftable f).ref = count (slotsOf k.ofile) f) ∧
      (∀ c, (k.fs.icache c).ref = count (fun f => (k.ftable f).cell) c + count k.cwd c) ∧
      (∀ c c', 0 < (k.fs.icache c).ref → 0 < (k.fs.icache c').ref → (k.fs.icache c).dev = (k.fs.icache c').dev →
        (k.fs.icache c).inum = (k.fs.icache c').inum → c = c') ∧ (∀ a q, k.pipes a = some q →
        (q.readopen = true ↔ ∃ f, 0 < (k.ftable f).ref ∧ (k.ftable f).type = .pipe a ∧ (k.ftable f).writable = false) ∧
        (q.writeopen = true ↔ ∃ f, 0 < (k.ftable f).ref ∧ (k.ftable f).type = .pipe a ∧ (k.ftable f).writable = true)) ∧
      ∀ p c e, k.allows p c = true → runCall p c k = .error e →
        e ≠ .filedup ∧ e ≠ .fileclose ∧ e ≠ .iunlock ∧ e ≠ .ilock ∧ e ≠ .nullDeref := by
  have h := balanced_run hr
  have hpos : ∀ f a b, ((k.ftable f).type = .pipe a ∧ (k.ftable f).writable = b) ↔
      0 < (k.ftable f).ref ∧ (k.ftable f).type = .pipe a ∧ (k.ftable f).writable = b := fun f a b =>
    ⟨fun hf => ⟨Nat.pos_of_ne_zero (h.books.ref_ne_zero hf.1), hf⟩, fun hf => hf.2⟩
  refine ⟨fun f => (h.books.refs f).trans (Nat.add_zero _), fun c => (h.cells.ref c).trans (Nat.add_zero _),
    fun c c' hc hc' => ?_, fun a q hq => ⟨?_, ?_⟩, fun p c e ha he => ?_⟩
  · rw [h.cells.ref] at hc hc'
    exact h.cells.unique c c' hc hc'
  · rw [h.books.reading a q hq]
    exact exists_congr fun f => hpos f a false
  · rw [h.books.writing a q hq]
    exact exists_congr fun f => hpos f a true
  · have he' : e.Other := wp_error (balanced_call h ha) he
    refine ⟨?_, ?_, ?_, ?_, ?_⟩ <;> rintro rfl <;> cases he'

end calls

theorem reference_accounting_pipe : ∃ k, run (@Kernel.step Mkfs.superblock) (Kernel.boot fun _ _ => 0)
    [(0, .pipe (some 7)), (0, .dup ⟨1, by decide⟩)] = some k ∧ (k.ftable 1).ref = count (slotsOf k.ofile) 1 := by
  have hrun : (run (@Kernel.step Mkfs.superblock) (Kernel.boot fun _ _ => 0) [(0, .pipe (some 7)),
    (0, .dup ⟨1, by decide⟩)]).isSome = true := by
    decide +kernel
  obtain ⟨k, hk⟩ := Option.isSome_iff_exists.mp hrun
  exact ⟨k, hk, (reference_accounting hk).1 1⟩

end Laboratorio.Fs
