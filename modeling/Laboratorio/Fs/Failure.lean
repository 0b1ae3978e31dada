import Laboratorio.Fs.Balance
import Laboratorio.Fs.Operations
import Laboratorio.Fs.Paths

namespace Laboratorio.Fs

open Bytes Function Runs
open Procs (Slot)

inductive NameCall
  | opn (path : List UInt8) (omode : ℕ)
  | link (old new : List UInt8)
  | unlink (path : List UInt8)
  | mkdir (path : List UInt8)
  | mknod (path : List UInt8) (major minor : ℕ)

section state

variable [sb : Superblock]

def FsState.files (s : FsState) (i : ℕ) : Option Node := if (s.node i).type = 0 then none else some (s.node i)

def Kernel.refs (k : Kernel) (c : Cell) : ℕ := (k.fs.icache c).ref

/-- The value is false for -1. -/
def NameCall.run (p : Slot) : NameCall → KernelM Bool
  | .opn path omode => do return (← sysOpen p path omode).isSome
  | .link old new => do onFs (sysLink ((← get).cwd p) old new)
  | .unlink path => do onFs (sysUnlink ((← get).cwd p) path)
  | .mkdir path => do onFs (sysMkdir ((← get).cwd p) path)
  | .mknod path major minor => do onFs (sysMknod ((← get).cwd p) path major minor)

def Makes (s : FsState) (cwd : Cell) (path : List UInt8) (omode : ℕ) : Prop :=
  omode &&& oCreate ≠ 0 ∧ ∃ d name, descendParent s.node (if path.headD 0 = slash then rootino else (s.icache cwd).inum)
    (components path) = some (d, name) ∧ (s.node d).find name = none

def Kernel.Full (k : Kernel) (p : Slot) : Prop := (∀ f, (k.ftable f).ref ≠ 0) ∨ ∀ fd, k.ofile p fd ≠ none

def NameCall.Strands (k : Kernel) (p : Slot) : NameCall → Prop
  | .opn path omode => k.Full p ∧ ∃ c, k.cwd p = some c ∧ Makes k.fs c path omode
  | _ => False

variable {m : Mode} {b r r' q : Cell → ℕ} {l l' : Cell → Bool} {s t : FsState} {k : Kernel} {p : Slot}

theorem Inv.type_table (h : Inv m b r l s) (i : ℕ) : (s.table.node i).type = (s.node i).type := by
  by_cases hi : ∃ c, 0 < r c ∧ (s.icache c).valid = true ∧ (s.icache c).inum = i
  · obtain ⟨c, hc, hv, rfl⟩ := hi
    have hbehind := (h.behind c hc hv).type
    rw [← h.core_eq_d hc hv] at hbehind
    exact hbehind
  · have hcore : s.core i = s.table.core i := by
      refine FsState.core_eq (fun c hc => ?_) fun _ => rfl
      exact absurd ⟨c, by rw [← h.ref]; exact hc.1, hc.2.1, hc.2.2⟩ hi
    exact congrArg Dinode.type hcore.symm

theorem Reads.type_eq (h : Reads m q s t) (hs : Inv m b r l s) (ht : Inv m b r' l' t) (i : ℕ) :
    (t.node i).type = (s.node i).type := by
  rw [← ht.type_table, ← hs.type_table, h.stored]

def Left (made : Prop) (s t : FsState) : Prop := (made → ∃ i, (s.node i).type = 0 ∧ (t.node i).type ≠ 0) ∧
    (¬ made → t.node = s.node)

theorem Left.reads {made : Prop} {u : FsState} (h : Left made s t) (ht : Inv m b r l t) (hs : ¬ made → Settled q t)
    (hu : Inv m b r' l' u) (hst : Reads m q t u) : Left made s u := by
  refine ⟨fun hm => ?_, fun hm => (hst.shown (hs hm)).trans (h.2 hm)⟩
  obtain ⟨i, hfree, hnew⟩ := h.1 hm
  refine ⟨i, hfree, ?_⟩
  rw [hst.type_eq ht hu]
  exact hnew

theorem makes_iff {cwd : Cell} {path : List UInt8} {omode : ℕ} : Makes s cwd path omode ↔
    omode &&& oCreate ≠ 0 ∧ ∃ d name, walkFrom s.node true (s.icache cwd).inum path = some (d, name) ∧
      (s.node d).find name = none := by
  unfold Makes walkFrom
  rw [walk_eq_descendParent (Nat.lt_succ_self path.length)]

section opening

variable {cwd : Cell} {path : List UInt8} {omode : ℕ}

theorem wp_openInode_left (h : Inv m b b unlocked s) (hcwd : 0 < b cwd) (hroot : rootino < ninodes) :
    wp (openInode (some cwd) path omode) s (fun res t => Left (Makes s cwd path omode) s t ∧
      (¬ Makes s cwd path omode → Settled b t) ∧ match res with
      | none => ¬ Makes s cwd path omode
      | some ip => Inv m b (plus b ip) (update unlocked ip true) t) fun _ => True := by
  have hread : ∀ t, Reads m b s t → ¬ Makes s cwd path omode → Left (Makes s cwd path omode) s t ∧
    (¬ Makes s cwd path omode → Settled b t) := fun t hst hno => ⟨⟨fun hm => absurd hm hno, fun _ => hst.shown h.settled⟩,
    fun _ => hst.settled h.settled⟩
  have hplain : omode &&& oCreate = 0 → ¬ Makes s cwd path omode := fun h0 hm => hm.1 h0
  refine wp_mono (inv_openInode h hcwd hroot) fun res t ht => ?_
  cases ht with
  | failed hasked _ hst => exact ⟨(hread t hst (hplain hasked)).1, (hread t hst (hplain hasked)).2, hplain hasked⟩
  | found hasked hinv _ hst => exact ⟨(hread t hst (hplain hasked)).1, (hread t hst (hplain hasked)).2, hinv⟩
  | created hasked hmade =>
    cases hmade with
    | failed _ hst hwalk =>
      have hno : ¬ Makes s cwd path omode := by
        rw [makes_iff]
        rintro ⟨-, d, name, hd, hfind⟩
        exact hwalk d name hd hfind
      exact ⟨(hread t hst hno).1, (hread t hst hno).2, hno⟩
    | found hinv _ _ hst hwalk =>
      have hno : ¬ Makes s cwd path omode := by
        rw [makes_iff]
        rintro ⟨-, d, name, hd, hfind⟩
        rw [hwalk.1] at hd
        cases hd
        exact hwalk.2 hfind
      exact ⟨(hread t hst hno).1, (hread t hst hno).2, hinv⟩
    | @made ip _ d name hinv htyped hwalk =>
      have hyes : Makes s cwd path omode := makes_iff.mpr ⟨hasked, d, name, hwalk.1, hwalk.2.1⟩
      refine ⟨⟨fun _ => ⟨_, hwalk.2.2, ?_⟩, fun hno => absurd hyes hno⟩, fun hno => absurd hyes hno, hinv⟩
      rw [← (hinv.fields (plus_self_pos b ip) (hinv.locked ip (update_self _ _ _)).2).1, htyped]
      decide

theorem wp_fileclose_fresh {f : FileId} {Q : Unit → Kernel → Prop} {E : Fault → Prop} (hf : (k.ftable f).ref = 1)
    (hnone : (k.ftable f).type = .none) (hQ : Q () (k.setFile f { k.ftable f with ref := 0, type := .none })) :
    wp (fileclose f) k Q E := by
  rw [fileclose, wp_bind, wp_get, wp_ite]
  refine ⟨fun hlt => absurd hlt (by omega), fun _ => ?_⟩
  rw [wp_ite]
  refine ⟨fun hlt => absurd hlt (by omega), fun _ => ?_⟩
  rw [wp_bind, wp_set, hnone]
  exact wp_ret hQ

theorem wp_sysOpen_left (hb : Balanced k) (h : Inv m k.refs k.refs unlocked k.fs) (hcwd : k.cwd p = some cwd)
    (hc : 0 < k.refs cwd) (hroot : rootino < ninodes) :
    wp (sysOpen p path omode) k (fun res k' => res = none → Left (Makes k.fs cwd path omode) k.fs k'.fs ∧
      (Makes k.fs cwd path omode → k.Full p)) fun _ => True := by
  rw [sysOpen, wp_bind, wp_onFs, wp_beginOp, wp_bind, wp_get, wp_bind, wp_onFs, hcwd]
  refine wp_mono (wp_openInode_left (h.event _) hc hroot) ?_
  rintro (_ | ip) t ⟨hleft, hsettled, hres⟩
  · rw [wp_bind, wp_onFs, wp_endOp]
    exact wp_ret fun _ => ⟨hleft, fun hm => absurd hm hres⟩
  have hend : ∀ k' : Kernel, k'.fs = t → k.Full p →
      wp (do onFs (iunlockput ip); onFs (onDisk endOp); pure none : KernelM (Option Fd)) k' (fun res k' => res = none →
        Left (Makes k.fs cwd path omode) k.fs k'.fs ∧ (Makes k.fs cwd path omode → k.Full p)) fun _ => True := by
    rintro k' rfl hfull
    refine wp_onFs_seq (inv_iunlockput hres (Under.refl _) rfl) ?_
    rintro _ u ⟨hu, hst⟩
    have hleft' : Left (Makes k.fs cwd path omode) k.fs u := hleft.reads hres hsettled hu hst
    rw [wp_bind, wp_onFs, wp_endOp]
    exact wp_ret fun _ => ⟨hleft', fun _ => hfull⟩
  rw [wp_bind]
  refine wp_filealloc (fun hall => hend _ rfl (.inl hall)) fun f hf => ?_
  rw [wp_bind]
  refine wp_fdalloc (fun hall => ?_) fun fd _ => ?_
  · rw [wp_bind]
    refine wp_fileclose_fresh ?_ ?_ (hend _ rfl (.inr hall))
    · simp [Kernel.setFile]
    · simpa [Kernel.setFile] using hb.books.closed f hf
  · refine wp_onFs_seq (wp_any _) fun _ u _ => ?_
    rw [wp_bind, wp_onFs, wp_endOp, wp_bind, wp_modify]
    apply wp_ret
    rintro ⟨⟩

end opening

theorem files_eq_of_node (h : t.node = s.node) (i : ℕ) : t.files i = s.files i := by
  unfold FsState.files
  rw [h]

theorem failing_calls_change_nothing_iff {k' : Kernel} (hb : Balanced k) (h : Inv m k.refs k.refs unlocked k.fs)
    (hp : (k.ptable.proc p).canRun = true) (hroot : rootino < ninodes) (c : NameCall) (hrun : c.run p k = .ok (false, k')) :
    (∀ i, k'.fs.files i = k.fs.files i) ↔ ¬ c.Strands k p := by
  obtain ⟨cwd, hcwd, hpos⟩ := hb.cwd hp
  have hc : 0 < k.refs cwd := by
    rw [Kernel.refs, hb.cells.ref]
    exact hpos
  have hsame : ∀ {prog : FsM Bool}, wp prog k.fs (Answers m k.refs k.fs) (fun _ => True) →
      onFs prog k = .ok (false, k') → ∀ i, k'.fs.files i = k.fs.files i := by
    intro prog hwp hrun i
    have hnode : wp (onFs prog) k (fun ok k' => ok = false → k'.fs.node = k.fs.node) fun _ => True :=
      wp_onFs.mpr (wp_mono hwp fun ok t ht => ht.2)
    exact files_eq_of_node (wp_ok hnode hrun rfl) i
  cases c with
  | opn path omode =>
    obtain ⟨res, k1, hopen, hret⟩ := bind_eq_ok.mp hrun
    obtain ⟨hres, rfl⟩ := Prod.mk.inj (Except.ok.inj hret)
    have hnone : res = none := by simpa using hres
    obtain ⟨⟨hnew, hold⟩, hfull⟩ := wp_ok (wp_sysOpen_left hb h hcwd hc hroot) hopen hnone
    have hstrands : NameCall.Strands k p (.opn path omode) ↔ Makes k.fs cwd path omode := by
      refine ⟨?_, fun hm => ⟨hfull hm, cwd, hcwd, hm⟩⟩
      rintro ⟨-, c, hc', hm⟩
      rw [hcwd] at hc'
      cases hc'
      exact hm
    rw [hstrands]
    refine ⟨fun hall hm => ?_, fun hno => files_eq_of_node (hold hno)⟩
    obtain ⟨i, hfree, htype⟩ := hnew hm
    have hi := hall i
    rw [FsState.files, FsState.files, if_neg htype, if_pos hfree] at hi
    cases hi
  | link old new =>
    rw [NameCall.run, bind_of_ok rfl, hcwd] at hrun
    exact ⟨fun _ => id, fun _ => hsame (inv_sysLink h hc hroot) hrun⟩
  | unlink path =>
    rw [NameCall.run, bind_of_ok rfl, hcwd] at hrun
    exact ⟨fun _ => id, fun _ => hsame (inv_sysUnlink h hc hroot) hrun⟩
  | mkdir path =>
    rw [NameCall.run, bind_of_ok rfl, hcwd] at hrun
    exact ⟨fun _ => id, fun _ => hsame (inv_sysMkdir h hc hroot) hrun⟩
  | mknod path major minor =>
    rw [NameCall.run, bind_of_ok rfl, hcwd] at hrun
    exact ⟨fun _ => id, fun _ => hsame (inv_sysMknod h hc hroot) hrun⟩

end state

def rootedKernel : Kernel := { Kernel.boot fun _ _ => 0 with fs := rooted }

theorem balanced_rootedKernel : Balanced rootedKernel := by
  have hboot := balanced_boot fun _ _ => 0
  refine hboot.fs ⟨fun c => ?_, fun _ => rfl, fun c c' hc hc' => ?_⟩
  · rw [← hboot.cells.ref]
    by_cases hc : c = 0
    · subst hc
      rfl
    · simp [rooted, lone, Kernel.boot, hc]
  · rw [← hboot.cells.ref] at hc hc'
    have hzero : ∀ c, 0 < ((Kernel.boot fun _ _ => 0).fs.icache c).ref → c = 0 := by
      intro c hc
      by_contra hne
      simp [Kernel.boot, hne] at hc
    intro _ _
    rw [hzero c hc, hzero c' hc']

theorem failing_calls_change_nothing_unlink : ∃ k', (NameCall.unlink [97]).run 0 rootedKernel = .ok (false, k') ∧
    ∀ i, k'.fs.files i = rootedKernel.fs.files i := by
  have hok : (match (NameCall.unlink [97]).run 0 rootedKernel with | .ok (res, _) => res | .error _ => true) =
    false := by decide +kernel
  cases hrun : (NameCall.unlink [97]).run 0 rootedKernel with
  | error e => simp [hrun] at hok
  | ok x =>
    obtain ⟨res, k'⟩ := x
    obtain rfl : res = false := by simpa [hrun] using hok
    exact ⟨k', rfl, (failing_calls_change_nothing_iff balanced_rootedKernel inv_rooted (by decide) (by decide) _ hrun).mpr id⟩

def crowded : List (Slot × Call) := (List.range 8).map fun a => (0, .pipe (some a))

theorem open_strands_file : ∃ image k k', Mkfs.main [] Mkfs.start = .ok ((), image) ∧
    run Kernel.step (Kernel.boot image.blocks) crowded = some k ∧
    (NameCall.opn [97] 0x202).run 0 k = .ok (false, k') ∧ (k'.fs.node rootino).find [97] = some 2 ∧
    k.fs.files 2 = none ∧ (k'.fs.files 2).map Node.type = some tFile := by
  have hok : (match Mkfs.main [] Mkfs.start with
      | .error _ => false
      | .ok (_, image) => match run Kernel.step (Kernel.boot image.blocks) crowded with
        | none => false
        | some k => match (NameCall.opn [97] 0x202).run 0 k with
          | .error _ => false
          | .ok (res, k') => !res && decide ((k'.fs.node rootino).find [97] = some 2 ∧
              (k.fs.node 2).type = 0 ∧ (k'.fs.node 2).type = tFile)) = true := by decide +kernel
  cases hmain : Mkfs.main [] Mkfs.start with
  | error e => simp [hmain] at hok
  | ok x =>
    obtain ⟨u, image⟩ := x
    simp only [hmain] at hok
    cases hk : run Kernel.step (Kernel.boot image.blocks) crowded with
    | none => simp [hk] at hok
    | some k =>
      simp only [hk] at hok
      cases hrun : (NameCall.opn [97] 0x202).run 0 k with
      | error e => simp [hrun] at hok
      | ok y =>
        obtain ⟨res, k'⟩ := y
        simp only [hrun, Bool.and_eq_true, decide_eq_true_eq, Bool.not_eq_true'] at hok
        obtain ⟨rfl, hafter, hfree, hnew⟩ := hok
        refine ⟨image, k, k', rfl, hk, hrun, hafter, if_pos hfree, ?_⟩
        rw [FsState.files, if_neg (by rw [hnew]; decide), Option.map_some, hnew]

end Laboratorio.Fs
