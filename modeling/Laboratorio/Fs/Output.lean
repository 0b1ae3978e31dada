import Laboratorio.Shell.Grammar
import Laboratorio.Fs.Failure
import Laboratorio.Fs.Filewrite

/-!
What a command leaves in a file that the shell has opened for its output.
-/

namespace Laboratorio.Fs

open Bytes Function
open Procs (Slot)

section descend

variable {nd : ℕ → Node} {i j : ℕ} {names : List Name}

theorem descendParent_of_descend (hne : names ≠ []) (h : descend nd i names = some j) :
    ∃ d name, descendParent nd i names = some (d, name) ∧ child nd d name = some j := by
  obtain ⟨before, name, rfl⟩ := names.eq_nil_or_concat.resolve_left hne
  rw [List.concat_eq_append, descend, List.foldlM_append] at h
  obtain ⟨d, hd, hlast⟩ := Option.bind_eq_some_iff.mp h
  have hchild : child nd d name = some j := by simpa using hlast
  have hdir : (nd d).type = tDir := by
    by_contra hno
    simp [child, hno] at hchild
  refine ⟨d, name, ?_, hchild⟩
  have hbefore : descend nd i before = some d := hd
  simp [descendParent, hbefore, hdir]

end descend

section state

variable [sb : Superblock] {m : Mode} {b : Cell → ℕ} {s : FsState} {E : Fault → Prop} {path : List UInt8}

theorem inv_create_found {cwd : Cell} {start i : ℕ} (h : Inv m b b unlocked s) (hcwd : 0 < b cwd) (hroot : rootino < ninodes)
    (hclear : Clear m b s.node) (hclosed : Closed s.node)
    (hstart : start = if path.headD 0 = slash then rootino else (s.icache cwd).inum) (hdir : (s.node start).type = tDir)
    (hi : descend s.node start (components path) = some i) (hfile : (s.node i).type = tFile) :
    wpr (Reads m b) (create (some cwd) path tFile 0 0) s
      (fun res t => ∃ ip, res = some ip ∧ (t.icache ip).inum = i ∧ Inv m b (plus b ip) (update unlocked ip true) t) E := by
  have hne : components path ≠ [] := by
    intro hnil
    rw [hnil] at hi
    obtain rfl : start = i := Option.some.inj hi
    rw [hdir] at hfile
    exact absurd hfile (by decide)
  obtain ⟨d, name, hparent, hchild⟩ := descendParent_of_descend hne hi
  have hwalk : walkFrom s.node true (s.icache cwd).inum path = some (d, name) := by
    rw [← hparent, hstart]
    exact walk_eq_descendParent (Nat.lt_succ_self path.length)
  have hused : (s.node (if path.headD 0 = slash then rootino else (s.icache cwd).inum)).type ≠ 0 := by
    rw [← hstart, hdir]
    decide
  rw [create]
  refine wp_seq (inv_namex_walk h hcwd hroot (.inl hclear) fun hbad => absurd ⟨hclosed, hused⟩ hbad) ?_
  rintro res t ⟨⟨ht, hreach⟩, hst⟩
  obtain ⟨⟨dp, name'⟩, rfl, hdp⟩ := Option.map_eq_some_iff.mp (hreach.trans hwalk)
  obtain ⟨hd, rfl⟩ := Prod.mk.inj hdp
  change Inv m b (plus b dp) unlocked t at ht
  have hsame : t.node = s.node := hst.shown h.settled
  have hdd : (s.node d).type = tDir := by
    by_contra hno
    simp [child, hno] at hchild
  rw [child, if_pos hdd] at hchild
  obtain ⟨e, hfind, he⟩ := Option.map_eq_some_iff.mp hchild
  have hu : Under b (plus b dp) := (Under.refl b).plus dp
  have hdc := plus_self_pos b dp
  refine wp_seq (inv_ilock ht hdc rfl fun h0 => ?_) ?_
  · have htype : (t.node d).type = 0 := by
      rw [← hd]
      exact h0
    rw [hsame, hdd] at htype
    cases htype
  rintro _ t1 ⟨ht1, hst1⟩
  have hst1' : Reads m b s t1 := Trans.trans hst (hst1.mono hu)
  have hsame1 : t1.node = s.node := hst1'.shown h.settled
  have hd1 : (t1.icache dp).inum = d := (hst1.stays dp hdc).2.1.trans hd
  have hv1 : (t1.icache dp).valid = true := (ht1.locked dp (update_self _ _ _)).2
  have hfull : ¬ ∀ c, 0 < plus b dp c := by
    intro hall
    obtain ⟨c', hne', h0⟩ := hclear.spare dp
    have hpos := hall c'
    rw [plus_of_ne hne'] at hpos
    omega
  have hsmooth : ∀ j < slots (s.node d).size, (∀ x < j, (s.node d).holds name' x = false) → t1.Smooth d j := by
    intro j hj _
    rw [← hsame1] at hclear hdd hj
    exact hclear.smooth ht1.toSound hdd hj
  refine wp_seq (inv_dirlookup ht1 hdc hv1 hd1 (congrFun hsame1 d) (fun hno => absurd hdd hno) (fun hall => absurd hall hfull)
    (.inl hsmooth)) ?_
  rintro res t2 ⟨⟨-, hres⟩, hst2⟩
  rw [hfind] at hres
  obtain ⟨ip, rfl, ht2, hip, -⟩ := hres
  have hui : Under b (plus b ip) := (Under.refl b).plus ip
  have hic := plus_self_pos b ip
  rw [plus_comm] at ht2
  simp only
  refine wp_seq (inv_iunlockput ht2 hui rfl) ?_
  rintro _ t3 ⟨ht3, hst3⟩
  have hst3' : Reads m b s t3 := Trans.trans (Trans.trans hst1' (hst2.mono hu)) (hst3.mono hui)
  have hi3 : (t3.icache ip).inum = i := ((hst3.stays ip hic).2.1.trans hip).trans he
  refine wp_seq (inv_ilock ht3 hic rfl fun h0 => ?_) ?_
  · have htype : (t3.node i).type = 0 := by
      rw [← hi3]
      exact h0
    rw [hst3'.shown h.settled, hfile] at htype
    cases htype
  rintro _ t4 ⟨ht4, hst4⟩
  have hst4' : Reads m b s t4 := Trans.trans hst3' (hst4.mono hui)
  have hi4 : (t4.icache ip).inum = i := (hst4.stays ip hic).2.1.trans hi3
  have htype : (t4.icache ip).d.type = tFile := by
    rw [(ht4.fields hic (ht4.locked ip (update_self _ _ _)).2).1, hi4, hst4'.shown h.settled, hfile]
  rw [wp_bind, wp_inode, wp_ite]
  exact ⟨fun _ => wp_ret ⟨⟨ip, rfl, hi4, ht4⟩, hst4'⟩, fun hno => absurd ⟨trivial, htype⟩ hno⟩

theorem Inv.regular {r : Cell → ℕ} {c : Cell} {i : ℕ} (h : Inv m b r unlocked s) (hc : 0 < r c) (hi : (s.icache c).inum = i)
    (ht : (s.node i).type = tFile) : Regular i c s := by
  have hsparse : Sound .sparse (fun _ => 0) r unlocked s :=
    { h.toAt with
      under := fun _ hc => absurd hc (Nat.lt_irrefl 0)
      dev := h.dev
      inum_lt := fun c hc _ => h.inum c hc
      locked_of := False.elim
      typed := h.typed
      fits := h.fits
      behind_of := False.elim
      whole := h.whole.weaken False.elim False.elim (fun _ => trivial) False.elim
      kept_of := False.elim }
  refine ⟨hsparse.steady, ?_, h.lock c, hi, ht⟩
  rw [h.ref]
  exact hc

section run

variable {k : Kernel} {p : Slot} {f : FileId} {c : Cell} {i off : ℕ} {P : Finset ℕ}

/-- A child of the shell runs `cmd > path` or `cmd >> path`: the case for redirections in `runcmd`, and then the writes of the
program, which `exec` leaves the descriptors. -/
def runRedir (p : Slot) (op : Shell.RedirOp) (path : List UInt8) (writes : List (List UInt8)) : KernelM Unit := do
  let _ ← sysClose p (Fin.ofNat nofile op.fd)
  let _ ← sysOpen p path op.mode
  forM writes fun src => do
    let _ ← sysWrite p 1 src none

/-- The path leads to the regular file `i`, and the file system is in order.
The files of a child of the shell are open in the shell too. -/
structure Ready (m : Mode) (k : Kernel) (p : Slot) (path : List UInt8) (i : ℕ) : Prop where
  inv : Inv m k.refs k.refs unlocked k.fs
  clear : Clear m k.refs k.fs.node
  closed : Closed k.fs.node
  root : rootino < ninodes
  leads : ∃ c start, k.cwd p = some c ∧ 0 < k.refs c ∧
    start = (if path.headD 0 = slash then rootino else (k.fs.icache c).inum) ∧ (k.fs.node start).type = tDir ∧
    descend k.fs.node start (components path) = some i
  file : (k.fs.node i).type = tFile
  input : k.ofile p 0 ≠ none
  output : ∃ f, k.ofile p 1 = some f ∧ 2 ≤ (k.ftable f).ref
  spare : ∃ f, (k.ftable f).ref = 0

structure Outputs (p : Slot) (f : FileId) (c : Cell) (i off : ℕ) (P : Finset ℕ) (k : Kernel) : Prop where
  regular : Regular i c k.fs
  ofile : k.ofile p 1 = some f
  type : (k.ftable f).type = .inode c
  writable : (k.ftable f).writable = true
  place : (k.ftable f).off = off
  le : off ≤ (k.fs.node i).size
  room : k.fs.live.Room i P

theorem wp_sysWrite_output {src : List UInt8} (h : Outputs p f c i off P k) (hmax : off + src.length ≤ maxfile * bsize)
    (hP : ∀ x, off ≤ x → x < off + src.length → pointersTo (x / bsize) ⊆ P) :
    wp (sysWrite p 1 src none) k (fun _ k' => Outputs p f c i (off + src.length) P k' ∧
      k'.fs.node i = (k.fs.node i).write off src) E := by
  have h32 : off < 2 ^ 32 := Nat.lt_of_le_of_lt (Nat.le_of_add_right_le hmax) (by decide)
  rw [sysWrite, wp_bind, wp_get, h.ofile]
  simp only
  rw [filewrite, wp_bind, wp_get]
  simp only [h.writable, h.type, Bool.true_eq_false, if_false]
  refine wp_seq (wp_filewriteLoop h.regular le_rfl h.place h32 h.le h.room fun x h1 h2 _ => hP x h1 h2) ?_
  rintro n k' ⟨hp, hk⟩
  have hall : n = src.length := by
    have hle := hp.le
    by_contra hne
    have hstop := hp.stop (by omega)
    omega
  subst hall
  have hnode : k'.fs.node i = (k.fs.node i).write off src := by
    rw [hp.node, onNode, if_pos rfl, List.take_length]
  refine wp_ret ⟨⟨hk.regular, ?_, ?_, ?_, hp.moved, ?_, hk.room rfl⟩, hnode⟩
  · rw [hk.ofile, h.ofile]
  · rw [hk.file]
    exact h.type
  · rw [hk.file]
    exact h.writable
  · rw [hnode]
    exact Nat.le_max_right _ _

variable {writes : List (List UInt8)}

theorem wp_writes (h : Outputs p f c i off P k) (hmax : off + writes.flatten.length ≤ maxfile * bsize)
    (hP : ∀ x, off ≤ x → x < off + writes.flatten.length → pointersTo (x / bsize) ⊆ P) :
    wp (forM writes fun src => do let _ ← sysWrite p 1 src none) k
      (fun _ k' => k'.fs.node i = (k.fs.node i).write off writes.flatten) E := by
  induction writes generalizing k off with
  | nil => exact wp_ret (Node.write_nil h.le).symm
  | cons src rest ih =>
    rw [List.flatten_cons, List.length_append] at hmax hP
    rw [List.forM_cons, bind_assoc]
    refine wp_seq (wp_sysWrite_output h (by omega) fun x h1 h2 => hP x h1 (by omega)) ?_
    rintro _ k' ⟨h', hnode⟩
    apply wp_mono (ih h' (by omega) fun x h1 h2 => hP x (by omega) (by omega))
    intro _ k'' hrest
    have happend : ((k.fs.node i).write off src).write (off + src.length) rest.flatten = (k.fs.node i).write off
      (src ++ rest.flatten) := by
      rw [← Node.write_write (src ++ rest.flatten) (n := src.length) (by simp), List.take_left, List.drop_left]
    rw [hrest, hnode, happend, List.flatten_cons]

theorem wp_sysClose_shared {fd : Fd} {Q : Bool → Kernel → Prop} (hf : k.ofile p fd = some f) (href : 2 ≤ (k.ftable f).ref)
    (hQ : Q true ((k.setOfile p fd none).setFile f { k.ftable f with ref := (k.ftable f).ref - 1 })) :
    wp (sysClose p fd) k Q E := by
  rw [sysClose, wp_bind, wp_get, hf]
  rw [wp_bind, wp_modify, wp_bind, fileclose, wp_bind, wp_get, wp_ite]
  refine ⟨fun hlt => absurd hlt (Nat.not_lt.mpr (Nat.le_of_succ_le href)), fun _ => ?_⟩
  rw [wp_ite]
  refine ⟨fun _ => ?_, fun hno => absurd (Nat.sub_pos_of_lt href) hno⟩
  rw [wp_set]
  exact wp_ret hQ

omit sb in
theorem wp_fdalloc_one {Q : Option Fd → Kernel → Prop} (h0 : k.ofile p 0 ≠ none) (h1 : k.ofile p 1 = none)
    (hQ : Q (some 1) (k.setOfile p 1 (some f))) : wp (fdalloc p f) k Q E := by
  obtain ⟨rest, hrest⟩ : ∃ rest, List.finRange nofile = 0 :: 1 :: rest := ⟨_, rfl⟩
  rw [fdalloc, wp_bind, wp_get, hrest, List.find?_cons_of_neg (by simpa using h0), List.find?_cons_of_pos (by simpa using h1)]
  rw [wp_bind, wp_set]
  exact wp_ret hQ

theorem wp_sysOpen_output {omode : ℕ} {cwd : Cell} {start : ℕ} (h : Inv m k.refs k.refs unlocked k.fs)
    (hclear : Clear m k.refs k.fs.node) (hclosed : Closed k.fs.node) (hroot : rootino < ninodes) (hcwd : k.cwd p = some cwd)
    (hc : 0 < k.refs cwd) (hstart : start = if path.headD 0 = slash then rootino else (k.fs.icache cwd).inum)
    (hdir : (k.fs.node start).type = tDir) (hi : descend k.fs.node start (components path) = some i)
    (hfile : (k.fs.node i).type = tFile) (h0 : k.ofile p 0 ≠ none) (h1 : k.ofile p 1 = none)
    (hspare : ∃ f, (k.ftable f).ref = 0) (hmode : omode &&& oCreate ≠ 0 ∧ omode &&& oWronly ≠ 0) (hroom : k.fs.live.Room i P) :
    wp (sysOpen p path omode) k (fun _ k' => (∃ f c, Outputs p f c i 0 P k') ∧ k'.fs.node = k.fs.node) E := by
  rw [sysOpen, wp_bind, wp_onFs, wp_beginOp, wp_bind, wp_get]
  simp only [hcwd, openInode, if_pos hmode.1]
  refine wp_onFs_seq (inv_create_found (h.event .beginOp) hc hroot hclear hclosed hstart hdir hi hfile) ?_
  rintro res t ⟨⟨ip, rfl, hip, ht⟩, hst⟩
  rw [wp_bind]
  refine wp_filealloc (fun hfull => absurd hspare (by simpa using hfull)) fun f _ => ?_
  rw [wp_bind]
  refine wp_fdalloc_one h0 h1 ?_
  refine wp_onFs_seq (inv_iunlock ht rfl) ?_
  rintro _ u ⟨hu, hst'⟩
  rw [wp_bind, wp_onFs, wp_endOp, wp_bind, wp_modify]
  have hic := plus_self_pos k.refs ip
  have hall : Reads m k.refs (k.fs.event .beginOp) u := Trans.trans hst (hst'.mono ((Under.refl _).plus ip))
  have hnode : u.node = k.fs.node := hall.shown (h.event .beginOp).settled
  have hlive : u.live = k.fs.live := (hall.calm hclear.dense).2
  have hiu : (u.icache ip).inum = i := (hst'.stays ip hic).2.1.trans hip
  have hreg : Regular i ip u := hu.regular hic hiu (by rw [hnode, hfile])
  refine wp_ret ⟨⟨f, ip, hreg.event .endOp, ?_, ?_, ?_, ?_, Nat.zero_le _, ?_⟩, hnode⟩
  · simp [Kernel.setOfile, Kernel.setFile]
  · simp [Kernel.setFile]
  · simp [Kernel.setFile, hmode.2]
  · simp [Kernel.setFile]
  · change u.live.Room i P
    rw [hlive]
    exact hroom

theorem wp_runRedir {op : Shell.RedirOp} (h : Ready m k p path i) (hop : op = .greater ∨ op = .append)
    (hmax : writes.flatten.length ≤ maxfile * bsize) (hroom : k.fs.live.Room i (pointers 0 writes.flatten.length)) :
    wp (runRedir p op path writes) k
      (fun _ k' => (k'.fs.node i).contents = writes.flatten ++ (k.fs.node i).contents.drop writes.flatten.length) E := by
  obtain ⟨f, hf, href⟩ := h.output
  obtain ⟨g, hg⟩ := h.spare
  obtain ⟨c, start, hcwd, hc, hstart, hdir, hi⟩ := h.leads
  have hfd : Fin.ofNat nofile op.fd = 1 := by rcases hop with rfl | rfl <;> rfl
  have hmode : op.mode &&& oCreate ≠ 0 ∧ op.mode &&& oWronly ≠ 0 := by rcases hop with rfl | rfl <;> decide
  have hgf : g ≠ f := by
    rintro rfl
    omega
  rw [runRedir, hfd, wp_bind]
  refine wp_sysClose_shared hf href ?_
  refine wp_seq (wp_sysOpen_output h.inv h.clear h.closed h.root hcwd hc hstart hdir hi h.file ?_ ?_ ⟨g, ?_⟩ hmode hroom) ?_
  · have hne : (0 : Fd) ≠ 1 := by decide
    simpa [Kernel.setFile, Kernel.setOfile, hne] using h.input
  · simp [Kernel.setFile, Kernel.setOfile]
  · simpa [Kernel.setFile, Kernel.setOfile, hgf] using hg
  rintro _ k' ⟨⟨f', c', hout⟩, hnode⟩
  apply wp_mono (wp_writes hout (by omega) fun x h1 h2 => pointersTo_subset h1 (by omega))
  intro _ k'' hwrote
  rw [hwrote, hnode, Node.contents_write _ (Nat.zero_le _), overwrite, List.take_zero, List.nil_append, Nat.zero_add]
  rfl

def Leaves (p : Slot) (op : Shell.RedirOp) (path : List UInt8) (writes : List (List UInt8)) (i : ℕ) (k : Kernel)
    (content : List UInt8) : Prop :=
  ∃ k', runRedir p op path writes k = .ok ((), k') ∧ (k'.fs.node i).contents = content

theorem leaves_iff {op : Shell.RedirOp} {content : List UInt8} (h : Ready m k p path i)
    (hop : op = .greater ∨ op = .append) (hmax : writes.flatten.length ≤ maxfile * bsize)
    (hroom : k.fs.live.Room i (pointers 0 writes.flatten.length)) :
    Leaves p op path writes i k content ↔ writes.flatten ++ (k.fs.node i).contents.drop writes.flatten.length = content := by
  obtain ⟨_, k', hrun, hcontents⟩ := exists_of_wp (wp_runRedir h hop hmax hroom)
  rw [← hcontents]
  constructor
  · rintro ⟨k'', hrun', hleft⟩
    rw [hrun] at hrun'
    obtain ⟨-, rfl⟩ := Prod.mk.inj (Except.ok.inj hrun')
    exact hleft
  · intro hleft
    exact ⟨k', hrun, hleft⟩

theorem output_redirection_iff {writes : List (List UInt8)} (h : Ready m k p path i)
    (hmax : writes.flatten.length ≤ maxfile * bsize) (hroom : k.fs.live.Room i (pointers 0 writes.flatten.length)) :
    (Leaves p .greater path writes i k writes.flatten ↔ (k.fs.node i).contents.length ≤ writes.flatten.length) ∧
    (Leaves p .append path writes i k ((k.fs.node i).contents ++ writes.flatten) ↔ (k.fs.node i).contents = [] ∨
    writes.flatten = []) := by
  rw [leaves_iff h (.inl rfl) hmax hroom, leaves_iff h (.inr rfl) hmax hroom]
  constructor
  · rw [List.append_right_eq_self, List.drop_eq_nil_iff]
  · constructor
    · intro heq
      have hlen := congrArg List.length heq
      simp only [List.length_append, List.length_drop] at hlen
      rw [← List.length_eq_zero_iff, ← List.length_eq_zero_iff]
      omega
    · rintro (hold | hnone)
      · simp [hold]
      · simp [hnone]

end run

end state

def withDinode (blocks : ℕ → Bytes) (i : ℕ) (d : Dinode) : ℕ → Bytes :=
  update blocks (iblock i) (store (blocks (iblock i)) (dinodeSize * (i % ipb)) dinodeSize d.image)

def small (type size a : ℕ) : Dinode :=
    { Dinode.zero with type := type, nlink := 1, size := size, addrs := fun n => if n = 0 then a else 0 }

def filedBlocks (b : ℕ) : Bytes := fun x =>
  if b = bmapstart then if x < 8 then 255 else 0
  else if b = 60 then [2, 0, 97].getD x 0
  else if b = 61 then [122, 122].getD x 0
  else 0

def filed : FsState where
  disk := ⟨withDinode (withDinode filedBlocks 1 (small tDir 16 60)) 2 (small tFile 2 61), []⟩
  icache := fun c => ⟨rootdev, 1, if c = 0 then 1 else 0, false, true, small tDir 16 60⟩

def filedKernel : Kernel :=
  { rootedKernel with
    fs := filed
    ftable := fun f => ⟨.none, if f = 0 then 6 else 0, true, true, 0⟩
    ofile := fun _ fd => if fd < 3 then some 0 else none }

theorem small_fits {type size a : ℕ} (ht : type < 2 ^ 16) (hs : size < 2 ^ 32) (ha : a < 2 ^ 32) :
    (small type size a).Fits := by
  refine ⟨ht, Nat.two_pow_pos 16, Nat.two_pow_pos 16, show 1 < 2 ^ 16 by decide, hs, fun n => ?_,
    fun n hn => if_neg (Nat.ne_zero_of_lt hn)⟩
  change (if n = 0 then a else 0) < 2 ^ 32
  split_ifs
  · exact ha
  · exact Nat.two_pow_pos 32

theorem ptr_small {type size a n : ℕ} {data : ℕ → Bytes} : (small type size a).ptr data n = if n = 0 then a else 0 := by
  by_cases hn : n ≤ ndirect
  · exact Dinode.ptr_direct hn
  · have hnone : (small type size a).addrs ndirect = 0 := rfl
    rw [Dinode.ptr, if_neg hn, if_neg fun h => h.2 hnone, if_neg (by omega)]

theorem table_filed : filed.table = ((volume filedBlocks).setCore 1 (small tDir 16 60)).setCore 2 (small tFile 2 61) := by
  have hroot : volume (withDinode filedBlocks 1 (small tDir 16 60)) = (volume filedBlocks).setCore 1 (small tDir 16 60) :=
    volume_putDinode (by decide) (small_fits (by decide) (by decide) (by decide))
  rw [← hroot]
  exact volume_putDinode (by decide) (small_fits (by decide) (by decide) (by decide))

theorem table_core_filed (i : ℕ) : filed.table.core i = if i = 1 then small tDir 16 60 else if i =
    2 then small tFile 2 61 else Dinode.zero := by
  have hzero : (volume filedBlocks).core i = Dinode.zero := by
    change (if i < ninodes then dinode filedBlocks i else Dinode.zero) = Dinode.zero
    split_ifs with hlt
    · have hi : iblock i < bmapstart := iblock_lt hlt
      have hle : bmapstart ≤ 59 := by decide
      refine dinode_zero (funext fun x => ?_)
      rw [filedBlocks, if_neg hi.ne, if_neg (by omega), if_neg (by omega)]
    · rfl
  rw [table_filed]
  by_cases h2 : i = 2
  · simp [Volume.setCore, h2]
  · by_cases h1 : i = 1
    · simp [Volume.setCore, h1]
    · simp [Volume.setCore, h1, h2, hzero]

theorem synced_filed (i : ℕ) : filed.core i = filed.table.core i := by
  refine FsState.core_eq (fun c hc => ?_) fun _ => rfl
  have hi : i = 1 := hc.2.2.symm
  rw [table_core_filed, if_pos hi]
  rfl

theorem core_filed (i : ℕ) : filed.core i = if i = 1 then small tDir 16 60 else if i =
    2 then small tFile 2 61 else Dinode.zero :=
  (synced_filed i).trans (table_core_filed i)

theorem own_filed (p : ℕ × ℕ) : filed.live.own p = if p = (1, 0) then 60 else if p = (2, 0) then 61 else 0 := by
  obtain ⟨i, n⟩ := p
  change (if (filed.core i).type = 0 then 0 else (filed.core i).ptr filed.live.data n) = _
  rw [core_filed]
  by_cases h1 : i = 1
  · have htype : (small tDir 16 60).type ≠ 0 := by decide
    simp [h1, ptr_small, htype]
  · by_cases h2 : i = 2
    · have htype : (small tFile 2 61).type ≠ 0 := by decide
      simp [h2, ptr_small, htype]
    · simp [h1, h2, Dinode.zero]

theorem filed_dir {i : ℕ} (h : (filed.core i).type = tDir) : i = 1 := by
  rw [core_filed] at h
  split_ifs at h with h1 h2
  · exact h1
  · cases h
  · cases h

theorem whole_filed : Whole everything filed.live where
  ledger := by
    have hcases : ∀ p, filed.live.own p ≠ 0 → p = (1, 0) ∧ filed.live.own p = 60 ∨ p = (2, 0) ∧ filed.live.own p = 61 := by
      intro p hp
      rw [own_filed] at hp ⊢
      split_ifs at hp ⊢ with h1 h2
      · exact .inl ⟨h1, rfl⟩
      · exact .inr ⟨h2, rfl⟩
      · exact absurd rfl hp
    have hused : filed.live.used 60 = true ∧ filed.live.used 61 = true ∧ datastart ≤ 60 ∧
      61 < Superblock.size := by decide +kernel
    refine ⟨fun p hp => ?_, fun p hp => ?_, fun p q hp hpq => ?_⟩
    · rcases hcases p hp with ⟨-, h⟩ | ⟨-, h⟩ <;> omega
    · rcases hcases p hp with ⟨-, h⟩ | ⟨-, h⟩
      · rw [h, hused.1]
      · rw [h, hused.2.1]
    · rcases hcases p hp with ⟨rfl, h⟩ | ⟨rfl, h⟩
      · rcases hcases q (hpq ▸ hp) with ⟨rfl, -⟩ | ⟨-, h'⟩
        · rfl
        · omega
      · rcases hcases q (hpq ▸ hp) with ⟨-, h'⟩ | ⟨rfl, -⟩
        · omega
        · rfl
  reserved := by decide +kernel
  law := fun i k hdir hk _ _ => by
    obtain rfl := filed_dir hdir
    have hsize : (filed.live.core 1).size = 16 := congrArg Dinode.size (core_filed 1)
    obtain rfl : k = 0 := by
      rw [hsize, direntSize] at hk
      omega
    exact ⟨by decide, fun _ h => absurd h (by decide)⟩
  full := fun _ i n ht hn => by
    change (filed.core i).type ≠ 0 at ht
    change n * bsize < (filed.core i).size at hn
    rw [Volume.block, own_filed]
    rw [core_filed] at ht hn
    have hzero : ∀ {size : ℕ}, size ≤ 16 → n * bsize < size → place n = 0 := by
      intro size hsize hlt
      obtain rfl : n = 0 := by
        simp only [bsize] at hlt
        omega
      rfl
    split_ifs at ht hn with h1 h2
    · rw [h1, hzero le_rfl hn]
      decide
    · rw [h2, hzero (by decide) hn]
      decide
    · exact absurd rfl ht
  covers := fun hl => absurd trivial hl

theorem inv_filed : Inv everything filedKernel.refs filedKernel.refs unlocked filed where
  ref := fun _ => rfl
  lock := fun _ => rfl
  unique := fun c c' hc hc' _ _ => (@lone_ref 0 c hc).trans (@lone_ref 0 c' hc').symm
  under := Under.refl _
  dev := fun _ _ => rfl
  inum_lt := fun _ _ _ => show 1 < Mkfs.ninodes by decide
  locked_of := fun _ c hl => by cases hl
  typed := fun _ _ _ => show tDir ≠ 0 by decide
  fits := fun _ _ _ => small_fits (by decide) (by decide) (by decide)
  behind_of := fun _ c _ _ => by
    rw [table_core_filed]
    exact Behind.refl _
  whole := whole_filed
  kept_of := fun _ i ht hn => by
    rw [core_filed] at ht hn
    split_ifs at ht hn with h1 h2
    · cases hn
    · cases hn
    · exact absurd rfl ht
  tidy := trivial
  ahead := fun i hi => absurd (synced_filed i).symm hi

theorem ready_filed : Ready everything filedKernel 0 [97] 2 where
  inv := inv_filed
  clear := {
    dense := trivial
    neat := fun i hi => by
      obtain rfl := filed_dir hi
      decide
    spare := fun c => by
      by_cases hc : c = 1
      · exact ⟨2, by rw [hc]; decide, rfl⟩
      · exact ⟨1, Ne.symm hc, rfl⟩ }
  closed := fun i k hi hk _ => by
    obtain rfl := filed_dir hi
    rw [show (filedKernel.fs.node 1).size = 16 from congrArg Dinode.size (core_filed 1)] at hk
    obtain rfl : k = 0 := by
      simp only [slots, direntSize] at hk
      omega
    decide +kernel
  root := by decide
  leads := ⟨0, 1, rfl, Nat.one_pos, rfl, by decide +kernel, by decide +kernel⟩
  file := by decide +kernel
  input := by decide
  output := ⟨0, rfl, by decide⟩
  spare := ⟨1, rfl⟩

theorem room_filed : filedKernel.fs.live.Room 2 (pointers 0 2) := by
  have hlacks : (filedKernel.fs.live.lacks 2 (pointers 0 2)).card ≤ 1 := (Finset.card_filter_le _ _).trans (by decide)
  have hunused : 64 ∈ filedKernel.fs.live.unused := Finset.mem_filter.mpr ⟨Finset.mem_range.mpr (by decide), by decide +kernel⟩
  exact hlacks.trans (Finset.card_pos.mpr ⟨64, hunused⟩)

theorem contents_filed : (filedKernel.fs.node 2).contents = [122, 122] := by decide +kernel

theorem output_redirection_hi : Leaves 0 .greater [97] [[104], [105]] 2 filedKernel [104, 105] := by
  have hmax : ([[104], [105]] : List (List UInt8)).flatten.length ≤ maxfile * bsize := by decide
  apply (output_redirection_iff ready_filed hmax room_filed).1.mpr
  decide

theorem output_over_file : Ready everything filedKernel 0 [97] 2 ∧ (filedKernel.fs.node 2).contents = [122, 122] ∧
    Leaves 0 .greater [97] [[98]] 2 filedKernel [98, 122] ∧ ¬ Leaves 0 .greater [97] [[98]] 2 filedKernel [98] ∧
    Leaves 0 .append [97] [[98]] 2 filedKernel [98, 122] ∧ ¬ Leaves 0 .append [97] [[98]] 2 filedKernel [122, 122, 98] := by
  have hroom : filedKernel.fs.live.Room 2 (pointers 0 1) := room_filed.mono (by decide)
  have hmax : ([[98]] : List (List UInt8)).flatten.length ≤ maxfile * bsize := by decide
  rw [leaves_iff ready_filed (.inl rfl) hmax hroom, leaves_iff ready_filed (.inl rfl) hmax hroom,
    leaves_iff ready_filed (.inr rfl) hmax hroom, leaves_iff ready_filed (.inr rfl) hmax hroom, contents_filed]
  exact ⟨ready_filed, rfl, by decide⟩

end Laboratorio.Fs
