import Laboratorio.Fs.Calls
import Laboratorio.Fs.Refs

/-!
The references and locks that the calls of `xv6/sysfile.c` leave on the inodes.
-/

namespace Laboratorio.Fs

open Function

variable {s : FsState} {r : Cell → ℕ} {l : Cell → Bool} {c : Cell} {cwd : Option Cell} {path : List UInt8}

theorem quiet_event {e : Event} : Quiet (onDisk (modify fun d => { d with trace := e :: d.trace })) :=
  quiet_onDisk (Keeps.change fun _ => trivial)

theorem quiet_beginOp : Quiet (onDisk beginOp) := quiet_event

theorem quiet_endOp : Quiet (onDisk endOp) := quiet_event

theorem at_endOp {α : Type} {a : α} (h : At s r l) :
    wpr (Stays r) (do onDisk endOp; pure a) s (fun _ t => At t r l) Fault.Other :=
  (quiet_endOp.at h).bind fun _ _ h => wpr.ret h

variable [sb : Superblock]

theorem at_ialloc (h : At s r l) (dev type : ℕ) :
    wpr (Stays r) (ialloc dev type) s (fun c t => At t (plus r c) l) Fault.Other := by
  have hloop : ∀ n inum, wpr (Stays r) (iallocLoop dev type inum n) s (fun c t => At t (plus r c) l) Fault.Other := by
    intro n
    induction n with
    | zero => exact fun _ => wpr.fail rfl
    | succ n ih =>
      refine fun inum => wpr.get_bind (wpr.ite (fun _ => ?_) fun _ => ih _)
      exact ((quiet_onDisk (keeps_putDinode _ _)).at h).bind fun _ _ ht => at_iget ht _ _
  exact hloop _ _

theorem quiet_isdirempty (c : Cell) : Quiet (isdirempty c) := by
  have hloop : ∀ off n, Quiet (isdiremptyLoop c off n) := by
    intro off n
    induction n generalizing off with
    | zero => exact Keeps.ret _
    | succ n ih =>
      exact (quiet_readDirent (e := .isdiremptyReadi) rfl c off).bind fun _ => Keeps.ite (fun _ => Keeps.ret _) fun _ => ih _
  exact (quiet_inode c).bind fun _ => hloop _ _

def AtLocked (r : Cell → ℕ) (l : Cell → Bool) (res : Option Cell) (t : FsState) : Prop :=
  match res with
  | none => At t r l
  | some c => l c = false ∧ At t (plus r c) (update l c true)

theorem at_putEnd {α : Type} {a : α} {ip : Cell} (h : At s (plus r ip) (update l ip true)) (hl : l ip = false) :
    wpr (Stays r) (do iunlockput ip; onDisk endOp; pure a) s (fun _ t => At t r l) Fault.Other :=
  (at_iunlockput h hl).bind fun _ _ ht => at_endOp ht

theorem at_linkBad {ip : Cell} (h : At s (plus r ip) l) : wpr (Stays r) (linkBad ip) s (fun _ t => At t r l) Fault.Other := by
  have hu : Under r (plus r ip) := (Under.refl r).plus ip
  refine (hu.call (at_ilock h (plus_self_pos r ip))).bind fun _ t ⟨hl, ht⟩ => (hu.call ((quiet_setD _ _).at ht)).bind
    fun _ t ht => ?_
  refine (hu.call ((quiet_iupdate _).at ht)).bind fun _ t ht => at_putEnd ht hl

theorem quiet_execReads (ip : Cell) (reads : List (ℕ × ℕ × Option (List UInt8))) : Quiet (execReads ip reads) := by
  induction reads with
  | nil => exact Keeps.ret _
  | cons x xs ih => exact (quiet_readi _ _ _ _).bind fun _ => ih

variable (h : At s r l) (hcwd : ∃ c, cwd = some c ∧ 0 < r c)
include h hcwd

theorem at_namei : wpr (Stays r) (namei cwd path) s (fun res t => At t (res.elim r (plus r)) l) Fault.Other := by
  refine (at_namex h hcwd).bind fun res t ht => wpr.ret ?_
  cases res with
  | none => exact ht
  | some x => exact ht

theorem at_create {type major minor : ℕ} : wpr (Stays r) (create cwd path type major minor) s (AtLocked r l) Fault.Other := by
  refine (at_namex h hcwd).bind ?_
  rintro (_ | ⟨dp, name⟩) t ht
  · exact wpr.ret ht
  have hu : Under r (plus r dp) := (Under.refl r).plus dp
  refine (hu.call (at_ilock ht (plus_self_pos r dp))).bind fun _ t ⟨hl, ht⟩ => (hu.call (at_dirlookup ht name)).bind ?_
  rintro (_ | ⟨ip, off⟩) t ht
  · refine (hu.call ((quiet_inode dp).at ht)).bind fun _ t ht => (hu.call (at_ialloc ht _ _)).bind fun ip t ht => ?_
    refine ((hu.plus ip).call (at_ilock ht (plus_self_pos _ ip))).bind fun _ t ⟨hlip, ht⟩ => ?_
    have hne : ip ≠ dp := fun he => by simp [he] at hlip
    rw [update_of_ne hne] at hlip
    rw [update_comm hne.symm, plus_comm] at ht
    have hu' : Under r (plus (plus r ip) dp) := ((Under.refl r).plus ip).plus dp
    have hldp : update l ip true dp = false := by rwa [update_of_ne hne.symm]
    have hend : ∀ t, At t (plus (plus r ip) dp) (update (update l ip true) dp true) → wpr (Stays r) (do
        let ip' ← inode ip
        let ok ← dirlink dp name ip'.inum
        if (!ok) = true then throw .createDirlink
        else do
          iunlockput dp
          pure (some ip)) t (AtLocked r l) Fault.Other := by
      refine fun t ht => (hu'.call ((quiet_inode ip).at ht)).bind fun _ t ht => (hu'.call (at_dirlink ht _ _)).bind
        fun _ t ht => ?_
      refine wpr.ite (fun _ => wpr.fail rfl) fun _ => (((Under.refl r).plus ip).call (at_iunlockput ht hldp)).bind
        fun _ t ht => ?_
      exact wpr.ret ⟨hlip, ht⟩
    refine (hu'.call ((quiet_setD _ _).at ht)).bind fun _ t ht => (hu'.call ((quiet_iupdate _).at ht)).bind fun _ t ht => ?_
    refine wpr.ite (fun _ => ?_) fun _ => hend t ht
    refine (hu'.call ((quiet_setD _ _).at ht)).bind fun _ t ht => (hu'.call ((quiet_iupdate _).at ht)).bind fun _ t ht => ?_
    refine (hu'.call ((quiet_inode ip).at ht)).bind fun _ t ht => (hu'.call (at_dirlink ht _ _)).bind fun _ t ht => ?_
    refine wpr.ite (fun _ => wpr.fail_bind rfl) fun _ => (hu'.call ((quiet_inode dp).at ht)).bind fun _ t ht => ?_
    exact (hu'.call (at_dirlink ht _ _)).bind fun _ t ht => wpr.ite (fun _ => wpr.fail_bind rfl) fun _ => hend t ht
  · have ht' : At t (plus (plus r ip) dp) (update l dp true) := plus_comm r dp ip ▸ ht
    have hu' : Under r (plus r ip) := (Under.refl r).plus ip
    refine (hu'.call (at_iunlockput ht' hl)).bind fun _ t ht => (hu'.call (at_ilock ht (plus_self_pos r ip))).bind
      fun _ t ⟨hl, ht⟩ => ?_
    refine (hu'.call ((quiet_inode ip).at ht)).bind fun _ t ht => wpr.ite (fun _ => wpr.ret ⟨hl, ht⟩) fun _ => ?_
    exact (at_iunlockput ht hl).bind fun _ _ h => wpr.ret h

theorem at_sysLink {new : List UInt8} : wpr (Stays r) (sysLink cwd path new) s (fun _ t => At t r l) Fault.Other := by
  refine (quiet_beginOp.at h).bind fun _ t ht => (at_namei ht hcwd).bind ?_
  rintro (_ | ip) t ht
  · exact at_endOp ht
  have hu : Under r (plus r ip) := (Under.refl r).plus ip
  have hcwd' : ∃ c, cwd = some c ∧ 0 < plus r ip c := hcwd.imp fun c hc => ⟨hc.1, plus_pos ip hc.2⟩
  refine (hu.call (at_ilock ht (plus_self_pos r ip))).bind fun _ t ⟨hl, ht⟩ => (hu.call ((quiet_inode ip).at ht)).bind
    fun _ t ht => ?_
  refine wpr.ite (fun _ => ?_) fun _ => ?_
  · exact at_putEnd ht hl
  refine (hu.call ((quiet_setD _ _).at ht)).bind fun _ t ht => (hu.call ((quiet_iupdate _).at ht)).bind fun _ t ht => ?_
  refine (hu.call (at_iunlock ht (plus_self_pos r ip) hl)).bind fun _ t ht => (hu.call (at_namex ht hcwd')).bind ?_
  rintro (_ | ⟨dp, name⟩) t ht
  · exact at_linkBad ht
  have hu' : Under r (plus (plus r ip) dp) := hu.plus dp
  refine (hu'.call (at_ilock ht (plus_self_pos _ dp))).bind fun _ t ⟨hl, ht⟩ => (hu'.call ((quiet_inode dp).at ht)).bind
    fun _ t ht => ?_
  refine (hu'.call ((quiet_inode ip).at ht)).bind fun _ t ht => ?_
  have hend : ∀ (linked : Bool) t, At t (plus (plus r ip) dp) (update l dp true) → wpr (Stays r) (
      if linked = true then do
        iunlockput dp
        iput ip
        onDisk endOp
        pure true
      else do
        iunlockput dp
        linkBad ip) t (fun _ t => At t r l) Fault.Other := by
    refine fun linked t ht => wpr.ite (fun _ => ?_) fun _ => ?_
    · refine (hu.call (at_iunlockput ht hl)).bind fun _ t ht => (at_iput ht).bind fun _ _ ht => at_endOp ht
    · exact (hu.call (at_iunlockput ht hl)).bind fun _ _ ht => at_linkBad ht
  refine wpr.ite (fun _ => hend false t ht) fun _ => ?_
  exact (hu'.call ((quiet_inode ip).at ht)).bind fun _ t ht => (hu'.call (at_dirlink ht _ _)).bind fun linked t ht =>
    hend linked t ht

theorem at_sysUnlink : wpr (Stays r) (sysUnlink cwd path) s (fun _ t => At t r l) Fault.Other := by
  refine (quiet_beginOp.at h).bind fun _ t ht => (at_namex ht hcwd).bind ?_
  rintro (_ | ⟨dp, name⟩) t ht
  · exact at_endOp ht
  have hu : Under r (plus r dp) := (Under.refl r).plus dp
  refine (hu.call (at_ilock ht (plus_self_pos r dp))).bind fun _ t ⟨hl, ht⟩ => wpr.ite (fun _ => at_putEnd ht hl) fun _ => ?_
  refine (hu.call (at_dirlookup ht name)).bind ?_
  rintro (_ | ⟨ip, off⟩) t ht
  · exact at_putEnd ht hl
  refine ((hu.plus ip).call (at_ilock ht (plus_self_pos _ ip))).bind fun _ t ⟨hlip, ht⟩ => ?_
  have hne : ip ≠ dp := fun he => by simp [he] at hlip
  rw [update_of_ne hne] at hlip
  have hu' : Under r (plus (plus r dp) ip) := hu.plus ip
  have huip : Under r (plus r ip) := (Under.refl r).plus ip
  have hldp : update l ip true dp = false := by rwa [update_of_ne hne.symm]
  have hlip' : update l dp true ip = false := by rwa [update_of_ne hne]
  have hswap : ∀ {t}, At t (plus (plus r dp) ip) (update (update l dp true) ip true) →
      At t (plus (plus r ip) dp) (update (update l ip true) dp true) := fun ht => by rwa [update_comm hne, plus_comm]
  refine (hu'.call ((quiet_inode ip).at ht)).bind fun d t ht => wpr.ite (fun _ => wpr.fail rfl) fun _ => ?_
  have hbusy : ∀ t, At t (plus (plus r dp) ip) (update (update l dp true) ip true) →
      wpr (Stays r) (do iunlockput ip; unlinkBad dp) t (fun _ t => At t r l) Fault.Other := fun t ht =>
    (hu.call (at_iunlockput ht hlip')).bind fun _ _ ht => at_putEnd ht hl
  have hlast : ∀ t, At t (plus (plus r dp) ip) (update (update l dp true) ip true) →
      wpr (Stays r) (unlinkEnd dp ip) t (fun _ t => At t r l) Fault.Other := by
    refine fun t ht => (huip.call (at_iunlockput (hswap ht) hldp)).bind fun _ t ht => (huip.call ((quiet_setD _ _).at ht)).bind
      fun _ t ht => ?_
    refine (huip.call ((quiet_iupdate _).at ht)).bind fun _ t ht => at_putEnd ht hlip
  have hgo : ∀ (busy : Bool) t, At t (plus (plus r dp) ip) (update (update l dp true) ip true) →
    wpr (Stays r) (if busy = true then do iunlockput ip; unlinkBad dp else unlinkEntry dp ip off) t
    (fun _ t => At t r l) Fault.Other := by
    refine fun busy t ht => wpr.ite (fun _ => hbusy t ht) fun _ => (hu'.call ((quiet_writei _ _ _ _).at ht)).bind
      fun _ t ht => ?_
    refine wpr.ite (fun _ => wpr.fail rfl) fun _ => (hu'.call ((quiet_inode ip).at ht)).bind fun _ t ht => ?_
    refine wpr.ite (fun _ => ?_) fun _ => hlast t ht
    exact (hu'.call ((quiet_setD _ _).at ht)).bind fun _ t ht => (hu'.call ((quiet_iupdate _).at ht)).bind
      fun _ t ht => hlast t ht
  refine wpr.ite (fun _ => ?_) fun _ => hgo false t ht
  exact (hu'.call ((quiet_isdirempty ip).at ht)).bind fun empty t ht => hgo (!empty) t ht

theorem at_sysMknod {major minor : ℕ} : wpr (Stays r) (sysMknod cwd path major minor) s (fun _ t => At t r l) Fault.Other := by
  refine (quiet_beginOp.at h).bind fun _ t ht => (at_create ht hcwd).bind ?_
  rintro (_ | ip) t ht
  · exact at_endOp ht
  · exact at_putEnd ht.2 ht.1

theorem at_sysMkdir : wpr (Stays r) (sysMkdir cwd path) s (fun _ t => At t r l) Fault.Other := by
  refine (quiet_beginOp.at h).bind fun _ t ht => (at_create ht hcwd).bind ?_
  rintro (_ | ip) t ht
  · exact at_endOp ht
  · exact at_putEnd ht.2 ht.1

theorem at_openInode {omode : ℕ} : wpr (Stays r) (openInode cwd path omode) s (AtLocked r l) Fault.Other := by
  refine wpr.ite (fun _ => at_create h hcwd) fun _ => (at_namei h hcwd).bind ?_
  rintro (_ | ip) t ht
  · exact wpr.ret ht
  have hu : Under r (plus r ip) := (Under.refl r).plus ip
  refine (hu.call (at_ilock ht (plus_self_pos r ip))).bind fun _ t ⟨hl, ht⟩ => (hu.call ((quiet_inode ip).at ht)).bind
    fun _ t ht => ?_
  refine wpr.ite (fun _ => ?_) fun _ => wpr.ret ⟨hl, ht⟩
  exact (at_iunlockput ht hl).bind fun _ _ h => wpr.ret h

theorem at_exec {reads : List (ℕ × ℕ × Option (List UInt8))} :
    wpr (Stays r) (exec cwd path reads) s (fun _ t => At t r l) Fault.Other := by
  refine (quiet_beginOp.at h).bind fun _ t ht => (at_namei ht hcwd).bind ?_
  rintro (_ | ip) t ht
  · exact quiet_endOp.at ht
  have hu : Under r (plus r ip) := (Under.refl r).plus ip
  refine (hu.call (at_ilock ht (plus_self_pos r ip))).bind fun _ t ⟨hl, ht⟩ => (hu.call ((quiet_execReads _ _).at ht)).bind
    fun _ t ht => ?_
  exact (at_iunlockput ht hl).bind fun _ t ht => quiet_endOp.at ht

end Laboratorio.Fs
