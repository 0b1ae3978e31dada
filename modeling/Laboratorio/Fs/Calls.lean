import Laboratorio.Procs.Calls
import Laboratorio.Fs.Inode

/-!
The open files of `xv6/file.c`, the calls of `xv6/sysfile.c`, and what
`fork`, `exit`, `wait`, `exec` and `pipealloc` do to them.
-/

namespace Laboratorio.Fs

open Procs (Slot Ptable)

def nofile : ℕ := 16

def nfile : ℕ := 100

abbrev Fd := Fin nofile

abbrev FileId := Fin nfile

instance : NeZero nofile := ⟨by decide⟩

instance : NeZero nfile := ⟨by decide⟩

inductive FdType
  | none
  | pipe (page : ℕ)
  | inode (ip : Cell)
  deriving DecidableEq, Repr

structure File where
  type : FdType
  ref : ℕ
  readable : Bool
  writable : Bool
  off : ℕ
  deriving DecidableEq, Repr

structure Pipe where
  readopen : Bool
  writeopen : Bool
  deriving DecidableEq, Repr

structure Kernel where
  fs : FsState
  ftable : FileId → File
  ofile : Slot → Fd → Option FileId
  cwd : Slot → Option Cell
  pipes : ℕ → Option Pipe
  ptable : Ptable
  initproc : Slot

abbrev KernelM := StateT Kernel (Except Fault)

def onFs {α : Type} : FsM α → KernelM α := within Kernel.fs (fun k s => { k with fs := s })

namespace Kernel

def setFile (k : Kernel) (f : FileId) (x : File) : Kernel := { k with ftable := Function.update k.ftable f x }

def setOfile (k : Kernel) (p : Slot) (fd : Fd) (f : Option FileId) : Kernel :=
  { k with ofile := Function.update k.ofile p (Function.update (k.ofile p) fd f) }

def setCwd (k : Kernel) (p : Slot) (c : Option Cell) : Kernel := { k with cwd := Function.update k.cwd p c }

def setPipe (k : Kernel) (a : ℕ) (q : Option Pipe) : Kernel := { k with pipes := Function.update k.pipes a q }

end Kernel

def filealloc : KernelM (Option FileId) := do
  let k ← get
  match (List.finRange nfile).find? fun f => (k.ftable f).ref = 0 with
  | none => return none
  | some f =>
    set (k.setFile f { k.ftable f with ref := 1 })
    return some f

def filedup (f : FileId) : KernelM Unit := do
  let k ← get
  if (k.ftable f).ref < 1 then throw .filedup
  else set (k.setFile f { k.ftable f with ref := (k.ftable f).ref + 1 })

def fdalloc (p : Slot) (f : FileId) : KernelM (Option Fd) := do
  let k ← get
  match (List.finRange nofile).find? fun fd => k.ofile p fd = none with
  | none => return none
  | some fd =>
    set (k.setOfile p fd (some f))
    return some fd

/-- The wakeups of `pipeclose` are not part of the state; a page whose two ends are closed is given back. -/
def pipeclose (page : ℕ) (writable : Bool) : KernelM Unit := do
  let k ← get
  match k.pipes page with
  | none => throw .nullDeref
  | some q =>
    let q := if writable then { q with writeopen := false } else { q with readopen := false }
    set (k.setPipe page (if q.readopen = false ∧ q.writeopen = false then none else some q))

variable [Superblock]

def fileclose (f : FileId) : KernelM Unit := do
  let k ← get
  let ff := k.ftable f
  if ff.ref < 1 then throw .fileclose
  else if 0 < ff.ref - 1 then set (k.setFile f { ff with ref := ff.ref - 1 })
  else
    set (k.setFile f { ff with ref := 0, type := .none })
    match ff.type with
    | .pipe page => pipeclose page ff.writable
    | .inode ip =>
      onFs (onDisk beginOp)
      onFs (iput ip)
      onFs (onDisk endOp)
    | .none => return ()

structure Stat where
  dev : ℕ
  ino : ℕ
  type : ℕ
  nlink : ℕ
  size : ℕ

def stati (c : Cell) : FsM Stat := do
  let ip ← inode c
  return ⟨ip.dev, ip.inum, ip.d.type, ip.d.nlink, ip.d.size⟩

def filestat (f : FileId) : KernelM (Option Stat) := do
  match ((← get).ftable f).type with
  | .inode ip =>
    onFs (ilock ip)
    let st ← onFs (stati ip)
    onFs (iunlock ip)
    return some st
  | _ => return none

def addOff (f : FileId) (n : ℕ) : KernelM Unit :=
  modify fun k => k.setFile f { k.ftable f with off := ((k.ftable f).off + n) % 2 ^ 32 }

/-- `other` is what the console or a pipe gives; the bytes in a pipe are not part of the state. -/
def fileread (f : FileId) (n : ℕ) (other : Option (List UInt8)) : KernelM (Option (List UInt8)) := do
  let x := (← get).ftable f
  if x.readable = false then return none
  else
    match x.type with
    | .pipe _ => return other
    | .inode ip =>
      onFs (ilock ip)
      let r ← onFs (readi other ip x.off n)
      addOff f ((r.getD []).length)
      onFs (iunlock ip)
      return r
    | .none => throw .fileread

def maxWrite : ℕ := ((10 - 1 - 1 - 2) / 2) * 512

def filewriteLoop (f : FileId) (ip : Cell) (other : Option ℕ) : ℕ → List UInt8 → KernelM ℕ
  | 0, _ => return 0
  | fuel + 1, src => do
    if src = [] then return 0
    else
      let n1 := min src.length maxWrite
      onFs (onDisk beginOp)
      onFs (ilock ip)
      let r ← onFs (writei other ip (src.take n1) ((← get).ftable f).off)
      addOff f (r.getD 0)
      onFs (iunlock ip)
      onFs (onDisk endOp)
      match r with
      | none => return 0
      | some r =>
        if r ≠ n1 then throw .shortFilewrite
        else return n1 + (← filewriteLoop f ip other fuel (src.drop n1))

def filewrite (f : FileId) (src : List UInt8) (other : Option ℕ) : KernelM (Option ℕ) := do
  let x := (← get).ftable f
  if x.writable = false then return none
  else
    match x.type with
    | .pipe _ => return other
    | .inode ip =>
      let i ← filewriteLoop f ip other src.length src
      return if i = src.length then some i else none
    | .none => throw .filewrite

def sysDup (p : Slot) (fd : Fd) : KernelM (Option Fd) := do
  match (← get).ofile p fd with
  | none => return none
  | some f =>
    match ← fdalloc p f with
    | none => return none
    | some fd =>
      filedup f
      return some fd

def sysRead (p : Slot) (fd : Fd) (n : ℕ) (other : Option (List UInt8)) : KernelM (Option (List UInt8)) := do
  match (← get).ofile p fd with
  | none => return none
  | some f => fileread f n other

def sysWrite (p : Slot) (fd : Fd) (src : List UInt8) (other : Option ℕ) : KernelM (Option ℕ) := do
  match (← get).ofile p fd with
  | none => return none
  | some f => filewrite f src other

def sysClose (p : Slot) (fd : Fd) : KernelM Bool := do
  match (← get).ofile p fd with
  | none => return false
  | some f =>
    modify fun k => k.setOfile p fd none
    fileclose f
    return true

def sysFstat (p : Slot) (fd : Fd) : KernelM (Option Stat) := do
  match (← get).ofile p fd with
  | none => return none
  | some f => filestat f

def linkBad (ip : Cell) : FsM Bool := do
  ilock ip
  setD ip fun d => { d with nlink := (d.nlink + (2 ^ 16 - 1)) % 2 ^ 16 }
  iupdate ip
  iunlockput ip
  onDisk endOp
  return false

def sysLink (cwd : Option Cell) (old new : List UInt8) : FsM Bool := do
  onDisk beginOp
  match ← namei cwd old with
  | none =>
    onDisk endOp
    return false
  | some ip =>
    ilock ip
    if (← inode ip).d.type = tDir then
      iunlockput ip
      onDisk endOp
      return false
    else
      setD ip fun d => { d with nlink := (d.nlink + 1) % 2 ^ 16 }
      iupdate ip
      iunlock ip
      match ← nameiparent cwd new with
      | none => linkBad ip
      | some (dp, name) =>
        ilock dp
        let linked ← if (← inode dp).dev ≠ (← inode ip).dev then pure false else dirlink dp name (← inode ip).inum
        if linked then
          iunlockput dp
          iput ip
          onDisk endOp
          return true
        else
          iunlockput dp
          linkBad ip

def isdiremptyLoop (c : Cell) (off : ℕ) : ℕ → FsM Bool
  | 0 => return true
  | n + 1 => do
    let de ← readDirent .isdiremptyReadi c off
    if de.inum ≠ 0 then return false
    else isdiremptyLoop c (off + direntSize) n

def isdirempty (c : Cell) : FsM Bool := do
  isdiremptyLoop c (2 * direntSize) (slots (← inode c).d.size - 2)

def unlinkBad (dp : Cell) : FsM Bool := do
  iunlockput dp
  onDisk endOp
  return false

def unlinkEnd (dp ip : Cell) : FsM Bool := do
  iunlockput dp
  setD ip fun d => { d with nlink := (d.nlink + (2 ^ 16 - 1)) % 2 ^ 16 }
  iupdate ip
  iunlockput ip
  onDisk endOp
  return true

/-- The rest of `sys_unlink` once the entry is found and may go. -/
def unlinkEntry (dp ip : Cell) (off : ℕ) : FsM Bool := do
  if (← writei none dp (List.replicate direntSize 0) off) ≠ some direntSize then throw .unlinkWritei
  else if (← inode ip).d.type = tDir then
    setD dp fun d => { d with nlink := (d.nlink + (2 ^ 16 - 1)) % 2 ^ 16 }
    iupdate dp
    unlinkEnd dp ip
  else unlinkEnd dp ip

def sysUnlink (cwd : Option Cell) (path : List UInt8) : FsM Bool := do
  onDisk beginOp
  match ← nameiparent cwd path with
  | none =>
    onDisk endOp
    return false
  | some (dp, name) =>
    ilock dp
    if namecmp name dot ∨ namecmp name dotdot then unlinkBad dp
    else
      match ← dirlookup dp name with
      | none => unlinkBad dp
      | some (ip, off) =>
        ilock ip
        let d := (← inode ip).d
        -- `nlink` is a short
        if d.nlink = 0 ∨ 2 ^ 15 ≤ d.nlink then throw .unlinkNlink
        else
          let busy ← if d.type = tDir then do pure (!(← isdirempty ip)) else pure false
          if busy then
            iunlockput ip
            unlinkBad dp
          else unlinkEntry dp ip off

def create (cwd : Option Cell) (path : List UInt8) (type major minor : ℕ) : FsM (Option Cell) := do
  match ← nameiparent cwd path with
  | none => return none
  | some (dp, name) =>
    ilock dp
    match ← dirlookup dp name with
    | some (ip, _) =>
      iunlockput dp
      ilock ip
      if type = tFile ∧ (← inode ip).d.type = tFile then return some ip
      else
        iunlockput ip
        return none
    | none =>
      let ip ← ialloc (← inode dp).dev type
      ilock ip
      setD ip fun d => { d with major := major % 2 ^ 16, minor := minor % 2 ^ 16, nlink := 1 }
      iupdate ip
      if type = tDir then
        setD dp fun d => { d with nlink := (d.nlink + 1) % 2 ^ 16 }
        iupdate dp
        if !(← dirlink ip dot (← inode ip).inum) then throw .createDots
        else if !(← dirlink ip dotdot (← inode dp).inum) then throw .createDots
      if !(← dirlink dp name (← inode ip).inum) then throw .createDirlink
      else
        iunlockput dp
        return some ip

def sysMknod (cwd : Option Cell) (path : List UInt8) (major minor : ℕ) : FsM Bool := do
  onDisk beginOp
  match ← create cwd path tDev major minor with
  | none =>
    onDisk endOp
    return false
  | some ip =>
    iunlockput ip
    onDisk endOp
    return true

def sysMkdir (cwd : Option Cell) (path : List UInt8) : FsM Bool := do
  onDisk beginOp
  match ← create cwd path tDir 0 0 with
  | none =>
    onDisk endOp
    return false
  | some ip =>
    iunlockput ip
    onDisk endOp
    return true

def oWronly : ℕ := 0x001

def oRdwr : ℕ := 0x002

def oCreate : ℕ := 0x200

def openInode (cwd : Option Cell) (path : List UInt8) (omode : ℕ) : FsM (Option Cell) := do
  if omode &&& oCreate ≠ 0 then create cwd path tFile 0 0
  else
    match ← namei cwd path with
    | none => return none
    | some ip =>
      ilock ip
      if (← inode ip).d.type = tDir ∧ omode ≠ 0 then
        iunlockput ip
        return none
      else return some ip

def sysOpen (p : Slot) (path : List UInt8) (omode : ℕ) : KernelM (Option Fd) := do
  onFs (onDisk beginOp)
  match ← onFs (openInode ((← get).cwd p) path omode) with
  | none =>
    onFs (onDisk endOp)
    return none
  | some ip =>
    match ← filealloc with
    | none =>
      onFs (iunlockput ip)
      onFs (onDisk endOp)
      return none
    | some f =>
      match ← fdalloc p f with
      | none =>
        fileclose f
        onFs (iunlockput ip)
        onFs (onDisk endOp)
        return none
      | some fd =>
        onFs (iunlock ip)
        onFs (onDisk endOp)
        modify fun k => k.setFile f { k.ftable f with
          type := .inode ip, off := 0, readable := omode &&& oWronly = 0,
          writable := omode &&& oWronly ≠ 0 ∨ omode &&& oRdwr ≠ 0 }
        return some fd

def sysChdir (p : Slot) (path : List UInt8) : KernelM Bool := do
  onFs (onDisk beginOp)
  let k ← get
  match ← onFs (namei (k.cwd p) path) with
  | none =>
    onFs (onDisk endOp)
    return false
  | some ip =>
    onFs (ilock ip)
    if (← onFs (inode ip)).d.type ≠ tDir then
      onFs (iunlockput ip)
      onFs (onDisk endOp)
      return false
    else
      onFs (iunlock ip)
      match k.cwd p with
      | none => throw .nullDeref
      | some c => onFs (iput c)
      onFs (onDisk endOp)
      modify fun k => k.setCwd p (some ip)
      return true

def execReads (ip : Cell) : List (ℕ × ℕ × Option (List UInt8)) → FsM Unit
  | [] => return ()
  | (off, n, dev) :: rs => do
    let _ ← readi dev ip off n
    execReads ip rs

/-- What `exec` does to inodes: `reads` are the reads of the ELF
header, the program headers and the segments that it gets to. -/
def exec (cwd : Option Cell) (path : List UInt8) (reads : List (ℕ × ℕ × Option (List UInt8))) : FsM Unit := do
  onDisk beginOp
  match ← namei cwd path with
  | none => onDisk endOp
  | some ip =>
    ilock ip
    execReads ip reads
    iunlockput ip
    onDisk endOp

def pipealloc (page : Option ℕ) : KernelM (Option (FileId × FileId)) := do
  match ← filealloc with
  | none => return none
  | some rf =>
    match ← filealloc with
    | none =>
      fileclose rf
      return none
    | some wf =>
      match page with
      | none =>
        fileclose rf
        fileclose wf
        return none
      | some a =>
        modify fun k => k.setPipe a (some ⟨true, true⟩)
        modify fun k => k.setFile rf { k.ftable rf with type := .pipe a, readable := true, writable := false }
        modify fun k => k.setFile wf { k.ftable wf with type := .pipe a, readable := false, writable := true }
        return some (rf, wf)

def sysPipe (p : Slot) (page : Option ℕ) : KernelM (Option (Fd × Fd)) := do
  match ← pipealloc page with
  | none => return none
  | some (rf, wf) =>
    match ← fdalloc p rf with
    | none =>
      fileclose rf
      fileclose wf
      return none
    | some fd0 =>
      match ← fdalloc p wf with
      | none =>
        modify fun k => k.setOfile p fd0 none
        fileclose rf
        fileclose wf
        return none
      | some fd1 => return some (fd0, fd1)

def forkFiles (cur np : Slot) : List Fd → KernelM Unit
  | [] => return ()
  | fd :: fds => do
    match (← get).ofile cur fd with
    | none => pure ()
    | some f =>
      filedup f
      modify fun k => k.setOfile np fd (some f)
    forkFiles cur np fds

/-- The flags say whether `kalloc` found a kernel stack and whether `copyuvm` succeeded. -/
def fork (cur : Slot) (kstackOk copyOk : Bool) : KernelM (Option Slot) := do
  let k ← get
  match Procs.fork k.ptable cur kstackOk copyOk with
  | (t, none) =>
    set { k with ptable := t }
    return none
  | (t, some np) =>
    set { k with ptable := t }
    forkFiles cur np (List.finRange nofile)
    match k.cwd cur with
    | none => throw .nullDeref
    | some c =>
      let c ← onFs (idup c)
      modify fun k => k.setCwd np (some c)
    return some np

def exitFiles (cur : Slot) : List Fd → KernelM Unit
  | [] => return ()
  | fd :: fds => do
    match (← get).ofile cur fd with
    | none => pure ()
    | some f =>
      fileclose f
      modify fun k => k.setOfile cur fd none
    exitFiles cur fds

def exit (cur : Slot) : KernelM Unit := do
  if cur = (← get).initproc then throw .initExiting
  else
    exitFiles cur (List.finRange nofile)
    onFs (onDisk beginOp)
    match (← get).cwd cur with
    | none => throw .nullDeref
    | some c => onFs (iput c)
    onFs (onDisk endOp)
    modify fun k => k.setCwd cur none
    modify fun k => { k with ptable := Procs.exit k.ptable cur k.initproc }

def wait (cur : Slot) : KernelM Unit := do
  let k ← get
  match Procs.wait k.ptable cur with
  | .failed => return ()
  | .sleep => set { k with ptable := Procs.waitSleep k.ptable cur }
  | .reaped _ _ t => set { k with ptable := t }

inductive Call
  | opn (path : List UInt8) (omode : ℕ)
  | close (fd : Fd)
  | dup (fd : Fd)
  | read (fd : Fd) (n : ℕ) (other : Option (List UInt8))
  | write (fd : Fd) (src : List UInt8) (other : Option ℕ)
  | fstat (fd : Fd)
  | link (old new : List UInt8)
  | unlink (path : List UInt8)
  | mkdir (path : List UInt8)
  | mknod (path : List UInt8) (major minor : ℕ)
  | chdir (path : List UInt8)
  | exec (path : List UInt8) (reads : List (ℕ × ℕ × Option (List UInt8)))
  | pipe (page : Option ℕ)
  | fork (kstackOk copyOk : Bool)
  | exit
  | wait
  deriving DecidableEq, Repr

def runCall (p : Slot) : Call → KernelM Unit
  | .opn path omode => do let _ ← sysOpen p path omode
  | .close fd => do let _ ← sysClose p fd
  | .dup fd => do let _ ← sysDup p fd
  | .read fd n other => do let _ ← sysRead p fd n other
  | .write fd src other => do let _ ← sysWrite p fd src other
  | .fstat fd => do let _ ← sysFstat p fd
  | .link old new => do let _ ← onFs (sysLink ((← get).cwd p) old new)
  | .unlink path => do let _ ← onFs (sysUnlink ((← get).cwd p) path)
  | .mkdir path => do let _ ← onFs (sysMkdir ((← get).cwd p) path)
  | .mknod path major minor => do let _ ← onFs (sysMknod ((← get).cwd p) path major minor)
  | .chdir path => do let _ ← sysChdir p path
  | .exec path reads => do onFs (exec ((← get).cwd p) path reads)
  | .pipe page => do let _ ← sysPipe p page
  | .fork kstackOk copyOk => do let _ ← fork p kstackOk copyOk
  | .exit => exit p
  | .wait => wait p

/-- A call is made by a process that can run, and `kalloc` gives a page that is not in use. -/
def Kernel.allows (k : Kernel) (p : Slot) (c : Call) : Bool :=
  (k.ptable.proc p).canRun &&
    match c with
    | .pipe (some a) => (k.pipes a).isNone
    | _ => true

def Kernel.step (k : Kernel) (a : Slot × Call) : Option Kernel :=
  if k.allows a.1 a.2 then
    match runCall a.1 a.2 k with
    | .ok (_, k') => some k'
    | .error _ => none
  else none

/-- The state in which `userinit` leaves the first process: its working directory is the root, which nothing has read yet. -/
def Kernel.boot (blocks : ℕ → Bytes) : Kernel :=
  ⟨⟨⟨blocks, []⟩, Function.update (fun _ => ⟨0, 0, 0, false, false, Dinode.zero⟩) 0
      ⟨rootdev, rootino, 1, false, false, Dinode.zero⟩⟩,
    fun _ => ⟨.none, 0, false, false, 0⟩, fun _ _ => none, Function.update (fun _ => none) 0 (some 0), fun _ => none,
    Procs.bootTable, 0⟩

end Laboratorio.Fs
