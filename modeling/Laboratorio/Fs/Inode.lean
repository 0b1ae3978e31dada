import Laboratorio.Fs.Disk

/-!
The inode cache, file contents, directories and paths of `xv6/fs.c`.
-/

namespace Laboratorio.Fs

open Bytes

def ninode : ℕ := 50

abbrev Cell := Fin ninode

instance : NeZero ninode := ⟨by decide⟩

def rootdev : ℕ := 1

def rootino : ℕ := 1

def tDir : ℕ := 1

def tFile : ℕ := 2

def tDev : ℕ := 3

def console : ℕ := 1

/-- `d` are the fields that `ilock` copies from the disk. Calls do not overlap, so a locked inode is locked by the process that
makes the call. -/
structure Inode where
  dev : ℕ
  inum : ℕ
  ref : ℕ
  lock : Bool
  valid : Bool
  d : Dinode

structure FsState where
  disk : Disk
  icache : Cell → Inode

abbrev FsM := StateT FsState (Except Fault)

def onDisk {α : Type} : DiskM α → FsM α := within FsState.disk (fun s d => { s with disk := d })

def FsState.set (s : FsState) (c : Cell) (ip : Inode) : FsState := { s with icache := Function.update s.icache c ip }

def setInode (c : Cell) (f : Inode → Inode) : FsM Unit := modify fun s => s.set c (f (s.icache c))

def setD (c : Cell) (f : Dinode → Dinode) : FsM Unit := setInode c fun ip => { ip with d := f ip.d }

def inode (c : Cell) : FsM Inode := do return (← get).icache c

def findCell (s : FsState) (p : Inode → Bool) : Option Cell := (List.finRange ninode).find? fun c => p (s.icache c)

def iget (dev inum : ℕ) : FsM Cell := do
  let s ← get
  match findCell s (fun ip => 0 < ip.ref ∧ ip.dev = dev ∧ ip.inum = inum) with
  | some c =>
    setInode c fun ip => { ip with ref := ip.ref + 1 }
    return c
  | none =>
    match findCell s (fun ip => ip.ref = 0) with
    | none => throw .igetNoInodes
    | some c =>
      setInode c fun ip => { ip with dev := dev, inum := inum, ref := 1, valid := false }
      return c

def idup (c : Cell) : FsM Cell := do
  setInode c fun ip => { ip with ref := ip.ref + 1 }
  return c

def acquiresleep (c : Cell) : FsM Unit := do
  if (← inode c).lock then throw .deadlock
  else setInode c fun ip => { ip with lock := true }

def releasesleep (c : Cell) : FsM Unit := setInode c fun ip => { ip with lock := false }

def iunlock (c : Cell) : FsM Unit := do
  let ip ← inode c
  if ip.lock = false ∨ ip.ref < 1 then throw .iunlock
  else releasesleep c

abbrev Name := List UInt8

def dirsiz : ℕ := 14

def direntSize : ℕ := 16

def slash : UInt8 := 47

def dot : Name := [46]

def dotdot : Name := [46, 46]

def strncmpEq : ℕ → Name → Name → Bool
  | 0, _, _ => true
  | n + 1, p, q =>
    if p.headD 0 ≠ q.headD 0 then false
    else if p.headD 0 = 0 then true
    else strncmpEq n p.tail q.tail

def namecmp (s t : Name) : Bool := strncmpEq dirsiz s t

def strncpy (s : Name) (n : ℕ) : List UInt8 :=
  let t := (s.takeWhile (· ≠ 0)).take n
  t ++ List.replicate (n - t.length) 0

structure Dirent where
  inum : ℕ
  name : List UInt8

def Dirent.ofBytes (l : List UInt8) : Dirent := ⟨(l.getD 0 0).toNat + 256 * (l.getD 1 0).toNat, l.drop 2⟩

def Dirent.bytes (de : Dirent) : List UInt8 := UInt8.ofNat de.inum :: UInt8.ofNat (de.inum / 256) :: de.name

def skipelem (path : List UInt8) : Option (Name × List UInt8) :=
  let path := path.dropWhile (· = slash)
  if path.headD 0 = 0 then none
  else
    let inElem := fun c : UInt8 => c ≠ slash ∧ c ≠ 0
    some ((path.takeWhile inElem).take dirsiz, (path.dropWhile inElem).dropWhile (· = slash))

def slice (f : Bytes) (a n : ℕ) : List UInt8 := (List.range n).map fun x => f (a + x)

variable [sb : Superblock]

def iallocLoop (dev type inum : ℕ) : ℕ → FsM Cell
  | 0 => throw .iallocNoInodes
  | n + 1 => do
    let s ← get
    if (dinode s.disk.blocks inum).type = 0 then
      onDisk (putDinode inum { Dinode.zero with type := type })
      iget dev inum
    else iallocLoop dev type (inum + 1) n

def ialloc (dev type : ℕ) : FsM Cell := iallocLoop dev type 1 (ninodes - 1)

def iupdate (c : Cell) : FsM Unit := do
  let ip ← inode c
  onDisk (putDinode ip.inum ip.d)

def ilock (c : Cell) : FsM Unit := do
  if (← inode c).ref < 1 then throw .ilock
  else
    acquiresleep c
    let s ← get
    let ip := s.icache c
    if ip.valid = false then
      let d := dinode s.disk.blocks ip.inum
      setInode c fun ip => { ip with d := d, valid := true }
      if d.type = 0 then throw .ilockNoType

def bmap (c : Cell) (bn : ℕ) : FsM ℕ := do
  let ip ← inode c
  if bn < ndirect then
    if ip.d.addrs bn = 0 then
      let addr ← onDisk balloc
      setD c fun d => { d with addrs := Function.update d.addrs bn addr }
      return addr
    else return ip.d.addrs bn
  else
    let bn := bn - ndirect
    if bn < nindirect then
      let ind ← if ip.d.addrs ndirect = 0 then do
          let addr ← onDisk balloc
          setD c fun d => { d with addrs := Function.update d.addrs ndirect addr }
          pure addr
        else pure (ip.d.addrs ndirect)
      let bp ← onDisk (bread ind)
      if rd32 bp (4 * bn) = 0 then
        let addr ← onDisk balloc
        -- the buffer of the indirect block stays locked while `balloc` runs
        onDisk (logWrite ind (wr32 bp (4 * bn) addr))
        return addr
      else return rd32 bp (4 * bn)
    else throw .bmapOutOfRange

def itrunc (c : Cell) : FsM Unit := do
  (List.range ndirect).forM fun i => do
    let addr := (← inode c).d.addrs i
    if addr ≠ 0 then
      onDisk (bfree addr)
      setD c fun d => { d with addrs := Function.update d.addrs i 0 }
  let ind := (← inode c).d.addrs ndirect
  if ind ≠ 0 then
    let a ← onDisk (bread ind)
    (List.range nindirect).forM fun j => do
      if rd32 a (4 * j) ≠ 0 then onDisk (bfree (rd32 a (4 * j)))
    onDisk (bfree ind)
    setD c fun d => { d with addrs := Function.update d.addrs ndirect 0 }
  setD c fun d => { d with size := 0 }
  iupdate c

def iput (c : Cell) : FsM Unit := do
  acquiresleep c
  let ip ← inode c
  if ip.valid ∧ ip.d.nlink = 0 then
    if ip.ref = 1 then
      itrunc c
      setD c fun d => { d with type := 0 }
      iupdate c
      setInode c fun ip => { ip with valid := false }
  releasesleep c
  setInode c fun ip => { ip with ref := ip.ref - 1 }

def iunlockput (c : Cell) : FsM Unit := do
  iunlock c
  iput c

def readiLoop (c : Cell) : ℕ → ℕ → ℕ → FsM (List UInt8)
  | 0, _, _ => return []
  | fuel + 1, off, n => do
    if n = 0 then return []
    else
      let addr ← bmap c (off / bsize)
      let bp ← onDisk (bread addr)
      let m := min n (bsize - off % bsize)
      let rest ← readiLoop c fuel (off + m) (n - m)
      return slice bp (off % bsize) m ++ rest

/-- The bytes read, `none` for -1; `dev` is what the read function of the console gives. -/
def readi (dev : Option (List UInt8)) (c : Cell) (off n : ℕ) : FsM (Option (List UInt8)) := do
  let ip ← inode c
  if ip.d.type = tDev then
    return if ip.d.major = console then dev else none
  else if off > ip.d.size ∨ (off + n) % 2 ^ 32 < off then return none
  else
    let n := if off + n > ip.d.size then ip.d.size - off else n
    return some (← readiLoop c n off n)

def writeiLoop (c : Cell) : ℕ → ℕ → List UInt8 → FsM Unit
  | 0, _, _ => return ()
  | fuel + 1, off, src => do
    if src = [] then return ()
    else
      let addr ← bmap c (off / bsize)
      let bp ← onDisk (bread addr)
      let m := min src.length (bsize - off % bsize)
      onDisk (logWrite addr (store bp (off % bsize) m (fun x => src.getD x 0)))
      writeiLoop c fuel (off + m) (src.drop m)

def writei (dev : Option ℕ) (c : Cell) (src : List UInt8) (off : ℕ) : FsM (Option ℕ) := do
  let n := src.length
  let ip ← inode c
  if ip.d.type = tDev then
    return if ip.d.major = console then dev else none
  else if off > ip.d.size ∨ (off + n) % 2 ^ 32 < off then return none
  else if off + n > maxfile * bsize then return none
  else
    writeiLoop c n off src
    let ip ← inode c
    if 0 < n ∧ off + n > ip.d.size then
      setD c fun d => { d with size := off + n }
      iupdate c
    return some n

def readDirent (e : Fault) (c : Cell) (off : ℕ) : FsM Dirent := do
  match ← readi none c off direntSize with
  | some l => if l.length = direntSize then return Dirent.ofBytes l else throw e
  | none => throw e

def dirlookupLoop (c : Cell) (name : Name) (off : ℕ) : ℕ → FsM (Option (Cell × ℕ))
  | 0 => return none
  | n + 1 => do
    let de ← readDirent .dirlookupRead c off
    if de.inum ≠ 0 ∧ namecmp name de.name then
      let next ← iget (← inode c).dev de.inum
      return some (next, off)
    else dirlookupLoop c name (off + direntSize) n

def slots (size : ℕ) : ℕ := (size + direntSize - 1) / direntSize

def dirlookup (c : Cell) (name : Name) : FsM (Option (Cell × ℕ)) := do
  let dp ← inode c
  if dp.d.type ≠ tDir then throw .dirlookupNotDir
  else dirlookupLoop c name 0 (slots dp.d.size)

def emptySlot (c : Cell) (off : ℕ) : ℕ → FsM ℕ
  | 0 => return off
  | n + 1 => do
    let de ← readDirent .dirlinkRead c off
    if de.inum = 0 then return off
    else emptySlot c (off + direntSize) n

def dirlink (c : Cell) (name : Name) (inum : ℕ) : FsM Bool := do
  match ← dirlookup c name with
  | some (ip, _) =>
    iput ip
    return false
  | none =>
    let off ← emptySlot c 0 (slots (← inode c).d.size)
    let de : Dirent := ⟨inum % 2 ^ 16, strncpy name dirsiz⟩
    if (← writei none c de.bytes off) = some direntSize then return true
    else throw .dirlink

def namexLoop (parent : Bool) : ℕ → Cell → List UInt8 → Name → FsM (Option (Cell × Name))
  | 0, _, _, _ => return none
  | fuel + 1, ip, path, name => do
    match skipelem path with
    | none =>
      if parent then
        iput ip
        return none
      else return some (ip, name)
    | some (name, path) =>
      ilock ip
      if (← inode ip).d.type ≠ tDir then
        iunlockput ip
        return none
      else if parent ∧ path.headD 0 = 0 then
        iunlock ip
        return some (ip, name)
      else
        match ← dirlookup ip name with
        | none =>
          iunlockput ip
          return none
        | some (next, _) =>
          iunlockput ip
          namexLoop parent fuel next path name

def namex (cwd : Option Cell) (path : List UInt8) (parent : Bool) : FsM (Option (Cell × Name)) := do
  let ip ← if path.headD 0 = slash then iget rootdev rootino
    else match cwd with
      | none => throw .nullDeref
      | some c => idup c
  namexLoop parent (path.length + 1) ip path []

def namei (cwd : Option Cell) (path : List UInt8) : FsM (Option Cell) := do
  return (← namex cwd path false).map Prod.fst

def nameiparent (cwd : Option Cell) (path : List UInt8) : FsM (Option (Cell × Name)) := namex cwd path true

end Laboratorio.Fs
