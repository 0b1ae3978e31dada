import Laboratorio.Param
import Laboratorio.Fs.Inode

namespace Laboratorio.Fs.Mkfs

open Bytes

def fssize : ℕ := 1000

def ninodes : ℕ := 200

def nbitmap : ℕ := fssize / (bsize * 8) + 1

def ninodeblocks : ℕ := ninodes / ipb + 1

def nmeta : ℕ := 2 + nlog + ninodeblocks + nbitmap

def nblocks : ℕ := fssize - nmeta

instance superblock : Superblock where
  size := fssize
  ninodes := ninodes
  inodestart := 2 + nlog
  bmapstart := 2 + nlog + ninodeblocks
  inodes_fit := by decide
  bitmap_fit := by decide
  size_lt := by decide
  ninodes_le := by decide

structure State where
  blocks : ℕ → Bytes
  sectors : ℕ
  freeinode : ℕ
  freeblock : ℕ

/-- `mkfs` exits at a failed assertion or at a read past the end of the image. -/
inductive Exit
  | assert
  | read

abbrev MkfsM := StateT State (Except Exit)

def wsect (sec : ℕ) (buf : Bytes) : MkfsM Unit :=
  modify fun s => { s with blocks := Function.update s.blocks sec buf, sectors := max s.sectors (sec + 1) }

def rsect (sec : ℕ) : MkfsM Bytes := do
  let s ← get
  if sec < s.sectors then return s.blocks sec else throw .read

def winode (inum : ℕ) (ip : Dinode) : MkfsM Unit := do
  let buf ← rsect (iblock inum)
  wsect (iblock inum) (store buf (dinodeSize * (inum % ipb)) dinodeSize ip.image)

def rinode (inum : ℕ) : MkfsM Dinode := do
  let buf ← rsect (iblock inum)
  return Dinode.decode buf (dinodeSize * (inum % ipb))

def takeInode : MkfsM ℕ := do
  let s ← get
  set { s with freeinode := s.freeinode + 1 }
  return s.freeinode

def takeBlock : MkfsM ℕ := do
  let s ← get
  set { s with freeblock := s.freeblock + 1 }
  return s.freeblock

def ialloc (type : ℕ) : MkfsM ℕ := do
  let inum ← takeInode
  winode inum { Dinode.zero with type := type, nlink := 1 }
  return inum

def mapBlock (din : Dinode) (fbn : ℕ) : MkfsM (Dinode × ℕ) := do
  if fbn < ndirect then
    if din.addrs fbn = 0 then
      let x ← takeBlock
      return ({ din with addrs := Function.update din.addrs fbn x }, x)
    else return (din, din.addrs fbn)
  else
    let din ← if din.addrs ndirect = 0 then do
        let x ← takeBlock
        pure { din with addrs := Function.update din.addrs ndirect x }
      else pure din
    let indirect ← rsect (din.addrs ndirect)
    if rd32 indirect (4 * (fbn - ndirect)) = 0 then
      let x ← takeBlock
      wsect (din.addrs ndirect) (wr32 indirect (4 * (fbn - ndirect)) x)
      return (din, x)
    else return (din, rd32 indirect (4 * (fbn - ndirect)))

def iappendLoop : ℕ → Dinode → ℕ → List UInt8 → MkfsM Dinode
  | 0, din, _, _ => return din
  | fuel + 1, din, off, p => do
    if p = [] then return din
    else
      let fbn := off / bsize
      if maxfile ≤ fbn then throw .assert
      else
        let (din, x) ← mapBlock din fbn
        let n1 := min p.length ((fbn + 1) * bsize - off)
        let buf ← rsect x
        wsect x (store buf (off - fbn * bsize) n1 (fun i => p.getD i 0))
        iappendLoop fuel din (off + n1) (p.drop n1)

def iappend (inum : ℕ) (p : List UInt8) : MkfsM Unit := do
  let din ← rinode inum
  let din' ← iappendLoop p.length din din.size p
  winode inum { din' with size := din.size + p.length }

def balloc (used : ℕ) : MkfsM Unit := do
  if bsize * 8 ≤ used then throw .assert
  else wsect bmapstart ((List.range used).foldl setBit (fun _ => 0))

structure HostFile where
  name : List UInt8
  chunks : List (List UInt8)

def HostFile.target (f : HostFile) : Name := if f.name.headD 0 = 95 then f.name.tail else f.name

def appendAll (inum : ℕ) : List (List UInt8) → MkfsM Unit
  | [] => return ()
  | c :: cs => do
    iappend inum c
    appendAll inum cs

def addFile (rootino : ℕ) (f : HostFile) : MkfsM Unit := do
  if slash ∈ f.name then throw .assert
  else
    let inum ← ialloc tFile
    iappend rootino (Dirent.bytes ⟨inum % 2 ^ 16, strncpy f.target dirsiz⟩)
    appendAll inum f.chunks

def addFiles (rootino : ℕ) : List HostFile → MkfsM Unit
  | [] => return ()
  | f :: fs => do
    addFile rootino f
    addFiles rootino fs

def superblockBytes : Bytes :=
  wr32 (wr32 (wr32 (wr32 (wr32 (wr32 (wr32 (fun _ => 0) 0 fssize) 4 nblocks) 8 ninodes) 12 nlog) 16 2) 20 (2 + nlog)) 24
    (2 + nlog + ninodeblocks)

/-- `main` up to its call of `balloc`. -/
def populate (files : List HostFile) : MkfsM Unit := do
  modify fun s => { s with freeblock := nmeta }
  -- the loop that writes `zeroes` to each of the sectors
  modify fun s => { s with blocks := fun b => if b < fssize then fun _ => 0 else s.blocks b, sectors := max s.sectors fssize }
  wsect 1 superblockBytes
  let root ← ialloc tDir
  if root ≠ rootino then throw .assert
  else
    iappend root (Dirent.bytes ⟨root % 2 ^ 16, strncpy dot dirsiz⟩)
    iappend root (Dirent.bytes ⟨root % 2 ^ 16, strncpy dotdot dirsiz⟩)
    addFiles root files
    let din ← rinode root
    winode root { din with size := (din.size / bsize + 1) * bsize }

def main (files : List HostFile) : MkfsM Unit := do
  populate files
  balloc (← get).freeblock

def start : State := ⟨fun _ _ => 0, 0, 1, 0⟩

end Laboratorio.Fs.Mkfs
