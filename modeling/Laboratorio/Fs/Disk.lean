import Laboratorio.Lib.Bytes
import Laboratorio.Lib.Wp

/-!
The blocks of the disk as `xv6/fs.h` lays them out, and the block allocator of `xv6/fs.c`.
-/

namespace Laboratorio.Fs

open Bytes

def bsize : ℕ := 512

def ndirect : ℕ := 12

def nindirect : ℕ := bsize / 4

def maxfile : ℕ := ndirect + nindirect

def dinodeSize : ℕ := 64

def ipb : ℕ := bsize / dinodeSize

def bpb : ℕ := bsize * 8

/-- `shorts` and `uints` of the C structure are kept as numbers below 2^16 and 2^32. -/
@[ext] structure Dinode where
  type : ℕ
  major : ℕ
  minor : ℕ
  nlink : ℕ
  size : ℕ
  addrs : ℕ → ℕ

namespace Dinode

def zero : Dinode := ⟨0, 0, 0, 0, 0, fun _ => 0⟩

def decode (b : Bytes) (a : ℕ) : Dinode :=
  ⟨rd16 b a, rd16 b (a + 2), rd16 b (a + 4), rd16 b (a + 6), rd32 b (a + 8),
    fun k => if k ≤ ndirect then rd32 b (a + 12 + 4 * k) else 0⟩

def image (d : Dinode) : Bytes :=
  let b : Bytes := fun x => UInt8.ofNat (d.addrs ((x - 12) / 4) / 256 ^ ((x - 12) % 4))
  wr32 (wr16 (wr16 (wr16 (wr16 b 0 d.type) 2 d.major) 4 d.minor) 6 d.nlink) 8 d.size

structure Fits (d : Dinode) : Prop where
  type : d.type < 2 ^ 16
  major : d.major < 2 ^ 16
  minor : d.minor < 2 ^ 16
  nlink : d.nlink < 2 ^ 16
  size : d.size < 2 ^ 32
  addrs : ∀ k, d.addrs k < 2 ^ 32
  short : ∀ k, ndirect < k → d.addrs k = 0

end Dinode

/-- What `readsb` finds in block 1, on a disk whose areas do not overlap. -/
class Superblock where
  size : ℕ
  ninodes : ℕ
  inodestart : ℕ
  bmapstart : ℕ
  inodes_fit : inodestart + ninodes / ipb < bmapstart
  bitmap_fit : bmapstart + size / bpb < size
  size_lt : size < 2 ^ 31
  ninodes_le : ninodes ≤ 2 ^ 16

export Superblock (ninodes inodestart bmapstart)

inductive Event
  | beginOp
  | endOp
  | logWrite (b : ℕ)
  deriving DecidableEq, Repr

/-- The panics of `fs.c`, `file.c`, `sysfile.c`, `exit` in `proc.c` and, as
`deadlock`, the wait of a process for a sleep lock that it holds itself. -/
inductive Fault
  | outOfBlocks | freeingFreeBlock
  | iallocNoInodes | igetNoInodes | ilock | ilockNoType | iunlock
  | bmapOutOfRange | dirlookupNotDir | dirlookupRead | dirlinkRead | dirlink
  | isdiremptyReadi | unlinkNlink | unlinkWritei | createDots | createDirlink
  | filedup | fileclose | fileread | filewrite | shortFilewrite
  | initExiting | nullDeref | deadlock
  deriving DecidableEq, Repr

/-- `blocks` is what `bread` returns, from the cache, the log or the disk. -/
structure Disk where
  blocks : ℕ → Bytes
  trace : List Event

abbrev DiskM := StateT Disk (Except Fault)

def beginOp : DiskM Unit := modify fun d => { d with trace := .beginOp :: d.trace }

def endOp : DiskM Unit := modify fun d => { d with trace := .endOp :: d.trace }

def bread (b : ℕ) : DiskM Bytes := do return (← get).blocks b

def logWrite (b : ℕ) (data : Bytes) : DiskM Unit :=
  modify fun d => ⟨Function.update d.blocks b data, .logWrite b :: d.trace⟩

def bzero (b : ℕ) : DiskM Unit := do
  let bp ← bread b
  logWrite b (memset bp 0 0 bsize)

def mask (bi : ℕ) : UInt8 := 1 <<< UInt8.ofNat (bi % 8)

def bitClear (bp : Bytes) (bi : ℕ) : Bool := bp (bi / 8) &&& mask bi = 0

def setBit (bp : Bytes) (bi : ℕ) : Bytes := Function.update bp (bi / 8) (bp (bi / 8) ||| mask bi)

def clearBit (bp : Bytes) (bi : ℕ) : Bytes := Function.update bp (bi / 8) (bp (bi / 8) &&& ~~~ mask bi)

def findClear (bp : Bytes) (bi : ℕ) : ℕ → Option ℕ
  | 0 => none
  | n + 1 => if bitClear bp bi then some bi else findClear bp (bi + 1) n

variable [sb : Superblock]

def iblock (i : ℕ) : ℕ := i / ipb + inodestart

def bblock (b : ℕ) : ℕ := b / bpb + bmapstart

def datastart : ℕ := bmapstart + sb.size / bpb + 1

def ballocLoop (b : ℕ) : ℕ → DiskM ℕ
  | 0 => throw .outOfBlocks
  | n + 1 => do
    let bp ← bread (bblock b)
    match findClear bp 0 (min bpb (sb.size - b)) with
    | some bi =>
      logWrite (bblock b) (setBit bp bi)
      bzero (b + bi)
      return b + bi
    | none => ballocLoop (b + bpb) n

def balloc : DiskM ℕ := ballocLoop 0 ((sb.size + bpb - 1) / bpb)

def bfree (b : ℕ) : DiskM Unit := do
  let bp ← bread (bblock b)
  let bi := b % bpb
  if bitClear bp bi then throw .freeingFreeBlock
  else logWrite (bblock b) (clearBit bp bi)

def dinode (blocks : ℕ → Bytes) (i : ℕ) : Dinode := Dinode.decode (blocks (iblock i)) (dinodeSize * (i % ipb))

def putDinode (i : ℕ) (d : Dinode) : DiskM Unit := do
  let bp ← bread (iblock i)
  logWrite (iblock i) (store bp (dinodeSize * (i % ipb)) dinodeSize d.image)

end Laboratorio.Fs
