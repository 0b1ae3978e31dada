import Laboratorio.Lib.Bytes

/-!
The user-level allocator of `xv6/umalloc.c`: a circular list of free blocks that starts at `base`. Addresses and sizes are
32-bit numbers; a block starts with a header of 8 bytes, the pointer to the next free block and the number of its 8-byte units.
-/

namespace Laboratorio.Umalloc

open Bytes

def headerSize : ℕ := 8

def advance (p n : ℕ) : ℕ := (p + headerSize * n) % 2 ^ 32

/-- `regions` are the address and the number of bytes of what `sbrk` has returned. A null pointer is 0. -/
structure Heap where
  mem : Bytes
  freep : ℕ
  regions : List (ℕ × ℕ)

namespace Heap

def ptr (h : Heap) (p : ℕ) : ℕ := rd32 h.mem p

def size (h : Heap) (p : ℕ) : ℕ := rd32 h.mem (p + 4)

def setPtr (h : Heap) (p v : ℕ) : Heap := { h with mem := wr32 h.mem p v }

def setSize (h : Heap) (p v : ℕ) : Heap := { h with mem := wr32 h.mem (p + 4) v }

def freeLoop (h : Heap) (bp : ℕ) : ℕ → ℕ → Option ℕ
  | 0, _ => none
  | n + 1, p =>
    if bp > p ∧ bp < h.ptr p then some p
    else if p ≥ h.ptr p ∧ (bp > p ∨ bp < h.ptr p) then some p
    else freeLoop h bp n (h.ptr p)

def joinNext (h : Heap) (p bp : ℕ) : Heap :=
  if advance bp (h.size bp) = h.ptr p then
    let h := h.setSize bp (h.size bp + h.size (h.ptr p))
    h.setPtr bp (h.ptr (h.ptr p))
  else h.setPtr bp (h.ptr p)

def joinPrev (h : Heap) (p bp : ℕ) : Heap :=
  if advance p (h.size p) = bp then
    let h := h.setSize p (h.size p + h.size bp)
    h.setPtr p (h.ptr bp)
  else h.setPtr p bp

def free (h : Heap) (n ap : ℕ) : Option Heap :=
  let bp := (ap + (2 ^ 32 - headerSize)) % 2 ^ 32
  match h.freeLoop bp n h.freep with
  | none => none
  | some p => some { (h.joinNext p bp).joinPrev p bp with freep := p }

/-- What `sbrk` returns for a number of bytes when `regions` are taken; `none` for -1. -/
abbrev Sbrk := List (ℕ × ℕ) → ℕ → Option ℕ

def morecore (sbrk : Sbrk) (h : Heap) (n nu : ℕ) : Option (Option ℕ × Heap) :=
  let nu := if nu < 4096 then 4096 else nu
  match sbrk h.regions (nu * headerSize % 2 ^ 32) with
  | none => some (none, h)
  | some p =>
    let h := { h with regions := h.regions ++ [(p, nu * headerSize % 2 ^ 32)] }
    match (h.setSize p nu).free n (advance p 1) with
    | none => none
    | some h => some (some h.freep, h)

def mallocLoop (sbrk : Sbrk) (nunits n : ℕ) : ℕ → Heap → ℕ → Option (Option ℕ × Heap)
  | 0, _, _ => none
  | k + 1, h, prevp =>
    let p := h.ptr prevp
    if h.size p ≥ nunits then
      if h.size p = nunits then some (some (advance p 1), { h.setPtr prevp (h.ptr p) with freep := prevp })
      else
        let h := h.setSize p (h.size p - nunits)
        let p := advance p (h.size p)
        some (some (advance p 1), { h.setSize p nunits with freep := prevp })
    else if p = h.freep then
      match h.morecore sbrk n nunits with
      | none => none
      | some (none, h) => some (none, h)
      | some (some p, h) => mallocLoop sbrk nunits n k h p
    else mallocLoop sbrk nunits n k h p

def nunits (nbytes : ℕ) : ℕ := (nbytes + (headerSize - 1)) % 2 ^ 32 / headerSize + 1

def init (base : ℕ) (h : Heap) : Heap :=
  if h.freep = 0 then { h.setPtr base base with freep := base }.setSize base 0 else h

/-- The pointer that is returned, `none` for null; no value when a loop does not end within `n` rounds. -/
def malloc (base : ℕ) (sbrk : Sbrk) (h : Heap) (n nbytes : ℕ) : Option (Option ℕ × Heap) :=
  mallocLoop sbrk (nunits nbytes) n n (h.init base) (h.init base).freep

end Heap

end Laboratorio.Umalloc
