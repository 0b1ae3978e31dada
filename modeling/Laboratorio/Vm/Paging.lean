import Laboratorio.Lib.Bytes
import Laboratorio.Lib.Wp

/-!
Physical pages and page tables: `xv6/kalloc.c` and `xv6/vm.c`. Pointers the kernel gets from `P2V`
are written as the physical addresses they stand for.
-/

namespace Laboratorio.Vm

open Bytes

def pgsize : ℕ := 4096

def kernbase : ℕ := 0x80000000

def extmem : ℕ := 0x100000

def phystop : ℕ := 0xE000000

def devspace : ℕ := 0xFE000000

def kernlink : ℕ := kernbase + extmem

def npdentries : ℕ := 1024

def u32 (x : ℕ) : ℕ := x % 2 ^ 32

def p2v (pa : ℕ) : ℕ := u32 (pa + kernbase)

def v2p (va : ℕ) : ℕ := u32 (va + 2 ^ 32 - kernbase)

def pdx (va : ℕ) : ℕ := va / 2 ^ 22 % 1024

def ptx (va : ℕ) : ℕ := va / 2 ^ 12 % 1024

def pgroundup (sz : ℕ) : ℕ := u32 (sz + pgsize - 1) / pgsize * pgsize

def pgrounddown (a : ℕ) : ℕ := a / pgsize * pgsize

def pteP : ℕ := 1

def pteW : ℕ := 2

def pteU : ℕ := 4

def pteAddr (e : ℕ) : ℕ := e / pgsize * pgsize

def pteFlags (e : ℕ) : ℕ := e % pgsize

def present (e : ℕ) : Bool := e &&& pteP ≠ 0

def userOk (e : ℕ) : Bool := e &&& pteU ≠ 0

/-- `V2P(data)` and `V2P(end)`, which the linker chooses. -/
class Layout where
  data : ℕ
  stop : ℕ
  data_aligned : data % pgsize = 0
  extmem_lt : extmem < data
  data_le : data ≤ stop
  stop_lt : stop < phystop

/-- `denied` says which of the coming calls of `kalloc` find no memory though a page is free. -/
structure Kmem where
  mem : Bytes
  freelist : List ℕ
  denied : List Bool

inductive Fault
  | kfree
  | remap
  | physTop
  | noPgdir
  | inituvm
  | loaduvmAligned
  | loaduvmAddress
  | clearpteu
  | copyuvmPte
  | copyuvmPage
  | switchuvm
  | userinit
  | initExiting
  | nullDeref
  deriving DecidableEq

abbrev VmM := StateT Kmem (Except Fault)

def peek (a : ℕ) : VmM ℕ := do
  let s ← get
  return rd32 s.mem a

def poke (a v : ℕ) : VmM Unit := modify fun s => { s with mem := wr32 s.mem a v }

def clearPage (p : ℕ) : VmM Unit := modify fun s => { s with mem := memset s.mem p 0 pgsize }

def kalloc : VmM (Option ℕ) := do
  let s ← get
  if s.denied.headD false then
    set { s with denied := s.denied.tail }
    return none
  else
    match s.freelist with
    | [] =>
      set { s with denied := s.denied.tail }
      return none
    | r :: next =>
      set { s with freelist := next, denied := s.denied.tail }
      return some r

variable [Layout]

def kfree (v : ℕ) : VmM Unit :=
  if v % pgsize ≠ 0 ∨ p2v v < kernbase + Layout.stop ∨ v ≥ phystop then throw .kfree
  else modify fun s => { s with mem := memset s.mem v 1 pgsize, freelist := v :: s.freelist }

def walkpgdir (pgdir va : ℕ) (alloc : Bool) : VmM (Option ℕ) := do
  let pde ← peek (pgdir + 4 * pdx va)
  if present pde then return some (pteAddr pde + 4 * ptx va)
  else if alloc = false then return none
  else
    match ← kalloc with
    | none => return none
    | some pgtab =>
      clearPage pgtab
      poke (pgdir + 4 * pdx va) (pgtab ||| pteP ||| pteW ||| pteU)
      return some (pgtab + 4 * ptx va)

def mapPage (pgdir a pa perm : ℕ) : VmM Bool := do
  match ← walkpgdir pgdir a true with
  | none => return false
  | some pte =>
    if present (← peek pte) then throw .remap
    else
      poke pte (pa ||| perm ||| pteP)
      return true

def mapPages (pgdir perm : ℕ) : ℕ → ℕ → ℕ → VmM Bool
  | 0, a, pa => mapPage pgdir a pa perm
  | left + 1, a, pa => do
    if ← mapPage pgdir a pa perm then mapPages pgdir perm left (u32 (a + pgsize)) (u32 (pa + pgsize))
    else return false

def mappages (pgdir va size pa perm : ℕ) : VmM Bool :=
  let a := pgrounddown va
  let last := pgrounddown (u32 (va + size + 2 ^ 32 - 1))
  mapPages pgdir perm (u32 (last + 2 ^ 32 - a) / pgsize) a pa

def deallocPages (pgdir oldsz : ℕ) : ℕ → ℕ → VmM Unit
  | 0, _ => return ()
  | left + 1, a =>
    if a < oldsz then do
      match ← walkpgdir pgdir a false with
      | none => deallocPages pgdir oldsz left (u32 ((pdx a + 1) * 2 ^ 22))
      | some pte =>
        let e ← peek pte
        if present e then
          if pteAddr e = 0 then throw .kfree
          else
            kfree (pteAddr e)
            poke pte 0
            deallocPages pgdir oldsz left (a + pgsize)
        else deallocPages pgdir oldsz left (a + pgsize)
    else return ()

def deallocuvm (pgdir oldsz newsz : ℕ) : VmM ℕ :=
  if newsz ≥ oldsz then return oldsz
  else do
    deallocPages pgdir oldsz (oldsz / pgsize + 1) (pgroundup newsz)
    return newsz

def freeTables (pgdir : ℕ) : ℕ → ℕ → VmM Unit
  | 0, _ => return ()
  | left + 1, i => do
    let e ← peek (pgdir + 4 * i)
    if present e then
      kfree (pteAddr e)
      freeTables pgdir left (i + 1)
    else freeTables pgdir left (i + 1)

def freevm : Option ℕ → VmM Unit
  | none => throw .noPgdir
  | some pgdir => do
    let _ ← deallocuvm pgdir kernbase 0
    freeTables pgdir npdentries 0
    kfree pgdir

structure Kmap where
  virt : ℕ
  physStart : ℕ
  physEnd : ℕ
  perm : ℕ

def kmap : List Kmap :=
  [⟨kernbase, 0, extmem, pteW⟩,
    ⟨kernlink, v2p kernlink, Layout.data, 0⟩,
    ⟨p2v Layout.data, Layout.data, phystop, pteW⟩,
    ⟨devspace, devspace, 0, pteW⟩]

def mapKernel (pgdir : ℕ) : List Kmap → VmM (Option ℕ)
  | [] => return some pgdir
  | k :: ks => do
    if ← mappages pgdir k.virt (u32 (k.physEnd + 2 ^ 32 - k.physStart)) k.physStart k.perm then mapKernel pgdir ks
    else
      freevm (some pgdir)
      return none

def setupkvm : VmM (Option ℕ) := do
  match ← kalloc with
  | none => return none
  | some pgdir =>
    clearPage pgdir
    if p2v phystop > devspace then throw .physTop
    else mapKernel pgdir kmap

def inituvm (pgdir : ℕ) (init : Bytes) (sz : ℕ) : VmM Unit := do
  if sz ≥ pgsize then throw .inituvm
  else
    match ← kalloc with
    | none => throw .nullDeref
    | some mem =>
      clearPage mem
      let _ ← mappages pgdir 0 pgsize mem (pteW ||| pteU)
      modify fun s => { s with mem := store s.mem mem sz init }

def allocPages (pgdir oldsz newsz : ℕ) : ℕ → ℕ → VmM ℕ
  | 0, _ => return newsz
  | left + 1, a => do
    match ← kalloc with
    | none =>
      let _ ← deallocuvm pgdir newsz oldsz
      return 0
    | some mem =>
      clearPage mem
      if ← mappages pgdir a pgsize mem (pteW ||| pteU) then allocPages pgdir oldsz newsz left (a + pgsize)
      else
        let _ ← deallocuvm pgdir newsz oldsz
        kfree mem
        return 0

def allocuvm (pgdir oldsz newsz : ℕ) : VmM ℕ :=
  if newsz ≥ kernbase then return 0
  else if newsz < oldsz then return oldsz
  else
    let a := pgroundup oldsz
    allocPages pgdir oldsz newsz ((newsz - a + pgsize - 1) / pgsize) a

def clearpteu (pgdir uva : ℕ) : VmM Unit := do
  match ← walkpgdir pgdir uva false with
  | none => throw .clearpteu
  | some pte =>
    let e ← peek pte
    poke pte (e &&& (2 ^ 32 - 1 - pteU))

def copyPages (pgdir d : ℕ) : ℕ → ℕ → VmM (Option ℕ)
  | 0, _ => return some d
  | left + 1, i => do
    match ← walkpgdir pgdir i false with
    | none => throw .copyuvmPte
    | some pte =>
      let e ← peek pte
      if present e then
        match ← kalloc with
        | none =>
          freevm (some d)
          return none
        | some mem =>
          modify fun s => { s with mem := memmove s.mem mem (pteAddr e) pgsize }
          if ← mappages d i pgsize mem (pteFlags e) then copyPages pgdir d left (i + pgsize)
          else
            kfree mem
            freevm (some d)
            return none
      else throw .copyuvmPage

def copyuvm (pgdir sz : ℕ) : VmM (Option ℕ) := do
  match ← setupkvm with
  | none => return none
  | some d => copyPages pgdir d ((sz + pgsize - 1) / pgsize) 0

def uva2ka (pgdir uva : ℕ) : VmM (Option ℕ) := do
  match ← walkpgdir pgdir uva false with
  | none => throw .nullDeref
  | some pte =>
    let e ← peek pte
    if present e = false then return none
    else if userOk e = false then return none
    else return some (pteAddr e)

def copyBytes (pgdir : ℕ) : ℕ → ℕ → Bytes → ℕ → VmM Bool
  | 0, _, _, _ => return true
  | left + 1, va, buf, len =>
    if len > 0 then do
      let va0 := pgrounddown va
      match ← uva2ka pgdir va0 with
      | none => return false
      | some pa0 =>
        let n := min (pgsize - (va - va0)) len
        modify fun s => { s with mem := store s.mem (pa0 + (va - va0)) n buf }
        copyBytes pgdir left (u32 (va0 + pgsize)) (fun i => buf (n + i)) (len - n)
    else return true

def copyout (pgdir va : ℕ) (p : Bytes) (len : ℕ) : VmM Bool := copyBytes pgdir (len + 1) va p len

end Laboratorio.Vm
