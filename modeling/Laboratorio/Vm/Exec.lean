import Laboratorio.Vm.Copyout

/-!
The address space that `xv6/exec.c` builds from a file, with `loaduvm` of `xv6/vm.c`.
-/

namespace Laboratorio.Vm

open Bytes

def elfMagic : ℕ := 0x464C457F

def elfProgLoad : ℕ := 1

def maxarg : ℕ := 32

inductive ReadAt
  | elf
  | ph (i : ℕ)
  | page (i j : ℕ)

/-- What `readi` delivers for an offset and a length: a count and the bytes. -/
abbrev Source := ReadAt → ℕ → ℕ → ℕ × Bytes

variable [Layout]

def loadPages (pgdir addr offset sz : ℕ) (readi : ℕ → ℕ → ℕ → ℕ × Bytes) : ℕ → ℕ → VmM Bool
  | 0, _ => return true
  | left + 1, j => do
    let i := j * pgsize
    match ← walkpgdir pgdir (u32 (addr + i)) false with
    | none => throw .loaduvmAddress
    | some pte =>
      let pa := pteAddr (← peek pte)
      let n := min (sz - i) pgsize
      let r := readi j (u32 (offset + i)) n
      modify fun s => { s with mem := store s.mem pa (min r.1 n) r.2 }
      if r.1 ≠ n then return false
      else loadPages pgdir addr offset sz readi left (j + 1)

def loaduvm (pgdir addr : ℕ) (readi : ℕ → ℕ → ℕ → ℕ × Bytes) (offset sz : ℕ) : VmM Bool :=
  if addr % pgsize ≠ 0 then throw .loaduvmAligned
  else loadPages pgdir addr offset sz readi ((sz + pgsize - 1) / pgsize) 0

/-- The loop of `exec` over the program headers; `none` is `goto bad`. -/
def loadSegments (src : Source) (pgdir : ℕ) : ℕ → ℕ → ℕ → ℕ → VmM (Option ℕ)
  | 0, _, _, sz => return some sz
  | left + 1, i, off, sz =>
    let r := src (.ph i) off 32
    let ph := r.2
    let vaddr := rd32 ph 8
    let filesz := rd32 ph 16
    let memsz := rd32 ph 20
    if r.1 ≠ 32 then return none
    else if rd32 ph 0 ≠ elfProgLoad then loadSegments src pgdir left (i + 1) (u32 (off + 32)) sz
    else if memsz < filesz then return none
    else if u32 (vaddr + memsz) < vaddr then return none
    else do
      let sz ← allocuvm pgdir sz (u32 (vaddr + memsz))
      if sz = 0 then return none
      else if vaddr % pgsize ≠ 0 then return none
      else if ← loaduvm pgdir vaddr (fun j => src (.page i j)) (rd32 ph 4) filesz then
        loadSegments src pgdir left (i + 1) (u32 (off + 32)) sz
      else return none

def cstring (s : List UInt8) : Bytes := fun x => s.getD x 0

def wordBytes (ws : List ℕ) : Bytes := fun x => UInt8.ofNat (ws.getD (x / 4) 0 / 256 ^ (x % 4))

def pushArgs (pgdir : ℕ) : List (List UInt8) → ℕ → List ℕ → VmM (Option (ℕ × List ℕ))
  | [], sp, ptrs => return some (sp, ptrs)
  | s :: argv, sp, ptrs =>
    if ptrs.length ≥ maxarg then return none
    else do
      let sp := u32 (sp + 2 ^ 32 - u32 (s.length + 1)) / 4 * 4
      if ← copyout pgdir sp (cstring s) (u32 (s.length + 1)) then pushArgs pgdir argv sp (ptrs ++ [sp])
      else return none

/-- The new image: the segments of the file, and the pages of its stack. -/
def loadImage (src : Source) : VmM (Option (ℕ × ℕ)) := do
  let r := src .elf 0 52
  let elf := r.2
  if r.1 ≠ 52 then return none
  else if rd32 elf 0 ≠ elfMagic then return none
  else
    match ← setupkvm with
    | none => return none
    | some pgdir =>
      match ← loadSegments src pgdir (rd16 elf 44) 0 (rd32 elf 28) 0 with
      | none =>
        freevm (some pgdir)
        return none
      | some sz =>
        let sz ← allocuvm pgdir (pgroundup sz) (u32 (pgroundup sz + 2 * pgsize))
        if sz = 0 then
          freevm (some pgdir)
          return none
        else
          clearpteu pgdir (u32 (sz + 2 ^ 32 - 2 * pgsize))
          return some (pgdir, sz)

def pushFrame (pgdir sz : ℕ) (argv : List (List UInt8)) : VmM (Option ℕ) := do
  match ← pushArgs pgdir argv sz [] with
  | none => return none
  | some (sp, ptrs) =>
    let argc := ptrs.length
    let ustack := [0xffffffff, argc, u32 (sp + 2 ^ 32 - (argc + 1) * 4)] ++ ptrs ++ [0]
    let sp := u32 (sp + 2 ^ 32 - (3 + argc + 1) * 4)
    if ← copyout pgdir sp (wordBytes ustack) ((3 + argc + 1) * 4) then return some sp
    else return none

/-- `exec` up to the point where it commits: the new page directory and size. -/
def execImage (src : Source) (argv : List (List UInt8)) : VmM (Option (ℕ × ℕ)) := do
  match ← loadImage src with
  | none => return none
  | some (pgdir, sz) =>
    match ← pushFrame pgdir sz argv with
    | none =>
      freevm (some pgdir)
      return none
    | some _ => return some (pgdir, sz)

end Laboratorio.Vm
