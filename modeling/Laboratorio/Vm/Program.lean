import Laboratorio.Fs.Contents
import Laboratorio.Vm.Image

/-!
Files as `exec` reads them: the segments of a program and the bytes they put at each address.
-/

namespace Laboratorio.Vm

open Bytes Fs

def fileSource (a : Node) : Source := fun _ off n =>
  match a.read none off n with
  | none => (0, zeroes)
  | some l => (l.length, fun i => l.getD i 0)

structure Segment where
  vaddr : ℕ
  offset : ℕ
  filesz : ℕ

def Segment.covers (g : Segment) (va : ℕ) : Bool := g.vaddr ≤ va ∧ va < g.vaddr + g.filesz

def segments (f : Bytes) : ℕ → ℕ → List Segment
  | 0, _ => []
  | left + 1, off =>
    if rd32 f off = elfProgLoad then ⟨rd32 f (off + 8), rd32 f (off + 4), rd32 f (off + 16)⟩ :: segments f left (u32 (off + 32))
    else segments f left (u32 (off + 32))

def fileSegments (f : Bytes) : List Segment := segments f (rd16 f 44) (rd32 f 28)

def programByte (f : Bytes) (segs : List Segment) (va : ℕ) (default : UInt8) : UInt8 :=
  match segs.reverse.find? (·.covers va) with
  | some g => f (g.offset + (va - g.vaddr))
  | none => default

theorem programByte_cons (f : Bytes) (g : Segment) (segs : List Segment) (va : ℕ) (c : UInt8) :
    programByte f (g :: segs) va c = programByte f segs va (if g.covers va then f (g.offset + (va - g.vaddr)) else c) := by
  unfold programByte
  rw [List.reverse_cons, List.find?_append]
  cases segs.reverse.find? (·.covers va) with
  | some g' => rfl
  | none =>
    simp only [Option.none_or, List.find?_singleton]
    cases g.covers va with
    | true => rfl
    | false => rfl

section read

variable {a : Node} {r : ReadAt} {off n : ℕ}

theorem fileSource_complete (htype : a.type ≠ tDev) (hn : 0 < n) (h : (fileSource a r off n).1 = n) :
    off + n ≤ a.size ∧ ∀ x < n, (fileSource a r off n).2 x = a.bytes (off + x) := by
  unfold fileSource Node.read at *
  rw [if_neg htype] at *
  by_cases hbad : off > a.size ∨ (off + n) % 2 ^ 32 < off
  · rw [if_pos hbad] at h
    exact absurd h (Nat.ne_of_lt hn)
  rw [if_neg hbad] at h ⊢
  simp only [length_slice] at h
  have hin : off + n ≤ a.size := by
    by_contra hout
    rw [if_pos (by omega)] at h
    omega
  refine ⟨hin, fun x hx => ?_⟩
  rw [if_neg (by omega)]
  simp [slice, hx]

theorem rd_shift (k : ℕ) (f g : Bytes) (off b : ℕ) (h : ∀ x < b + k, g x = f (off + x)) : rd k g b = rd k f (off + b) := by
  induction k generalizing b with
  | zero => rfl
  | succ k ih =>
    rw [rd, rd, h b (by omega), ih (b + 1) (fun x hx => h x (by omega)), Nat.add_assoc]

theorem segmentByte_file {i vaddr offset filesz va : ℕ} (htype : a.type ≠ tDev) (hsize : a.size < 2 ^ 32)
    (hoffset : offset < 2 ^ 32) (hcounts : ∀ q < pagesOf filesz,
    (fileSource a (.page i q) (u32 (offset + q * pgsize)) (min (filesz - q * pgsize) pgsize)).1 =
    min (filesz - q * pgsize) pgsize) (h1 : vaddr ≤ va) (h2 : va < vaddr + filesz) :
    segmentByte (fun j => fileSource a (.page i j)) vaddr offset filesz va = a.bytes (offset + (va - vaddr)) := by
  have hread : ∀ q < pagesOf filesz, u32 (offset + q * pgsize) + min (filesz - q * pgsize) pgsize ≤ a.size ∧
    ∀ x < min (filesz - q * pgsize) pgsize,
    (fileSource a (.page i q) (u32 (offset + q * pgsize)) (min (filesz - q * pgsize) pgsize)).2 x =
    a.bytes (u32 (offset + q * pgsize) + x) := by
    intro q hq
    have hlt := lt_pagesOf.mp hq
    apply fileSource_complete htype _ (hcounts q hq)
    unfold pgsize at *
    omega
  -- the pages before have been read completely, so that the offset has not wrapped
  have hoff : ∀ q < pagesOf filesz, u32 (offset + q * pgsize) = offset + q * pgsize := by
    intro q
    induction q with
    | zero =>
      intro _
      exact Nat.mod_eq_of_lt hoffset
    | succ q ih =>
      intro hq
      have hlt := lt_pagesOf.mp hq
      have hprev := (hread q (by omega)).1
      have hsucc : (q + 1) * pgsize = q * pgsize + pgsize := Nat.succ_mul _ _
      apply Nat.mod_eq_of_lt
      omega
  have hdiv := Nat.div_add_mod (va - vaddr) pgsize
  have hmod : (va - vaddr) % pgsize < pgsize := Nat.mod_lt _ (by decide)
  have hq : (va - vaddr) / pgsize < pagesOf filesz := by
    rw [lt_pagesOf, Nat.mul_comm]
    omega
  unfold segmentByte
  rw [(hread _ hq).2 _ (by rw [Nat.mul_comm] at hdiv; omega), hoff _ hq, Nat.add_assoc, Nat.mul_comm, hdiv]

end read

theorem Loads.program {a : Node} {left i off : ℕ} {img img' : Bytes} (htype : a.type ≠ tDev) (hsize : a.size < 2 ^ 32)
    (h : Loads (fileSource a) left i off img img') (va : ℕ) :
    img' va = programByte a.bytes (segments a.bytes left off) va (img va) := by
  induction h with
  | done i off img => rfl
  | @skip left i off img img' hread hkind hrest ih =>
    obtain ⟨-, hbytes⟩ := fileSource_complete htype (by decide) hread
    have hfield : ∀ k, k + 4 ≤ 32 → rd32 (fileSource a (.ph i) off 32).2 k = rd32 a.bytes (off + k) :=
      fun k hk => rd_shift 4 _ _ _ _ fun x hx => hbytes x (by omega)
    rw [hfield 0 (by decide), Nat.add_zero] at hkind
    rw [ih, segments, if_neg hkind]
  | @segment left i off vaddr offset filesz img img' hread hkind hvaddr hoffset hfilesz hcounts hrest ih =>
    obtain ⟨-, hbytes⟩ := fileSource_complete htype (by decide) hread
    have hfield : ∀ k, k + 4 ≤ 32 → rd32 (fileSource a (.ph i) off 32).2 k = rd32 a.bytes (off + k) :=
      fun k hk => rd_shift 4 _ _ _ _ fun x hx => hbytes x (by omega)
    have hlt : offset < 2 ^ 32 := by
      rw [hoffset]
      exact rd_lt 4 _ _
    rw [hfield 0 (by decide), Nat.add_zero] at hkind
    rw [hfield 8 (by decide)] at hvaddr
    rw [hfield 4 (by decide)] at hoffset
    rw [hfield 16 (by decide)] at hfilesz
    rw [ih, segments, if_pos hkind, programByte_cons, ← hvaddr, ← hoffset, ← hfilesz]
    congr 1
    dsimp only
    by_cases hin : vaddr ≤ va ∧ va < vaddr + filesz
    · have hcov : Segment.covers ⟨vaddr, offset, filesz⟩ va = true := decide_eq_true hin
      rw [if_pos hin, if_pos hcov, segmentByte_file htype hsize hlt hcounts hin.1 hin.2]
    · have hcov : ¬ Segment.covers ⟨vaddr, offset, filesz⟩ va = true := fun h => hin (of_decide_eq_true h)
      rw [if_neg hin, if_neg hcov]

end Laboratorio.Vm
