import Laboratorio.Lib.Bytes

/-!
The search for the tables of a multiprocessor in `mp.c`. An address is a physical one: the memory is what `P2V` leads to.
-/

namespace Laboratorio.Mp

open Bytes

def ncpuMax : ℕ := 8

def sizeofMp : ℕ := 16

def sizeofMpconf : ℕ := 44

def sum (m : Bytes) (addr len : ℕ) : UInt8 := ((List.range len).map fun i => m (addr + i)).foldl (· + ·) 0

def memcmp (m : Bytes) (p : ℕ) (s : List UInt8) : Bool := (List.range s.length).all fun i => m (p + i) = s.getD i 0

def signature : List UInt8 := ['_', 'M', 'P', '_'].map Char.toUInt8

def confSignature : List UInt8 := ['P', 'C', 'M', 'P'].map Char.toUInt8

def mpsearch1 (m : Bytes) (a len : ℕ) : Option ℕ :=
  ((List.range ((len + (sizeofMp - 1)) / sizeofMp)).map fun i => a + sizeofMp * i).find? fun p =>
    memcmp m p signature && sum m p sizeofMp = 0

def mpsearch (m : Bytes) : Option ℕ :=
  let p := rd16 m (0x400 + 0x0E) * 16
  if p ≠ 0 then (mpsearch1 m p 1024).or (mpsearch1 m 0xF0000 0x10000)
  else
    let p := rd16 m (0x400 + 0x13) * 1024
    (mpsearch1 m ((p + (2 ^ 32 - 1024)) % 2 ^ 32) 1024).or (mpsearch1 m 0xF0000 0x10000)

def physaddr (m : Bytes) (mp : ℕ) : ℕ := rd32 m (mp + 4)

def imcrp (m : Bytes) (mp : ℕ) : UInt8 := m (mp + 12)

def length (m : Bytes) (conf : ℕ) : ℕ := rd16 m (conf + 4)

def version (m : Bytes) (conf : ℕ) : UInt8 := m (conf + 6)

def lapicaddr (m : Bytes) (conf : ℕ) : ℕ := rd32 m (conf + 36)

def mpconfig (m : Bytes) : Option (ℕ × ℕ) :=
  match mpsearch m with
  | none => none
  | some mp =>
    if physaddr m mp = 0 then none
    else
      let conf := physaddr m mp
      if !memcmp m conf confSignature then none
      else if version m conf ≠ 1 ∧ version m conf ≠ 4 then none
      else if sum m conf (length m conf) ≠ 0 then none
      else some (mp, conf)

inductive EntryType
  | proc | bus | ioapic | iointr | lintr
  deriving DecidableEq

namespace EntryType

def ofByte (b : UInt8) : Option EntryType :=
  if b = 0 then some proc else if b = 1 then some bus else if b = 2 then some ioapic else if b = 3 then some iointr
  else if b = 4 then some lintr else none

def size : EntryType → ℕ
  | proc => 20
  | bus | ioapic | iointr | lintr => 8

theorem size_pos (t : EntryType) : 0 < t.size := by
  cases t <;> decide

end EntryType

structure Machine where
  lapic : ℕ
  apicids : List UInt8
  ioapicid : UInt8
  deriving DecidableEq

def Machine.visit (m : Bytes) (s : Machine) (p : ℕ) : Machine :=
  match EntryType.ofByte (m p) with
  | some .proc => if s.apicids.length < ncpuMax then { s with apicids := s.apicids ++ [m (p + 1)] } else s
  | some .ioapic => { s with ioapicid := m (p + 1) }
  | _ => s

/-- The loop from `p` on; no value when it does not end within `n` rounds. -/
def mpinitLoop (m : Bytes) (e : ℕ) : ℕ → ℕ → Bool → Machine → Option (Bool × Machine)
  | 0, _, _, _ => none
  | n + 1, p, ismp, s =>
    if p < e then
      match EntryType.ofByte (m p) with
      | some t => mpinitLoop m e n (p + t.size) ismp (s.visit m p)
      -- the `break` of this case only leaves the `switch`
      | none => mpinitLoop m e n p false s
    else some (ismp, s)

inductive Result
  | panic (message : String)
  | done (s : Machine) (out : List (ℕ × UInt8))
  deriving DecidableEq

def mpinit (m : Bytes) (mask : UInt8) (s : Machine) (n : ℕ) : Option Result :=
  match mpconfig m with
  | none => some (.panic "Expect to run on an SMP")
  | some (mp, conf) =>
    match mpinitLoop m (conf + length m conf) n (conf + sizeofMpconf) true { s with lapic := lapicaddr m conf } with
    | none => none
    | some (ismp, s) =>
      if !ismp then some (.panic "Didn't find a suitable machine")
      else some (.done s (if imcrp m mp ≠ 0 then [(0x22, 0x70), (0x23, mask ||| 1)] else []))

def entriesFrom (m : Bytes) (e p : ℕ) : List ℕ :=
  if p < e then
    match EntryType.ofByte (m p) with
    | some t => p :: entriesFrom m e (p + t.size)
    | none => [p]
  else []
termination_by e - p
decreasing_by
  have := t.size_pos
  omega

def entries (m : Bytes) (conf : ℕ) : List ℕ := entriesFrom m (conf + length m conf) (conf + sizeofMpconf)

def Known (m : Bytes) (p : ℕ) : Prop := EntryType.ofByte (m p) ≠ none

section loop

variable {m : Bytes} {e p : ℕ} {ismp : Bool} {s : Machine}

theorem mpinitLoop_known (ismp : Bool) (hknown : ∀ x ∈ entriesFrom m e p, Known m x) :
    ∃ n, mpinitLoop m e n p ismp s = some (ismp, (entriesFrom m e p).foldl (Machine.visit m) s) := by
  induction p using entriesFrom.induct m e generalizing s with
  | case1 p hp t ht ih =>
    rw [entriesFrom, if_pos hp, ht] at hknown ⊢
    obtain ⟨n, hn⟩ := ih fun x hx => hknown x (List.mem_cons_of_mem p hx)
    refine ⟨n + 1, ?_⟩
    rw [mpinitLoop, if_pos hp, ht]
    exact hn
  | case2 p hp ht =>
    rw [entriesFrom, if_pos hp, ht] at hknown
    exact absurd ht (hknown p (List.mem_singleton_self p))
  | case3 p hp =>
    rw [entriesFrom, if_neg hp]
    exact ⟨1, by rw [mpinitLoop, if_neg hp]; rfl⟩

theorem mpinitLoop_stuck (n : ℕ) (hp : p < e) (ht : EntryType.ofByte (m p) = none) : mpinitLoop m e n p ismp s = none := by
  induction n generalizing ismp with
  | zero => rfl
  | succ n ih =>
    rw [mpinitLoop, if_pos hp, ht]
    exact ih

theorem mpinitLoop_unknown (n : ℕ) (hunknown : ∃ x ∈ entriesFrom m e p, ¬ Known m x) : mpinitLoop m e n p ismp s = none := by
  induction n generalizing p s with
  | zero => rfl
  | succ n ih =>
    rw [entriesFrom] at hunknown
    split_ifs at hunknown with hp
    · rw [mpinitLoop, if_pos hp]
      cases ht : EntryType.ofByte (m p) with
      | none => exact mpinitLoop_stuck n hp ht
      | some t =>
        rw [ht] at hunknown
        obtain ⟨x, hx, hxu⟩ := hunknown
        rcases List.mem_cons.mp hx with rfl | hx
        · exact absurd (by rw [Known, ht]; simp) hxu
        · exact ih ⟨x, hx, hxu⟩
    · simp at hunknown

end loop

def Scans (m : Bytes) (mask : UInt8) (s : Machine) (mp conf : ℕ) : Prop :=
  (∃ n, mpinit m mask s n ≠ none) ∧
  ((∀ p ∈ entries m conf, Known m p) → ∃ n, mpinit m mask s n =
    some (.done ((entries m conf).foldl (Machine.visit m) { s with lapic := lapicaddr m conf })
      (if imcrp m mp ≠ 0 then [(0x22, 0x70), (0x23, mask ||| 1)] else []))) ∧
  ((∃ p ∈ entries m conf, ¬ Known m p) → ∃ n, mpinit m mask s n = some (.panic "Didn't find a suitable machine"))

theorem mpinit_scans_iff {m : Bytes} {mask : UInt8} {s : Machine} {mp conf : ℕ} (hconf : mpconfig m = some (mp, conf)) :
    Scans m mask s mp conf ↔ ∀ p ∈ entries m conf, Known m p := by
  constructor
  · rintro ⟨⟨n, hn⟩, -, -⟩
    by_contra hknown
    have hunknown : ∃ p ∈ entries m conf, ¬ Known m p := by simpa using hknown
    apply hn
    rw [mpinit, hconf]
    simp only [mpinitLoop_unknown n hunknown]
  · intro hknown
    obtain ⟨n, hn⟩ := mpinitLoop_known true (s := { s with lapic := lapicaddr m conf }) hknown
    have hrun : mpinit m mask s n = some (.done ((entries m conf).foldl (Machine.visit m) { s with lapic := lapicaddr m conf })
        (if imcrp m mp ≠ 0 then [(0x22, 0x70), (0x23, mask ||| 1)] else [])) := by
      rw [mpinit, hconf]
      simp only [hn]
      rfl
    refine ⟨⟨n, by rw [hrun]; simp⟩, fun _ => ⟨n, hrun⟩, fun ⟨p, hp, hpu⟩ => absurd (hknown p hp) hpu⟩

def sample (t : UInt8) : Bytes := fun x =>
  if x = 0x40E then 0x80
  else if 0x800 ≤ x ∧ x < 0x810 then (signature ++ [0, 9, 0, 0, 0, 0, 156]).getD (x - 0x800) 0
  else if 0x900 ≤ x ∧ x < 0x934 then (confSignature ++ [52, 0, 1, 155 - t] ++ List.replicate 36 0 ++ [t]).getD (x - 0x900) 0
  else 0

theorem mpinit_scans_bus : Scans (sample 1) 0 ⟨0, [], 0⟩ 0x800 0x900 := by
  apply (mpinit_scans_iff (by decide +kernel)).mpr
  have hentries : entries (sample 1) 0x900 = [0x92C] := by
    have hlength : length (sample 1) 0x900 = 52 := by decide +kernel
    have htype : EntryType.ofByte (sample 1 0x92C) = some .bus := by decide +kernel
    rw [entries, hlength, entriesFrom, if_pos (by decide)]
    simp only [sizeofMpconf, Nat.reduceAdd, htype, EntryType.size]
    rw [entriesFrom, if_neg (by decide)]
  intro p hp
  rw [hentries, List.mem_singleton] at hp
  rw [hp, Known]
  decide +kernel

theorem mpinit_never_ends : mpconfig (sample 5) = some (0x800, 0x900) ∧ ∀ mask s n, mpinit (sample 5) mask s n = none := by
  have hconf : mpconfig (sample 5) = some (0x800, 0x900) := by decide +kernel
  have hlength : length (sample 5) 0x900 = 52 := by decide +kernel
  have htype : EntryType.ofByte (sample 5 0x92C) = none := by decide +kernel
  refine ⟨hconf, fun mask s n => ?_⟩
  rw [mpinit, hconf]
  simp only [hlength, sizeofMpconf, mpinitLoop_stuck n (show 0x900 + 44 < 0x900 + 52 by decide) htype]

end Laboratorio.Mp
