import Laboratorio.Vm.Boot

/-!
The arguments of system calls: `xv6/syscall.c` and the walk over `argv` in `sys_exec`.
-/

namespace Laboratorio.Vm

open Bytes
open Procs (Slot)

/-- The process as the system call finds it: its memory, `sz` and the saved `esp`. -/
structure Caller where
  mem : Bytes
  sz : ℕ
  esp : ℕ

/-- The state lists the user addresses that the kernel has read. -/
abbrev FetchM := StateM (List ℕ)

def Within {α : Type} (sz : ℕ) (m : FetchM α) (Q : α → Prop) : Prop :=
  ∀ log, Q (m log).1 ∧ ∀ a ∈ (m log).2, a ∈ log ∨ a < sz

namespace Within

variable {α β : Type} {sz : ℕ} {Q : α → Prop} {R : β → Prop}

theorem ret {a : α} (h : Q a) : Within sz (pure a) Q := fun _ => ⟨h, fun _ hx => .inl hx⟩

theorem bind {m : FetchM β} {f : β → FetchM α} (hm : Within sz m R) (hf : ∀ b, R b → Within sz (f b) Q) :
    Within sz (m >>= f) Q := by
  intro log
  obtain ⟨hR, hlog⟩ := hm log
  obtain ⟨hQ, hlog'⟩ := hf _ hR (m log).2
  refine ⟨hQ, fun a ha => ?_⟩
  rcases hlog' a ha with ha | ha
  · exact hlog a ha
  · exact .inr ha

theorem mono {m : FetchM α} {P : α → Prop} (h : Within sz m P) (hPQ : ∀ a, P a → Q a) : Within sz m Q :=
  fun log => ⟨hPQ _ (h log).1, (h log).2⟩

end Within

theorem toUInt32_toNat (n : Int32) : (n.toUInt32.toNat : ℤ) = n.toInt % 2 ^ 32 := by
  have hint : n.toInt = n.toBitVec.toInt := rfl
  have hnat : n.toUInt32.toNat = n.toBitVec.toNat := rfl
  rw [hint, hnat, BitVec.toInt_eq_toNat_bmod, Int.bmod]
  split_ifs
  · omega
  · omega

namespace Caller

variable (p : Caller)

def load (a : ℕ) : FetchM UInt8 := do
  modify fun log => log ++ [a]
  return p.mem a

def loadInt (a : ℕ) : FetchM ℕ := do
  let b0 ← p.load (u32 a)
  let b1 ← p.load (u32 (a + 1))
  let b2 ← p.load (u32 (a + 2))
  let b3 ← p.load (u32 (a + 3))
  return b0.toNat + 256 * (b1.toNat + 256 * (b2.toNat + 256 * b3.toNat))

def fetchint (addr : ℕ) : FetchM (Option ℕ) :=
  if addr ≥ p.sz ∨ u32 (addr + 4) > p.sz then return none
  else do return some (← p.loadInt addr)

def scan : ℕ → ℕ → FetchM (Option ℕ)
  | 0, _ => return none
  | left + 1, s =>
    if s < p.sz then do
      if (← p.load s) = 0 then return some s else scan left (s + 1)
    else return none

/-- What `fetchstr` returns and what it leaves in `*pp`, with 0 for a `*pp` it does not set. -/
def fetchstr (addr : ℕ) : FetchM (Int32 × ℕ) :=
  if addr ≥ p.sz then return (-1, 0)
  else do
    match ← p.scan (p.sz - addr) addr with
    | some s => return (Int32.ofNat (s - addr), addr)
    | none => return (-1, addr)

def argint (n : Int32) : FetchM (Option ℕ) := p.fetchint (u32 (p.esp + 4 + 4 * n.toUInt32.toNat))

def argptr (n size : Int32) : FetchM (Option ℕ) := do
  match ← p.argint n with
  | none => return none
  | some i =>
    if size < 0 ∨ i ≥ p.sz ∨ u32 (i + size.toUInt32.toNat) > p.sz then return none
    else return some i

def argstr (n : Int32) : FetchM (Int32 × ℕ) := do
  match ← p.argint n with
  | none => return (-1, 0)
  | some addr => p.fetchstr addr

/-- The loop of `sys_exec` when `argv` holds the given pointers; it may make `left` more rounds before `argv` is full. -/
def fetchArgv (uargv : ℕ) : ℕ → List ℕ → FetchM (Option (List ℕ))
  | 0, _ => return none
  | left + 1, argv => do
    match ← p.fetchint (u32 (uargv + 4 * argv.length)) with
    | none => return none
    | some uarg =>
      if uarg = 0 then return some argv
      else
        let r ← p.fetchstr uarg
        if r.1 < 0 then return none else fetchArgv uargv left (argv ++ [r.2])

/-- `sys_exec` up to its call of `exec`: the path and `argv`. -/
def sysExec : FetchM (Option (ℕ × List ℕ)) := do
  let path ← p.argstr 0
  if path.1 < 0 then return none
  else
    match ← p.argint 1 with
    | none => return none
    | some uargv =>
      match ← p.fetchArgv uargv maxarg [] with
      | none => return none
      | some argv => return some (path.2, argv)

def StringAt (a : ℕ) : Prop := ∃ n, a + n < p.sz ∧ p.mem (a + n) = 0 ∧ ∀ i < n, p.mem (a + i) ≠ 0

variable {p}

theorem within_load {a : ℕ} (h : a < p.sz) : Within p.sz (p.load a) (· = p.mem a) := by
  refine fun log => ⟨rfl, fun x hx => ?_⟩
  rcases List.mem_append.mp hx with hx | hx
  · exact .inl hx
  · rw [List.mem_singleton.mp hx]
    exact .inr h

theorem within_loadInt {a : ℕ} (h : a + 4 ≤ p.sz) (hsz : p.sz < kernbase) : Within p.sz (p.loadInt a) (· = rd32 p.mem a) := by
  have hu : ∀ i < 4, u32 (a + i) = a + i := by
    unfold u32 kernbase at *
    omega
  have h0 := hu 0 (by decide)
  rw [Nat.add_zero] at h0
  unfold loadInt
  rw [h0, hu 1 (by decide), hu 2 (by decide), hu 3 (by decide)]
  apply (within_load (by omega)).bind
  rintro _ rfl
  apply (within_load (by omega)).bind
  rintro _ rfl
  apply (within_load (by omega)).bind
  rintro _ rfl
  apply (within_load (by omega)).bind
  rintro _ rfl
  exact .ret rfl

theorem within_fetchint (hsz : p.sz < kernbase) (addr : ℕ) :
    Within p.sz (p.fetchint addr) fun r => ∀ w, r = some w → addr + 4 ≤ p.sz ∧ w = rd32 p.mem addr := by
  unfold fetchint
  split_ifs with hbad
  · exact .ret nofun
  -- the sum has not wrapped, as `sz` is far from the end of the address space
  have hin : addr + 4 ≤ p.sz := by
    unfold u32 kernbase at *
    omega
  apply (within_loadInt hin hsz).bind
  rintro w rfl
  apply Within.ret
  rintro _ ⟨⟩
  exact ⟨hin, rfl⟩

theorem within_scan (left s : ℕ) : Within p.sz (p.scan left s) fun r =>
    (∀ t, r = some t → s ≤ t ∧ t < p.sz ∧ p.mem t = 0 ∧ ∀ x, s ≤ x → x < t → p.mem x ≠ 0) ∧
      (r = none → p.sz ≤ s + left → ∀ x, s ≤ x → x < p.sz → p.mem x ≠ 0) := by
  induction left generalizing s with
  | zero => exact .ret ⟨nofun, fun _ h x h1 h2 => by omega⟩
  | succ left ih =>
    unfold scan
    split_ifs with hs
    · apply (within_load hs).bind
      rintro _ rfl
      split_ifs with hz
      · refine .ret ⟨?_, nofun⟩
        rintro _ ⟨⟩
        exact ⟨Nat.le_refl _, hs, hz, fun x h1 h2 => by omega⟩
      apply (ih (s + 1)).mono
      rintro r ⟨hsome, hnone⟩
      constructor
      · intro t ht
        obtain ⟨h1, h2, h3, h4⟩ := hsome t ht
        refine ⟨by omega, h2, h3, fun x hx1 hx2 => ?_⟩
        rcases Nat.eq_or_lt_of_le hx1 with rfl | hlt
        · exact hz
        · exact h4 x hlt hx2
      · intro hr hleft x hx1 hx2
        rcases Nat.eq_or_lt_of_le hx1 with rfl | hlt
        · exact hz
        · exact hnone hr (by omega) x hlt hx2
    · exact .ret ⟨nofun, fun _ _ x h1 h2 => by omega⟩

theorem within_fetchstr (addr : ℕ) : Within p.sz (p.fetchstr addr) fun r => 0 ≤ r.1 → r.2 = addr ∧ p.StringAt addr := by
  have hneg : ¬ (0 : Int32) ≤ -1 := by decide
  unfold fetchstr
  split_ifs with hbad
  · exact .ret fun h => (hneg h).elim
  apply (within_scan _ _).bind
  rintro r ⟨hsome, -⟩
  cases r with
  | none => exact .ret fun h => (hneg h).elim
  | some s =>
    obtain ⟨h1, h2, h3, h4⟩ := hsome s rfl
    have hs : addr + (s - addr) = s := by omega
    refine .ret fun _ => ⟨rfl, s - addr, by omega, ?_, fun i hi => h4 _ (by omega) (by omega)⟩
    rw [hs]
    exact h3

section

variable (hsz : p.sz < kernbase)

include hsz

theorem within_argint (n : Int32) : Within p.sz (p.argint n) fun r => ∀ w, r = some w →
    u32 (p.esp + 4 + 4 * n.toUInt32.toNat) + 4 ≤ p.sz ∧ w = rd32 p.mem (u32 (p.esp + 4 + 4 * n.toUInt32.toNat)) :=
      within_fetchint hsz _

theorem within_argptr (n size : Int32) : Within p.sz (p.argptr n size) fun r =>
    ∀ a, r = some a → 0 ≤ size ∧ a + size.toInt.toNat ≤ p.sz := by
  apply (within_argint hsz n).bind
  intro r _
  cases r with
  | none => exact .ret nofun
  | some i =>
    dsimp only
    split_ifs with hbad
    · exact .ret nofun
    apply Within.ret
    rintro _ ⟨⟩
    have hpos : 0 ≤ size := Int32.not_lt.mp fun h => hbad (.inl h)
    have hlt := size.toInt_lt
    have hsize := toUInt32_toNat size
    refine ⟨hpos, ?_⟩
    unfold u32 kernbase at *
    omega

theorem within_argstr (n : Int32) : Within p.sz (p.argstr n) fun r => 0 ≤ r.1 → p.StringAt r.2 := by
  have hneg : ¬ (0 : Int32) ≤ -1 := by decide
  apply (within_argint hsz n).bind
  intro r _
  cases r with
  | none => exact .ret fun h => (hneg h).elim
  | some addr =>
    apply (within_fetchstr addr).mono
    intro r h hr
    obtain ⟨haddr, hstr⟩ := h hr
    rw [haddr]
    exact hstr

theorem within_fetchArgv (uargv left : ℕ) (argv : List ℕ) (hargv : ∀ a ∈ argv, p.StringAt a) :
    Within p.sz (p.fetchArgv uargv left argv) fun r => ∀ l, r = some l →
      (∀ a ∈ l, p.StringAt a) ∧ u32 (uargv + 4 * l.length) + 4 ≤ p.sz := by
  induction left generalizing argv with
  | zero => exact .ret nofun
  | succ left ih =>
    apply (within_fetchint hsz _).bind
    intro r hr
    cases r with
    | none => exact .ret nofun
    | some uarg =>
      dsimp only
      split_ifs with h0
      · apply Within.ret
        rintro _ ⟨⟩
        exact ⟨hargv, (hr uarg rfl).1⟩
      apply (within_fetchstr uarg).bind
      intro r hstr
      split_ifs with hbad
      · exact .ret nofun
      · obtain ⟨haddr, hat⟩ := hstr (Int32.not_lt.mp hbad)
        apply ih
        intro a ha
        rcases List.mem_append.mp ha with ha | ha
        · exact hargv a ha
        · rw [List.mem_singleton.mp ha, haddr]
          exact hat

theorem within_sysExec : Within p.sz p.sysExec fun r => ∀ path argv, r = some (path, argv) →
    p.StringAt path ∧ ∀ a ∈ argv, p.StringAt a := by
  apply (within_argstr hsz 0).bind
  intro path hpath
  split_ifs with hbad
  · exact .ret nofun
  apply (within_argint hsz 1).bind
  intro r _
  cases r with
  | none => exact .ret nofun
  | some uargv =>
    apply (within_fetchArgv hsz uargv maxarg [] nofun).bind
    intro r hr
    cases r with
    | none => exact .ret nofun
    | some argv =>
      apply Within.ret
      rintro _ _ ⟨⟩
      exact ⟨hpath (Int32.not_lt.mp hbad), (hr argv rfl).1⟩

end

end Caller

section sizes

variable [Layout] {pgdir oldsz newsz sz : ℕ}

def Kernel.Sized (k : Kernel) : Prop := ∀ i, k.sz i < kernbase

theorem allocPages_size (left a : ℕ) (s : Kmem) :
    wp (allocPages pgdir oldsz newsz left a) s (fun r _ => r = 0 ∨ r = newsz) fun _ => True := by
  induction left generalizing a s with
  | zero => exact wp_ret (.inr rfl)
  | succ left ih =>
    rw [allocPages]
    apply wp_seq (wp_any kalloc)
    intro r t _
    cases r with
    | none =>
      apply wp_seq (wp_any _)
      intro _ _ _
      exact wp_ret (.inl rfl)
    | some mem =>
      apply wp_seq (wp_any _)
      intro _ _ _
      apply wp_seq (wp_any _)
      intro ok _ _
      cases ok with
      | true => exact ih _ _
      | false =>
        simp only [Bool.false_eq_true, if_false, wp_bind]
        apply wp_mono (wp_any _)
        intro _ _ _
        apply wp_mono (wp_any _)
        intro _ _ _
        exact wp_ret (.inl rfl)

theorem allocuvm_size (s : Kmem) : wp (allocuvm pgdir oldsz newsz) s
    (fun r _ => r = 0 ∨ newsz < kernbase ∧ (r = newsz ∨ r = oldsz ∧ newsz < oldsz)) fun _ => True := by
  unfold allocuvm
  split_ifs with h1 h2
  · exact wp_ret (.inl rfl)
  · exact wp_ret (.inr ⟨by omega, .inr ⟨rfl, h2⟩⟩)
  · apply wp_mono (allocPages_size _ _ s)
    rintro r _ (h | h)
    · exact .inl h
    · exact .inr ⟨by omega, .inl h⟩

theorem deallocuvm_size (s : Kmem) : wp (deallocuvm pgdir oldsz newsz) s (fun r _ => r ≤ oldsz) fun _ => True := by
  unfold deallocuvm
  split_ifs with h
  · exact wp_ret le_rfl
  · apply wp_seq (wp_any _)
    intro _ _ _
    apply wp_ret
    omega

theorem loadSegments_size (src : Source) (left i off : ℕ) (hsz : sz < kernbase) (s : Kmem) :
    wp (loadSegments src pgdir left i off sz) s (fun r _ => ∀ n, r = some n → n < kernbase) fun _ => True := by
  have hfail : ∀ t, wp (pure none : VmM (Option ℕ)) t (fun r _ => ∀ n, r = some n → n < kernbase) fun _ => True := by
    intro t
    apply wp_ret
    rintro _ ⟨⟩
  induction left generalizing i off sz s with
  | zero =>
    apply wp_ret
    rintro _ ⟨⟩
    exact hsz
  | succ left ih =>
    unfold loadSegments
    simp only [wp_ite]
    refine ⟨fun _ => hfail s, fun _ =>
      ⟨fun _ => ih _ _ hsz s, fun _ => ⟨fun _ => hfail s, fun _ => ⟨fun _ => hfail s, fun _ => ?_⟩⟩⟩⟩
    apply wp_seq (allocuvm_size s)
    intro n t hn
    split_ifs
    · exact hfail t
    · exact hfail t
    · apply wp_seq (wp_any _)
      intro ok u _
      cases ok with
      | true => exact ih _ _ (by omega) u
      | false => exact hfail u

theorem loadImage_size (src : Source) (s : Kmem) :
    wp (loadImage src) s (fun r _ => ∀ q, r = some q → q.2 < kernbase) fun _ => True := by
  unfold loadImage
  dsimp only
  split_ifs
  · exact wp_ret nofun
  · exact wp_ret nofun
  apply wp_seq (wp_any _)
  intro r t _
  cases r with
  | none => exact wp_ret nofun
  | some pgdir =>
    apply wp_seq (loadSegments_size src _ _ _ (by decide) t)
    intro r u hr
    cases r with
    | none =>
      apply wp_seq (wp_any _)
      intro _ _ _
      exact wp_ret nofun
    | some sz =>
      have hsz := hr sz rfl
      apply wp_seq (allocuvm_size u)
      intro n v hn
      have hlt : n < kernbase := by
        unfold pgroundup u32 pgsize kernbase at *
        omega
      split_ifs
      · apply wp_seq (wp_any _)
        intro _ _ _
        exact wp_ret nofun
      · apply wp_seq (wp_any _)
        intro _ _ _
        apply wp_ret
        rintro _ ⟨⟩
        exact hlt

theorem execImage_size (src : Source) (argv : List (List UInt8)) (s : Kmem) :
    wp (execImage src argv) s (fun r _ => ∀ q, r = some q → q.2 < kernbase) fun _ => True := by
  apply wp_seq (loadImage_size src s)
  intro r t hr
  cases r with
  | none => exact wp_ret nofun
  | some q =>
    apply wp_seq (wp_any _)
    intro r u _
    cases r with
    | none =>
      apply wp_seq (wp_any _)
      intro _ _ _
      exact wp_ret nofun
    | some sp =>
      apply wp_ret
      rintro _ ⟨⟩
      exact hr q rfl

variable {k : Kernel}

section

variable (h : k.Sized)

include h

omit [Layout] in
theorem Kernel.Sized.set (i : Slot) {n : ℕ} (hn : n < kernbase) : (k.setSz i n).Sized := by
  intro j
  by_cases hj : j = i
  · subst hj
    simpa [Kernel.setSz] using hn
  · simpa [Kernel.setSz, Function.update_of_ne hj] using h j

omit [Layout] in
theorem switchuvm_sized (cur : Slot) : wp (switchuvm cur) k (fun _ k' => k'.Sized) fun _ => True := by
  rw [switchuvm, wp_bind, wp_get]
  split_ifs
  · exact (wp_throw _).mpr trivial
  · exact wp_ret h

theorem growproc_sized (cur : Slot) (n : Int32) : wp (growproc cur n) k (fun _ k' => k'.Sized) fun _ => True := by
  have hend : ∀ sz k', k'.Sized → sz < kernbase → wp (if n ≠ 0 ∧ sz = 0 then pure false else do
      modify fun k => k.setSz cur sz
      switchuvm cur
      pure true) k' (fun _ k' => k'.Sized) fun _ => True := by
    intro sz k' hk' hsz
    split_ifs
    · exact wp_ret hk'
    · simp only [wp_bind, wp_modify]
      exact wp_mono (switchuvm_sized (hk'.set cur hsz) cur) fun _ _ hk => wp_ret hk
  have hcur := h cur
  rw [growproc, wp_bind, wp_get]
  cases k.pgdir cur with
  | none => exact (wp_throw _).mpr trivial
  | some pd =>
    split_ifs
    · rw [wp_bind]
      apply wp_within.mpr
      apply wp_mono (allocuvm_size k.vm)
      intro r t hr
      exact hend r _ h (by omega)
    · rw [wp_bind]
      apply wp_within.mpr
      apply wp_mono (deallocuvm_size k.vm)
      intro r t hr
      exact hend r _ h (by omega)
    · exact hend _ _ h hcur

omit [Layout] in
theorem allocproc_sized : wp allocproc k (fun _ k' => k'.Sized) fun _ => True := by
  rw [allocproc, wp_bind, wp_get]
  cases Procs.allocproc k.ptable with
  | none => exact wp_ret h
  | some q =>
    simp only [wp_bind, wp_set]
    apply wp_within.mpr
    apply wp_mono (wp_any _)
    intro r t _
    cases r with
    | none | some p =>
      simp only [wp_bind, wp_modify]
      exact wp_ret h

theorem fork_sized (cur : Slot) : wp (fork cur) k (fun _ k' => k'.Sized) fun _ => True := by
  rw [fork]
  apply wp_seq (allocproc_sized h)
  intro np k hk
  cases np with
  | none => exact wp_ret hk
  | some np =>
    simp only [wp_bind, wp_get]
    cases k.pgdir cur with
    | none => exact (wp_throw _).mpr trivial
    | some pd =>
      simp only [wp_bind]
      apply wp_within.mpr
      apply wp_mono (wp_any _)
      intro d t _
      cases d with
      | none =>
        cases k.kstack np with
        | none => exact (wp_throw _).mpr trivial
        | some p =>
          simp only [wp_bind]
          apply wp_within.mpr
          apply wp_mono (wp_any _)
          intro _ u _
          simp only [wp_modify]
          exact wp_ret hk
      | some d =>
        simp only [wp_bind, wp_modify]
        exact wp_ret (hk.set np (hk cur))

theorem exec_sized (cur : Slot) (src : Option Source) (argv : List (List UInt8)) :
    wp (exec cur src argv) k (fun _ k' => k'.Sized) fun _ => True := by
  cases src with
  | none => exact wp_ret h
  | some src =>
    rw [exec, wp_bind]
    apply wp_within.mpr
    apply wp_mono (execImage_size src argv k.vm)
    intro r t hr
    cases r with
    | none => exact wp_ret h
    | some q =>
      simp only [wp_bind, wp_get, wp_modify]
      have hnew : (({ k with vm := t }.setPgdir cur (some q.1)).setSz cur q.2).Sized := Kernel.Sized.set h cur (hr q rfl)
      apply wp_mono (switchuvm_sized hnew cur)
      intro _ k' hk'
      apply wp_within.mpr
      apply wp_mono (wp_any _)
      intro _ _ _
      exact wp_ret hk'

end

theorem argument_checks_sound {p : Caller} (hsz : p.sz < kernbase) :
    (∀ addr, Within p.sz (p.fetchint addr) fun r => ∀ w, r = some w → addr + 4 ≤ p.sz ∧ w = rd32 p.mem addr) ∧
      (∀ n, Within p.sz (p.argint n) fun r => ∀ w, r = some w → u32 (p.esp + 4 + 4 * n.toUInt32.toNat) + 4 ≤ p.sz ∧
        w = rd32 p.mem (u32 (p.esp + 4 + 4 * n.toUInt32.toNat))) ∧
      (∀ n size, Within p.sz (p.argptr n size) fun r => ∀ a, r = some a → 0 ≤ size ∧ a + size.toInt.toNat ≤ p.sz) ∧
      (∀ n, Within p.sz (p.argstr n) fun r => 0 ≤ r.1 → p.StringAt r.2) ∧
      (Within p.sz p.sysExec fun r => ∀ path argv, r = some (path, argv) → p.StringAt path ∧ ∀ a ∈ argv, p.StringAt a) ∧
      ∀ k : Kernel, k.Sized → ∀ cur, (∀ n, wp (growproc cur n) k (fun _ k' => k'.Sized) fun _ => True) ∧
        wp (fork cur) k (fun _ k' => k'.Sized) (fun _ => True) ∧
        ∀ src argv, wp (exec cur src argv) k (fun _ k' => k'.Sized) fun _ => True := by
  refine ⟨Caller.within_fetchint hsz, Caller.within_argint hsz, Caller.within_argptr hsz, Caller.within_argstr hsz,
    Caller.within_sysExec hsz, ?_⟩
  intro k hk cur
  exact ⟨growproc_sized hk cur, fork_sized hk cur, exec_sized hk cur⟩

end sizes

theorem argument_checks_sound_wrapped : letI p : Caller := ⟨fun _ => 0, 4096, 2 ^ 32 - 8⟩
    p.sz < kernbase ∧ (p.argint 1 []).1 = some 0 ∧ ∀ n size, Within 4096 (p.argptr n size) fun r =>
      ∀ a, r = some a → 0 ≤ size ∧ a + size.toInt.toNat ≤ 4096 := by
  let _ := sampleLayout
  exact ⟨by decide, rfl, (argument_checks_sound (by decide)).2.2.1⟩

end Laboratorio.Vm
