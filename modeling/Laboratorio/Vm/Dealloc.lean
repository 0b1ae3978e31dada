import Laboratorio.Vm.Boot

/-!
`deallocuvm` steps over page tables that are not there. Its effect is that of a walk over all pages.
-/

namespace Laboratorio.Vm

open Bytes

/-- `while(a < limit) a = round(a);`, for fewer than the given number of rounds; `false` when these do not suffice. -/
def whileLt {σ ε : Type} (limit : ℕ) (round : ℕ → StateT σ (Except ε) ℕ) : ℕ → ℕ → StateT σ (Except ε) Bool
  | 0, _ => return false
  | left + 1, a => if a < limit then do whileLt limit round left (← round a) else return true

def pageAddrs (a limit : ℕ) : List ℕ := List.range' a ((limit - a + pgsize - 1) / pgsize) pgsize

theorem pageAddrs_of_le {a limit : ℕ} (h : limit ≤ a) : pageAddrs a limit = [] := by
  have hn : (limit - a + pgsize - 1) / pgsize = 0 := by
    unfold pgsize
    omega
  rw [pageAddrs, hn, List.range'_zero]

theorem pageAddrs_of_lt {a limit : ℕ} (h : a < limit) : pageAddrs a limit = a :: pageAddrs (a + pgsize) limit := by
  have hn : (limit - a + pgsize - 1) / pgsize = (limit - (a + pgsize) + pgsize - 1) / pgsize + 1 := by
    unfold pgsize
    omega
  rw [pageAddrs, hn, List.range'_succ, pageAddrs]

variable [Layout]

def deallocRound (pgdir a : ℕ) : VmM ℕ := do
  match ← walkpgdir pgdir a false with
  | none => return u32 ((pdx a + 1) * 2 ^ 22)
  | some pte =>
    let e ← peek pte
    if present e then
      if pteAddr e = 0 then throw .kfree
      else
        kfree (pteAddr e)
        poke pte 0
        return a + pgsize
    else return a + pgsize

def unmapPage (pgdir a : ℕ) : VmM Unit := do
  match ← walkpgdir pgdir a false with
  | none => return ()
  | some pte =>
    let e ← peek pte
    if present e then
      kfree (pteAddr e)
      poke pte 0
    else return ()

section walk

variable {pgdir a b limit left : ℕ} {s : Kmem}

omit [Layout] in
theorem walkpgdir_none (h : present (rd32 s.mem (pgdir + 4 * pdx a)) = false) : walkpgdir pgdir a false s = .ok (none, s) := by
  have hpeek : peek (pgdir + 4 * pdx a) s = .ok (rd32 s.mem (pgdir + 4 * pdx a), s) := rfl
  unfold walkpgdir
  rw [bind_of_ok hpeek, h]
  rfl

omit [Layout] in
theorem walkpgdir_some (h : present (rd32 s.mem (pgdir + 4 * pdx a)) = true) :
    walkpgdir pgdir a false s = .ok (some (pteAddr (rd32 s.mem (pgdir + 4 * pdx a)) + 4 * ptx a), s) := by
  have hpeek : peek (pgdir + 4 * pdx a) s = .ok (rd32 s.mem (pgdir + 4 * pdx a), s) := rfl
  unfold walkpgdir
  rw [bind_of_ok hpeek, if_pos h]
  rfl

theorem unmapPage_absent (h : present (rd32 s.mem (pgdir + 4 * pdx a)) = false) : unmapPage pgdir a s = .ok ((), s) := by
  unfold unmapPage
  rw [bind_of_ok (walkpgdir_none h)]
  rfl

omit [Layout] in
theorem forM_list_cons (x : ℕ) (l : List ℕ) (f : ℕ → VmM Unit) : (x :: l).forM f = f x >>= fun _ => l.forM f := rfl

theorem forM_unmapPage_cons (h : a < limit) : (pageAddrs a limit).forM (unmapPage pgdir) =
    unmapPage pgdir a >>= fun _ => (pageAddrs (a + pgsize) limit).forM (unmapPage pgdir) := by
  rw [pageAddrs_of_lt h, forM_list_cons]

omit [Layout] in
theorem same_table {n : ℕ} (h : a + (n + 1 + 1) * pgsize ≤ (a / 2 ^ 22 + 1) * 2 ^ 22) : (a + pgsize) / 2 ^ 22 = a / 2 ^ 22 := by
  unfold pgsize at *
  omega

theorem forM_unmapPage_skip {n : ℕ} (h : present (rd32 s.mem (pgdir + 4 * pdx a)) = false)
    (hlast : a + n * pgsize ≤ (a / 2 ^ 22 + 1) * 2 ^ 22) :
    (pageAddrs a limit).forM (unmapPage pgdir) s = (pageAddrs (a + n * pgsize) limit).forM (unmapPage pgdir) s := by
  induction n generalizing a with
  | zero => rw [Nat.zero_mul, Nat.add_zero]
  | succ n ih =>
    have hnext : a + (n + 1) * pgsize = a + pgsize + n * pgsize := by
      rw [Nat.succ_mul]
      omega
    by_cases hlt : a < limit
    · rw [forM_unmapPage_cons hlt, bind_of_ok (unmapPage_absent h), hnext]
      cases n with
      | zero => rw [Nat.zero_mul, Nat.add_zero]
      | succ n =>
        have hsame := same_table hlast
        have hpdx : pdx (a + pgsize) = pdx a := by rw [pdx, pdx, hsame]
        apply ih
        · rw [hpdx]
          exact h
        · rw [hsame, ← hnext]
          exact hlast
    · rw [pageAddrs_of_le (by omega), pageAddrs_of_le (by omega)]

theorem kfree_zero (s : Kmem) : kfree 0 s = .error .kfree := by
  have hstop := Layout.extmem_lt.trans_le Layout.data_le
  have hbad : (0 : ℕ) % pgsize ≠ 0 ∨ p2v 0 < kernbase + Layout.stop ∨ 0 ≥ phystop := by
    right
    left
    unfold p2v u32 kernbase
    omega
  rw [kfree, if_pos hbad]
  rfl

theorem deallocRound_eq (pgdir a : ℕ) (s : Kmem) :
    present (rd32 s.mem (pgdir + 4 * pdx a)) = false ∧ deallocRound pgdir a s = .ok (u32 ((pdx a + 1) * 2 ^ 22), s) ∨
      deallocRound pgdir a s = (do unmapPage pgdir a; return a + pgsize) s := by
  cases hp : present (rd32 s.mem (pgdir + 4 * pdx a)) with
  | false =>
    refine .inl ⟨rfl, ?_⟩
    unfold deallocRound
    rw [bind_of_ok (walkpgdir_none hp)]
    rfl
  | true =>
    right
    unfold deallocRound unmapPage
    rw [bind_assoc, bind_of_ok (walkpgdir_some hp), bind_of_ok (walkpgdir_some hp)]
    generalize pteAddr (rd32 s.mem (pgdir + 4 * pdx a)) + 4 * ptx a = pte
    have hpeek : peek pte s = .ok (rd32 s.mem pte, s) := rfl
    simp only [bind_assoc]
    rw [bind_of_ok hpeek, bind_of_ok hpeek]
    by_cases he : present (rd32 s.mem pte)
    · rw [if_pos he, if_pos he, bind_assoc]
      by_cases h0 : pteAddr (rd32 s.mem pte) = 0
      · rw [if_pos h0, h0, bind_of_error (kfree_zero s)]
        rfl
      · rw [if_neg h0]
    · rw [if_neg he, if_neg he]
      rfl

omit [Layout] in
theorem next_table (hlt : a < limit) (hlimit : limit ≤ kernbase) (hal : a % pgsize = 0) :
    ∃ n, u32 ((pdx a + 1) * 2 ^ 22) = a + (n + 1) * pgsize ∧ a + (n + 1) * pgsize = (a / 2 ^ 22 + 1) * 2 ^ 22 := by
  have hnext : u32 ((pdx a + 1) * 2 ^ 22) = (a / 2 ^ 22 + 1) * 2 ^ 22 := by
    unfold u32 pdx kernbase at *
    omega
  have hsum : a + (((a / 2 ^ 22 + 1) * 2 ^ 22 - a) / pgsize - 1 + 1) * pgsize = (a / 2 ^ 22 + 1) * 2 ^ 22 := by
    unfold pgsize at *
    omega
  exact ⟨((a / 2 ^ 22 + 1) * 2 ^ 22 - a) / pgsize - 1, hnext.trans hsum.symm, hsum⟩

theorem deallocRound_bind {α : Type} {K : ℕ → VmM α} {G : VmM α} (hlt : a < limit) (hlimit : limit ≤ kernbase)
    (hal : a % pgsize = 0) (hK : ∀ n t, K (a + (n + 1) * pgsize) t =
    ((pageAddrs (a + (n + 1) * pgsize) limit).forM (unmapPage pgdir) >>= fun _ => G) t) (s : Kmem) :
    (deallocRound pgdir a >>= K) s = ((pageAddrs a limit).forM (unmapPage pgdir) >>= fun _ => G) s := by
  rcases deallocRound_eq pgdir a s with ⟨habs, hround⟩ | hround
  · obtain ⟨n, hn, hlast⟩ := next_table hlt hlimit hal
    have hskip : (pageAddrs a limit).forM (unmapPage pgdir) s = (pageAddrs (a + (n + 1) * pgsize) limit).forM
      (unmapPage pgdir) s := forM_unmapPage_skip habs hlast.le
    rw [bind_of_ok hround, hn, hK]
    exact bind_congr_state _ hskip.symm
  · have hone := funext (hK 0)
    rw [Nat.zero_add, Nat.one_mul] at hone
    rw [bind_congr_state K hround, forM_unmapPage_cons hlt, bind_assoc, bind_assoc, pure_bind, hone]

theorem deallocPages_succ (pgdir limit left a : ℕ) :
    deallocPages pgdir limit (left + 1) a = if a < limit then deallocRound pgdir a >>=
      deallocPages pgdir limit left else pure () := by
  rw [deallocPages]
  congr 1
  unfold deallocRound
  rw [bind_assoc]
  congr 1
  funext r
  cases r with
  | none => rfl
  | some pte =>
    simp only [bind_assoc]
    congr 1
    funext e
    split_ifs
    · rfl
    · simp only [bind_assoc]
      rfl
    · rfl

section

variable (hlimit : limit ≤ kernbase) (hal : a % pgsize = 0) (hleft : limit ≤ a + left * pgsize)

include hlimit hal hleft

theorem deallocPages_eq (s : Kmem) : deallocPages pgdir limit left a s = (pageAddrs a limit).forM (unmapPage pgdir) s := by
  induction left generalizing a s with
  | zero =>
    rw [pageAddrs_of_le (by omega)]
    rfl
  | succ left ih =>
    rw [deallocPages_succ]
    by_cases hlt : a < limit
    · rw [if_pos hlt, deallocRound_bind hlt hlimit hal, bind_pure_unit]
      intro n t
      rw [bind_pure_unit]
      apply ih
      · rw [Nat.add_mul_mod_self_right]
        exact hal
      · rw [Nat.add_mul] at hleft ⊢
        omega
    · rw [if_neg hlt, pageAddrs_of_le (by omega)]
      rfl

theorem whileLt_deallocRound (s : Kmem) :
    whileLt limit (deallocRound pgdir)
      (left + 1) a s = ((pageAddrs a limit).forM (unmapPage pgdir) >>= fun _ => pure true) s := by
  induction left generalizing a s with
  | zero =>
    rw [whileLt, if_neg (by omega), pageAddrs_of_le (by omega)]
    rfl
  | succ left ih =>
    rw [whileLt]
    by_cases hlt : a < limit
    · rw [if_pos hlt, deallocRound_bind hlt hlimit hal]
      intro n t
      apply ih
      · rw [Nat.add_mul_mod_self_right]
        exact hal
      · rw [Nat.add_mul] at hleft ⊢
        omega
    · rw [if_neg hlt, pageAddrs_of_le (by omega)]
      rfl

end

theorem deallocuvm_eq_plain_walk {oldsz newsz : ℕ} (pgdir : ℕ) (hlt : newsz < oldsz) (hold : oldsz ≤ kernbase) (s : Kmem) :
    deallocuvm pgdir oldsz newsz s = ((pageAddrs (pgroundup newsz) oldsz).forM (unmapPage pgdir) >>= fun _ => pure newsz) s ∧
      ∃ left, whileLt oldsz (deallocRound pgdir) left (pgroundup newsz) s =
        ((pageAddrs (pgroundup newsz) oldsz).forM (unmapPage pgdir) >>= fun _ => pure true) s := by
  have hal : pgroundup newsz % pgsize = 0 := Nat.mul_mod_left _ _
  have hleft : oldsz ≤ pgroundup newsz + (oldsz / pgsize + 1) * pgsize := by
    unfold pgsize
    omega
  refine ⟨?_, _, whileLt_deallocRound hold hal hleft s⟩
  rw [deallocuvm, if_neg (by omega)]
  exact bind_congr_state _ (deallocPages_eq hold hal hleft s)

end walk

omit [Layout] in
theorem deallocuvm_eq_plain_walk_beyond : letI := sampleLayout
    (1 < 8193 ∧ 8193 ≤ kernbase ∧ present (rd32 (fun _ => 0) (0x111000 + 4 * pdx 4096)) = false) ∧
      deallocuvm 0x111000 8193 1 ⟨fun _ => 0, [], []⟩ = ((pageAddrs 4096 8193).forM (unmapPage 0x111000) >>= fun _ => pure 1)
      ⟨fun _ => 0, [], []⟩ := by
  let _ := sampleLayout
  exact ⟨by decide, (deallocuvm_eq_plain_walk 0x111000 (by decide) (by decide) _).1⟩

end Laboratorio.Vm
