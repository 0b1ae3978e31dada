import Laboratorio.Vm.Load

/-!
The second half of `exec`: the arguments on the stack of the new program.
-/

namespace Laboratorio.Vm

open Bytes

inductive Pushed (f : Bytes) : ℕ → List (List UInt8) → List ℕ → ℕ → Prop
  | nil (sp : ℕ) : Pushed f sp [] [] sp
  | cons {top sp p : ℕ} {a : List UInt8} {argv : List (List UInt8)} {ptrs : List ℕ} (hp : p + (a.length + 1) ≤ top)
      (ha : ∀ j ≤ a.length, f (p + j) = a.getD j 0) (h : Pushed f p argv ptrs sp) : Pushed f top (a :: argv) (p :: ptrs) sp

namespace Pushed

variable {f g : Bytes} {top sp : ℕ} {argv : List (List UInt8)} {ptrs : List ℕ}

section

variable (h : Pushed f top argv ptrs sp)

include h

theorem length_eq : ptrs.length = argv.length := by
  induction h with
  | nil => rfl
  | cons hp ha h ih => rw [List.length_cons, List.length_cons, ih]

theorem le : sp + argv.length ≤ top := by
  induction h with
  | nil => exact le_rfl
  | cons hp ha h ih =>
    rw [List.length_cons]
    omega

theorem congr (hfg : ∀ x, sp ≤ x → x < top → g x = f x) : Pushed g top argv ptrs sp := by
  induction h with
  | nil => exact .nil _
  | cons hp ha h ih =>
    have hle := h.le
    apply Pushed.cons hp
    · intro j hj
      rw [hfg _ (by omega) (by omega)]
      exact ha j hj
    · apply ih
      intro x h1 h2
      exact hfg x h1 (by omega)

theorem spec {i : ℕ} {a : List UInt8} {p : ℕ} (ha : argv[i]? = some a) (hp : ptrs[i]? = some p) :
    sp ≤ p ∧ p + (a.length + 1) ≤ top ∧ (∀ j ≤ a.length, f (p + j) = a.getD j 0) ∧
      ∀ j b q, i < j → argv[j]? = some b → ptrs[j]? = some q → q + (b.length + 1) ≤ p := by
  induction h generalizing i a p with
  | nil => simp at ha
  | @cons top sp p₀ a₀ argv ptrs hp₀ ha₀ h ih =>
    have hle := h.le
    cases i with
    | zero =>
      simp only [List.getElem?_cons_zero, Option.some.injEq] at ha hp
      subst ha hp
      refine ⟨by omega, hp₀, ha₀, fun j b q hj hb hq => ?_⟩
      obtain ⟨j, rfl⟩ : ∃ k, j = k + 1 := ⟨j - 1, by omega⟩
      rw [List.getElem?_cons_succ] at hb hq
      exact (ih hb hq).2.1
    | succ i =>
      obtain ⟨h1, h2, h3, h4⟩ := ih ha hp
      refine ⟨h1, by omega, h3, fun j b q hj hb hq => ?_⟩
      obtain ⟨j, rfl⟩ : ∃ k, j = k + 1 := ⟨j - 1, by omega⟩
      exact h4 j b q (by omega) hb hq

end

end Pushed

theorem rd32_wordBytes {ws : List ℕ} {k : ℕ} (h : ws.getD k 0 < 2 ^ 32) : rd32 (wordBytes ws) (4 * k) = ws.getD k 0 := by
  have hbytes : rd32 (wordBytes ws) (4 * k) = rd32 (wr32 zeroes (4 * k) (ws.getD k 0)) (4 * k) := by
    apply rd_congr
    intro x h1 h2
    have hk : x / 4 = k := by omega
    have hx : x % 4 = x - 4 * k := by omega
    rw [wr32, wr, store_of_mem h1 h2, wordBytes, hk, hx]
  rw [hbytes]
  exact rd_wr _ _ h

structure AtStack (s : Kmem) (pd top sp : ℕ) : Prop where
  ready : StackReady s pd top
  top_lt : top < kernbase
  low : top - pgsize ≤ sp
  high : sp ≤ top
  aligned : sp % 4 = 0

section push

variable {s s' : Kmem} {pd top sp : ℕ}

theorem SameTable.stackReady (h : SameTable s.mem s'.mem pd) (hs : StackReady s pd top) (htop : top < kernbase) :
    StackReady s' pd top := by
  have hguard : top / pgsize - 2 < allPages := by
    unfold kernbase pgsize allPages npdentries at *
    omega
  refine ⟨hs.aligned, hs.room, h.accessible_iff.mpr hs.stack, ?_⟩
  rw [h.ptes _ hguard]
  exact hs.guard

theorem StackReady.page (h : StackReady s pd top) {x : ℕ} (h1 : top - pgsize ≤ x) (h2 : x < top) :
    Accessible s.mem pd (x / pgsize) := by
  have hpage : x / pgsize = top / pgsize - 1 := by
    have hal := h.aligned
    unfold pgsize at *
    omega
  rw [hpage]
  exact h.stack

theorem push_meets_guard {n va : ℕ} (hal : top % 4096 = 0) (hroom : 8192 ≤ top) (htop : top < 0x80000000)
    (hlow : top - 4096 ≤ sp) (h4 : sp % 4 = 0) (hn : 0 < n) (hn32 : n < 2 ^ 32) (hva : va = (sp + 2 ^ 32 - n) % 2 ^ 32 / 4 * 4)
    (hbelow : sp < top - 4096 + n) : ∃ x < n, (va + x) % 2 ^ 32 / 4096 = top / 4096 - 2 := by
  have hguard : ∀ y, top ≤ y + 4100 → y < top - 4096 → y / 4096 = top / 4096 - 2 := by
    omega
  have hfind : ∀ base, va ≤ base + (top - 4097) → base + sp ≤ va + n + 3 → (base = 0 ∨ base = 2 ^ 32) →
      ∃ x < n, (va + x) % 2 ^ 32 / 4096 = top / 4096 - 2 := by
    intro base h1 h2 hbase
    obtain ⟨y, hy1, hy2, x, hx, hxy⟩ : ∃ y, top ≤ y + 4100 ∧ y < top - 4096 ∧ ∃ x < n, va + x = y + base := by
      by_cases hsp : sp = top - 4096
      · exact ⟨va + n - 1 - base, by omega, by omega, n - 1, by omega, by omega⟩
      · exact ⟨top - 4097, by omega, by omega, base + (top - 4097) - va, by omega, by omega⟩
    have hmod : (va + x) % 2 ^ 32 = y := by
      rw [hxy]
      omega
    exact ⟨x, hx, by rw [hmod]; exact hguard y hy1 hy2⟩
  by_cases hle : n ≤ sp
  · exact hfind 0 (by omega) (by omega) (.inl rfl)
  · exact hfind (2 ^ 32) (by omega) (by omega) (.inr rfl)

theorem AtStack.push (h : AtStack s pd top sp) {n va : ℕ} (hn : 0 < n) (hn32 : n < 2 ^ 32)
    (hva : va = u32 (sp + 2 ^ 32 - n) / 4 * 4) (hacc : ∀ x < n, Accessible s.mem pd (rangePage va x)) :
    AtStack s pd top va ∧ va + n ≤ sp := by
  have hal := h.ready.aligned
  have hroom := h.ready.room
  have htop := h.top_lt
  have hlow := h.low
  have hhigh := h.high
  have h4 := h.aligned
  have hin : top - pgsize + n ≤ sp := by
    by_contra hbelow
    obtain ⟨x, hx, hpage⟩ := push_meets_guard hal hroom htop hlow h4 hn hn32 hva (by unfold pgsize at *; omega)
    have hok := (hacc x hx).2.2
    have hguard := h.ready.guard
    rw [show rangePage va x = top / pgsize - 2 from hpage, hguard] at hok
    exact nomatch hok
  have hsub : va = (sp - n) / 4 * 4 := by
    rw [hva]
    unfold u32 pgsize kernbase at *
    omega
  refine ⟨⟨h.ready, htop, ?_, by omega, by omega⟩, by omega⟩
  unfold pgsize at *
  omega

end push

variable {s : Kmem} {pd : ℕ} {E : Fault → Prop}

structure Args (s s' : Kmem) (pd top sp : ℕ) (argv : List (List UInt8)) (ptrs : List ℕ) (sp' : ℕ) : Prop where
  place : AtStack s' pd top sp'
  pushed : Pushed (userByte s'.mem pd) sp argv ptrs sp'
  kept : ∀ x, sp ≤ x → x < top → userByte s'.mem pd x = userByte s.mem pd x

variable {argv : List (List UInt8)} {sp : ℕ}

theorem wp_pushArgs {acc : List ℕ} {Q : Option (ℕ × List ℕ) → Kmem → Prop} (h : Proper s.mem pd) (hnull : E .nullDeref)
    (hok : ∀ r s', Spills pd s s' →
    (∀ top, AtStack s pd top sp → (∀ a ∈ argv, a.length + 1 < 2 ^ 32) → ∀ sp' ptrs, r = some (sp', ptrs) →
      ∃ ps, ptrs = acc ++ ps ∧ Args s s' pd top sp argv ps sp') → Q r s') : wp (pushArgs pd argv sp acc) s Q E := by
  induction argv generalizing s sp acc with
  | nil =>
    apply wp_ret
    apply hok _ s (.refl pd s)
    rintro top hat _ sp' ptrs ⟨⟩
    exact ⟨[], (List.append_nil acc).symm, hat, .nil sp, fun _ _ _ => rfl⟩
  | cons a argv ih =>
    unfold pushArgs
    split_ifs
    · exact wp_ret (hok none s (.refl pd s) nofun)
    obtain ⟨va, hva⟩ : ∃ va, va = u32 (sp + 2 ^ 32 - u32 (a.length + 1)) / 4 * 4 := ⟨_, rfl⟩
    have hva32 : va < 2 ^ 32 := by
      rw [hva]
      exact (Nat.div_mul_le_self _ _).trans_lt (Nat.mod_lt _ (by decide))
    rw [← hva, wp_bind]
    apply wp_copyBytes h hva32 (Nat.lt_succ_self _)
    · intro _ _ _ _
      exact hnull
    · intro s1 _ _ _ _ _ hs1
      exact wp_ret (hok none s1 hs1 nofun)
    intro s1 hacc hs1 hfill
    apply ih (hs1.table.proper h)
    intro r s' hs' hargs
    apply hok r s' (hs1.trans hs')
    rintro top hat hlen sp' ptrs hr
    have hsmall : u32 (a.length + 1) = a.length + 1 := Nat.mod_eq_of_lt (hlen a List.mem_cons_self)
    rw [hsmall] at hva hacc hfill
    obtain ⟨hat', hle⟩ := hat.push (Nat.succ_pos _) (hlen a List.mem_cons_self) hva hacc
    have hat1 : AtStack s1 pd top va := ⟨hs1.table.stackReady hat.ready hat.top_lt, hat'.top_lt, hat'.low,
      hat'.high, hat'.aligned⟩
    obtain ⟨ps, rfl, hrest⟩ := hargs top hat1 (fun b hb => hlen b (List.mem_cons_of_mem a hb)) sp' ptrs hr
    have hhigh := hat.high
    have hlow := hat'.low
    have hstored : ∀ x, va ≤ x → x < top → userByte s1.mem pd x = if va ≤ x ∧
      x < va + (a.length + 1) then cstring a (x - va) else userByte s.mem pd x := by
      intro x h1 h2
      apply hfill _ x (hat.ready.page (hlow.trans h1) h2)
      have htop := hat.top_lt
      unfold kernbase at htop
      omega
    refine ⟨va :: ps, by rw [List.append_assoc]; rfl, hrest.place, .cons hle ?_ hrest.pushed, fun x h1 h2 => ?_⟩
    · intro j hj
      rw [hrest.kept _ (by omega) (by omega), hstored _ (by omega) (by omega), if_pos (by omega), Nat.add_sub_cancel_left]
      rfl
    · rw [hrest.kept _ (by omega) h2, hstored _ (by omega) h2, if_neg (by omega)]

structure Frame (f : Bytes) (top sp : ℕ) (argv : List (List UInt8)) (ptrs : List ℕ) : Prop where
  low : top - pgsize ≤ sp
  ret : rd32 f sp = 0xffffffff
  argc : rd32 f (sp + 4) = argv.length
  argvAt : rd32 f (sp + 8) = sp + 12
  array : ∀ i < argv.length, rd32 f (sp + 12 + 4 * i) = ptrs.getD i 0
  null : rd32 f (sp + 12 + 4 * argv.length) = 0
  strings : Pushed f top argv ptrs (sp + 4 * (argv.length + 4))

variable {top : ℕ}

theorem Pushed.ptr_lt {f : Bytes} {ptrs : List ℕ} (h : Pushed f top argv ptrs sp) : ∀ p ∈ ptrs, p < top := by
  induction h with
  | nil => exact nofun
  | cons hp ha h ih =>
    intro q hq
    rcases List.mem_cons.mp hq with rfl | hq
    · omega
    · have hlt := ih q hq
      omega

theorem frame_words (a b c : ℕ) (ptrs : List ℕ) : ([a, b, c] ++ ptrs ++ [0]).getD 0 0 = a ∧
    ([a, b, c] ++ ptrs ++ [0]).getD 1 0 = b ∧ ([a, b, c] ++ ptrs ++ [0]).getD 2 0 = c ∧
    (∀ i < ptrs.length, ([a, b, c] ++ ptrs ++ [0]).getD (3 + i) 0 = ptrs.getD i 0) ∧
    ([a, b, c] ++ ptrs ++ [0]).getD (3 + ptrs.length) 0 = 0 := by
  refine ⟨rfl, rfl, rfl, fun i hi => ?_, ?_⟩
  · rw [List.append_assoc, List.getD_append_right _ _ _ _ (by simp), List.getD_append _ _ _ _ (by simpa using hi)]
    simp
  · rw [List.getD_append_right _ _ _ _ (by simp; omega)]
    simp

theorem frame_of_words {f : Bytes} {sp' : ℕ} {ptrs : List ℕ} (hlow : top - pgsize ≤ sp)
    (hsp : sp + 4 * (argv.length + 4) = sp') (htop : sp' ≤ top) (hkern : top < kernbase) (hstr : Pushed f top argv ptrs sp')
    (hwords : ∀ x, sp ≤ x → x < sp' →
      f x = wordBytes ([0xffffffff, argv.length, u32 (sp' + 2 ^ 32 - (argv.length + 1) * 4)] ++ ptrs ++ [0]) (x - sp)) :
        Frame f top sp argv ptrs := by
  obtain ⟨h0, h1, h2, hptr, hlast⟩ := frame_words 0xffffffff argv.length (u32 (sp' + 2 ^ 32 - (argv.length + 1) * 4)) ptrs
  generalize [0xffffffff, argv.length, u32 (sp' + 2 ^ 32 - (argv.length + 1) * 4)] ++ ptrs ++ [0] = ws at *
  have hlen := hstr.length_eq
  have hword : ∀ k < argv.length + 4, ws.getD k 0 < 2 ^ 32 → rd32 f (sp + 4 * k) = ws.getD k 0 := by
    intro k hk hlt
    have hmem : rd32 f (sp + 4 * k) = rd32 (store zeroes sp (4 * (argv.length + 4)) (wordBytes ws)) (sp + 4 * k) := by
      apply rd_congr
      intro x h1 h2
      rw [store_of_mem (by omega) (by omega)]
      exact hwords x (by omega) (by omega)
    have hin : rd32 (store zeroes sp (4 * (argv.length + 4)) (wordBytes ws)) (sp + 4 * k) = rd32 (wordBytes ws) (4 * k) :=
      rd_store_inside _ _ (by omega)
    rw [hmem, hin]
    exact rd32_wordBytes hlt
  have hkern' : top < 0x80000000 := hkern
  have hthird : u32 (sp' + 2 ^ 32 - (argv.length + 1) * 4) = sp + 12 := by
    unfold u32
    omega
  refine ⟨hlow, ?_, ?_, ?_, fun i hi => ?_, ?_, by rwa [hsp]⟩
  · have hw := hword 0 (by omega) (by rw [h0]; decide)
    rwa [h0] at hw
  · have hw := hword 1 (by omega) (by omega)
    rwa [h1] at hw
  · have hw := hword 2 (by omega) (by omega)
    rwa [h2, hthird] at hw
  · have hlt : ptrs.getD i 0 < top := by
      rw [List.getD_eq_getElem _ _ (by omega)]
      exact hstr.ptr_lt _ (List.getElem_mem _)
    have hw := hword (3 + i) (by omega) (by rw [hptr i (by omega)]; omega)
    rwa [hptr i (by omega), Nat.mul_add, ← Nat.add_assoc] at hw
  · rw [hlen] at hlast
    have hw := hword (3 + argv.length) (by omega) (by rw [hlast]; decide)
    rwa [hlast, Nat.mul_add, ← Nat.add_assoc] at hw

theorem wp_pushFrame {Q : Option ℕ → Kmem → Prop} (h : Proper s.mem pd) (hnull : E .nullDeref)
    (hok : ∀ r s', Spills pd s s' →
    (StackReady s pd top → top < kernbase → (∀ a ∈ argv, a.length + 1 < 2 ^ 32) → ∀ sp, r = some sp →
      ∃ ptrs, Frame (userByte s'.mem pd) top sp argv ptrs) → Q r s') : wp (pushFrame pd top argv) s Q E := by
  rw [pushFrame, wp_bind]
  apply wp_pushArgs h hnull
  intro r s1 hs1 hargs
  cases r with
  | none => exact wp_ret (hok none s1 hs1 nofun)
  | some q =>
    obtain ⟨sp, ptrs⟩ := q
    dsimp only
    obtain ⟨va, hva⟩ : ∃ va, va = u32 (sp + 2 ^ 32 - (3 + ptrs.length + 1) * 4) := ⟨_, rfl⟩
    have hva32 : va < 2 ^ 32 := by
      rw [hva]
      exact Nat.mod_lt _ (by decide)
    rw [← hva, wp_bind]
    apply wp_copyBytes (hs1.table.proper h) hva32 (Nat.lt_succ_self _)
    · intro _ _ _ _
      exact hnull
    · intro s2 _ _ _ _ _ hs2
      exact wp_ret (hok none s2 (hs1.trans hs2) nofun)
    intro s2 hacc hs2 hfill
    apply wp_ret
    apply hok _ s2 (hs1.trans hs2)
    rintro hready hkern hlen _ ⟨⟩
    have htop4 : top % 4 = 0 := by
      have hal := hready.aligned
      unfold pgsize at hal
      omega
    obtain ⟨ps, hnil, hat1, hpush, -⟩ := hargs top ⟨hready, hkern, Nat.sub_le _ _, le_rfl, htop4⟩ hlen sp ptrs rfl
    subst hnil
    have hps := hpush.length_eq
    have hsmall : argv.length ≤ 4096 := by
      have hle := hpush.le
      have hlow := hat1.low
      unfold pgsize at hlow
      omega
    have h4 := hat1.aligned
    have hva4 : va = u32 (sp + 2 ^ 32 - (3 + ptrs.length + 1) * 4) / 4 * 4 := by
      rw [← hva]
      unfold u32 kernbase at *
      omega
    obtain ⟨hat2, hle⟩ := hat1.push (by omega) (by unfold kernbase at hkern; omega) hva4 hacc
    have hhigh := hat1.high
    have hfilled : ∀ x, va ≤ x → x < top → userByte s2.mem pd x = if va ≤ x ∧ x < va + (3 + ptrs.length + 1) * 4 then wordBytes
      ([0xffffffff, ptrs.length, u32 (sp + 2 ^ 32 - (ptrs.length + 1) * 4)] ++ ptrs ++ [0])
      (x - va) else userByte s1.mem pd x := by
      intro x h1 h2
      apply hfill _ x (hat1.ready.page (hat2.low.trans h1) h2)
      unfold kernbase at hkern
      omega
    have hexact : va + 4 * (argv.length + 4) = sp := by
      unfold u32 kernbase at *
      omega
    refine ⟨ptrs, frame_of_words hat2.low hexact hhigh hkern (hpush.congr fun x h1 h2 => ?_) fun x h1 h2 => ?_⟩
    · rw [hfilled x (by omega) h2, if_neg (by omega)]
    · rw [hfilled x h1 (by omega), if_pos (by omega), hps]

end Laboratorio.Vm
