import Laboratorio.Uthread.Threads

/-!
Who runs next: round robin among the threads, and when `main` is resumed.
-/

namespace Laboratorio.Uthread

open Function

structure Turn (s : Threads) : Prop where
  ultimo : s.ultimoIndice = s.current
  notMain : s.current ≠ main
  waiting : s.state main = .running
  running : s.state s.current = .running
  others : ∀ r, r ≠ main → r ≠ s.current → s.state r ≠ .running

structure Back (s : Threads) : Prop where
  current : s.current = main
  others : ∀ r, r ≠ main → r ≠ s.ultimoIndice → s.state r ≠ .runnable

structure Created (s : Threads) : Prop where
  current : s.current = main
  ultimo : s.ultimoIndice = main
  running : s.state main = .running
  others : ∀ r, r ≠ main → s.state r ≠ .running

def Threads.leave (s : Threads) (v : Status) : Threads := { s with state := update s.state s.current v }.threadSchedule

variable {s t : Threads} {v : Status} {q r : Fin maxThread} {n : ℕ} {c : ℕ → Call} {f : ℕ → Threads} {len k : ℕ}

theorem threadCreate_eq_some (h : s.threadCreate = some t) :
    ∃ q, s.state q = .free ∧ t = { s with state := update s.state q .runnable } := by
  obtain ⟨q, hq, rfl⟩ := Option.map_eq_some_iff.mp h
  exact ⟨q, by simpa using List.find?_some hq, rfl⟩

theorem Created.threadCreate (h : Created s) (ht : s.threadCreate = some t) : Created t := by
  obtain ⟨q, hq, rfl⟩ := threadCreate_eq_some ht
  have hqm : main ≠ q := by
    rintro rfl
    rw [h.running] at hq
    cases hq
  refine ⟨h.current, h.ultimo, (update_of_ne hqm ..).trans h.running, fun r hr => ?_⟩
  dsimp only
  by_cases hrq : r = q
  · simp [hrq]
  · rw [update_of_ne hrq]
    exact h.others r hr

theorem created_threadInit : Created Threads.threadInit :=
  ⟨rfl, rfl, rfl, fun r hr => by simp [Threads.threadInit, update_of_ne hr]⟩

theorem Created.creates (h : Created s) (ht : s.creates n = some t) : Created t := by
  induction n generalizing s with
  | zero =>
    obtain rfl : s = t := Option.some.inj ht
    exact h
  | succ n ih =>
    obtain ⟨u, hu, ht⟩ := Option.bind_eq_some_iff.mp ht
    exact ih (h.threadCreate hu) ht

theorem Created.threadSchedule (h : Created s) : Turn s.threadSchedule ∨ Back s.threadSchedule := by
  have hmain : s.state main ≠ .runnable := by simp [h.running]
  rcases s.threadSchedule_cases (h.ultimo.trans h.current.symm) hmain with ⟨q, hq, -, -, heq⟩ | ⟨hnone, heq⟩
  · rw [heq]
    refine .inl ⟨rfl, hq, ?_, update_self .., fun r hr hrq => ?_⟩
    · exact (update_of_ne hq.symm ..).trans h.running
    · dsimp only at hrq ⊢
      rw [update_of_ne hrq]
      exact h.others r hr
  · rw [heq]
    refine .inr ⟨rfl, fun r hr _ => ?_⟩
    dsimp only
    rw [update_of_ne hr]
    exact hnone r (h.current ▸ hr)

namespace Turn

theorem leave_cases (h : Turn s) (v : Status) :
    (∃ q, q ≠ main ∧ s.state q = .runnable ∧
    Next maxThread (fun r => ∀ hr : r < maxThread, s.state ⟨r, hr⟩ = .runnable) s.current q ∧
      s.leave v = ⟨update (update s.state s.current v) q .running, q, q⟩) ∨ ((∀ r, r ≠ s.current → s.state r ≠ .runnable) ∧
      s.leave v = ⟨update (update s.state s.current v) main .running, main, s.ultimoIndice⟩) := by
  have hstate : ∀ r, r ≠ s.current → update s.state s.current v r = s.state r := fun r hr => update_of_ne hr ..
  have hmain : update s.state s.current v main ≠ .runnable := by
    rw [hstate main h.notMain.symm, h.waiting]
    simp
  rcases Threads.threadSchedule_cases (s := { s with state := update s.state s.current v }) h.ultimo hmain with
    ⟨q, hq, hrun, hnext, heq⟩ | ⟨hnone, heq⟩
  · have hqc : q ≠ s.current := fun he => hnext.ne (congrArg Fin.val he)
    refine .inl ⟨q, hq, (hstate q hqc).symm.trans hrun, ⟨hnext.ne, fun r hr hrc hready => ?_⟩, heq⟩
    refine hnext.first r hr hrc fun hr' => ?_
    exact (hstate ⟨r, hr'⟩ fun he => hrc (congrArg Fin.val he)).trans (hready hr')
  · refine .inr ⟨fun r hr => ?_, heq⟩
    rw [← hstate r hr]
    exact hnone r hr

theorem leave_of_next (h : Turn s) (hv : v ≠ .running) (hq : q ≠ main)
    (heq : t = ⟨update (update s.state s.current v) q .running, q, q⟩) : Turn t := by
  subst heq
  refine ⟨rfl, hq, ?_, update_self .., fun r hr hrq => ?_⟩
  · dsimp only
    rw [update_of_ne hq.symm, update_of_ne h.notMain.symm]
    exact h.waiting
  · dsimp only at hrq ⊢
    rw [update_of_ne hrq]
    by_cases hrc : r = s.current
    · rw [hrc, update_self]
      exact hv
    · rw [update_of_ne hrc]
      exact h.others r hr hrc

theorem leave (h : Turn s) (hv : v ≠ .running) : Turn (s.leave v) ∨ Back (s.leave v) := by
  rcases h.leave_cases v with ⟨q, hq, -, -, heq⟩ | ⟨hnone, heq⟩
  · exact .inl (h.leave_of_next hv hq heq)
  · rw [heq]
    refine .inr ⟨rfl, fun r hr hru => ?_⟩
    dsimp only at hru ⊢
    rw [update_of_ne hr, update_of_ne (h.ultimo ▸ hru)]
    exact hnone r (h.ultimo ▸ hru)

theorem threadCreate (h : Turn s) (ht : s.threadCreate = some t) : Turn t ∧ t.current = s.current := by
  obtain ⟨q, hq, rfl⟩ := threadCreate_eq_some ht
  have hqr : ∀ r, s.state r = .running → r ≠ q := by
    rintro r hr rfl
    rw [hr] at hq
    cases hq
  refine ⟨⟨h.ultimo, h.notMain, ?_, ?_, fun r hr hrc => ?_⟩, rfl⟩
  · exact (update_of_ne (hqr main h.waiting) ..).trans h.waiting
  · exact (update_of_ne (hqr _ h.running) ..).trans h.running
  · dsimp only
    by_cases hrq : r = q
    · simp [hrq]
    · rw [update_of_ne hrq]
      exact h.others r hr hrc

end Turn

theorem Back.leave_eq (h : Back s) (v : Status) : s.leave v = ⟨update s.state main .running, main, s.ultimoIndice⟩ := by
  have hstate : ∀ r, r ≠ main → update s.state s.current v r = s.state r := by
    intro r hr
    rw [h.current, update_of_ne hr]
  have hscan : Threads.scan { s with state := update s.state s.current v } = none := by
    cases hq : Threads.scan { s with state := update s.state s.current v } with
    | none => rfl
    | some q =>
      obtain ⟨i, hi, rfl⟩ := Option.map_eq_some_iff.mp hq
      rw [List.find?_range'_eq_some] at hi
      obtain ⟨hready, hmem, -⟩ := hi
      rw [List.mem_range'_1] at hmem
      obtain ⟨hrun, hne⟩ := of_decide_eq_true hready
      have hi := ahead_indiceActual s.ultimoIndice (i := i) (by omega)
      dsimp only at hrun hne
      rw [h.current] at hne
      rw [hstate _ hne] at hrun
      refine absurd hrun (h.others _ hne fun he => ?_)
      rw [he, ahead, if_pos le_rfl] at hi
      omega
  unfold Threads.leave Threads.threadSchedule
  rw [hscan]
  by_cases hv : v = .running
  · simp [Threads.switchTo, h.current, hv]
  · simp [Threads.switchTo, h.current, hv]

theorem Back.leave (h : Back s) (v : Status) : Back (s.leave v) := by
  rw [h.leave_eq v]
  refine ⟨rfl, fun r hr hru => ?_⟩
  dsimp only
  rw [update_of_ne hr]
  exact h.others r hr hru

namespace Run

theorem turn_or_back_one (h : Run n c f len) (hlen : 0 < len) : Turn (f 1) ∨ Back (f 1) := by
  have hstep := h.step 0 hlen
  rw [h.schedule] at hstep
  rw [← Option.some.inj hstep]
  exact (created_threadInit.creates h.created).threadSchedule

theorem turn_or_back (h : Run n c f len) (hcalls : ∀ k, 0 < k → k < len → c k = .yield ∨ c k = .exit) (hk : 0 < k)
    (hlen : k ≤ len) : Turn (f k) ∨ Back (f k) := by
  induction k, hk using Nat.le_induction with
  | base => exact h.turn_or_back_one hlen
  | succ k hk ih =>
    have hstep := h.step k (by omega)
    have hleave : ∃ v, v ≠ Status.running ∧ f (k + 1) = (f k).leave v := by
      rcases hcalls k hk (by omega) with hc | hc
      · rw [hc] at hstep
        exact ⟨.runnable, by simp, (Option.some.inj hstep).symm⟩
      · rw [hc] at hstep
        exact ⟨.free, by simp, (Option.some.inj hstep).symm⟩
    obtain ⟨v, hv, heq⟩ := hleave
    rw [heq]
    rcases ih (by omega) with ht | hb
    · exact ht.leave hv
    · exact .inr (hb.leave v)

section

variable (h : Run n c f len) (hmain : ∀ k, 0 < k → k ≤ len → (f k).current ≠ main) (hk : 0 < k)

include h hmain hk

theorem turn (hlen : k ≤ len) : Turn (f k) := by
  induction k, hk using Nat.le_induction with
  | base =>
    rcases h.turn_or_back_one hlen with ht | hb
    · exact ht
    · exact absurd hb.current (hmain 1 one_pos hlen)
  | succ k hk ih =>
    have hturn := ih (by omega)
    have hstep := h.step k (by omega)
    have hne := hmain (k + 1) (by omega) hlen
    cases hc : c k with
    | schedule => exact absurd hc (h.later k hk (by omega))
    | yield =>
      rw [hc] at hstep
      have heq : (f k).leave .runnable = f (k + 1) := Option.some.inj hstep
      rw [← heq] at hne ⊢
      exact (hturn.leave (by simp)).resolve_right fun hb => hne hb.current
    | exit =>
      rw [hc] at hstep
      have heq : (f k).leave .free = f (k + 1) := Option.some.inj hstep
      rw [← heq] at hne ⊢
      exact (hturn.leave (by simp)).resolve_right fun hb => hne hb.current
    | create =>
      rw [hc] at hstep
      exact (hturn.threadCreate hstep).1

theorem next (hlen : k < len) : ((f (k + 1)).current : ℕ) = (f k).current ∨
      Next maxThread (fun r => ∀ hr : r < maxThread, (f k).state ⟨r, hr⟩ = .runnable) (f k).current (f (k + 1)).current := by
  have hturn := h.turn hmain hk hlen.le
  have hstep := h.step k hlen
  have hne := hmain (k + 1) (by omega) hlen
  have hleave : ∀ v, f (k + 1) = (f k).leave v →
      Next maxThread (fun r => ∀ hr : r < maxThread, (f k).state ⟨r, hr⟩ = .runnable) (f k).current (f (k + 1)).current := by
    intro v heq
    rcases hturn.leave_cases v with ⟨q, -, -, hnext, hq⟩ | ⟨-, hq⟩
    · rw [heq, hq]
      exact hnext
    · rw [heq, hq] at hne
      exact absurd rfl hne
  cases hc : c k with
  | schedule => exact absurd hc (h.later k hk hlen)
  | yield =>
    rw [hc] at hstep
    exact .inr (hleave .runnable (Option.some.inj hstep).symm)
  | exit =>
    rw [hc] at hstep
    exact .inr (hleave .free (Option.some.inj hstep).symm)
  | create =>
    rw [hc] at hstep
    exact .inl (congrArg Fin.val (hturn.threadCreate hstep).2)

end

end Run

theorem Turn.runnable (h : Turn s) (hr : r ≠ main) (hrc : r ≠ s.current) (hfree : s.state r ≠ .free) :
    s.state r = .runnable := by
  have hno := h.others r hr hrc
  cases hs : s.state r with
  | free => exact absurd hs hfree
  | running => exact absurd hs hno
  | runnable => rfl

def Selected (f : ℕ → Threads) (k : ℕ) (t : Fin maxThread) : Prop := 0 < k ∧ (f k).current = t ∧ (f (k - 1)).current ≠ t

theorem selected_iff {t : Fin maxThread} : Selected f k t ↔ Arrives (fun k => (f k).current) k t := by
  simp only [Selected, Arrives, Fin.ext_iff, ne_eq]

theorem round_robin {n : ℕ} {c : ℕ → Call} {f : ℕ → Threads} {len : ℕ} (h : Run n c f len)
    (hmain : ∀ k, 0 < k → k ≤ len → (f k).current ≠ main) : (∀ k, 0 < k → k ≤ len → (f k).ultimoIndice = (f k).current) ∧
    ∀ t i j, i < j → j ≤ len → Selected f i t → Selected f j t → (∀ k, i < k → k < j → ¬ Selected f k t) →
      (∀ k, i ≤ k → k < j → (f k).state t ≠ .free) →
      ∀ u, u ≠ main → u ≠ t → (∀ k, i ≤ k → k < j → (f k).state u ≠ .free) → ∃! k, i < k ∧ k < j ∧ Selected f k u := by
  refine ⟨fun k hk hlen => (h.turn hmain hk hlen).ultimo, ?_⟩
  intro t i j hij hj hti htj hno ht u hu hut hfree
  have hi : 0 < i := hti.1
  have hready : ∀ r, r ≠ main → (∀ k, i ≤ k → k < j → (f k).state r ≠ .free) → ∀ k, i ≤ k → k < j → ((f k).current : ℕ) ≠ r →
      ∀ hr : r.val < maxThread, (f k).state ⟨r, hr⟩ = .runnable := by
    intro r hrm hrf k hik hkj hrk _
    have hrc : r ≠ (f k).current := fun he => hrk (by rw [← he])
    exact (h.turn hmain (by omega) (by omega)).runnable hrm hrc (hrf k hik hkj)
  have htm : t ≠ main := hti.2.1 ▸ hmain i hi (by omega)
  simp only [selected_iff] at hti htj hno ⊢
  exact arrives_once (fun k => (f k).current.isLt) (fun k hik hkj => h.next hmain (by omega) (by omega)) hij hti.2.1 htj hno
    (hready t htm ht) u.isLt (fun he => hut (Fin.ext he)) (hready u hu hfree)

def yields : ℕ → Call
  | 0 => .schedule
  | _ + 1 => .yield

def yielding (n : ℕ) : ℕ → Threads
  | 0 => (Threads.threadInit.creates n).getD Threads.threadInit
  | 1 => (yielding n 0).threadSchedule
  | k + 2 => (yielding n (k + 1)).threadYield

theorem run_yielding (hn : (Threads.threadInit.creates n).isSome) (len : ℕ) : Run n yields (yielding n) len := by
  refine ⟨?_, rfl, fun k hk _ => ?_, fun k _ => ?_⟩
  · obtain ⟨s, hs⟩ := Option.isSome_iff_exists.mp hn
    rw [yielding, hs]
    rfl
  · cases k with
    | zero => omega
    | succ k => simp [yields]
  · cases k with
    | zero => rfl
    | succ k => rfl

theorem round_robin_two : ∃! k, 1 < k ∧ k < 3 ∧ Selected (yielding 2) k 2 := by
  have hmain : ∀ k ≤ 3, 0 < k → (yielding 2 k).current ≠ main := by decide
  have hfree : ∀ k < 3, 1 ≤ k → (yielding 2 k).state 1 ≠ .free ∧ (yielding 2 k).state 2 ≠ .free := by decide
  have hno : ∀ k < 3, 1 < k → ¬ Selected (yielding 2) k 1 := by
    intro k hk hk'
    obtain rfl : k = 2 := by omega
    exact fun h => absurd h.2.1 (by decide)
  refine (round_robin (run_yielding (by decide) 3) fun k hk hk' => hmain k hk' hk).2 1 1 3 (by decide) le_rfl
    ⟨by decide, by decide, by decide⟩ ⟨by decide, by decide, by decide⟩ (fun k hk hk' => hno k hk' hk)
    (fun k hk hk' => (hfree k hk' hk).1) 2 (by decide) (by decide) fun k hk hk' => (hfree k hk' hk).2

structure SwitchOk (s : Threads) (c : Call) (t : Threads) : Prop where
  toMain : s.current ≠ main → t.current = main → ∀ r, r ≠ main → t.state r ≠ .runnable
  alone : c = .yield → (∀ r, r ≠ s.current → s.state r ≠ .runnable) → t.current = s.current

def LoneYield (s : Threads) (c : Call) : Prop :=
  c = .yield ∧ s.current ≠ main ∧ ∀ r, r ≠ s.current → s.state r ≠ .runnable

theorem Turn.switchOk_yield_iff (h : Turn s) : SwitchOk s .yield s.threadYield ↔ ¬ LoneYield s .yield := by
  have hyield : s.threadYield = s.leave .runnable := rfl
  rw [hyield]
  constructor
  · rintro hok ⟨-, hmain, hnone⟩
    have hstay := hok.alone rfl hnone
    rcases h.leave_cases .runnable with ⟨q, -, hrun, hnext, heq⟩ | ⟨-, heq⟩
    · exact hnone q (fun he => hnext.ne (congrArg Fin.val he)) hrun
    · rw [heq] at hstay
      exact hmain hstay.symm
  · intro hlone
    rcases h.leave_cases .runnable with ⟨q, hq, hrun, hnext, heq⟩ | ⟨hnone, heq⟩
    · rw [heq]
      exact ⟨fun _ hback => absurd hback hq, fun _ hnone => absurd hrun (hnone q fun he => hnext.ne (congrArg Fin.val he))⟩
    · exact absurd ⟨rfl, h.notMain, hnone⟩ hlone

theorem Turn.switchOk_exit (h : Turn s) : SwitchOk s .exit s.threadExit := by
  have hexit : s.threadExit = s.leave .free := rfl
  rw [hexit]
  refine ⟨fun _ hback r hr => ?_, by simp⟩
  rcases h.leave_cases .free with ⟨q, hq, -, -, heq⟩ | ⟨hnone, heq⟩
  · rw [heq] at hback
    exact absurd hback hq
  · rw [heq]
    dsimp only
    rw [update_of_ne hr]
    by_cases hrc : r = s.current
    · simp [hrc]
    · rw [update_of_ne hrc]
      exact hnone r hrc

theorem Back.switchOk (h : Back s) (c : Call) (v : Status) : SwitchOk s c (s.leave v) := by
  refine ⟨fun hmain => absurd h.current hmain, fun _ _ => ?_⟩
  rw [h.leave_eq v, h.current]

theorem resumes_main_iff {n : ℕ} {c : ℕ → Call} {f : ℕ → Threads} {len : ℕ} (h : Run n c f len)
    (hcalls : ∀ k, 0 < k → k < len → c k = .yield ∨ c k = .exit) :
    (∀ k, 0 < k → k < len → SwitchOk (f k) (c k) (f (k + 1))) ↔ ∀ k, 0 < k → k < len → ¬ LoneYield (f k) (c k) := by
  have hiff : ∀ k, 0 < k → k < len → (SwitchOk (f k) (c k) (f (k + 1)) ↔ ¬ LoneYield (f k) (c k)) := by
    intro k hk hlen
    have hstep := h.step k hlen
    rcases hcalls k hk hlen with hc | hc
    · rw [hc] at hstep ⊢
      have heq : f (k + 1) = (f k).threadYield := (Option.some.inj hstep).symm
      rw [heq]
      rcases h.turn_or_back hcalls hk hlen.le with ht | hb
      · exact ht.switchOk_yield_iff
      · exact ⟨fun _ hlone => hlone.2.1 hb.current, fun _ => hb.switchOk .yield .runnable⟩
    · rw [hc] at hstep ⊢
      have heq : f (k + 1) = (f k).threadExit := (Option.some.inj hstep).symm
      rw [heq]
      have hlone : ¬ LoneYield (f k) .exit := fun hl => by cases hl.1
      refine ⟨fun _ => hlone, fun _ => ?_⟩
      rcases h.turn_or_back hcalls hk hlen.le with ht | hb
      · exact ht.switchOk_exit
      · exact hb.switchOk .exit .free
  exact ⟨fun hok k hk hlen => (hiff k hk hlen).mp (hok k hk hlen), fun hno k hk hlen => (hiff k hk hlen).mpr (hno k hk hlen)⟩

theorem resumes_main_iff_two : (∀ k, 0 < k → k < 3 → SwitchOk (yielding 2 k) (yields k) (yielding 2 (k + 1))) ↔
    ∀ k, 0 < k → k < 3 → ¬ LoneYield (yielding 2 k) (yields k) := by
  have hcalls : ∀ k < 3, 0 < k → yields k = .yield ∨ yields k = .exit := by decide
  exact resumes_main_iff (run_yielding (by decide) 3) fun k hk hlen => hcalls k hlen hk

theorem lone_yield_resumes_main : Run 1 yields (yielding 1) 2 ∧ (yielding 1 1).current = 1 ∧
    (yielding 1 2).current = main ∧ (yielding 1 2).state 1 = .runnable ∧ ¬ SwitchOk (yielding 1 1) .yield (yielding 1 2) := by
  refine ⟨run_yielding (by decide) 2, by decide, by decide, by decide, fun hok => ?_⟩
  exact hok.toMain (by decide) (by decide) 1 (by decide) (by decide)

end Laboratorio.Uthread
