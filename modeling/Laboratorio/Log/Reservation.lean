import Laboratorio.Log.Atomicity

/-!
The space `begin_op` sets aside, against the space `log_write` asks for.
-/

namespace Laboratorio.Log

open Function Runs

/-- An operation logs at most `MAXOPBLOCKS` distinct blocks, and one is let in only if that many
more leave room for the size test of `log_write`, which wants a slot free beyond its own. -/
def Modest (t : Tracked) : Act → Prop
  | .beginOp _ => t.sys.lh.length + (t.sys.outstanding + 1) * maxopblocks ≤ t.sys.size - 2
  | .logWrite p b _ => (insert b (t.spec.used p)).card ≤ maxopblocks
  | _ => True

def weight (t : Tracked) (p : ℕ) : ℕ :=
  (maxopblocks - (t.spec.used p).card) +
    match t.sys.pc p with
    | .logging b _ => if b ∈ t.sys.lh then 0 else 1
    | _ => 0

structure Within (t : Tracked) (p : ℕ) : Prop where
  card : (t.spec.used p).card ≤ maxopblocks
  logged : ∀ c ∈ t.spec.used p, c ∈ t.sys.lh ∨ ∃ v, t.sys.pc p = .logging c v
  current : ∀ c v, t.sys.pc p = .logging c v → c ∈ t.spec.used p

structure Reserved (t : Tracked) : Prop where
  size : t.sys.size = nlog
  sound : t.sys.ctl ≠ .panicked
  quiet : t.sys.ctl ≠ .idle → ∀ p, t.sys.pc p = .out
  within : ∀ p, t.sys.pc p ≠ .out → Within t p
  room : ∃ A : Finset ℕ, A.card = t.sys.outstanding ∧ (∀ p, p ∈ A ↔ t.sys.pc p ≠ .out) ∧
    ((∀ tail, t.sys.ctl ≠ .installing true tail) → t.sys.lh.length + ∑ p ∈ A, weight t p ≤ nlog - 2)

variable {t : Tracked} {p : ℕ}

theorem Within.weight_le (h : Within t p) : weight t p ≤ maxopblocks := by
  unfold weight
  split
  · next b v hp =>
    have hpos : 0 < (t.spec.used p).card := Finset.card_pos.mpr ⟨b, h.current b v hp⟩
    have hcard := h.card
    split <;> omega
  · omega

variable {s s' : Sys} {x y : Spec} {u : Tracked}

theorem weight_congr (hpc : u.sys.pc p = t.sys.pc p) (hlh : u.sys.lh = t.sys.lh)
    (hused : u.spec.used p = t.spec.used p) : weight u p = weight t p := by
  simp only [weight, hpc, hlh, hused]

theorem Within.congr (h : Within t p) (hpc : u.sys.pc p = t.sys.pc p)
    (hlh : u.sys.lh = t.sys.lh) (hused : u.spec.used p = t.spec.used p) : Within u p := by
  refine ⟨?_, ?_, ?_⟩
  · simpa only [hused] using h.card
  · simpa only [hused, hlh, hpc] using h.logged
  · simpa only [hused, hpc] using h.current

namespace Reserved

theorem of_quiet (hsize : t.sys.size = nlog) (hsound : t.sys.ctl ≠ .panicked)
    (hq : ∀ p, t.sys.pc p = .out) (ho : t.sys.outstanding = 0)
    (hl : (∀ tail, t.sys.ctl ≠ .installing true tail) → t.sys.lh.length ≤ nlog - 2) : Reserved t := by
  refine ⟨hsize, hsound, fun _ => hq, fun p hp => absurd (hq p) hp, ∅, ?_, fun p => ?_, fun hctl => ?_⟩
  · simp [ho]
  · simp [hq p]
  · simpa using hl hctl

theorem outstanding_zero (h : Reserved t) (hq : ∀ p, t.sys.pc p = .out) : t.sys.outstanding = 0 := by
  obtain ⟨A, hA, hm, _⟩ := h.room
  have hempty : A = ∅ := by
    apply Finset.eq_empty_of_forall_notMem
    intro p hp
    exact (hm p).mp hp (hq p)
  simpa [hempty] using hA.symm

theorem fits (h : Reserved t) (hctl : ∀ tail, t.sys.ctl ≠ .installing true tail) : t.sys.lh.length ≤ nlog - 2 := by
  obtain ⟨A, _, _, hroom⟩ := h.room
  have := hroom hctl
  omega

theorem idle (h : Reserved t) (hp : t.sys.pc p ≠ .out) : t.sys.ctl = .idle := by
  by_contra hctl
  exact hp (h.quiet hctl p)

section

variable (h : Reserved ⟨s, x⟩)

include h

theorem beginOp (hmod : Modest ⟨s, x⟩ (.beginOp p)) (hs : s.beginOp p = some s') : Reserved ⟨s', x.step (.beginOp p)⟩ := by
  unfold Sys.beginOp at hs
  split at hs
  · next hi hpc =>
    split_ifs at hs
    cases hs
    let u : Tracked :=
      ⟨{ s with outstanding := s.outstanding + 1, pc := update s.pc p .inOp }, x.step (.beginOp p)⟩
    have hself : Within u p := by
      refine ⟨?_, ?_, ?_⟩ <;> simp [u, Spec.step]
    have hother : ∀ q, q ≠ p → u.sys.pc q = s.pc q ∧ u.spec.used q = x.used q := by
      intro q hq
      simp [u, Spec.step, hq]
    have hout : ∀ q, q ≠ p → weight u q = weight ⟨s, x⟩ q := by
      intro q hq
      exact weight_congr (hother q hq).1 rfl (hother q hq).2
    refine ⟨h.size, h.sound, fun hn => absurd hi hn, fun q hq => ?_, ?_⟩
    · by_cases hqp : q = p
      · subst hqp
        exact hself
      · have hq' : s.pc q ≠ .out := by simpa [hqp] using hq
        exact (h.within q hq').congr (hother q hqp).1 rfl (hother q hqp).2
    obtain ⟨A, hA, hm, _⟩ := h.room
    have hpA : p ∉ A := by simpa [hm] using hpc
    refine ⟨insert p A, by simp [hpA, hA], fun q => ?_, fun _ => ?_⟩
    · by_cases hqp : q = p
      · subst hqp; simp
      · simpa [hqp] using hm q
    have hsum : ∑ q ∈ A, weight u q ≤ A.card * maxopblocks := by
      apply Finset.sum_le_card_nsmul
      intro q hq
      have hqp : q ≠ p := by
        rintro rfl
        exact hpA hq
      rw [hout q hqp]
      exact (h.within q ((hm q).mp hq)).weight_le
    have hadmit : s.lh.length + (s.outstanding + 1) * maxopblocks ≤ s.size - 2 := hmod
    have hsz : s.size = nlog := h.size
    have hA' : A.card = s.outstanding := hA
    rw [Finset.sum_insert hpA]
    change s.lh.length + (weight u p + ∑ q ∈ A, weight u q) ≤ nlog - 2
    have hp := hself.weight_le
    rw [hA'] at hsum
    rw [Nat.add_mul, Nat.one_mul] at hadmit
    omega
  · simp at hs

theorem logWrite {b : ℕ} {v : Block} (hmod : Modest ⟨s, x⟩ (.logWrite p b v))
    (hs : s.logWrite p b v = some s') : Reserved ⟨s', x.step (.logWrite p b v)⟩ := by
  simp only [Sys.logWrite] at hs
  split at hs
  · next hpc hh =>
    have hi : s.ctl = .idle := h.idle (p := p) (by simp [hpc])
    have hfits : s.lh.length ≤ nlog - 2 := h.fits (by simp [hi])
    have hsz : s.size = nlog := h.size
    obtain ⟨A, hA, hm, hroom⟩ := h.room
    have hpA : p ∈ A := by simp [hm, hpc]
    have hpos : 0 < s.outstanding := by
      rw [← show A.card = s.outstanding from hA]
      exact Finset.card_pos.mpr ⟨p, hpA⟩
    have hnlog : nlog = 30 := rfl
    have hlog : logsize = 30 := rfl
    rw [if_neg (by omega), if_neg (by omega)] at hs
    cases hs
    have hself := h.within p (by simp [hpc])
    let u : Tracked := ⟨{ s with
      cache := update s.cache b (some ⟨v, ((s.cache b).getD ⟨s.disk b, false, none⟩).dirty, some p⟩)
      bufs := insert b s.bufs
      pc := update s.pc p (.logging b v) }, x.step (.logWrite p b v)⟩
    have hother : ∀ q, q ≠ p → u.sys.pc q = s.pc q ∧ u.spec.used q = x.used q := by
      intro q hq
      simp [u, Spec.step, hq]
    have hused : u.spec.used p = insert b (x.used p) := by simp [u, Spec.step]
    have hin : ∀ c ∈ x.used p, c ∈ s.lh := by
      intro c hc
      rcases hself.logged c hc with hl | ⟨w, hw⟩
      · exact hl
      · simp [hpc] at hw
    refine ⟨h.size, h.sound, fun hn => absurd hi hn, fun q hq => ?_, A, hA, fun q => ?_, fun hctl => ?_⟩
    · by_cases hqp : q = p
      · subst hqp
        refine ⟨?_, fun c hc => ?_, fun c w hc => ?_⟩
        · rw [hused]
          exact hmod
        · rw [hused] at hc
          rcases Finset.mem_insert.mp hc with rfl | hc
          · exact Or.inr ⟨v, by simp⟩
          · exact Or.inl (hin c hc)
        · obtain ⟨rfl, rfl⟩ : b = c ∧ v = w := by simpa using hc
          change b ∈ u.spec.used q
          simp [hused]
      · have hq' : s.pc q ≠ .out := by simpa [hqp] using hq
        exact (h.within q hq').congr (hother q hqp).1 rfl (hother q hqp).2
    · by_cases hqp : q = p
      · subst hqp
        simp [hpA]
      · simpa [hqp] using hm q
    · have hle : ∀ q ∈ A, weight u q ≤ weight ⟨s, x⟩ q := by
        intro q _
        by_cases hqp : q = p
        · subst hqp
          have hcard : (insert b (x.used q)).card ≤ maxopblocks := hmod
          have hw : weight ⟨s, x⟩ q = maxopblocks - (x.used q).card := by simp [weight, hpc]
          have hw' : weight u q = maxopblocks - (insert b (x.used q)).card + if b ∈ s.lh then 0 else 1 := by
            simp [weight, u, Spec.step]
          rw [hw, hw']
          by_cases hb : b ∈ x.used q
          · rw [Finset.insert_eq_of_mem hb, if_pos (hin b hb), Nat.add_zero]
          · rw [Finset.card_insert_of_notMem hb] at hcard ⊢
            split <;> omega
        · exact le_of_eq (weight_congr (hother q hqp).1 rfl (hother q hqp).2)
      have := Finset.sum_le_sum hle
      have := hroom hctl
      change s.lh.length + ∑ q ∈ A, weight u q ≤ nlog - 2
      simp only at this
      omega
  · simp at hs

theorem logAppend (hs : s.logAppend p = some s') : Reserved ⟨s', x.step (.logAppend p)⟩ := by
  unfold Sys.logAppend at hs
  split at hs
  · next b v hpc =>
    cases hs
    have hi : s.ctl = .idle := h.idle (p := p) (by simp [hpc])
    obtain ⟨A, hA, hm, hroom⟩ := h.room
    have hpA : p ∈ A := by simp [hm, hpc]
    have husd : (x.step (.logAppend p)).used = x.used := by
      simp only [Spec.step]
      split <;> rfl
    let u : Tracked := ⟨{ s with
      lh := if b ∈ s.lh then s.lh else s.lh ++ [b]
      cache := update s.cache b (some ⟨v, true, none⟩)
      pc := update s.pc p .inOp }, x.step (.logAppend p)⟩
    have hsub : ∀ c ∈ s.lh, c ∈ u.sys.lh := by
      intro c hc
      by_cases hb : b ∈ s.lh <;> simp [u, hb, hc]
    have hb : b ∈ u.sys.lh := by
      by_cases hb : b ∈ s.lh <;> simp [u, hb]
    refine ⟨h.size, h.sound, fun hn => absurd hi hn, fun q hq => ?_, A, hA, fun q => ?_, fun hctl => ?_⟩
    · have hq' : s.pc q ≠ .out := by
        by_cases hqp : q = p
        · subst hqp; simp [hpc]
        · simpa [hqp] using hq
      have hw := h.within q hq'
      refine ⟨by simpa only [husd] using hw.card, fun c hc => ?_, fun c w hc => ?_⟩
      · rcases hw.logged c (by simpa only [husd] using hc) with hl | ⟨w, hl⟩
        · exact Or.inl (hsub c hl)
        · by_cases hqp : q = p
          · subst hqp
            obtain ⟨rfl, rfl⟩ : b = c ∧ v = w := by simpa [hpc] using hl
            exact Or.inl hb
          · exact Or.inr ⟨w, by simpa [hqp] using hl⟩
      · have hqp : q ≠ p := by
          rintro rfl
          simp at hc
        have := hw.current c w (by simpa [hqp] using hc)
        simpa only [husd] using this
    · by_cases hqp : q = p
      · subst hqp
        simp [hpA]
      · simpa [hqp] using hm q
    · have hle : ∀ q ∈ A, weight u q ≤ weight ⟨s, x⟩ q := by
        intro q _
        by_cases hqp : q = p
        · subst hqp
          simp [weight, u, husd]
        simp only [weight, u, husd, update_of_ne hqp]
        split
        · next c w _ =>
          by_cases hc : c ∈ s.lh
          · rw [if_pos (hsub c hc), if_pos hc]
          · rw [if_neg hc]
            exact Nat.add_le_add_left (ite_le_sup 0 1 _) _
        · exact le_rfl
      have hold : s.lh.length + ∑ q ∈ A, weight ⟨s, x⟩ q ≤ nlog - 2 := hroom hctl
      change u.sys.lh.length + ∑ q ∈ A, weight u q ≤ nlog - 2
      by_cases hmem : b ∈ s.lh
      · have hlen : u.sys.lh = s.lh := by simp [u, hmem]
        have := Finset.sum_le_sum hle
        rw [hlen]
        omega
      · have hlen : u.sys.lh.length = s.lh.length + 1 := by simp [u, hmem]
        have hlt : weight u p < weight ⟨s, x⟩ p := by simp [weight, u, husd, hpc, hmem]
        have := Finset.sum_lt_sum hle ⟨p, hpA, hlt⟩
        omega
  · simp at hs

theorem endOp (hs : s.endOp p = some s') : Reserved ⟨s', x.step (.endOp p)⟩ := by
  unfold Sys.endOp at hs
  split at hs
  · next hpc =>
    have hi : s.ctl = .idle := h.idle (p := p) (by simp [hpc])
    let u : Sys := { s with outstanding := s.outstanding - 1, pc := update s.pc p .out }
    have hu : Reserved ⟨u, x⟩ := by
      obtain ⟨A, hA, hm, hroom⟩ := h.room
      have hpA : p ∈ A := by simp [hm, hpc]
      refine ⟨h.size, h.sound, fun hn => absurd hi hn, fun q hq => ?_, A.erase p, ?_, fun q => ?_, fun hctl => ?_⟩
      · have hqp : q ≠ p := by
          rintro rfl
          simp [u] at hq
        exact (h.within q (by simpa [u, hqp] using hq)).congr (by simp [u, hqp]) rfl rfl
      · simp [Finset.card_erase_of_mem hpA, hA, u]
      · by_cases hqp : q = p
        · subst hqp; simp [u]
        · simpa [u, hqp] using hm q
      have heq : ∑ q ∈ A.erase p, weight ⟨u, x⟩ q = ∑ q ∈ A.erase p, weight ⟨s, x⟩ q := by
        apply Finset.sum_congr rfl
        intro q hq
        exact weight_congr (by simp [u, Finset.ne_of_mem_erase hq]) rfl rfl
      have hsub : ∑ q ∈ A.erase p, weight ⟨s, x⟩ q ≤ ∑ q ∈ A, weight ⟨s, x⟩ q :=
        Finset.sum_le_sum_of_subset (Finset.erase_subset p A)
      have hold : s.lh.length + ∑ q ∈ A, weight ⟨s, x⟩ q ≤ nlog - 2 := hroom hctl
      change s.lh.length + ∑ q ∈ A.erase p, weight ⟨u, x⟩ q ≤ nlog - 2
      omega
    have hcom : u.committing = false := by simp [Sys.committing, u, hi]
    rw [if_neg (show ¬ u.committing = true by simp [hcom])] at hs
    have hquiet : u.outstanding = 0 → ∀ q, u.pc q = .out := by
      intro h0 q
      obtain ⟨A, hA, hm, _⟩ := hu.room
      by_contra hq
      have := (hm q).mpr hq
      simp [Finset.card_eq_zero.mp (hA.trans h0)] at this
    have hfits : u.lh.length ≤ nlog - 2 := hu.fits (by simp [u, hi])
    split_ifs at hs with h0 hl
    · cases hs
      exact Reserved.of_quiet h.size (by simp) (hquiet h0) h0 (fun _ => hfits)
    · cases hs
      exact Reserved.of_quiet h.size (by simp) (hquiet h0) h0 (fun _ => hfits)
    · cases hs
      exact hu
  · simp at hs

theorem frame (hsize : s'.size = s.size) (hctl : s'.ctl = s.ctl) (hpc : s'.pc = s.pc)
    (hlh : s'.lh = s.lh) (ho : s'.outstanding = s.outstanding) : Reserved ⟨s', x⟩ := by
  have hweight : ∀ p, weight ⟨s', x⟩ p = weight ⟨s, x⟩ p := fun p => weight_congr (congrFun hpc p) hlh rfl
  refine ⟨hsize.trans h.size, ?_, ?_, fun p hp => ?_, ?_⟩
  · simpa only [hctl] using h.sound
  · simpa only [hctl, hpc] using h.quiet
  · exact (h.within p (by simpa only [hpc] using hp)).congr (congrFun hpc p) hlh rfl
  · simpa only [hctl, hpc, ho, hlh, hweight] using h.room

theorem act {a : Act} (hmod : Modest ⟨s, x⟩ a) (hs : s.act a = some s') : Reserved ⟨s', x.step a⟩ := by
  have hsize : s'.size = nlog := (Sys.act_area hs).2.1.trans h.size
  have hbusy : s.ctl ≠ .idle → (∀ p, s.pc p = .out) ∧ s.outstanding = 0 := by
    intro hctl
    exact ⟨h.quiet hctl, h.outstanding_zero (h.quiet hctl)⟩
  cases a with
  | beginOp p => exact h.beginOp hmod hs
  | logWrite p b v => exact h.logWrite hmod hs
  | logAppend p => exact h.logAppend hs
  | endOp p => exact h.endOp hs
  | writeLog =>
    simp only [Sys.act] at hs
    split at hs
    · next tail hctl =>
      obtain ⟨b, _, rfl⟩ := Option.map_eq_some_iff.mp hs
      obtain ⟨hq, ho⟩ := hbusy (by simp [hctl])
      have hfits := h.fits (by simp [hctl])
      refine Reserved.of_quiet hsize (by simp) ?_ ?_ (fun _ => ?_)
      · simpa [Sys.writeLog, Sys.bwrite] using hq
      · simpa [Sys.writeLog, Sys.bwrite] using ho
      · simpa [Sys.writeLog, Sys.bwrite] using hfits
    · simp at hs
  | writeHead =>
    simp only [Sys.act] at hs
    split at hs
    · next tail hctl =>
      split_ifs at hs
      cases hs
      obtain ⟨hq, ho⟩ := hbusy (by simp [hctl])
      have hfits := h.fits (by simp [hctl])
      refine Reserved.of_quiet hsize (by simp) ?_ ?_ (fun _ => ?_)
      · simpa [Sys.writeHead, Sys.bwrite] using hq
      · simpa [Sys.writeHead, Sys.bwrite] using ho
      · simpa [Sys.writeHead, Sys.bwrite] using hfits
    · simp at hs
  | install =>
    simp only [Sys.act] at hs
    split at hs
    · next r tail hctl =>
      obtain ⟨b, _, rfl⟩ := Option.map_eq_some_iff.mp hs
      obtain ⟨hq, ho⟩ := hbusy (by simp [hctl])
      refine Reserved.of_quiet hsize (by simp) ?_ ?_ (fun hnr => ?_)
      · simpa [Sys.install, Sys.bwrite] using hq
      · simpa [Sys.install, Sys.bwrite] using ho
      · have hr : r = false := by
          cases r with
          | true => exact absurd rfl (hnr (tail + 1))
          | false => rfl
        have hfits := h.fits (by simp [hctl, hr])
        simpa [Sys.install, Sys.bwrite] using hfits
    · simp at hs
  | clear =>
    simp only [Sys.act] at hs
    split at hs
    · next r tail hctl =>
      by_cases ht : tail = s.lh.length
      · rw [if_pos ht] at hs
        cases hs
        obtain ⟨hq, ho⟩ := hbusy (by simp [hctl])
        refine Reserved.of_quiet hsize (by cases r <;> simp) ?_ ?_ (fun _ => ?_)
        · simpa [Sys.writeHead, Sys.bwrite] using hq
        · simpa [Sys.writeHead, Sys.bwrite] using ho
        · simp [Sys.writeHead, Sys.bwrite]
      · simp [ht] at hs
    · simp at hs
  | finish =>
    simp only [Sys.act] at hs
    split_ifs at hs with hctl
    cases hs
    obtain ⟨hq, ho⟩ := hbusy (by simp [hctl])
    have hfits := h.fits (by simp [hctl])
    exact Reserved.of_quiet hsize (by simp) hq ho (fun _ => hfits)
  | readHead =>
    simp only [Sys.act] at hs
    split_ifs at hs with hctl
    cases hs
    obtain ⟨hq, ho⟩ := hbusy (by simp [hctl])
    exact Reserved.of_quiet hsize (by simp) (by simpa using hq) (by simpa using ho) (fun hnr => absurd rfl (hnr 0))
  | read b =>
    cases hs
    exact h.frame (by simp) (by simp) (by simp) (by simp) (by simp)
  | brelse b =>
    simp only [Sys.act] at hs
    split_ifs at hs
    cases hs
    exact h.frame rfl rfl rfl rfl rfl
  | evict b =>
    simp only [Sys.act, Sys.evict] at hs
    split at hs
    · split_ifs at hs
      cases hs
      exact h.frame rfl rfl rfl rfl rfl
    · simp at hs
  | crash => simp [Sys.act] at hs

end

theorem step {a : Act} (h : Reserved t) (hmod : Modest t a) (hs : t.step a = some u) : Reserved u := by
  obtain ⟨s', y⟩ := u
  rcases Tracked.step_cases hs with ⟨rfl, hu⟩ | hu | ⟨_, hs, _, rfl⟩
  · cases hu
    exact Reserved.of_quiet h.size (by simp [Sys.crash]) (fun _ => rfl) rfl (by simp [Sys.crash])
  · cases hu
    exact h.frame rfl rfl rfl rfl rfl
  · exact h.act hmod hs

end Reserved

theorem reservation_sufficient {start : ℕ} {d : ℕ → Block} {acts : List Act} {t : Tracked}
    (hc : Along Tracked.step Modest (Tracked.boot start nlog d) acts)
    (hr : run Tracked.step (Tracked.boot start nlog d) acts = some t) : t.sys.ctl ≠ .panicked ∧
      ∀ tail, t.sys.ctl = .writing tail → tail < t.sys.lh.length → t.sys.start + tail + 1 < t.sys.start + nlog := by
  have h0 : Reserved (Tracked.boot start nlog d) :=
    Reserved.of_quiet rfl (by simp [Tracked.boot, Log.boot]) (fun _ => rfl) rfl (by simp [Tracked.boot, Log.boot])
  have h : Reserved t := invariant_along (fun _ _ _ h hm hs => h.step hm hs) h0 hc hr
  refine ⟨h.sound, fun tail hctl hlt => ?_⟩
  have hfits := h.fits (by simp [hctl])
  omega

theorem reservation_sufficient_oneBlock :
    ∃ t, run Tracked.step (Tracked.boot 2 nlog (fun _ _ => 0)) [.readHead, .clear, .beginOp 0, .beginOp 1,
        .logWrite 0 100 (fun _ => 1), .logAppend 0, .endOp 0, .endOp 1] = some t ∧ t.sys.ctl ≠ .panicked ∧
      2 + 0 + 1 < 2 + nlog := by
  refine ⟨_, rfl, ?_⟩
  have hc : Along Tracked.step Modest (Tracked.boot 2 nlog (fun _ _ => 0)) [.readHead, .clear, .beginOp 0, .beginOp 1,
      .logWrite 0 100 (fun _ => 1), .logAppend 0, .endOp 0, .endOp 1] := by
    repeat' first
      | exact trivial
      | refine ⟨trivial, fun t ht => ?_⟩; cases ht
      | refine ⟨show _ ≤ _ by decide, fun t ht => ?_⟩; cases ht
  have h := reservation_sufficient hc rfl
  exact ⟨h.1, h.2 0 rfl (by decide)⟩

def threeFull : List Act :=
  [.readHead, .clear, .evict 2, .beginOp 0, .beginOp 1, .beginOp 2] ++
    (List.range 29).flatMap (fun i => [.logWrite (i % 3) (100 + i) (fun _ => 1), .logAppend (i % 3)]) ++
    [.logWrite 2 129 (fun _ => 1)]

theorem threeFull_panics : (run Tracked.step (Tracked.boot 2 nlog (fun _ _ => 0)) threeFull).map (fun t =>
        (t.sys.ctl, (List.range 3).map (fun p => (t.spec.used p).card))) =
      some (.panicked, [maxopblocks, maxopblocks, maxopblocks]) := by
  decide +kernel

end Laboratorio.Log
