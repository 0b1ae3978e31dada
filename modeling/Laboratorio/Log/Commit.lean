import Laboratorio.Log.Operations

/-!
The invariant through the disk writes of `commit` and `recover_from_log`, and through a crash.
-/

namespace Laboratorio.Log

open Function

variable {d : ℕ → Block} {s s' : Sys} {x : Spec} {tail b : ℕ}

theorem Sys.area_slot (hl : s.lh[tail]? = some b) (hf : s.lh.length ≤ s.size - 1) : ¬ s.home (s.start + tail + 1) := by
  obtain ⟨hlt, _⟩ := List.getElem?_eq_some_iff.mp hl
  simp only [Sys.home]
  omega

theorem Sys.area_header (hs : 0 < s.size) : ¬ s.home s.start := by
  simp only [Sys.home]
  omega

theorem Sys.bread_clear (s : Sys) (b : ℕ) : ({ s with lh := [] } : Sys).bread b = { s.bread b with lh := [] } := by
  unfold Sys.bread
  cases s.cache b <;> rfl

theorem Durable.of_clear {start size : ℕ} {disk D : ℕ → Block} (hh : getHeader (disk start) = [])
    (hp : ∀ b, b < start ∨ start + size ≤ b → disk b = D b) : Durable start size disk D := by
  constructor
  · simp [hh]
  · simp [hh]
  · simp [hh]
  · intro b hb _
    exact hp b hb

theorem Durable.disk_eq {start size : ℕ} {disk D : ℕ → Block} (h : Durable start size disk D)
    (hh : getHeader (disk start) = []) (hb : b < start ∨ start + size ≤ b) : disk b = D b :=
  h.placed b hb (by simp [hh])

variable {v : Block}

theorem Running.bwriteArea {C : ℕ → Block} (h : Running C ⟨s, x⟩) (hc : Coherent s) {a : ℕ}
    (ha : ¬ s.home a) (hh : getHeader ((s.bwrite a v).disk s.start) = []) : Running C ⟨s.bwrite a v, x⟩ := by
  have hother : ∀ c buf, s.cache c = some buf → (buf.dirty = true ∨ buf.holder ≠ none) → c ≠ a := by
    rintro c buf hb hor rfl
    obtain ⟨hd, hho⟩ := hc.area c buf ha hb
    simp [hd, hho] at hor
  refine ⟨hh, h.blocks, h.homes, h.nodup, h.fits, fun c hhome hfree => ?_, fun c buf p hb hp => ?_,
    fun p c w hp => ?_, fun c => ?_, h.count⟩
  · have hca : c ≠ a := by
      rintro rfl
      exact ha hhome
    rw [Sys.bwrite_view, if_neg hca]
    exact h.view c hhome (fun buf hb => hfree buf (by simpa [Sys.bwrite, hca] using hb))
  · rcases Sys.bwrite_cache hb with ⟨_, rfl⟩ | ⟨_, hb⟩
    · simp at hp
    · exact h.held c buf p hb hp
  · obtain ⟨hhome, hpend, e, he⟩ := h.logging p c w hp
    have hca := hother c _ he (Or.inr (by simp))
    exact ⟨hhome, hpend, e, by simpa [Sys.bwrite, hca] using he⟩
  · change c ∈ s.lh ↔ _
    rw [show (c ∈ s.lh ↔ _) from h.dirty c]
    constructor
    · rintro ⟨buf, hb, hd⟩
      have hca := hother c buf hb (Or.inl hd)
      exact ⟨buf, by simpa [Sys.bwrite, hca] using hb, hd⟩
    · rintro ⟨buf, hb, hd⟩
      rcases Sys.bwrite_cache hb with ⟨_, rfl⟩ | ⟨_, hb⟩
      · simp at hd
      · exact ⟨buf, hb, hd⟩

theorem Running.free {C : ℕ → Block} (h : Running C ⟨s, x⟩) (hq : ∀ p, s.pc p = .out) {buf : Buf}
    (hb : s.cache b = some buf) : buf.holder = none := by
  cases hh : buf.holder with
  | none => rfl
  | some p =>
    have hl : s.pc p = .logging b buf.data := h.held b buf p hb hh
    simp [hq p] at hl

/-- Every block in the header has a buffer that cannot be recycled, so the buffer in which `write_log`
has read its first log block leaves room for at most `NBUF - 1` of them. -/
theorem Running.fits_log {C : ℕ → Block} (h : Running C ⟨s, x⟩) (hc : Coherent s) (hl : s.lh[0]? = some b)
    (hslot : s.start + 1 ∈ s.bufs) (hcard : s.bufs.card ≤ nbuf) : s.lh.length ≤ s.size - 1 := by
  rcases h.fits with hfits | hsize
  · exact hfits
  have hsize : nbuf ≤ s.size := hsize
  have hsub : s.lh.toFinset ⊆ s.bufs := by
    intro c hmem
    obtain ⟨buf, hbuf, _⟩ := (h.dirty c).mp (List.mem_toFinset.mp hmem)
    exact hc.buffered c buf hbuf
  have hlen : s.lh.toFinset.card = s.lh.length := List.toFinset_card_of_nodup h.nodup
  have hpos : 0 < s.lh.length := (List.getElem?_eq_some_iff.mp hl).1
  have hnot : s.start + 1 ∉ s.lh.toFinset := by
    intro hmem
    have hhome : s.start + 1 < s.start ∨ s.start + s.size ≤ s.start + 1 := h.homes _ (List.mem_toFinset.mp hmem)
    have : nbuf = 30 := rfl
    omega
  have := Finset.card_le_card (Finset.insert_subset hslot hsub)
  rw [Finset.card_insert_of_notMem hnot, hlen] at this
  omega

theorem Inv.writeLog (h : Inv d ⟨s, x⟩) (hctl : s.ctl = .writing tail) (hl : s.lh[tail]? = some b)
    (hslot : s.start + tail + 1 ∈ s.bufs) (hcard : s.bufs.card ≤ nbuf) :
    Inv d ⟨{ s.bwrite (s.start + tail + 1) (s.view b) with ctl := .writing (tail + 1) }, x⟩ := by
  have hp := h.phase
  simp only [Phase, hctl] at hp
  obtain ⟨hr, hq, hfirst, hlog⟩ := hp
  have hfits : s.lh.length ≤ s.size - 1 := by
    rcases hfirst with rfl | hfits
    · exact hr.fits_log h.coherent hl hslot hcard
    · exact hfits
  have ha := Sys.area_slot hl hfits
  have hdisk : ∀ c, c ≠ s.start + tail + 1 → (s.bwrite (s.start + tail + 1) (s.view b)).disk c = s.disk c := by
    intro c hc
    simp [Sys.bwrite, hc]
  have hhead : getHeader ((s.bwrite (s.start + tail + 1) (s.view b)).disk s.start) = [] := by
    rw [hdisk s.start (by omega)]
    exact hr.header
  have hr' := hr.bwriteArea h.coherent ha hhead
  have hco := h.coherent.bwrite hslot (s.view b)
  have hb : s.view b = currentDisk d x b :=
    hr.view b (hr.homes b (List.mem_of_getElem? hl)) (fun buf hbuf => hr.free hq hbuf)
  have hdur : Durable s.start s.size (s.bwrite (s.start + tail + 1) (s.view b)).disk (committedDisk d x) := by
    refine Durable.of_clear hhead (fun c hc => ?_)
    have hca : c ≠ s.start + tail + 1 := by
      rintro rfl
      exact ha hc
    rw [hdisk c hca]
    exact h.durable.disk_eq hr.header hc
  refine ⟨h.size, hdur, hco.frame _ _ _, hr'.frame _ _ _, hq, Or.inr hfits, fun i c hi hic => ?_⟩
  change (s.bwrite _ _).disk (s.start + i + 1) = _
  by_cases hit : i = tail
  · subst hit
    obtain rfl : b = c := Option.some.inj (hl.symm.trans hic)
    simpa [Sys.bwrite] using hb
  · rw [hdisk _ (by omega)]
    exact hlog i c (by omega) hic

theorem committedDisk_writeHead : committedDisk d (x.step .writeHead) = currentDisk d x := by
  simp only [committedDisk, currentDisk, Spec.step, List.flatten_append, List.flatten_cons, List.flatten_nil,
    List.append_nil, contents_append]

section

variable (h : Inv d ⟨s, x⟩)

include h

theorem Inv.writeHead (hctl : s.ctl = .writing s.lh.length) (hslot : s.start ∈ s.bufs) :
    Inv d ⟨{ s.bwrite s.start (putHeader s.lh v) with ctl := .installing false 0 }, x.step .writeHead⟩ := by
  have hp := h.phase
  simp only [Phase, hctl] at hp
  obtain ⟨hr, hq, hfirst, hlog⟩ := hp
  have hfits : s.lh.length ≤ s.size - 1 := by
    rcases hfirst with hnil | hfits
    · rw [hnil]
      exact Nat.zero_le _
    · exact hfits
  have ha : ¬ s.home s.start := Sys.area_header h.size
  have hhead : getHeader ((s.bwrite s.start (putHeader s.lh v)).disk s.start) = s.lh := by
    simp [Sys.bwrite, getHeader_putHeader]
  have hdisk : ∀ c, c ≠ s.start → (s.bwrite s.start (putHeader s.lh v)).disk c = s.disk c := by
    intro c hc
    simp [Sys.bwrite, hc]
  have hplaced : ∀ c, s.home c → c ∉ s.lh → s.disk c = currentDisk d x c := by
    intro c hc hnot
    rw [show s.disk c = _ from h.durable.disk_eq hr.header hc]
    refine (contents_other _ _ (fun w hw hwc => hnot ?_)).symm
    exact (hr.blocks c).mpr ⟨w, hw, hwc⟩
  have hco := h.coherent.bwrite hslot (putHeader s.lh v)
  have hdur : Durable s.start s.size (s.bwrite s.start (putHeader s.lh v)).disk (currentDisk d x) := by
    refine ⟨?_, ?_, fun i c hic => ?_, fun c hc hnot => ?_⟩
    · simpa only [hhead] using hfits
    · rw [hhead]
      exact hr.homes
    · rw [hhead] at hic
      obtain ⟨hlt, _⟩ := List.getElem?_eq_some_iff.mp hic
      rw [hdisk _ (by omega)]
      exact hlog i c hlt hic
    · rw [hhead] at hnot
      have hcs : c ≠ s.start := by
        rintro rfl
        exact ha hc
      rw [hdisk c hcs]
      exact hplaced c hc hnot
  refine ⟨h.size, ?_, hco.frame _ _ _, ?_⟩
  · rw [committedDisk_writeHead]
    exact hdur
  refine ⟨hhead, rfl, hq, fun c buf hb => ?_, ?_, fun c hc hor => ?_, fun c buf hb hdb => ?_⟩
  · rcases Sys.bwrite_cache hb with ⟨_, rfl⟩ | ⟨_, hb⟩
    · rfl
    · exact hr.free hq hb
  · obtain ⟨A, hA, hm⟩ := hr.count
    have hempty : A = ∅ := by
      apply Finset.eq_empty_of_forall_notMem
      intro q hqA
      exact (hm q).mp hqA (hq q)
    simpa [hempty, Sys.bwrite] using hA.symm
  · have hcs : c ≠ s.start := by
      rintro rfl
      exact ha hc
    have hnot : c ∉ s.lh := by
      rcases hor with hnot | ⟨i, hi, _⟩
      · exact hnot
      · omega
    rw [committedDisk_writeHead]
    constructor
    · rw [hdisk c hcs]
      exact hplaced c hc hnot
    · change (s.bwrite s.start (putHeader s.lh v)).view c = _
      rw [Sys.bwrite_view, if_neg hcs]
      exact hr.view c hc (fun buf hb => hr.free hq hb)
  · rcases Sys.bwrite_cache hb with ⟨_, rfl⟩ | ⟨_, hb⟩
    · simp at hdb
    · have hmem : c ∈ s.lh := (hr.dirty c).mpr ⟨buf, hb, hdb⟩
      obtain ⟨i, hi⟩ := List.mem_iff_getElem?.mp hmem
      exact ⟨i, Nat.zero_le _, hi⟩

theorem Inv.install {r : Bool} (hctl : s.ctl = .installing r tail) (hl : s.lh[tail]? = some b) (hslot : b ∈ s.bufs) :
    Inv d ⟨{ s.bwrite b (s.view (s.start + tail + 1)) with ctl := .installing r (tail + 1) }, x⟩ := by
  have hp := h.phase
  simp only [Phase, hctl] at hp
  have hhead : getHeader (s.disk s.start) = s.lh := hp.header
  have hfits : s.lh.length ≤ s.size - 1 := by simpa only [hhead] using h.durable.fits
  have hbhome : s.home b := h.durable.homes b (by simpa only [hhead] using List.mem_of_getElem? hl)
  have hdata : s.view (s.start + tail + 1) = committedDisk d x b := by
    rw [h.coherent.view_area (Sys.area_slot hl hfits)]
    exact h.durable.logged tail b (by simpa only [hhead] using hl)
  have hbs : s.start ≠ b := by
    rintro rfl
    exact Sys.area_header h.size hbhome
  have hdisk : ∀ c, c ≠ b → (s.bwrite b (s.view (s.start + tail + 1))).disk c = s.disk c := by
    intro c hc
    simp [Sys.bwrite, hc]
  have hhead' : getHeader ((s.bwrite b (s.view (s.start + tail + 1))).disk s.start) = s.lh := by
    rw [hdisk _ hbs, hhead]
  have hco := h.coherent.bwrite hslot (s.view (s.start + tail + 1))
  have hdur : Durable s.start s.size (s.bwrite b (s.view (s.start + tail + 1))).disk (committedDisk d x) := by
    refine ⟨?_, fun c hc => ?_, fun i c hic => ?_, fun c hc hnot => ?_⟩
    · simpa only [hhead'] using hfits
    · rw [hhead'] at hc
      exact h.durable.homes c (by simpa only [hhead] using hc)
    · rw [hhead'] at hic
      have hne : s.start + i + 1 ≠ b := by
        intro heq
        exact Sys.area_slot hic hfits (heq ▸ hbhome)
      rw [hdisk _ hne]
      exact h.durable.logged i c (by simpa only [hhead] using hic)
    · rw [hhead'] at hnot
      have hcb : c ≠ b := by
        rintro rfl
        exact hnot (List.mem_of_getElem? hl)
      rw [hdisk c hcb]
      exact h.durable.placed c hc (by simpa only [hhead] using hnot)
  refine ⟨h.size, hdur, hco.frame _ _ _, ?_⟩
  refine ⟨hhead', hp.current, hp.quiet, fun c buf hb => ?_, hp.outstanding, fun c hc hor => ?_,
      fun c buf hb hdb => ?_⟩
  · rcases Sys.bwrite_cache hb with ⟨_, rfl⟩ | ⟨_, hb⟩
    · rfl
    · exact hp.free c buf hb
  · change (s.bwrite b (s.view (s.start + tail + 1))).disk c = _ ∧ (s.bwrite b (s.view (s.start + tail + 1))).view c = _
    by_cases hcb : c = b
    · subst hcb
      rw [Sys.bwrite_view, if_pos rfl, ← hdata]
      exact ⟨update_self _ _ _, rfl⟩
    rw [hdisk c hcb, Sys.bwrite_view, if_neg hcb]
    apply hp.placed c hc
    rcases hor with hnot | ⟨i, hi, hic⟩
    · exact Or.inl hnot
    · refine Or.inr ⟨i, ?_, hic⟩
      have hit : i ≠ tail := by
        rintro rfl
        exact hcb (Option.some.inj (hic.symm.trans hl))
      omega
  · rcases Sys.bwrite_cache hb with ⟨_, rfl⟩ | ⟨hcb, hb⟩
    · simp at hdb
    · obtain ⟨i, hi, hic⟩ := hp.dirty c buf hb hdb
      refine ⟨i, ?_, hic⟩
      have hit : i ≠ tail := by
        rintro rfl
        exact hcb (Option.some.inj (hic.symm.trans hl))
      omega

theorem Inv.clear {r : Bool} (hctl : s.ctl = .installing r s.lh.length) (hslot : s.start ∈ s.bufs) :
    Inv d ⟨{ ({ s with lh := [] } : Sys).bwrite s.start (putHeader [] v) with
      ctl := if r then .idle else .finishing }, x⟩ := by
  have hp := h.phase
  simp only [Phase, hctl] at hp
  have ha : ¬ s.home s.start := Sys.area_header h.size
  let u : Sys := { s with lh := [] }
  have hhead : getHeader ((u.bwrite s.start (putHeader [] v)).disk s.start) = [] := by
    simp [Sys.bwrite, getHeader_putHeader]
  have hplaced : ∀ c, s.home c → s.disk c = committedDisk d x c ∧ s.view c = committedDisk d x c := by
    intro c hc
    apply hp.placed c hc
    by_cases hmem : c ∈ s.lh
    · obtain ⟨i, hi⟩ := List.mem_iff_getElem?.mp hmem
      exact Or.inr ⟨i, (List.getElem?_eq_some_iff.mp hi).1, hi⟩
    · exact Or.inl hmem
  have hdisk : ∀ c, s.home c → (u.bwrite s.start (putHeader [] v)).disk c = committedDisk d x c := by
    intro c hc
    have hcs : c ≠ s.start := by
      rintro rfl
      exact ha hc
    simpa [Sys.bwrite, hcs] using (hplaced c hc).1
  have hclean : ∀ c buf, (u.bwrite s.start (putHeader [] v)).cache c = some buf →
      buf.dirty = false ∧ buf.holder = none := by
    intro c buf hb
    rcases Sys.bwrite_cache hb with ⟨_, rfl⟩ | ⟨_, hb⟩
    · simp
    · refine ⟨?_, hp.free c buf hb⟩
      by_contra hdb
      obtain ⟨i, hi, hic⟩ := hp.dirty c buf hb (by simpa using hdb)
      have hlt : i < s.lh.length := (List.getElem?_eq_some_iff.mp hic).1
      omega
  have hcur : currentDisk d x = committedDisk d x := by
    simp [currentDisk, show x.current = [] from hp.current]
  have hr : ∀ ctl, Running (currentDisk d x) ⟨{ u.bwrite s.start (putHeader [] v) with ctl := ctl }, x⟩ := by
    intro ctl
    refine ⟨hhead, fun b => ?_, by simp [Sys.bwrite, u], List.nodup_nil, Or.inl (Nat.zero_le _), fun c hc _ => ?_,
      fun c buf p hb hq => ?_, fun p c w hq => ?_, fun c => ?_, ⟨∅, ?_, fun p => ?_⟩⟩
    · simp [Sys.bwrite, u, show x.current = [] from hp.current]
    · have hcs : c ≠ s.start := by
        rintro rfl
        exact ha hc
      rw [hcur]
      change (u.bwrite s.start (putHeader [] v)).view c = _
      rw [Sys.bwrite_view, if_neg hcs]
      exact (hplaced c hc).2
    · simp [(hclean c buf hb).2] at hq
    · have hq' : s.pc p = .logging c w := hq
      simp [show s.pc p = .out from hp.quiet p] at hq'
    · simp only [Sys.bwrite, u, List.not_mem_nil, false_iff, not_exists, not_and]
      intro buf hb hdb
      simp [(hclean c buf hb).1] at hdb
    · simpa [Sys.bwrite, u] using hp.outstanding.symm
    · simpa [Sys.bwrite, u] using hp.quiet p
  have hco : Coherent (u.bwrite s.start (putHeader [] v)) :=
    Coherent.bwrite (s := u) ⟨h.coherent.clean, h.coherent.area, h.coherent.buffered⟩ hslot _
  refine ⟨h.size, Durable.of_clear hhead hdisk, hco.frame _ _ _, ?_⟩
  cases r with
  | true => exact hr .idle
  | false => exact ⟨hr .finishing, hp.quiet⟩

theorem Inv.finish (hctl : s.ctl = .finishing) : Inv d ⟨{ s with ctl := .idle }, x⟩ := by
  have hp := h.phase
  simp only [Phase, hctl] at hp
  exact ⟨h.size, h.durable, h.coherent.frame _ _ _, hp.1.frame _ _ _⟩

theorem Inv.readHead (hctl : s.ctl = .booting) :
    Inv d ⟨{ s with lh := getHeader (s.view s.start), ctl := .installing true 0 }, x⟩ := by
  have hp := h.phase
  simp only [Phase, hctl] at hp
  have hview : ∀ c, s.view c = s.disk c := by
    intro c
    unfold Sys.view
    split
    · next buf hb =>
      obtain ⟨hd, hh⟩ := hp.clean c buf hb
      exact h.coherent.clean c buf hb hd hh
    · rfl
  refine ⟨h.size, h.durable, ⟨h.coherent.clean, h.coherent.area, h.coherent.buffered⟩, ?_⟩
  refine ⟨by simp [hview], hp.current, hp.quiet, fun c buf hb => (hp.clean c buf hb).2, hp.outstanding,
    fun c hc hor => ?_, fun c buf hb hdb => ?_⟩
  · have hnot : c ∉ getHeader (s.disk s.start) := by
      rcases hor with hnot | ⟨i, hi, _⟩
      · simpa [hview] using hnot
      · omega
    have hd := h.durable.placed c hc hnot
    exact ⟨hd, (hview c).trans hd⟩
  · simp [(hp.clean c buf hb).1] at hdb

theorem Inv.crash : Inv d ⟨s.crash, x.step .crash⟩ :=
  ⟨h.size, h.durable, ⟨by simp [Sys.crash], by simp [Sys.crash], by simp [Sys.crash]⟩,
    ⟨rfl, fun _ => rfl, rfl, by simp [Sys.crash]⟩⟩

theorem Inv.act {a : Act} (hn : s.ctl ≠ .panicked) (hc : Careful s a)
    (hs : s.act a = some s') (hcard : s'.bufs.card ≤ nbuf) : Inv d ⟨s', x.step a⟩ := by
  cases a with
  | beginOp p => exact h.beginOp hs
  | logWrite p b v => exact h.logWrite hn hc hs
  | logAppend p => exact h.logAppend hn hc hs
  | endOp p => exact h.endOp hn hs
  | writeLog =>
    simp only [Sys.act] at hs
    split at hs
    · next tail hctl =>
      obtain ⟨b, hb, rfl⟩ := Option.map_eq_some_iff.mp hs
      have h' := (h.bread (s.start + tail + 1)).bread b
      change Inv d ⟨_, x⟩
      have hslot : s.start + tail + 1 ∈ ((s.bread (s.start + tail + 1)).bread b).bufs :=
        Sys.bread_bufs _ b (h.coherent.mem_bufs _)
      simpa [Sys.writeLog] using h'.writeLog (by simpa using hctl) (by simpa using hb) (by simpa using hslot) hcard
    · simp at hs
  | writeHead =>
    simp only [Sys.act] at hs
    split at hs
    · next tail hctl =>
      split_ifs at hs with ht
      subst ht
      cases hs
      simpa [Sys.writeHead] using
        (h.bread s.start).writeHead (by simpa using hctl) (by simpa using h.coherent.mem_bufs s.start)
    · simp at hs
  | install =>
    simp only [Sys.act] at hs
    split at hs
    · next r tail hctl =>
      obtain ⟨b, hb, rfl⟩ := Option.map_eq_some_iff.mp hs
      have h' := (h.bread (s.start + tail + 1)).bread b
      change Inv d ⟨_, x⟩
      simpa [Sys.install] using h'.install (by simpa using hctl) (by simpa using hb)
        ((h.coherent.bread (s.start + tail + 1)).mem_bufs b)
    · simp at hs
  | clear =>
    simp only [Sys.act] at hs
    split at hs
    · next r tail hctl =>
      by_cases ht : tail = s.lh.length
      · subst ht
        rw [if_pos rfl] at hs
        cases hs
        have h' := (h.bread s.start).clear (v := (s.bread s.start).view s.start) (by simpa using hctl)
          (by simpa using h.coherent.mem_bufs s.start)
        simp only [Sys.bread_start] at h'
        simp only [Sys.writeHead, Sys.bread_clear, Sys.bread_start]
        exact h'
      · simp [ht] at hs
    · simp at hs
  | finish =>
    simp only [Sys.act] at hs
    split_ifs at hs with hctl
    cases hs
    exact h.finish hctl
  | readHead =>
    simp only [Sys.act] at hs
    split_ifs at hs with hctl
    cases hs
    change Inv d ⟨_, x⟩
    simpa using (h.bread s.start).readHead (by simpa using hctl)
  | read b =>
    cases hs
    exact (h.bread b).hold _ _
  | brelse b =>
    simp only [Sys.act] at hs
    split_ifs at hs
    cases hs
    exact h.hold _ _
  | evict b =>
    simp only [Sys.act, Sys.evict] at hs
    split at hs
    · next hb =>
      split_ifs at hs
      cases hs
      exact h.evict hb
    · simp at hs
  | crash => simp [Sys.act] at hs

end

theorem Inv.step {t u : Tracked} {a : Act} (h : Inv d t) (hc : Careful t.sys a) (hs : t.step a = some u) : Inv d u := by
  obtain ⟨s', y⟩ := u
  rcases Tracked.step_cases hs with ⟨rfl, hu⟩ | hu | ⟨hn, hs, hcard, rfl⟩
  · cases hu
    exact h.crash
  · cases hu
    exact h.hold _ _
  · exact h.act hn hc hs hcard

end Laboratorio.Log
