import Laboratorio.Log.Spec

namespace Laboratorio.Log

open Function

namespace Sys

def home (s : Sys) (b : ℕ) : Prop := b < s.start ∨ s.start + s.size ≤ b

variable (s : Sys) (b : ℕ)

@[simp] theorem bread_disk : (s.bread b).disk = s.disk := by
  unfold bread; split <;> rfl

@[simp] theorem bread_lh : (s.bread b).lh = s.lh := by
  unfold bread; split <;> rfl

@[simp] theorem bread_start : (s.bread b).start = s.start := by
  unfold bread; split <;> rfl

@[simp] theorem bread_size : (s.bread b).size = s.size := by
  unfold bread; split <;> rfl

@[simp] theorem bread_pc : (s.bread b).pc = s.pc := by
  unfold bread; split <;> rfl

@[simp] theorem bread_outstanding : (s.bread b).outstanding = s.outstanding := by
  unfold bread; split <;> rfl

@[simp] theorem bread_ctl : (s.bread b).ctl = s.ctl := by
  unfold bread; split <;> rfl

@[simp] theorem bread_noBuffers : (s.bread b).noBuffers = s.noBuffers := by
  unfold bread; split <;> rfl

theorem bread_bufs : s.bufs ⊆ (s.bread b).bufs := by
  unfold bread
  split
  · exact Finset.Subset.refl _
  · exact Finset.subset_insert _ _

theorem bread_cache {c : ℕ} {buf : Buf} (h : (s.bread b).cache c = some buf) :
    s.cache c = some buf ∨ s.cache c = none ∧ buf = ⟨s.disk c, false, none⟩ := by
  unfold bread at h
  split at h
  · exact Or.inl h
  · next hb =>
    by_cases hc : c = b
    · subst hc
      exact Or.inr ⟨hb, by simpa [eq_comm] using h⟩
    · exact Or.inl (by simpa [hc] using h)

theorem bread_cache_some {c : ℕ} {buf : Buf} (h : s.cache c = some buf) : (s.bread b).cache c = some buf := by
  unfold bread
  split
  · exact h
  · next hb =>
    have hc : c ≠ b := by
      rintro rfl
      simp [hb] at h
    simpa [hc] using h

@[simp] theorem bread_view (c : ℕ) : (s.bread b).view c = s.view c := by
  unfold view
  cases hc : s.cache c with
  | some buf => simp [bread_cache_some s b hc]
  | none =>
    cases hc' : (s.bread b).cache c with
    | none => simp
    | some buf =>
      rcases bread_cache s b hc' with h | ⟨_, h⟩
      · simp [hc] at h
      · simp [h]

variable {s} {s' : Sys} {a : Act}

theorem act_area (hs : s.act a = some s') : s'.start = s.start ∧ s'.size = s.size ∧ s'.noBuffers = s.noBuffers := by
  have hw : ∀ s : Sys, s.writeHead.start = s.start ∧ s.writeHead.size = s.size ∧
      s.writeHead.noBuffers = s.noBuffers := by
    simp [writeHead, bwrite]
  have hl : ∀ tail b, (s.writeLog tail b).start = s.start ∧ (s.writeLog tail b).size = s.size ∧
      (s.writeLog tail b).noBuffers = s.noBuffers := by
    simp [writeLog, bwrite]
  have hi : ∀ tail b, (s.install tail b).start = s.start ∧ (s.install tail b).size = s.size ∧
      (s.install tail b).noBuffers = s.noBuffers := by
    simp [install, bwrite]
  cases a <;> simp only [act, beginOp, logWrite, logAppend, endOp, evict, panic] at hs <;>
    grind [bread_start, bread_size, bread_noBuffers]

end Sys

theorem Tracked.step_cases {t u : Tracked} {a : Act} (h : t.step a = some u) :
    a = .crash ∧ u = ⟨t.sys.crash, t.spec.step .crash⟩ ∨ u = ⟨{ t.sys with noBuffers := true }, t.spec⟩ ∨
      t.sys.ctl ≠ .panicked ∧ t.sys.act a = some u.sys ∧ u.sys.bufs.card ≤ nbuf ∧ u.spec = t.spec.step a := by
  obtain ⟨s, hs, rfl⟩ := Option.map_eq_some_iff.mp h
  unfold Sys.step at hs
  split at hs
  · cases hs
    exact Or.inl ⟨rfl, rfl⟩
  · split_ifs at hs with hn
    obtain ⟨hp, hb⟩ := not_or.mp hn
    obtain ⟨s', ha, hg⟩ := Option.bind_eq_some_iff.mp hs
    unfold Sys.bget at hg
    split_ifs at hg with hcard
    · cases hg
      exact Or.inr (Or.inr ⟨hp, ha, hcard, by simp [(Sys.act_area ha).2.2, hb]⟩)
    · cases hg
      exact Or.inr (Or.inl rfl)

/-- What a reboot at this moment finds: the blocks named in the header have their committed contents
in the log, and every other home block has them in place. -/
structure Durable (start size : ℕ) (disk D : ℕ → Block) : Prop where
  fits : (getHeader (disk start)).length ≤ size - 1
  homes : ∀ b ∈ getHeader (disk start), b < start ∨ start + size ≤ b
  logged : ∀ (i b : ℕ), (getHeader (disk start))[i]? = some b → disk (start + i + 1) = D b
  placed : ∀ b, b < start ∨ start + size ≤ b → b ∉ getHeader (disk start) → disk b = D b

structure Coherent (s : Sys) : Prop where
  clean : ∀ b buf, s.cache b = some buf → buf.dirty = false → buf.holder = none → buf.data = s.disk b
  area : ∀ b buf, ¬ s.home b → s.cache b = some buf → buf.dirty = false ∧ buf.holder = none
  buffered : ∀ b buf, s.cache b = some buf → b ∈ s.bufs

/-- Operations may be running: the cache holds the home blocks as the last writes left them, pinned
from their `log_write` on, while the disk still has a clear header. -/
structure Running (C : ℕ → Block) (t : Tracked) : Prop where
  header : getHeader (t.sys.disk t.sys.start) = []
  blocks : ∀ b, b ∈ t.sys.lh ↔ ∃ w ∈ t.spec.current, w.block = b
  homes : ∀ b ∈ t.sys.lh, t.sys.home b
  nodup : t.sys.lh.Nodup
  fits : t.sys.lh.length ≤ t.sys.size - 1 ∨ nbuf ≤ t.sys.size
  view : ∀ b, t.sys.home b → (∀ buf, t.sys.cache b = some buf → buf.holder = none) → t.sys.view b = C b
  held : ∀ b buf p, t.sys.cache b = some buf → buf.holder = some p → t.sys.pc p = .logging b buf.data
  logging : ∀ p b v, t.sys.pc p = .logging b v →
    t.sys.home b ∧ t.spec.pending p = some (b, v) ∧ ∃ d, t.sys.cache b = some ⟨v, d, some p⟩
  dirty : ∀ b, b ∈ t.sys.lh ↔ ∃ buf, t.sys.cache b = some buf ∧ buf.dirty = true
  count : ∃ A : Finset ℕ, A.card = t.sys.outstanding ∧ ∀ p, p ∈ A ↔ t.sys.pc p ≠ .out

structure Installing (D : ℕ → Block) (t : Tracked) (tail : ℕ) : Prop where
  header : getHeader (t.sys.disk t.sys.start) = t.sys.lh
  current : t.spec.current = []
  quiet : ∀ p, t.sys.pc p = .out
  free : ∀ b buf, t.sys.cache b = some buf → buf.holder = none
  outstanding : t.sys.outstanding = 0
  placed : ∀ b, t.sys.home b → (b ∉ t.sys.lh ∨ ∃ i < tail, t.sys.lh[i]? = some b) →
    t.sys.disk b = D b ∧ t.sys.view b = D b
  dirty : ∀ b buf, t.sys.cache b = some buf → buf.dirty = true → ∃ i, tail ≤ i ∧ t.sys.lh[i]? = some b

structure Booting (t : Tracked) : Prop where
  current : t.spec.current = []
  quiet : ∀ p, t.sys.pc p = .out
  outstanding : t.sys.outstanding = 0
  clean : ∀ b buf, t.sys.cache b = some buf → buf.dirty = false ∧ buf.holder = none

def committedDisk (d : ℕ → Block) (x : Spec) : ℕ → Block := contents d x.committed.flatten

def currentDisk (d : ℕ → Block) (x : Spec) : ℕ → Block := contents (committedDisk d x) x.current

def Phase (d : ℕ → Block) (t : Tracked) : Prop :=
  match t.sys.ctl with
  | .idle => Running (currentDisk d t.spec) t
  | .writing tail =>
    Running (currentDisk d t.spec) t ∧ (∀ p, t.sys.pc p = .out) ∧ (tail = 0 ∨ t.sys.lh.length ≤ t.sys.size - 1) ∧
      ∀ i b, i < tail → t.sys.lh[i]? = some b → t.sys.disk (t.sys.start + i + 1) = currentDisk d t.spec b
  | .installing _ tail => Installing (committedDisk d t.spec) t tail
  | .finishing => Running (currentDisk d t.spec) t ∧ (∀ p, t.sys.pc p = .out)
  | .booting => Booting t
  | .panicked => True

structure Inv (d : ℕ → Block) (t : Tracked) : Prop where
  size : 0 < t.sys.size
  durable : Durable t.sys.start t.sys.size t.sys.disk (committedDisk d t.spec)
  coherent : Coherent t.sys
  phase : Phase d t

theorem Sys.bwrite_view (s : Sys) (b c : ℕ) (v : Block) : (s.bwrite b v).view c = if c = b then v else s.view c := by
  by_cases h : c = b
  · subst h; simp [Sys.view, Sys.bwrite]
  · simp [Sys.view, Sys.bwrite, h]

variable {s : Sys}

theorem Sys.bwrite_cache {b c : ℕ} {v : Block} {buf : Buf} (h : (s.bwrite b v).cache c = some buf) :
    c = b ∧ buf = ⟨v, false, none⟩ ∨ c ≠ b ∧ s.cache c = some buf := by
  by_cases hc : c = b
  · subst hc
    exact Or.inl ⟨rfl, by simpa [Sys.bwrite, eq_comm] using h⟩
  · exact Or.inr ⟨hc, by simpa [Sys.bwrite, hc] using h⟩

theorem Coherent.mem_bufs (h : Coherent s) (b : ℕ) : b ∈ (s.bread b).bufs := by
  unfold Sys.bread
  split
  · next buf hb => exact h.buffered b buf hb
  · exact Finset.mem_insert_self _ _

theorem Coherent.bread (h : Coherent s) (b : ℕ) : Coherent (s.bread b) := by
  refine ⟨fun c buf hc hd hh => ?_, fun c buf hn hc => ?_, fun c buf hc => ?_⟩
  · rcases s.bread_cache b hc with hc | ⟨_, rfl⟩
    · simpa using h.clean c buf hc hd hh
    · simp
  · rcases s.bread_cache b hc with hc | ⟨_, rfl⟩
    · exact h.area c buf (by simpa [Sys.home] using hn) hc
    · simp
  · by_cases hcb : c = b
    · subst hcb
      exact h.mem_bufs c
    rcases s.bread_cache b hc with hc' | ⟨hc', _⟩
    · exact s.bread_bufs b (h.buffered c buf hc')
    · unfold Sys.bread at hc
      split at hc
      · simp [hc'] at hc
      · simp [hcb, hc'] at hc

theorem Coherent.bwrite (h : Coherent s) {b : ℕ} (hb : b ∈ s.bufs) (v : Block) : Coherent (s.bwrite b v) := by
  refine ⟨fun c buf hc hd hh => ?_, fun c buf hn hc => ?_, fun c buf hc => ?_⟩
  · rcases Sys.bwrite_cache hc with ⟨rfl, rfl⟩ | ⟨hne, hc⟩
    · simp [Sys.bwrite]
    · simpa [Sys.bwrite, hne] using h.clean c buf hc hd hh
  · rcases Sys.bwrite_cache hc with ⟨_, rfl⟩ | ⟨_, hc⟩
    · simp
    · exact h.area c buf hn hc
  · rcases Sys.bwrite_cache hc with ⟨rfl, _⟩ | ⟨_, hc⟩
    · exact hb
    · exact h.buffered c buf hc

theorem Coherent.view_area (h : Coherent s) {b : ℕ} (hb : ¬ s.home b) : s.view b = s.disk b := by
  unfold Sys.view
  split
  · next buf hc =>
    obtain ⟨hd, hh⟩ := h.area b buf hb hc
    exact h.clean b buf hc hd hh
  · rfl

section bread

variable {C : ℕ → Block} {s : Sys} {x : Spec}

theorem Running.bread (h : Running C ⟨s, x⟩) (b : ℕ) : Running C ⟨s.bread b, x⟩ := by
  have hback : ∀ c buf, (s.bread b).cache c = some buf → (buf.dirty = true ∨ buf.holder ≠ none) →
      s.cache c = some buf := by
    intro c buf hc hd
    rcases s.bread_cache b hc with hc | ⟨_, rfl⟩
    · exact hc
    · simp at hd
  constructor
  · simpa using h.header
  · simpa using h.blocks
  · simpa [Sys.home] using h.homes
  · simpa using h.nodup
  · simpa using h.fits
  · intro c hc hfree
    rw [Sys.bread_view]
    exact h.view c (by simpa [Sys.home] using hc) (fun buf hb => hfree buf (s.bread_cache_some b hb))
  · intro c buf p hc hp
    simpa using h.held c buf p (hback c buf hc (Or.inr (by simp [hp]))) hp
  · intro p c v hp
    obtain ⟨hhome, hpend, d, hd⟩ := h.logging p c v (by simpa using hp)
    exact ⟨by simpa [Sys.home] using hhome, hpend, d, s.bread_cache_some b hd⟩
  · intro c
    rw [Sys.bread_lh, h.dirty c]
    constructor
    · rintro ⟨buf, hc, hd⟩
      exact ⟨buf, s.bread_cache_some b hc, hd⟩
    · rintro ⟨buf, hc, hd⟩
      exact ⟨buf, hback c buf hc (Or.inl hd), hd⟩
  · simpa using h.count

theorem Installing.bread {tail : ℕ} (h : Installing C ⟨s, x⟩ tail) (b : ℕ) : Installing C ⟨s.bread b, x⟩ tail := by
  constructor
  · simpa using h.header
  · exact h.current
  · simpa using h.quiet
  · intro c buf hc
    rcases s.bread_cache b hc with hc | ⟨_, rfl⟩
    · exact h.free c buf hc
    · rfl
  · simpa using h.outstanding
  · simpa [Sys.home] using h.placed
  · intro c buf hc hd
    rcases s.bread_cache b hc with hc | ⟨_, rfl⟩
    · simpa using h.dirty c buf hc hd
    · simp at hd

theorem Booting.bread (h : Booting ⟨s, x⟩) (b : ℕ) : Booting ⟨s.bread b, x⟩ := by
  refine ⟨h.current, by simpa using h.quiet, by simpa using h.outstanding, fun c buf hc => ?_⟩
  rcases s.bread_cache b hc with hc | ⟨_, rfl⟩
  · exact h.clean c buf hc
  · simp

theorem Inv.bread {d : ℕ → Block} (h : Inv d ⟨s, x⟩) (b : ℕ) : Inv d ⟨s.bread b, x⟩ := by
  refine ⟨by simpa using h.size, by simpa using h.durable, h.coherent.bread b, ?_⟩
  have hp := h.phase
  unfold Phase at hp ⊢
  simp only [Sys.bread_ctl] at hp ⊢
  split at hp
  · exact hp.bread b
  · exact ⟨hp.1.bread b, by simpa using hp.2.1, by simpa using hp.2.2⟩
  · exact hp.bread b
  · exact ⟨hp.1.bread b, by simpa using hp.2⟩
  · exact hp.bread b
  · trivial

end bread

section

variable {C : ℕ → Block} {s : Sys} {x : Spec} (ctl : Ctl) (r : List ℕ) (n : Bool)

theorem Running.frame (h : Running C ⟨s, x⟩) : Running C ⟨{ s with ctl := ctl, readers := r, noBuffers := n }, x⟩ :=
  ⟨h.header, h.blocks, h.homes, h.nodup, h.fits, h.view, h.held, h.logging, h.dirty, h.count⟩

theorem Coherent.frame (h : Coherent s) : Coherent { s with ctl := ctl, readers := r, noBuffers := n } :=
  ⟨h.clean, h.area, h.buffered⟩

theorem Inv.hold {d : ℕ → Block} (h : Inv d ⟨s, x⟩) : Inv d ⟨{ s with readers := r, noBuffers := n }, x⟩ := by
  refine ⟨h.size, h.durable, h.coherent.frame s.ctl r n, ?_⟩
  have hp := h.phase
  unfold Phase at hp ⊢
  simp only at hp ⊢
  split at hp
  · exact hp.frame _ r n
  · exact ⟨hp.1.frame _ r n, hp.2⟩
  · exact ⟨hp.header, hp.current, hp.quiet, hp.free, hp.outstanding, hp.placed, hp.dirty⟩
  · exact ⟨hp.1.frame _ r n, hp.2⟩
  · exact ⟨hp.current, hp.quiet, hp.outstanding, hp.clean⟩
  · trivial

end

variable {C : ℕ → Block} {s : Sys} {x : Spec} {b : ℕ} {v : Block}

theorem view_evict (hc : Coherent s) (hb : s.cache b = some ⟨v, false, none⟩) (c : ℕ) :
    ({ s with cache := update s.cache b none, bufs := s.bufs.erase b } : Sys).view c = s.view c := by
  by_cases h : c = b
  · subst h
    have hd : v = s.disk c := hc.clean c _ hb rfl rfl
    simp [Sys.view, hb, hd]
  · simp [Sys.view, h]

theorem cache_evict {c : ℕ} {buf : Buf} (h : update s.cache b none c = some buf) : s.cache c = some buf := by
  by_cases hc : c = b
  · subst hc; simp at h
  · simpa [hc] using h

theorem Inv.evict {d : ℕ → Block} (h : Inv d ⟨s, x⟩) (hb : s.cache b = some ⟨v, false, none⟩) :
    Inv d ⟨{ s with cache := update s.cache b none, bufs := s.bufs.erase b }, x⟩ := by
  have hview := view_evict h.coherent hb
  have hrun : ∀ C, Running C ⟨s, x⟩ →
      Running C ⟨{ s with cache := update s.cache b none, bufs := s.bufs.erase b }, x⟩ := by
    intro C hr
    refine ⟨hr.header, hr.blocks, hr.homes, hr.nodup, hr.fits, fun c hc hfree => ?_, fun c buf p hc => ?_,
      fun p c w hp => ?_, fun c => ?_, hr.count⟩
    · rw [hview]
      refine hr.view c hc (fun buf hcb => ?_)
      by_cases hcb' : c = b
      · subst hcb'
        rw [show s.cache c = some ⟨v, false, none⟩ from hb] at hcb
        cases hcb
        rfl
      · exact hfree buf (by simpa [hcb'] using hcb)
    · exact hr.held c buf p (cache_evict hc)
    · obtain ⟨hhome, hpend, e, he⟩ := hr.logging p c w hp
      refine ⟨hhome, hpend, e, ?_⟩
      have hcb : c ≠ b := by
        rintro rfl
        simp [hb] at he
      simpa [hcb] using he
    · rw [hr.dirty c]
      constructor
      · rintro ⟨buf, hc, hd⟩
        have hcb : c ≠ b := by
          rintro rfl
          rw [show s.cache c = some ⟨v, false, none⟩ from hb] at hc
          cases hc
          simp at hd
        exact ⟨buf, by simpa [hcb] using hc, hd⟩
      · rintro ⟨buf, hc, hd⟩
        exact ⟨buf, cache_evict hc, hd⟩
  refine ⟨h.size, h.durable, ⟨fun c buf hc => h.coherent.clean c buf (cache_evict hc),
    fun c buf hn hc => h.coherent.area c buf hn (cache_evict hc), fun c buf hc => ?_⟩, ?_⟩
  · have hcb : c ≠ b := by
      rintro rfl
      simp at hc
    exact Finset.mem_erase.mpr ⟨hcb, h.coherent.buffered c buf (cache_evict hc)⟩
  have hp := h.phase
  unfold Phase at hp ⊢
  simp only at hp ⊢
  split at hp
  · exact hrun _ hp
  · exact ⟨hrun _ hp.1, hp.2⟩
  · refine ⟨hp.header, hp.current, hp.quiet, fun c buf hc => hp.free c buf (cache_evict hc), hp.outstanding,
      fun c hc hl => ?_, fun c buf hc => hp.dirty c buf (cache_evict hc)⟩
    rw [hview]
    exact hp.placed c hc hl
  · exact ⟨hrun _ hp.1, hp.2⟩
  · exact ⟨hp.current, hp.quiet, hp.outstanding, fun c buf hc => hp.clean c buf (cache_evict hc)⟩
  · trivial

end Laboratorio.Log
