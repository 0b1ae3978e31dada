import Laboratorio.Procs.Table

namespace Laboratorio.Procs

open Ptable

structure Reparented (cur ip : Slot) (l : List Slot) (t u : Ptable) : Prop where
  pids : u.pids = t.pids
  chans : u.chans = t.chans
  parent : ∀ i, u.parents i = if i ∈ l ∧ t.parents i = some cur then some ip else t.parents i
  state : ∀ i, (t.states i).wokenTo (u.states i)
  wakesInit : ∀ i j, j ∈ l → t.parents j = some cur → t.states j = .zombie →
    u.states i = .sleeping → t.chans i ≠ some (.proc ip)

theorem reparent_reparented (cur ip p : Slot) (t : Ptable) : Reparented cur ip [p] t (reparent cur ip t p) := by
  simp only [reparent]
  by_cases hp : t.parents p = some cur
  · have hparent : ∀ i, (t.setParent p (some ip)).parents i =
        if i ∈ [p] ∧ t.parents i = some cur then some ip else t.parents i := by
      intro i
      by_cases hi : i = p
      · subst hi; simp [hp]
      · simp [hi]
    rw [if_pos (show (t.proc p).parent = some cur from hp)]
    split_ifs with hz
    · refine ⟨by simp, by simp, by simpa only [parents_wakeup1] using hparent, fun i => ?_, ?_⟩
      · simpa only [states_setParent] using states_wakeup1 (t.setParent p (some ip)) (some (.proc ip)) i
      · intro i j _ _ _ hs
        simpa only [chans_setParent] using wakeup1_awake _ _ i hs
    · refine ⟨by simp, by simp, hparent, fun i => Or.inl (by simp), ?_⟩
      intro i j hj _ hzj _
      obtain rfl : j = p := by simpa using hj
      exact absurd ((congrFun (states_setParent t j (some ip)) j).trans hzj) hz
  · rw [if_neg (show ¬ (t.proc p).parent = some cur from hp)]
    refine ⟨rfl, rfl, fun i => ?_, fun _ => Or.inl rfl, ?_⟩
    · rw [if_neg]
      rintro ⟨hi, hc⟩
      obtain rfl : i = p := by simpa using hi
      exact hp hc
    · intro i j hj hc
      obtain rfl : j = p := by simpa using hj
      exact absurd hc hp

theorem Reparented.append {cur ip : Slot} {l k : List Slot} {t u v : Ptable}
    (h : Reparented cur ip l t u) (h' : Reparented cur ip k u v) : Reparented cur ip (l ++ k) t v := by
  refine ⟨h'.pids.trans h.pids, h'.chans.trans h.chans, fun i => ?_, fun i => (h.state i).trans (h'.state i), ?_⟩
  · rw [h'.parent i, h.parent i]
    by_cases hc : t.parents i = some cur
    · by_cases hl : i ∈ l
      · simp [hl, hc]
      · simp [hl, hc]
    · simp [hc]
  · intro i j hj hc hz hs
    by_cases hl : j ∈ l
    · exact h.wakesInit i j hl hc hz ((h'.state i).sleeping hs)
    · have hk : j ∈ k := by simpa [hl] using hj
      rw [← h.chans]
      apply h'.wakesInit i j hk _ _ hs
      · rw [h.parent j, if_neg (by simp [hl]), hc]
      · exact ((h.state j).eq_iff (by simp) (by simp)).mpr hz

theorem reparentAll_reparented (t : Ptable) (cur ip : Slot) :
    Reparented cur ip (List.finRange nproc) t (reparentAll t cur ip) := by
  unfold reparentAll
  induction List.finRange nproc generalizing t with
  | nil => exact ⟨rfl, rfl, fun i => by simp, fun _ => Or.inl rfl, by simp⟩
  | cons p ps ih => exact (reparent_reparented cur ip p t).append (ih _)

structure Exited (cur ip : Slot) (t u : Ptable) : Prop where
  pids : u.pids = t.pids
  chans : u.chans = t.chans
  parent : ∀ i, u.parents i = if t.parents i = some cur then some ip else t.parents i
  zombie : u.states cur = .zombie
  state : ∀ i, i ≠ cur → (t.states i).wokenTo (u.states i)
  wakesParent : ∀ i, i ≠ cur → u.states i = .sleeping → t.chans i ≠ (t.parents cur).map .proc
  wakesInit : ∀ i j, i ≠ cur → t.parents j = some cur → t.states j = .zombie →
    u.states i = .sleeping → t.chans i ≠ some (.proc ip)

theorem exit_exited (t : Ptable) (cur ip : Slot) : Exited cur ip t (exit t cur ip) := by
  let w := wakeup1 t ((t.proc cur).parent.map .proc)
  have hw : ∀ i, (t.states i).wokenTo (w.states i) := states_wakeup1 t _
  have hr : Reparented cur ip (List.finRange nproc) w (reparentAll w cur ip) := reparentAll_reparented w cur ip
  have hchans : w.chans = t.chans := chans_wakeup1 t _
  have hparents : w.parents = t.parents := parents_wakeup1 t _
  change Exited cur ip t ((reparentAll w cur ip).setState cur .zombie)
  refine ⟨?_, ?_, fun i => ?_, by simp, fun i hi => ?_, fun i hi hs => ?_, fun i j hi hc hz hs => ?_⟩
  · rw [pids_setState, hr.pids, pids_wakeup1]
  · rw [chans_setState, hr.chans, hchans]
  · rw [parents_setState, hr.parent i, hparents]
    simp
  · simpa [hi] using (hw i).trans (hr.state i)
  · have hs' : (reparentAll w cur ip).states i = .sleeping := by simpa [hi] using hs
    exact wakeup1_awake t _ i ((hr.state i).sleeping hs')
  · have hs' : (reparentAll w cur ip).states i = .sleeping := by simpa [hi] using hs
    rw [← hchans]
    exact hr.wakesInit i j (List.mem_finRange j) (by rw [hparents, hc])
      (((hw j).eq_iff (by simp) (by simp)).mpr hz) hs'

theorem wait_reaped {t u : Ptable} {p i : Slot} {pid : Int32} (h : wait t p = .reaped i pid u) :
    t.parents i = some p ∧ t.states i = .zombie ∧ pid = t.pids i ∧ u.states = Function.update t.states i .unused ∧
      u.parents = Function.update t.parents i none ∧ u.chans = t.chans ∧ u.pids = Function.update t.pids i 0 := by
  unfold wait at h
  split at h
  · next j hj =>
    injection h with hi hpid hu
    subst hi hpid hu
    have hf := Ptable.find_some hj
    simp only [decide_eq_true_eq] at hf
    refine ⟨hf.1, hf.2, rfl, Ptable.states_set _ _ _, Ptable.parents_set _ _ _, ?_, Ptable.pids_set _ _ _⟩
    exact (Ptable.chans_set _ _ _).trans (Function.update_eq_self _ _)
  · split_ifs at h

end Laboratorio.Procs
