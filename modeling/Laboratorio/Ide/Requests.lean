import Laboratorio.Bio.Status
import Laboratorio.Ide.Driver

namespace Laboratorio.Ide

open Bio Function Runs

variable {P D : Type} {s t : State P D} {l : List Buf} {p : P} {b : Buf} {k : ℕ}

namespace Pc

def buf : Pc → Option Buf
  | .run => none
  | .enter b | .asleep b _ | .awake b _ => some b

def waits : Pc → Option (Buf × ℕ)
  | .asleep b k | .awake b k => some (b, k)
  | _ => none

theorem buf_of_waits {l : Pc} (h : l.waits = some (b, k)) : l.buf = some b := by
  cases l <;> simp_all [waits, buf]

theorem buf_eq_none {l : Pc} : l.buf = none ↔ l = .run := by
  cases l <;> simp [buf]

end Pc

structure Holds (s : State P D) (l : List Buf) : Prop where
  chain : Queue.Lists s.queue.next s.queue.head l
  nodup : l.Nodup
  requests : s.requests = s.finished ++ l
  issued : s.issued = s.finished ++ l.take 1
  device : s.device = (l.take 1).map s.command
  pending : ∀ b ∈ l, ¬ s.synced b
  owner : ∀ b ∈ l, ∃ p k, (s.pc p).waits = some (b, k)
  locked : ∀ p b, (s.pc p).buf = some b → s.lock b = some p
  entering : ∀ p b, s.pc p = .enter b → b ∉ l ∧ ¬ s.synced b
  number : ∀ p b k, (s.pc p).waits = some (b, k) → s.requests[k]? = some b
  queued : ∀ p b k, (s.pc p).waits = some (b, k) → b ∈ l → s.finished.length ≤ k
  done : ∀ p b k, (s.pc p).waits = some (b, k) → b ∉ l → k < s.finished.length ∧ s.synced b
  asleep : ∀ p b k, s.pc p = .asleep b k → b ∈ l

namespace Holds

theorem ideinit (next : Buf → Option Buf) (ident : Buf → Ident) (valid dirty : Buf → Bool) (lock : Buf → Option P)
    (data : Buf → D) (havedisk1 : Bool) (disk : UInt32 × UInt32 → D) :
    Holds (ideinit next ident valid dirty lock data havedisk1 disk) [] := by
  constructor <;> simp [Ide.ideinit, Queue.Lists, Pc.buf, Pc.waits]

theorem locked_of_mem (h : Holds s l) (hb : b ∈ l) : ∃ p, (s.pc p).buf = some b ∧ s.lock b = some p := by
  obtain ⟨p, k, hp⟩ := h.owner b hb
  exact ⟨p, Pc.buf_of_waits hp, h.locked p b (Pc.buf_of_waits hp)⟩

theorem ne_of_busy (h : Holds s l) (hp : s.pc p = .run) (hb : s.lock b = some p ∨ s.lock b = none) {q : P} {b' : Buf}
    (hq : (s.pc q).buf = some b') : b' ≠ b := by
  rintro rfl
  have hlock := h.locked q b' hq
  rcases hb with hb | hb
  · obtain rfl := Option.some.inj (hlock.symm.trans hb)
    simp [hp, Pc.buf] at hq
  · simp [hb] at hlock

theorem frame (h : Holds s l) (hq : t.queue = s.queue) (hr : t.requests = s.requests) (hi : t.issued = s.issued)
    (hf : t.finished = s.finished) (hd : t.device = s.device) (hpc : t.pc = s.pc)
    (hsame : ∀ p b, (s.pc p).buf = some b → t.lock b = s.lock b ∧ t.command b = s.command b ∧
    (t.synced b ↔ s.synced b)) : Holds t l := by
  have hmem : ∀ b ∈ l, t.command b = s.command b ∧ (t.synced b ↔ s.synced b) := by
    intro b hb
    obtain ⟨p, hp, _⟩ := h.locked_of_mem hb
    exact (hsame p b hp).2
  refine ⟨hq ▸ h.chain, h.nodup, by rw [hr, hf, h.requests], by rw [hi, hf, h.issued], ?_, fun b hb => ?_, hpc ▸ h.owner,
    fun p b hp => ?_, fun p b hp => ?_, fun p b k hp => ?_, fun p b k hp hb => ?_, fun p b k hp hb => ?_, hpc ▸ h.asleep⟩
  · rw [hd, h.device]
    exact List.map_congr_left fun b hb => ((hmem b (List.mem_of_mem_take hb)).1).symm
  · rw [(hmem b hb).2]
    exact h.pending b hb
  · rw [hpc] at hp
    rw [(hsame p b hp).1]
    exact h.locked p b hp
  · rw [hpc] at hp
    rw [(hsame p b (by simp [hp, Pc.buf])).2.2]
    exact h.entering p b hp
  · rw [hr]
    exact h.number p b k (hpc ▸ hp)
  · rw [hf]
    exact h.queued p b k (hpc ▸ hp) hb
  · rw [hpc] at hp
    rw [hf, (hsame p b (Pc.buf_of_waits hp)).2.2]
    exact h.done p b k hp hb

section

variable (h : Holds s l) (hp : s.pc p = .run) (hb : s.lock b = some p ∨ s.lock b = none)

include h hp hb

theorem relock (o : Option P) : Holds { s with lock := update s.lock b o } l := by
  refine h.frame rfl rfl rfl rfl rfl rfl fun q b' hq => ⟨?_, rfl, Iff.rfl⟩
  exact update_of_ne (h.ne_of_busy hp hb hq) _ _

theorem change (id : Ident) (v d : Bool) (x : D) :
    Holds { s with
      ident := update s.ident b id, valid := update s.valid b v, dirty := update s.dirty b d,
      data := update s.data b x } l := by
  refine h.frame rfl rfl rfl rfl rfl rfl fun q b' hq => ?_
  have hne := h.ne_of_busy hp hb hq
  simp [State.command, State.synced, hne]

end

variable [DecidableEq P]

section

variable (h : Holds s l)

include h

theorem goto {x : Pc} (hleft : ∀ b k, (s.pc p).waits = some (b, k) → b ∈ l → x.waits = some (b, k))
    (hlocked : ∀ b, x.buf = some b → s.lock b = some p) (hentering : ∀ b, x = .enter b → b ∉ l ∧ ¬ s.synced b)
    (hwaits : ∀ b k, x.waits = some (b, k) → (s.pc p).waits = some (b, k)) (hasleep : ∀ b k, x = .asleep b k → b ∈ l) :
    Holds { s with pc := update s.pc p x } l := by
  have hold : ∀ q b k, (update s.pc p x q).waits = some (b, k) → (s.pc q).waits = some (b, k) := by
    intro q b k hq
    by_cases hqp : q = p
    · subst hqp
      exact hwaits b k (by simpa using hq)
    · simpa [hqp] using hq
  refine ⟨h.chain, h.nodup, h.requests, h.issued, h.device, h.pending, fun b hb => ?_, fun q b hq => ?_, fun q b hq => ?_,
    fun q b k hq => h.number q b k (hold q b k hq), fun q b k hq => h.queued q b k (hold q b k hq),
    fun q b k hq => h.done q b k (hold q b k hq), fun q b k hq => ?_⟩
  · obtain ⟨q, k, hq⟩ := h.owner b hb
    refine ⟨q, k, ?_⟩
    by_cases hqp : q = p
    · subst hqp
      simpa using hleft b k hq hb
    · simpa [hqp] using hq
  · by_cases hqp : q = p
    · subst hqp
      exact hlocked b (by simpa using hq)
    · exact h.locked q b (by simpa [hqp] using hq)
  · by_cases hqp : q = p
    · subst hqp
      exact hentering b (by simpa using hq)
    · exact h.entering q b (by simpa [hqp] using hq)
  · by_cases hqp : q = p
    · subst hqp
      exact hasleep b k (by simpa using hq)
    · exact h.asleep q b k (by simpa [hqp] using hq)

theorem iderw (hp : s.pc p = .run) (hb : s.lock b = some p) (hs : ¬ s.synced b) :
    Holds { s with pc := update s.pc p (.enter b) } l := by
  have hbl : b ∉ l := by
    intro hm
    obtain ⟨q, hq, _⟩ := h.locked_of_mem hm
    exact h.ne_of_busy hp (Or.inl hb) hq rfl
  apply h.goto
  · simp [hp, Pc.waits]
  · intro b' hb'
    obtain rfl : b = b' := by simpa [Pc.buf] using hb'
    exact hb
  · intro b' hb'
    obtain rfl : b = b' := by simpa using hb'
    exact ⟨hbl, hs⟩
  · simp [Pc.waits]
  · simp

theorem kill (hp : s.pc p = .asleep b k) : Holds { s with pc := update s.pc p (.awake b k) } l := by
  apply h.goto
  · simp [hp, Pc.waits]
  · intro b' hb'
    exact h.locked p b' (by simpa [hp, Pc.buf] using hb')
  · simp
  · simp [hp, Pc.waits]
  · simp

theorem await (hp : s.pc p = .awake b k) : Holds (s.await p b k) l := by
  have hw : (s.pc p).waits = some (b, k) := by rw [hp]; rfl
  unfold State.await
  split_ifs with hs
  · apply h.goto
    · intro b' k' hw' hb'
      obtain ⟨rfl, rfl⟩ : b = b' ∧ k = k' := by simpa [hp, Pc.waits] using hw'
      exact absurd hs (h.pending b hb')
    all_goals simp [Pc.buf, Pc.waits]
  apply h.goto
  · simp [hp, Pc.waits]
  · intro b' hb'
    exact h.locked p b' (by simpa [hp, Pc.buf] using hb')
  · simp
  · simp [hp, Pc.waits]
  · intro b' k' hb'
    obtain ⟨rfl, rfl⟩ : b = b' ∧ k = k' := by simpa using hb'
    by_contra hm
    exact hs (h.done p b k hw hm).2

theorem appended (hp : s.pc p = .enter b) {q : Queue Buf} (hchain : Queue.Lists q.next q.head (l ++ [b]))
    {dev : List (Command D)} (hdev : dev = ((l ++ [b]).take 1).map s.command) {iss : List Buf}
    (hiss : iss = s.finished ++ (l ++ [b]).take 1) :
    Holds { s with queue := q, requests := s.requests ++ [b], device := dev, issued := iss,
                   pc := update s.pc p (.asleep b s.requests.length) } (l ++ [b]) := by
  obtain ⟨hbl, hsync⟩ := h.entering p b hp
  have hb : s.lock b = some p := h.locked p b (by simp [hp, Pc.buf])
  have hother : ∀ q b', q ≠ p → (s.pc q).buf = some b' → b' ≠ b := by
    rintro q b' hqp hq rfl
    exact hqp (Option.some.inj ((h.locked q b' hq).symm.trans hb))
  refine ⟨hchain, ?_, ?_, hiss, hdev, fun b' hb' => ?_, fun b' hb' => ?_, fun q b' hq => ?_, fun q b' hq => ?_,
    fun q b' k hq => ?_, fun q b' k hq hb' => ?_, fun q b' k hq hb' => ?_, fun q b' k hq => ?_⟩
  · simpa using h.nodup.concat hbl
  · rw [h.requests, List.append_assoc]
  · rcases List.mem_append.mp hb' with hb' | hb'
    · exact h.pending b' hb'
    · rw [List.mem_singleton.mp hb']
      exact hsync
  · rcases List.mem_append.mp hb' with hb' | hb'
    · obtain ⟨q, k, hq⟩ := h.owner b' hb'
      have hqp : q ≠ p := by
        rintro rfl
        simp [hp, Pc.waits] at hq
      exact ⟨q, k, by simpa [hqp] using hq⟩
    · exact ⟨p, s.requests.length, by simp [Pc.waits, List.mem_singleton.mp hb']⟩
  · by_cases hqp : q = p
    · obtain rfl : b = b' := by simpa [hqp, Pc.buf] using hq
      rw [hqp]
      exact hb
    · exact h.locked q b' (by simpa [hqp] using hq)
  · have hqp : q ≠ p := by
      rintro rfl
      simp at hq
    have hq' : s.pc q = .enter b' := by simpa [hqp] using hq
    have hne := hother q b' hqp (by simp [hq', Pc.buf])
    exact ⟨by simp [hne, (h.entering q b' hq').1], (h.entering q b' hq').2⟩
  · by_cases hqp : q = p
    · obtain ⟨rfl, rfl⟩ : b = b' ∧ s.requests.length = k := by simpa [hqp, Pc.waits] using hq
      simp
    · have hn := h.number q b' k (by simpa [hqp] using hq)
      exact List.getElem?_append_left (List.getElem?_eq_some_iff.mp hn).1 |>.trans hn
  · by_cases hqp : q = p
    · obtain ⟨rfl, rfl⟩ : b = b' ∧ s.requests.length = k := by simpa [hqp, Pc.waits] using hq
      simp [h.requests]
    · have hq' : (s.pc q).waits = some (b', k) := by simpa [hqp] using hq
      have hne := hother q b' hqp (Pc.buf_of_waits hq')
      exact h.queued q b' k hq' (by simpa [hne] using hb')
  · have hqp : q ≠ p := by
      rintro rfl
      obtain ⟨rfl, _⟩ : b = b' ∧ s.requests.length = k := by simpa [Pc.waits] using hq
      simp at hb'
    exact h.done q b' k (by simpa [hqp] using hq) fun hm => hb' (by simp [hm])
  · by_cases hqp : q = p
    · obtain ⟨rfl, _⟩ : b = b' ∧ s.requests.length = k := by simpa [hqp] using hq
      simp
    · have := h.asleep q b' k (by simpa [hqp] using hq)
      simp [this]

omit [DecidableEq P] in
theorem length_lt : l.length < nbuf + 1 := by
  have := h.nodup.length_le_card
  simp only [Fintype.card_fin] at this
  omega

theorem enter (hp : s.pc p = .enter b) (hs : s.enter p b = some t) :
    Holds t (l ++ [b]) ∧ t.pc = update s.pc p (.asleep b s.requests.length) := by
  obtain ⟨hbl, hsync⟩ := h.entering p b hp
  obtain ⟨q, hpush, hlists⟩ := h.chain.push h.nodup hbl h.length_lt
  simp only [State.enter, hpush] at hs
  have hhead := hlists.head_eq
  have hawait : ∀ u : State P D, u.valid = s.valid → u.dirty = s.dirty → ∀ k,
    u.await p b k = { u with pc := update u.pc p (.asleep b k) } := by
    intro u hv hd k
    have hu : ¬ u.synced b := by rwa [State.synced, hv, hd]
    rw [State.await, if_neg hu]
  cases l with
  | nil =>
    rw [if_pos (by simpa using hhead)] at hs
    simp only [State.idestart, Option.map_eq_some_iff, Option.ite_none_left_eq_some, Option.some.injEq] at hs
    obtain ⟨_, ⟨_, rfl⟩, rfl⟩ := hs
    have hdev : s.device = [] := by simpa using h.device
    have hiss : s.issued = s.finished := by simpa using h.issued
    rw [hawait]
    · exact ⟨h.appended hp hlists (by simp [hdev, State.command]) (by simp [hiss]), rfl⟩
    · rfl
    · rfl
  | cons x l =>
    have hx : x ≠ b := by
      rintro rfl
      simp at hbl
    rw [if_neg (by simpa [hhead] using hx)] at hs
    cases hs
    rw [hawait]
    · exact ⟨h.appended hp hlists (by simpa using h.device) (by simpa using h.issued), rfl⟩
    · rfl
    · rfl

end

end Holds

section wakeup

variable (s b)

theorem wakeup_buf (q : P) : ((s.wakeup b).pc q).buf = (s.pc q).buf := by
  simp only [State.wakeup]
  split
  · next hq => split_ifs <;> simp [hq, Pc.buf]
  · rfl

theorem wakeup_waits (q : P) : ((s.wakeup b).pc q).waits = (s.pc q).waits := by
  simp only [State.wakeup]
  split
  · next hq => split_ifs <;> simp [hq, Pc.waits]
  · rfl

theorem wakeup_enter {q : P} {b' : Buf} (h : (s.wakeup b).pc q = .enter b') : s.pc q = .enter b' := by
  simp only [State.wakeup] at h
  split at h
  · split_ifs at h
  · exact h

theorem wakeup_asleep {q : P} {b' : Buf} (h : (s.wakeup b).pc q = .asleep b' k) : s.pc q = .asleep b' k ∧ b' ≠ b := by
  simp only [State.wakeup] at h
  split at h
  · next b'' k' hq =>
    split_ifs at h with hb
    obtain ⟨rfl, rfl⟩ : b'' = b' ∧ k' = k := by simpa using h
    exact ⟨hq, hb⟩
  · next hq => exact absurd h (hq b' k)

end wakeup

theorem ideintr_buf {ok : Bool} (hs : s.ideintr ok = some t) (q : P) : (t.pc q).buf = (s.pc q).buf := by
  unfold State.ideintr at hs
  split at hs
  · simp at hs
  simp only at hs
  split at hs
  · cases hs
    rfl
  · split at hs
    · cases hs
      exact wakeup_buf _ _ q
    · simp only [State.idestart, Option.ite_none_left_eq_some, Option.some.injEq] at hs
      obtain ⟨_, rfl⟩ := hs
      exact wakeup_buf _ _ q

namespace Holds

section

variable (h : Holds s (b :: l))

include h

theorem number_cons {b' : Buf} (hw : (s.pc p).waits = some (b', k)) (hk : s.finished.length ≤ k) :
    (b :: l)[k - s.finished.length]? = some b' := by
  have hn := h.number p b' k hw
  rwa [h.requests, List.getElem?_append_right hk] at hn

theorem first {b' : Buf} (hw : (s.pc p).waits = some (b', s.finished.length)) : b' = b := by
  have hn := h.number_cons hw (Nat.le_refl _)
  rw [Nat.sub_self] at hn
  exact (Option.some.inj hn).symm

theorem first_number (hw : (s.pc p).waits = some (b, k)) : k = s.finished.length := by
  have hk := h.queued p b k hw (by simp)
  have hget := h.number_cons hw hk
  obtain ⟨hlt, _⟩ := List.getElem?_eq_some_iff.mp hget
  have hzero : (b :: l)[k - s.finished.length]? = (b :: l)[0]? := hget.trans rfl
  have h0 : k - s.finished.length = 0 := (List.getElem?_inj hlt h.nodup).mp hzero
  omega

theorem finish {c : Command D} {cs : List (Command D)} {ok : Bool} {dev : List (Command D)}
    (hdev : dev = (l.take 1).map ((s.perform c cs).finish c ok b).command) {iss : List Buf}
    (hiss : iss = s.finished ++ [b] ++ l.take 1) :
    Holds { (s.perform c cs).finish c ok b with device := dev, issued := iss } l := by
  have hbl : b ∉ l := (List.nodup_cons.mp h.nodup).1
  have hsync : ∀ b', State.synced { (s.perform c cs).finish c ok b with device := dev, issued := iss } b' ↔ b' = b ∨
    s.synced b' := by
    intro b'
    by_cases hb' : b' = b <;> simp [State.synced, State.finish, State.wakeup, State.perform, hb']
  have hne : ∀ b' ∈ l, b' ≠ b := by
    rintro b' hb' rfl
    exact hbl hb'
  refine ⟨h.chain.2, (List.nodup_cons.mp h.nodup).2, ?_, hiss, hdev, fun b' hb' => ?_, fun b' hb' => ?_, fun q b' hq => ?_,
    fun q b' hq => ?_, fun q b' k hq => ?_, fun q b' k hq hb' => ?_, fun q b' k hq hb' => ?_, fun q b' k hq => ?_⟩
  · change s.requests = s.finished ++ [b] ++ l
    rw [h.requests, List.append_assoc, List.singleton_append]
  · rw [hsync]
    exact not_or.mpr ⟨hne b' hb', h.pending b' (by simp [hb'])⟩
  · obtain ⟨q, k, hq⟩ := h.owner b' (by simp [hb'])
    exact ⟨q, k, (wakeup_waits _ b q).trans hq⟩
  · exact h.locked q b' ((wakeup_buf _ b q).symm.trans hq)
  · have he := h.entering q b' (wakeup_enter _ b hq)
    have hb' := List.ne_and_not_mem_of_not_mem_cons he.1
    exact ⟨hb'.2, by rw [hsync]; exact not_or.mpr ⟨hb'.1, he.2⟩⟩
  · exact h.number q b' k ((wakeup_waits _ b q).symm.trans hq)
  · have hw : (s.pc q).waits = some (b', k) := (wakeup_waits _ b q).symm.trans hq
    have hk := h.queued q b' k hw (by simp [hb'])
    have hfirst : k ≠ s.finished.length := by
      rintro rfl
      exact hne b' hb' (h.first hw)
    change (s.finished ++ [b]).length ≤ k
    rw [List.length_append, List.length_singleton]
    omega
  · have hw : (s.pc q).waits = some (b', k) := (wakeup_waits _ b q).symm.trans hq
    change k < (s.finished ++ [b]).length ∧ _
    rw [hsync, List.length_append, List.length_singleton]
    by_cases hbb : b' = b
    · exact ⟨by have := h.first_number (hbb ▸ hw); omega, Or.inl hbb⟩
    · have hd := h.done q b' k hw (by simp [hbb, hb'])
      exact ⟨by omega, Or.inr hd.2⟩
  · obtain ⟨hq, hb'⟩ := wakeup_asleep _ b hq
    exact (List.mem_cons.mp (h.asleep q b' k hq)).resolve_left hb'

theorem ideintr_eq (ok : Bool) :
    s.ideintr ok = match l with
      | [] => some ((s.perform (s.command b) []).finish (s.command b) ok b)
      | b' :: _ => ((s.perform (s.command b) []).finish (s.command b) ok b).idestart b' := by
  have hdev : s.device = [s.command b] := by simpa using h.device
  have hhead : (s.perform (s.command b) []).queue.head = some b := h.chain.1
  have hnext : ((s.perform (s.command b) []).finish (s.command b) ok b).queue.head = l.head? := h.chain.2.head_eq
  simp only [State.ideintr, hdev, hhead, hnext]
  cases l <;> rfl

end

theorem ideintr (h : Holds s l) {ok : Bool} (hs : s.ideintr ok = some t) : Holds t l.tail := by
  cases l with
  | nil => simp [State.ideintr, h.device] at hs
  | cons b l =>
    have hiss : s.issued = s.finished ++ [b] := by simpa using h.issued
    rw [h.ideintr_eq] at hs
    cases l with
    | nil =>
      cases hs
      have hnone : ([] : List (Command D)) = (([] : List Buf).take 1).map
        ((s.perform (s.command b) []).finish (s.command b) ok b).command := rfl
      have hold : s.issued = s.finished ++ [b] ++ ([] : List Buf).take 1 := by rw [hiss, List.take_nil, List.append_nil]
      exact h.finish hnone hold
    | cons b' l =>
      simp only [State.idestart, Option.ite_none_left_eq_some, Option.some.injEq] at hs
      obtain ⟨_, rfl⟩ := hs
      exact h.finish (by simp [State.finish, State.perform, State.wakeup])
        (by simp [State.finish, State.perform, State.wakeup, hiss])

variable [DecidableEq P]

theorem step (h : Holds s l) {a : Act P D} (hs : s.step a = some t) : ∃ l', Holds t l' := by
  cases a with
  | acquire p b =>
    simp only [State.step, guard_some] at hs
    obtain ⟨⟨hp, hb⟩, rfl⟩ := hs
    exact ⟨l, h.relock hp (Or.inr hb) _⟩
  | change p b id v d x =>
    simp only [State.step, guard_some] at hs
    obtain ⟨⟨hp, hb⟩, rfl⟩ := hs
    exact ⟨l, h.change hp hb id v d x⟩
  | release p b =>
    simp only [State.step, guard_some] at hs
    obtain ⟨⟨hp, hb⟩, rfl⟩ := hs
    exact ⟨l, h.relock hp (Or.inl hb) _⟩
  | iderw p b =>
    simp only [State.step, guard_some] at hs
    obtain ⟨⟨hp, hb, hsync, _⟩, rfl⟩ := hs
    exact ⟨l, h.iderw hp hb hsync⟩
  | step p =>
    simp only [State.step] at hs
    cases hp : s.pc p with
    | enter b =>
      rw [hp] at hs
      exact ⟨_, (h.enter hp hs).1⟩
    | awake b k =>
      rw [hp] at hs
      cases hs
      exact ⟨l, h.await hp⟩
    | run | asleep b k => simp [hp, State.next] at hs
  | kill p =>
    simp only [State.step] at hs
    split at hs
    · next hp =>
      cases hs
      exact ⟨l, h.kill hp⟩
    · simp at hs
  | ideintr ok => exact ⟨_, h.ideintr hs⟩

omit [DecidableEq P] in
theorem ideintr_some (h : Holds s (b :: l)) (hl : ∀ b' ∈ l, (s.ident b').2.toNat < fssize) (ok : Bool) :
    ∃ t, s.ideintr ok = some t ∧ t.ident = s.ident ∧ t.requests = s.requests := by
  rw [h.ideintr_eq]
  cases l with
  | nil => exact ⟨_, rfl, rfl, rfl⟩
  | cons b' l =>
    have hb' : ¬ fssize ≤ (s.ident b').2.toNat := Nat.not_le.mpr (hl b' (by simp))
    exact ⟨_, if_neg hb', rfl, rfl⟩

theorem drain (h : Holds s l) (hl : ∀ b ∈ l, (s.ident b).2.toNat < fssize) (oks : List Bool) (hn : oks.length = l.length) :
    ∃ t, run State.step s (oks.map .ideintr) = some t ∧ Holds t [] ∧ t.requests = s.requests := by
  induction l generalizing s oks with
  | nil =>
    obtain rfl := List.eq_nil_of_length_eq_zero hn
    exact ⟨s, rfl, h, rfl⟩
  | cons b l ih =>
    obtain ⟨ok, oks, rfl⟩ := List.exists_cons_of_length_eq_add_one hn
    obtain ⟨u, hu, hid, hreq⟩ := h.ideintr_some (fun b' hb' => hl b' (by simp [hb'])) ok
    obtain ⟨t, ht, hh, hreq'⟩ := ih (h.ideintr hu) (fun b' hb' => by rw [hid]; exact hl b' (by simp [hb'])) oks
      (by simpa using hn)
    exact ⟨t, run_cons_eq.mpr ⟨u, hu, ht⟩, hh, hreq'.trans hreq⟩

theorem returns (h : Holds s l) {a : Act P D} (hs : s.step a = some t) (hp : s.pc p ≠ .run) (ht : t.pc p = .run) :
    ∃ b k, s.pc p = .awake b k ∧ s.synced b := by
  cases a with
  | acquire q b | change q b id v d x | release q b =>
    simp only [State.step, guard_some] at hs
    obtain ⟨_, rfl⟩ := hs
    exact absurd ht hp
  | iderw q b =>
    simp only [State.step, guard_some] at hs
    obtain ⟨_, rfl⟩ := hs
    by_cases hpq : p = q
    · simp [hpq] at ht
    · exact absurd (by simpa [hpq] using ht) hp
  | step q =>
    have hpq : t.pc = update s.pc q (t.pc q) → p = q := by
      intro hpc
      by_contra hne
      rw [hpc, update_of_ne hne] at ht
      exact hp ht
    simp only [State.step] at hs
    cases hq : s.pc q with
    | enter b =>
      rw [hq] at hs
      have hpc := (h.enter hq hs).2
      obtain rfl := hpq (by rw [hpc, update_self])
      simp [hpc] at ht
    | awake b k =>
      rw [hq] at hs
      cases hs
      obtain rfl := hpq (by simp [State.await])
      refine ⟨b, k, hq, ?_⟩
      by_contra hsync
      simp [State.await, hsync] at ht
    | run | asleep b k => simp [hq, State.next] at hs
  | kill q =>
    simp only [State.step] at hs
    split at hs
    · cases hs
      by_cases hpq : p = q
      · simp [hpq] at ht
      · exact absurd (by simpa [hpq] using ht) hp
    · simp at hs
  | ideintr ok => exact absurd (Pc.buf_eq_none.mp ((ideintr_buf hs p).symm.trans (Pc.buf_eq_none.mpr ht))) hp

end Holds

structure Agrees (s : State P D) (c : Bio.State P D) : Prop where
  ident : s.ident = c.ident
  valid : s.valid = c.valid
  dirty : s.dirty = c.dirty
  data : s.data = c.data
  disk : ∀ id : Ident, id.1 &&& 1 = id.1 → s.disk id = c.disk id

theorem Holds.ideintr_iderw [DecidableEq P] (h : Holds s (b :: l)) {c : Bio.State P D} (ha : Agrees s c)
    (hdrive : (s.ident b).1 &&& 1 = (s.ident b).1) {ok : Bool} (hs : s.ideintr ok = some t) :
    ∃ c', c.iderwStatus ok b = some c' ∧ Agrees t c' := by
  let u := (s.perform (s.command b) []).finish (s.command b) ok b
  have hu : ∀ c', Agrees u c' → Agrees t c' := by
    rw [h.ideintr_eq] at hs
    cases l with
    | nil =>
      cases hs
      exact fun _ => id
    | cons b' l =>
      simp only [State.idestart, Option.ite_none_left_eq_some, Option.some.injEq] at hs
      obtain ⟨_, rfl⟩ := hs
      exact fun _ hu => ⟨hu.ident, hu.valid, hu.dirty, hu.data, hu.disk⟩
  have hpend := h.pending b (by simp)
  rw [State.synced, ha.valid, ha.dirty] at hpend
  have haddr : ((s.command b).drive, (s.command b).sector) = s.ident b := Prod.ext hdrive rfl
  have hvalid : update s.valid b true = update c.valid b true := congrArg (update · b true) ha.valid
  have hdirty : update s.dirty b false = update c.dirty b false := congrArg (update · b false) ha.dirty
  cases hd : s.dirty b with
  | true =>
    have hw : (s.command b).write = some (s.data b) := by simp [State.command, hd]
    have hd' : c.dirty b = true := by rw [← ha.dirty, hd]
    refine ⟨_, (if_neg (by simp [hd'])).trans (if_neg hpend), ?_⟩
    refine hu _ ⟨ha.ident, hvalid, hdirty, ?_, fun id hid => ?_⟩
    · simp [u, State.finish, State.perform, State.wakeup, hd, hd', ha.data]
    · simp only [u, State.finish, State.perform, State.wakeup, hw, Option.elim_some, haddr, hd', if_true, ← ha.ident, ← ha.data]
      by_cases hib : id = s.ident b
      · simp [hib]
      · simpa [hib] using ha.disk id hid
  | false =>
    have hw : (s.command b).write = none := by simp [State.command, hd]
    have hd' : c.dirty b = false := by rw [← ha.dirty, hd]
    have hdisk : ∀ id : Ident, id.1 &&& 1 = id.1 → u.disk id = c.disk id := by
      intro id hid
      simpa [u, State.finish, State.perform, State.wakeup, hw] using ha.disk id hid
    cases ok with
    | true =>
      refine ⟨_, (if_neg (by simp)).trans (if_neg hpend), ?_⟩
      refine hu _ ⟨ha.ident, hvalid, hdirty, ?_, ?_⟩
      · simp [u, State.finish, State.perform, State.wakeup, hd, hw, haddr, hd', ha.data, ← ha.ident, ha.disk _ hdrive]
      · simpa [hd'] using hdisk
    | false =>
      have hv' : c.valid b = false := by simpa [hd'] using hpend
      refine ⟨_, if_pos ⟨hv', hd', rfl⟩, ?_⟩
      refine hu _ ⟨ha.ident, hvalid, ?_, ?_, hdisk⟩
      · exact hdirty.trans ((update_eq_self_iff).mpr hd'.symm)
      · simpa [u, State.finish, State.perform, State.wakeup] using ha.data

theorem idequeue_fifo [DecidableEq P] {next : Buf → Option Buf} {ident : Buf → Ident} {valid dirty : Buf → Bool}
    {lock : Buf → Option P} {data : Buf → D} {havedisk1 : Bool} {disk : UInt32 × UInt32 → D} {as : List (Act P D)}
    (hr : run State.step (ideinit next ident valid dirty lock data havedisk1 disk) as = some s) :
    (∃ l, Queue.Lists s.queue.next s.queue.head l ∧ l.Nodup ∧ s.requests = s.finished ++ l ∧ s.issued = s.finished ++ l.take 1 ∧
      s.device = (l.take 1).map s.command ∧ (∀ p b k, s.pc p = .asleep b k → b ∈ l) ∧
      ∀ oks : List Bool, oks.length = l.length → (∀ b ∈ l, (s.ident b).2.toNat < fssize) →
        ∃ t, run State.step s (oks.map .ideintr) = some t ∧ t.issued = s.requests ∧ t.finished = s.requests) ∧
    ∀ a p t, s.step a = some t → s.pc p ≠ .run → t.pc p = .run → ∃ b k, s.pc p = .awake b k ∧
      s.requests[k]? = some b ∧ k < s.finished.length ∧ s.valid b = true ∧ s.dirty b = false := by
  obtain ⟨l, h⟩ : ∃ l, Holds s l :=
    invariant (I := fun s : State P D => ∃ l, Holds s l) (fun _ _ _ ⟨_, h⟩ hs => h.step hs) ⟨[], Holds.ideinit ..⟩ hr
  refine ⟨⟨l, h.chain, h.nodup, h.requests, h.issued, h.device, h.asleep, fun oks hn hl => ?_⟩, fun a p t hs hp ht => ?_⟩
  · obtain ⟨t, ht, hh, hreq⟩ := h.drain hl oks hn
    have hfin : t.finished = s.requests := by simpa [hreq] using hh.requests.symm
    exact ⟨t, ht, by simpa [hfin] using hh.issued, hfin⟩
  · obtain ⟨b, k, hpc, hsync⟩ := h.returns hs hp ht
    have hw : (s.pc p).waits = some (b, k) := by rw [hpc]; rfl
    have hbl : b ∉ l := fun hm => h.pending b hm hsync
    exact ⟨b, k, hpc, h.number p b k hw, (h.done p b k hw hbl).1, hsync.1, hsync.2⟩

def twoBuffers : State (Fin 2) ℕ :=
  ideinit (fun _ => none) (fun b => if b = 0 then (1, 5) else (1, 6)) (fun _ => false) (fun _ => false) (fun _ => none)
    (fun _ => 0) true fun a => a.2.toNat

def reader : Fin 2 := ⟨0, Nat.two_pos⟩

def other : Fin 2 := ⟨1, Nat.one_lt_two⟩

def twoRequests : List (Act (Fin 2) ℕ) :=
  [.acquire reader 0, .iderw reader 0, .step reader, .acquire other 1, .iderw other 1, .step other, .ideintr true]

theorem ideintr_iderw_first : ∃ s t, run State.step twoBuffers (twoRequests.take 3) = some s ∧ s.ideintr true = some t ∧
    ∃ c c' : Bio.State (Fin 2) ℕ, c.iderwStatus true 0 = some c' ∧ Agrees t c' := by
  obtain ⟨s, hs⟩ : ∃ s, run State.step twoBuffers (twoRequests.take 3) = some s := ⟨_, rfl⟩
  obtain ⟨l, h⟩ := invariant (I := fun s : State (Fin 2) ℕ => ∃ l, Holds s l) (fun _ _ _ ⟨_, h⟩ hs => h.step hs)
    ⟨[], Holds.ideinit ..⟩ hs
  cases hs
  obtain rfl : [0] = l := h.requests
  exact ⟨_, _, rfl, rfl, _, h.ideintr_iderw (c := ⟨⟨fun _ => none, fun _ => none⟩, _, _, _, fun _ => 0, fun _ => none, _, _,
    fun _ => .run, fun _ => false, fun _ => none⟩) ⟨rfl, rfl, rfl, rfl, fun _ _ => rfl⟩ (by decide) rfl⟩

theorem idequeue_fifo_two : ∃ s, run State.step twoBuffers twoRequests = some s ∧ s.requests = [0, 1] ∧ s.finished = [0] ∧
    (∃ l, s.requests = s.finished ++ l ∧ s.issued = s.finished ++ l.take 1) ∧ s.valid 0 = true ∧ s.dirty 0 = false ∧
    s.data 0 = 5 := by
  have hrun : (run State.step twoBuffers twoRequests).any (fun s => s.requests = [0, 1] ∧ s.finished = [0] ∧
    s.pc 0 = .awake 0 0 ∧ s.data 0 = 5 ∧ (s.step (.step 0)).any fun t => t.pc 0 = .run) = true := by decide
  obtain ⟨s, hs, hfacts⟩ := (Option.any_eq_true _ _).mp hrun
  simp only [decide_eq_true_eq, Option.any_eq_true] at hfacts
  obtain ⟨hreq, hfin, hpc, hdata, t, ht, hret⟩ := hfacts
  have h := idequeue_fifo hs
  obtain ⟨b, k, hb, _, _, hv, hd⟩ := h.2 _ 0 t ht (by simp [hpc]) hret
  obtain ⟨rfl, _⟩ : 0 = b ∧ 0 = k := by simpa [hpc] using hb
  obtain ⟨l, _, _, hl, hiss, _⟩ := h.1
  exact ⟨s, hs, hreq, hfin, ⟨l, hl, hiss⟩, hv, hd, hdata⟩

end Laboratorio.Ide
