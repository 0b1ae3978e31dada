import Laboratorio.Procs.Exit
import Laboratorio.Procs.Threads

/-!
What holds of the code that threads run: which locks it holds at each step and in what state its process is.
-/

namespace Laboratorio.Procs

open Function Runs

def drowsy : List Instr → Bool
  | [] => false
  | .setState st :: _ => st = .sleeping
  | .await :: _ => false
  | .swtch :: _ => false
  | _ :: k => drowsy k

def Calm (k : List Instr) : Prop := drowsy k → .await ∉ k

def child : List Instr → Option Slot
  | [] => none
  | .kstack np :: _ => some np
  | .copyuvm np :: _ => some np
  | .setRunnable np :: _ => some np
  | _ :: k => child k

def holds {α : Type} [DecidableEq α] (l : Option α) (a : α) : Bool := l = some a

variable {α : Type}

@[simp] theorem holds_eq_true [DecidableEq α] {l : Option α} {a : α} : holds l a = true ↔ l = some a := by
  simp [holds]

@[simp] theorem holds_self [DecidableEq α] (a : α) : holds (some a) a = true := by
  simp

@[simp] theorem holds_none [DecidableEq α] (a : α) : holds none a = false := by
  simp [holds]

theorem holds_congr [DecidableEq α] {l l' : Option α} {a : α} (h : l' = some a ↔ l = some a) : holds l' a = holds l a := by
  simp [holds, h]

def Lock.held (lk : Lock) (pt ot : Bool) : Bool := match lk with
  | .ptable => pt
  | .other => ot

/-- `Typed lk pt ot st k`: a thread may run `k` when it holds `ptable.lock` iff
`pt`, the other lock iff `ot`, and its process is in state `st`. -/
def Typed (lk : Lock) : Bool → Bool → Procstate → List Instr → Prop
  | pt, ot, st, [] => pt = false ∧ ot = false ∧ st = .running
  | pt, ot, st, i :: k =>
    match i with
    | .acquire .ptable => pt = false ∧ st = .running ∧ (Calm k ∨ lk.held pt ot) ∧ Typed lk true ot st k
    | .acquire .other => pt = false ∧ ot = false ∧ st = .running ∧ Calm k ∧ Typed lk pt true st k
    | .release .ptable => pt = true ∧ st = .running ∧ Calm k ∧ Typed lk false ot st k
    | .release .other => ot = true ∧ st = .running ∧ (Calm k ∨ pt = true) ∧ Typed lk pt false st k
    | .setChan _ => pt = true ∧ st = .running ∧ Typed lk pt ot st k
    | .setState st' =>
      pt = true ∧ ot = false ∧ st = .running ∧ (st' = .runnable ∨ st' = .sleeping ∨ st' = .zombie) ∧ Typed lk pt ot st' k
    | .swtch =>
      pt = true ∧ ot = false ∧ (st = .zombie ∧ k = [] ∨ (st = .runnable ∨ st = .sleeping) ∧ Calm k ∧
        Typed lk true false .running k)
    | .wakeup1 _ | .kill _ | .reparent => pt = true ∧ st = .running ∧ .await ∉ k ∧ Typed lk pt ot st k
    | .allocproc => pt = true ∧ st = .running ∧ child k = none ∧ Calm k ∧ Typed lk false ot st k
    | .kstack _ | .copyuvm _ => pt = false ∧ st = .running ∧ child k = none ∧ Calm k ∧ Typed lk pt ot st k
    | .setRunnable _ => pt = true ∧ st = .running ∧ child k = none ∧ Typed lk pt ot st k
    | .waitScan => pt = true ∧ ot = false ∧ st = .running ∧ .await ∉ k ∧ Typed lk false ot st k
    | .await => lk.held pt ot ∧ (lk = .ptable → ot = false) ∧ (lk = .other → pt = false) ∧ st = .running ∧ .await ∉ k ∧
      Typed lk pt ot st k
    | .setCond _ => lk.held pt ot ∧ st = .running ∧ .await ∉ k ∧ Typed lk pt ot st k

section typed

variable {lk : Lock} {pt ot : Bool} {st : Procstate} {k : List Instr}

theorem calm_cons {i : Instr} (hk : Calm k) (hi : ∀ st, i ≠ .setState st) (ha : i ≠ .await) : Calm (i :: k) := by
  intro hd
  have hdk : drowsy (i :: k) → drowsy k := by
    cases i <;> simp_all [drowsy]
  simp [hk (hdk hd), Ne.symm ha]

theorem Typed.calm (h : Typed lk pt ot st k) : Calm k ∨ pt = true ∨ lk.held pt ot := by
  cases k with
  | nil => exact Or.inl (by simp [Calm, drowsy])
  | cons i k =>
    cases i with
    | acquire l =>
      cases l with
      | ptable =>
        rcases h.2.2.1 with hk | hl
        · exact Or.inl (calm_cons hk (by simp) (by simp))
        · exact Or.inr (Or.inr hl)
      | other => exact Or.inl (calm_cons h.2.2.2.1 (by simp) (by simp))
    | release l =>
      cases l with
      | ptable => exact Or.inr (Or.inl h.1)
      | other =>
        rcases h.2.2.1 with hk | hl
        · exact Or.inl (calm_cons hk (by simp) (by simp))
        · exact Or.inr (Or.inl hl)
    | kstack np | copyuvm np => exact Or.inl (calm_cons h.2.2.2.1 (by simp) (by simp))
    | await | setCond b => exact Or.inr (Or.inr h.1)
    | _ => exact Or.inr (Or.inl h.1)

theorem Typed.not_running (h : Typed lk pt ot st k) (hst : st ≠ .running) : pt = true ∧ ot = false ∧ ∃ l, k = .swtch :: l := by
  cases k with
  | nil => exact absurd h.2.2 hst
  | cons i k =>
    cases i with
    | swtch => exact ⟨h.1, h.2.1, k, rfl⟩
    | acquire l | release l => cases l <;> simp_all [Typed]
    | _ => simp_all [Typed]

theorem Func.typed (lk : Lock) (ch : Chan) (f : Func) : Typed lk false false .running (f.code lk ch) := by
  cases f with
  | await consume => cases lk <;> cases consume <;> simp [Func.code, Typed, Lock.held, Calm, drowsy]
  | signal early => cases lk <;> cases early <;> simp [Func.code, Typed, Lock.held, wakeupCode, Calm, drowsy]
  | reset => cases lk <;> simp [Func.code, Typed, Lock.held, Calm, drowsy]
  | _ => simp [Func.code, Typed, yieldCode, wakeupCode, Calm, drowsy, child]

theorem Typed.yield (h : Typed lk false false .running k) : Typed lk false false .running (yieldCode ++ k) := by
  have hk : Calm k := by
    rcases h.calm with hk | hp | hl
    · exact hk
    · simp at hp
    · cases lk <;> simp [Lock.held] at hl
  have hr : Calm (.release .ptable :: k) := calm_cons hk (by simp) (by simp)
  simp only [yieldCode, List.cons_append, List.nil_append, Typed]
  refine ⟨trivial, trivial, Or.inl (by simp [Calm, drowsy]), trivial, trivial, trivial, Or.inl trivial, ?_⟩
  exact ⟨trivial, trivial, Or.inr ⟨Or.inl trivial, hr, trivial, trivial, hk, h⟩⟩

theorem Typed.sleep (ch : Chan) (hl : lk.held pt ot) (ho : lk = .ptable → ot = false) (hp : lk = .other → pt = false)
    (hk : .await ∉ k) (h : Typed lk pt ot .running k) : Typed lk pt ot .running (sleepCode lk ch ++ .await :: k) := by
  cases lk with
  | ptable =>
    obtain rfl : pt = true := hl
    obtain rfl : ot = false := ho rfl
    simp [sleepCode, Typed, Calm, drowsy, Lock.held, h, hk]
  | other =>
    obtain rfl : ot = true := hl
    obtain rfl : pt = false := hp rfl
    simp [sleepCode, Typed, Calm, drowsy, Lock.held, h, hk]

theorem calm_of_notMem (h : .await ∉ k) : Calm k := fun _ => h

theorem Typed.waitSleep (ch : Chan) (hk : .await ∉ k) (h : Typed lk false false .running k) :
    Typed lk true false .running (sleepCode .ptable ch ++ .waitScan :: k) := by
  have hw : Calm (.setChan none :: .waitScan :: k) := calm_of_notMem (by simp [hk])
  simp [sleepCode, Typed, h, hk, hw]

end typed

theorem child_yield (k : List Instr) : child (yieldCode ++ k) = child k := rfl

theorem child_sleep (lk : Lock) (ch : Chan) (k : List Instr) : child (sleepCode lk ch ++ k) = child k := by
  cases lk <;> rfl

theorem Func.child_code (lk : Lock) (ch : Chan) (f : Func) : child (f.code lk ch) = none := by
  cases f with
  | await consume => cases lk <;> cases consume <;> rfl
  | signal early => cases lk <;> cases early <;> rfl
  | _ => rfl

def Parked (lk : Lock) (st : Procstate) (k : List Instr) : Prop :=
  match st with
  | .runnable | .sleeping | .running => Calm k ∧ Typed lk true false .running k
  | _ => k = []

def Ctx.proc : Ctx → Option Slot
  | .idle | .scan _ => none
  | .picked p | .entering p | .thread p | .back p => some p

def Ctx.scheduling : Ctx → Bool
  | .scan _ | .picked _ | .entering _ | .back _ => true
  | _ => false

structure Threads.OnCpu (lk : Lock) (m : Threads) (c : ℕ) : Prop where
  lock : (m.ctx c).scheduling → m.lock = some c
  idle : m.ctx c = .idle → m.lock ≠ some c
  picked : ∀ p, m.ctx c = .picked p → m.ptable.states p = .runnable
  entering : ∀ p, m.ctx c = .entering p → m.ptable.states p = .running
  back : ∀ p, m.ctx c = .back p → m.ptable.states p = .runnable ∨ m.ptable.states p = .sleeping ∨ m.ptable.states p = .zombie
  typed : ∀ p, m.ctx c = .thread p → Typed lk (holds m.lock c) (holds m.other p) (m.ptable.states p) (m.code p)

structure Threads.Inv (lk : Lock) (m : Threads) : Prop where
  cpu : ∀ c, m.OnCpu lk c
  proc : ∀ c, m.proc c = (m.ctx c).proc
  one : ∀ c d p, (m.ctx c).proc = some p → (m.ctx d).proc = some p → c = d
  off : ∀ p, (∀ c, m.ctx c ≠ .thread p) → m.other ≠ some p ∧ Parked lk (m.ptable.states p) (m.code p)
  running : ∀ p, (∀ c, (m.ctx c).proc ≠ some p) → m.ptable.states p ≠ .running
  embryo : ∀ p np, child (m.code p) = some np → m.ptable.states np = .embryo
  creator : ∀ p q np, child (m.code p) = some np → child (m.code q) = some np → p = q

inductive Shift (locked : Prop) (st st' : Procstate) (k k' : List Instr) : Prop
  | same (hs : st' = st) (hk : k' = k)
  | woken (hl : locked) (hs : st = .sleeping) (hs' : st' = .runnable) (hk : k' = k)
  | alloc (hl : locked) (hs : st = .unused) (hs' : st' = .embryo) (hk : k' = k)
  | drop (hs : st = .embryo) (hs' : st' = .unused) (hk : k' = k)
  | launch (hs : st = .embryo) (hs' : st' = .runnable) (hk : k' = [.release .ptable])
  | reap (hl : locked) (hs : st = .zombie) (hs' : st' = .unused) (hk : k' = k)

theorem Shift.running {locked : Prop} {st st' : Procstate} {k k' : List Instr} (h : Shift locked st st' k k') :
    st' = .running ↔ st = .running := by
  cases h <;> simp_all

theorem Shift.parked {lk : Lock} {locked : Prop} {st st' : Procstate} {k k' : List Instr} (h : Shift locked st st' k k')
    (hp : Parked lk st k) : Parked lk st' k' := by
  cases h with
  | launch hs hs' hk => simp [hs', hk, Parked, Typed, Calm, drowsy]
  | _ => simp_all [Parked]

namespace Threads

@[simp] theorem next_code (m : Threads) (p : Slot) (k : List Instr) : (m.next p k).code = update m.code p k := rfl

variable {lk : Lock} {m : Threads} {c : ℕ} {p : Slot}

theorem OnCpu.thread (hc : m.ctx c = .thread p)
    (ht : Typed lk (holds m.lock c) (holds m.other p) (m.ptable.states p) (m.code p)) : m.OnCpu lk c := by
  refine ⟨by simp [hc, Ctx.scheduling], by simp [hc], by simp [hc], by simp [hc], by simp [hc], fun q hq => ?_⟩
  obtain rfl : p = q := by simpa [hc] using hq
  exact ht

variable {m' : Threads}

theorem OnCpu.frame (h : m.OnCpu lk c) (hctx : m'.ctx c = m.ctx c) (hl : m'.lock = some c ↔ m.lock = some c)
    (hkeep : ∀ q, (m.ctx c).proc = some q →
      m'.ptable.states q = m.ptable.states q ∧ m'.code q = m.code q ∧ (m'.other = some q ↔ m.other = some q)) :
        m'.OnCpu lk c := by
  have hst : ∀ q, (m.ctx c).proc = some q → m'.ptable.states q = m.ptable.states q := fun q hq => (hkeep q hq).1
  constructor
  · rw [hctx, hl]
    exact h.lock
  · rw [hctx, Ne, hl]
    exact h.idle
  · intro q hq
    rw [hctx] at hq
    rw [hst q (by rw [hq]; rfl)]
    exact h.picked q hq
  · intro q hq
    rw [hctx] at hq
    rw [hst q (by rw [hq]; rfl)]
    exact h.entering q hq
  · intro q hq
    rw [hctx] at hq
    rw [hst q (by rw [hq]; rfl)]
    exact h.back q hq
  · intro q hq
    rw [hctx] at hq
    obtain ⟨hs, hk, ho⟩ := hkeep q (by rw [hq]; rfl)
    rw [holds_congr hl, holds_congr ho, hs, hk]
    exact h.typed q hq

variable {d : ℕ} {q : Slot}

theorem Inv.locked_eq (h : Inv lk m) (hd : (m.ctx d).proc = some q) (hq : m.ptable.states q ≠ .running) : m.lock = some d := by
  cases hx : m.ctx d with
  | thread r =>
    obtain rfl : r = q := by simpa [hx, Ctx.proc] using hd
    simpa using (((h.cpu d).typed r hx).not_running hq).1
  | idle | scan i => simp [hx, Ctx.proc] at hd
  | picked r | entering r | back r => exact (h.cpu d).lock (by simp [hx, Ctx.scheduling])

theorem Inv.onCpu (h : Inv lk m) (hd : (m.ctx d).proc = some q) :
    m.ptable.states q ≠ .unused ∧ m.ptable.states q ≠ .embryo := by
  cases hx : m.ctx d with
  | thread r =>
    obtain rfl : r = q := by simpa [hx, Ctx.proc] using hd
    have ht := (h.cpu d).typed r hx
    by_cases hr : m.ptable.states r = .running
    · simp [hr]
    · obtain ⟨_, _, l, hl⟩ := ht.not_running hr
      rw [hl] at ht
      rcases ht.2.2 with ⟨hz, _⟩ | ⟨hz | hz, _⟩ <;> simp [hz]
  | idle | scan i => simp [hx, Ctx.proc] at hd
  | picked r =>
    obtain rfl : r = q := by simpa [hx, Ctx.proc] using hd
    simp [(h.cpu d).picked r hx]
  | entering r =>
    obtain rfl : r = q := by simpa [hx, Ctx.proc] using hd
    simp [(h.cpu d).entering r hx]
  | back r =>
    obtain rfl : r = q := by simpa [hx, Ctx.proc] using hd
    rcases (h.cpu d).back r hx with hz | hz | hz <;> simp [hz]

variable {k : List Instr}

theorem child_update (hch : child k = child (m.code p)) (q : Slot) : child (update m.code p k q) = child (m.code q) := by
  by_cases hq : q = p
  · subst hq; simp [hch]
  · simp [hq]

theorem proc_update {x : Ctx} (hx : (m.ctx c).proc = x.proc) (d : ℕ) : (update m.ctx c x d).proc = (m.ctx d).proc := by
  by_cases hd : d = c
  · subst hd; simp [hx]
  · simp [hd]

theorem Inv.shift_same (h : Inv lk m) {st : Procstate} (hd : (m.ctx d).proc = some q)
    (hcd : d ≠ c) (hs : Shift (m.lock = some c) (m.ptable.states q) st (m.code q) k) :
    st = m.ptable.states q ∧ k = m.code q := by
  have hlock : m.ptable.states q ≠ .running → m.lock ≠ some c := by
    intro hr hl
    exact hcd (Option.some.inj ((h.locked_eq hd hr).symm.trans hl))
  have hne := h.onCpu hd
  cases hs with
  | same hs hk => exact ⟨hs, hk⟩
  | woken hl hs => exact absurd hl (hlock (by simp [hs]))
  | alloc hl hs => exact absurd hs hne.1
  | drop hs | launch hs => exact absurd hs hne.2
  | reap hl hs => exact absurd hl (hlock (by simp [hs]))

section

variable (h : Inv lk m) (hc : m.ctx c = .thread p)

include h hc

theorem Inv.act (hctx : m'.ctx = m.ctx) (hproc : m'.proc = m.proc)
    (hl : ∀ d, d ≠ c → (m'.lock = some d ↔ m.lock = some d)) (ho : ∀ q, q ≠ p → (m'.other = some q ↔ m.other = some q))
    (ht : Typed lk (holds m'.lock c) (holds m'.other p) (m'.ptable.states p) (m'.code p))
    (hs : ∀ q, q ≠ p → Shift (m.lock = some c) (m.ptable.states q) (m'.ptable.states q) (m.code q) (m'.code q))
    (he : ∀ q np, child (m'.code q) = some np → m'.ptable.states np = .embryo)
    (hone : ∀ q r np, child (m'.code q) = some np → child (m'.code r) = some np → q = r) : Inv lk m' := by
  have hpc : (m.ctx c).proc = some p := by rw [hc]; rfl
  have hnotp : ∀ d q, (m.ctx d).proc = some q → d ≠ c → q ≠ p := by
    rintro d q hd hdc rfl
    exact hdc (h.one d c q hd hpc)
  refine .mk (fun d => ?_) (fun d => ?_) ?_ (fun q hq => ?_) (fun q hq => ?_) he hone
  · by_cases hdc : d = c
    · subst hdc
      exact .thread (by rw [hctx, hc]) ht
    · refine (h.cpu d).frame (by rw [hctx]) (hl d hdc) fun q hq => ?_
      have hqp := hnotp d q hq hdc
      obtain ⟨hst, hk⟩ := h.shift_same hq hdc (hs q hqp)
      exact ⟨hst, hk, ho q hqp⟩
  · rw [hproc, hctx]
    exact h.proc d
  · rw [hctx]
    exact h.one
  · rw [hctx] at hq
    have hqp : q ≠ p := by
      rintro rfl
      exact hq c hc
    obtain ⟨hno, hpark⟩ := h.off q hq
    refine ⟨?_, (hs q hqp).parked hpark⟩
    rw [Ne, ho q hqp]
    exact hno
  · rw [hctx] at hq
    have hqp : q ≠ p := by
      rintro rfl
      exact hq c hpc
    rw [Ne, (hs q hqp).running]
    exact h.running q hq

theorem Inv.onCpu_thread : m.ptable.states p ≠ .unused ∧ m.ptable.states p ≠ .embryo :=
  h.onCpu (by rw [hc]; rfl)

theorem Inv.own (hctx : m'.ctx = m.ctx) (hproc : m'.proc = m.proc) (hcode : m'.code = update m.code p k)
    (hch : child k = child (m.code p)) (hl : ∀ d, d ≠ c → (m'.lock = some d ↔ m.lock = some d))
    (ho : ∀ q, q ≠ p → (m'.other = some q ↔ m.other = some q))
    (ht : Typed lk (holds m'.lock c) (holds m'.other p) (m'.ptable.states p) k)
    (hs : ∀ q, q ≠ p → m'.ptable.states q = m.ptable.states q ∨
      m.lock = some c ∧ m.ptable.states q = .sleeping ∧ m'.ptable.states q = .runnable) : Inv lk m' := by
  have hchild : ∀ q, child (m'.code q) = child (m.code q) := by
    rw [hcode]
    exact child_update hch
  refine h.act hc hctx hproc hl ho (by simpa [hcode] using ht) (fun q hq => ?_) (fun q np hnp => ?_) (fun q r np hq hr => ?_)
  · have hk : m'.code q = m.code q := by simp [hcode, hq]
    rcases hs q hq with hsame | ⟨hlock, hsl, hrun⟩
    · exact .same hsame hk
    · exact .woken hlock hsl hrun hk
  · have hemb := h.embryo q np (by rw [← hchild]; exact hnp)
    have hnpp : np ≠ p := by
      rintro rfl
      exact (h.onCpu_thread hc).2 hemb
    rcases hs np hnpp with hsame | ⟨_, hsl, _⟩
    · rw [hsame, hemb]
    · simp [hemb] at hsl
  · rw [hchild] at hq hr
    exact h.creator q r np hq hr

end

section instructions

variable {k : List Instr} {ch : Chan} {ok : Bool} {m' : Threads}

section

variable (h : Inv lk m) (hc : m.ctx c = .thread p)

include h hc

theorem Inv.relock {l : Option ℕ} {o : Option Slot} (hch : child k = child (m.code p))
    (hl : ∀ d, d ≠ c → (l = some d ↔ m.lock = some d)) (ho : ∀ q, q ≠ p → (o = some q ↔ m.other = some q))
    (ht : Typed lk (holds l c) (holds o p) (m.ptable.states p) k) : Inv lk { m.next p k with lock := l, other := o } :=
  h.own hc rfl rfl rfl hch hl ho ht fun _ _ => Or.inl rfl

theorem Inv.setState {st : Procstate} (hk : m.code p = .setState st :: k) :
    Inv lk { m.next p k with ptable := m.ptable.setState p st } := by
  have ht := (h.cpu c).typed p hc
  rw [hk] at ht
  refine h.own hc rfl rfl rfl (by rw [hk]; rfl) (fun _ _ => Iff.rfl) (fun _ _ => Iff.rfl) ?_ (fun q hq => Or.inl ?_)
  · simpa [next] using ht.2.2.2.2
  · simp [hq]

theorem Inv.wakes {t : Ptable} {owed : Slot → Bool} (hlock : m.lock = some c)
    (hrun : m.ptable.states p = .running) (hch : child k = child (m.code p))
    (ht : Typed lk (holds m.lock c) (holds m.other p) .running k) (hw : ∀ q, (m.ptable.states q).wokenTo (t.states q)) :
    Inv lk { m.next p k with ptable := t, owed := owed } := by
  have hp : t.states p = .running := ((hw p).eq_iff (by simp) (by simp)).mpr hrun
  refine h.own hc rfl rfl rfl hch (fun _ _ => Iff.rfl) (fun _ _ => Iff.rfl) ?_ (fun q hq => ?_)
  · simpa [next, hp] using ht
  · rcases hw q with hsame | ⟨hsl, hr⟩
    · exact Or.inl hsame
    · exact Or.inr ⟨hlock, hsl, hr⟩

end

theorem kill_states (t : Ptable) (pid : Int32) (q : Slot) : (t.states q).wokenTo ((Procs.kill t pid).1.states q) := by
  unfold Procs.kill
  split
  · exact Or.inl rfl
  next i hi =>
  simp only [Ptable.states_set]
  by_cases hq : q = i
  · subst hq
    by_cases hsl : (t.proc q).state = .sleeping
    · exact Or.inr ⟨hsl, by simp [hsl]⟩
    · exact Or.inl (by simp [hsl, Ptable.states])
  · exact Or.inl (by simp [hq])

theorem Inv.allocproc (h : Inv lk m) (hc : m.ctx c = .thread p) (hk : m.code p = .allocproc :: k)
    (hs : instr lk ch m c p ok k .allocproc = some m') : Inv lk m' := by
  have ht := (h.cpu c).typed p hc
  rw [hk] at ht
  obtain ⟨hlock, hrun, hchild, hcalm, hrest⟩ := ht
  have hlock : m.lock = some c := by simpa using hlock
  simp only [instr] at hs
  split at hs
  · cases hs
    refine h.own hc rfl rfl rfl (by rw [hk]; rfl) (fun _ _ => Iff.rfl) (fun _ _ => Iff.rfl) ?_
      (fun _ _ => Or.inl rfl)
    exact ⟨holds_eq_true.mpr hlock, hrun, hcalm, hrest⟩
  next np t ha =>
  cases hs
  obtain ⟨hfree, hst⟩ := allocproc_states ha
  have hnp : np ≠ p := by
    rintro rfl
    exact (h.onCpu_thread hc).1 hfree
  have hnone : ∀ q, child (m.code q) ≠ some np := by
    intro q hq
    simp [h.embryo q np hq] at hfree
  have hcode : ∀ q, child (update m.code p (.release .ptable :: .kstack np :: k) q) =
      if q = p then some np else child (m.code q) := by
    intro q
    by_cases hq : q = p <;> simp [hq, child]
  refine h.act hc rfl rfl (fun _ _ => Iff.rfl) (fun _ _ => Iff.rfl) ?_ (fun q hq => ?_) (fun q mp hmp => ?_)
    (fun q r mp hq hr => ?_)
  · have hkc : Calm (.kstack np :: k) := calm_cons hcalm (by simp) (by simp)
    simp only [next, update_self, hst, update_of_ne hnp.symm, hlock, hrun, Typed]
    simpa [hkc, hchild, hcalm, hrun] using hrest
  · simp only [next, hst, update_of_ne hq]
    by_cases hqn : q = np
    · subst hqn; exact .alloc hlock hfree (by simp) rfl
    · exact .same (by simp [hqn]) rfl
  · simp only [next, hcode] at hmp
    simp only [hst]
    by_cases hmn : mp = np
    · simp [hmn]
    · by_cases hq : q = p
      · simp [hq, Ne.symm hmn] at hmp
      · simpa [hmn] using h.embryo q mp (by simpa [hq] using hmp)
  · simp only [next, hcode] at hq hr
    by_cases hqp : q = p <;> by_cases hrp : r = p
    · rw [hqp, hrp]
    · simp only [hqp, if_true, Option.some.injEq] at hq
      simp only [hrp, if_false] at hr
      exact absurd (hq ▸ hr) (hnone r)
    · simp only [hrp, if_true, Option.some.injEq] at hr
      simp only [hqp, if_false] at hq
      exact absurd (hr ▸ hq) (hnone q)
    · simp only [hqp, hrp, if_false] at hq hr
      exact h.creator q r mp hq hr

variable {np : Slot}

theorem Inv.letGo (h : Inv lk m) (hc : m.ctx c = .thread p) {st : Procstate} {code : Slot → List Instr}
    (hnp : child (m.code p) = some np) (hk : child k = none)
    (ht : Typed lk (holds m.lock c) (holds m.other p) (m.ptable.states p) k) (hcp : code p = k)
    (hcode : ∀ q, q ≠ p → q ≠ np → code q = m.code q) (hcn : child (code np) = none)
    (hs : Shift (m.lock = some c) .embryo st (m.code np) (code np)) :
    Inv lk { m with code := code, ptable := m.ptable.setState np st } := by
  have hemb := h.embryo p np hnp
  have hne : np ≠ p := by
    rintro rfl
    exact (h.onCpu_thread hc).2 hemb
  have hchild : ∀ q mp, child (code q) = some mp → q ≠ p ∧ q ≠ np ∧ child (m.code q) = some mp := by
    intro q mp hq
    have hqp : q ≠ p := by
      rintro rfl
      simp [hcp, hk] at hq
    have hqn : q ≠ np := by
      rintro rfl
      simp [hcn] at hq
    exact ⟨hqp, hqn, by rw [← hcode q hqp hqn]; exact hq⟩
  refine h.act hc rfl rfl (fun _ _ => Iff.rfl) (fun _ _ => Iff.rfl) ?_ (fun q hq => ?_) (fun q mp hq => ?_)
    (fun q r mp hq hr => ?_)
  · simpa [hcp, hne.symm] using ht
  · by_cases hqn : q = np
    · subst hqn; simpa [hemb] using hs
    · exact .same (by simp [hqn]) (hcode q hq hqn)
  · obtain ⟨hqp, _, hm⟩ := hchild q mp hq
    have hmn : mp ≠ np := by
      rintro rfl
      exact hqp (h.creator q p mp hm hnp)
    simpa [hmn] using h.embryo q mp hm
  · exact h.creator q r mp (hchild q mp hq).2.2 (hchild r mp hr).2.2

theorem Inv.embryo_code (h : Inv lk m) (hnp : m.ptable.states np = .embryo) : m.code np = [] := by
  have hoff : ∀ d, m.ctx d ≠ .thread np := by
    intro d hd
    exact (h.onCpu_thread hd).2 hnp
  simpa [hnp, Parked] using (h.off np hoff).2

section

variable (h : Inv lk m) (hc : m.ctx c = .thread p)

include h hc

theorem Inv.drops (hnp : child (m.code p) = some np) (hk : child k = none)
    (ht : Typed lk (holds m.lock c) (holds m.other p) (m.ptable.states p) k) :
    Inv lk { m.next p k with ptable := m.ptable.setState np .unused } := by
  have hemb := h.embryo p np hnp
  have hne : np ≠ p := by
    rintro rfl
    exact (h.onCpu_thread hc).2 hemb
  have hcode : update m.code p k np = m.code np := by simp [hne]
  refine h.letGo hc hnp hk ht (by simp) (fun q hq _ => by simp [hq]) ?_ (.drop rfl rfl hcode)
  rw [next_code, hcode, h.embryo_code hemb]
  rfl

theorem Inv.reaps {t : Ptable} {i : Slot} {pid : Int32} (hlock : m.lock = some c)
    (hrun : m.ptable.states p = .running) (hw : Procs.wait m.ptable p = .reaped i pid t) (hch : child k = child (m.code p))
    (ht : Typed lk (holds m.lock c) (holds m.other p) .running k) : Inv lk { m.next p k with ptable := t } := by
  obtain ⟨_, hz, _, hst, _⟩ := wait_reaped hw
  have hip : i ≠ p := by
    rintro rfl
    simp [hrun] at hz
  have hchild := child_update hch
  refine h.act hc rfl rfl (fun _ _ => Iff.rfl) (fun _ _ => Iff.rfl) ?_ (fun q hq => ?_) (fun q np hnp => ?_)
    (fun q r np hq hr => ?_)
  · simpa [next, hst, hip.symm, hrun] using ht
  · have hk : (m.next p k).code q = m.code q := by simp [next, hq]
    by_cases hqi : q = i
    · subst hqi; exact .reap hlock hz (by simp [hst]) hk
    · exact .same (by simp [hst, hqi]) hk
  · have hemb := h.embryo q np (by rw [← hchild]; exact hnp)
    have hni : np ≠ i := by
      rintro rfl
      simp [hemb] at hz
    simpa [hst, hni] using hemb
  · exact h.creator q r np (by rw [← hchild]; exact hq) (by rw [← hchild]; exact hr)

theorem Inv.swtch (hk : m.code p = .swtch :: k) : Inv lk { m.next p k with ctx := update m.ctx c (.back p) } := by
  have ht := (h.cpu c).typed p hc
  rw [hk] at ht
  obtain ⟨hlock, hother, hst⟩ := ht
  have hlock : m.lock = some c := by simpa using hlock
  have hother : m.other ≠ some p := by simpa [holds] using hother
  have hproc : ∀ d, (update m.ctx c (.back p) d).proc = (m.ctx d).proc := proc_update (by rw [hc]; rfl)
  have hchild : ∀ q, child (update m.code p k q) = child (m.code q) := child_update (by rw [hk]; rfl)
  have hnotp : ∀ d q, (m.ctx d).proc = some q → d ≠ c → q ≠ p := by
    rintro d q hd hdc rfl
    exact hdc (h.one d c q hd (by rw [hc]; rfl))
  refine .mk (fun d => ?_) (fun d => ?_) (fun d e q hd he => ?_) (fun q hq => ?_) (fun q hq => ?_) (fun q np hq => ?_)
    fun q r np hq hr => ?_
  · by_cases hdc : d = c
    · subst hdc
      refine ⟨fun _ => hlock, by simp, by simp, by simp, fun q hq => ?_, by simp⟩
      obtain rfl : p = q := by simpa using hq
      rcases hst with ⟨hz, _⟩ | ⟨hr | hs, _⟩
      · exact Or.inr (Or.inr hz)
      · exact Or.inl hr
      · exact Or.inr (Or.inl hs)
    · exact (h.cpu d).frame (by simp [hdc]) Iff.rfl fun q hq => ⟨rfl, by simp [next, hnotp d q hq hdc], Iff.rfl⟩
  · rw [hproc]
    exact h.proc d
  · exact h.one d e q ((hproc d).symm.trans hd) ((hproc e).symm.trans he)
  · by_cases hqp : q = p
    · subst hqp
      refine ⟨hother, ?_⟩
      simp only [next, update_self]
      rcases hst with ⟨hz, hnil⟩ | ⟨hr | hs, hrest⟩
      · rw [hz]; exact hnil
      · rw [hr]; exact hrest
      · rw [hs]; exact hrest
    · have hoff := h.off q (fun d hd => ?_)
      · simpa [next, hqp] using hoff
      · have hdc : d ≠ c := by
          rintro rfl
          exact hqp (by simpa [hc, eq_comm] using hd)
        exact hq d (by simpa [hdc] using hd)
  · exact h.running q (fun d hd => hq d ((hproc d).trans hd))
  · exact h.embryo q np ((hchild q).symm.trans hq)
  · exact h.creator q r np ((hchild q).symm.trans hq) ((hchild r).symm.trans hr)

theorem Inv.instr {i : Instr} (hk : m.code p = i :: k) (hs : instr lk ch m c p ok k i = some m') : Inv lk m' := by
  have ht := (h.cpu c).typed p hc
  rw [hk] at ht
  cases i with
  | acquire l =>
    cases l <;> simp only [Threads.instr, guard_some] at hs <;> obtain ⟨hfree, rfl⟩ := hs
    · exact h.relock hc (by rw [hk]; rfl) (fun d hd => by simp [hfree, Ne.symm hd]) (fun _ _ => Iff.rfl)
        (by simpa [next] using ht.2.2.2)
    · exact h.relock hc (by rw [hk]; rfl) (fun _ _ => Iff.rfl) (fun q hq => by simp [hfree, Ne.symm hq])
        (by simpa [next] using ht.2.2.2.2)
  | release l =>
    cases l <;> simp only [Threads.instr, guard_some] at hs <;> obtain ⟨hheld, rfl⟩ := hs
    · exact h.relock hc (by rw [hk]; rfl) (fun d hd => by simp [hheld, Ne.symm hd]) (fun _ _ => Iff.rfl) ht.2.2.2
    · exact h.relock hc (by rw [hk]; rfl) (fun _ _ => Iff.rfl) (fun q hq => by simp [hheld, Ne.symm hq]) ht.2.2.2
  | setChan x =>
    obtain rfl := Option.some.inj hs
    refine h.own hc rfl rfl rfl (by rw [hk]; rfl) (fun _ _ => Iff.rfl) (fun _ _ => Iff.rfl) ?_ (fun q _ => Or.inl ?_)
    · simpa [next] using ht.2.2
    · simp
  | setState st =>
    obtain rfl := Option.some.inj hs
    exact h.setState hc hk
  | swtch =>
    simp only [Threads.instr, guard_some] at hs
    obtain ⟨_, rfl⟩ := hs
    exact h.swtch hc hk
  | wakeup1 x =>
    obtain rfl := Option.some.inj hs
    obtain ⟨hl, hr, _, ht⟩ := ht
    exact h.wakes hc (by simpa using hl) hr (by rw [hk]; rfl) (hr ▸ ht) (states_wakeup1 _ _)
  | kill pid =>
    obtain rfl := Option.some.inj hs
    obtain ⟨hl, hr, _, ht⟩ := ht
    exact h.wakes hc (by simpa using hl) hr (by rw [hk]; rfl) (hr ▸ ht) (kill_states _ _)
  | allocproc => exact h.allocproc hc hk hs
  | kstack np =>
    obtain ⟨hl, hr, hch, hcalm, hrest⟩ := ht
    simp only [Threads.instr] at hs
    split_ifs at hs
    · obtain rfl := Option.some.inj hs
      refine h.own hc rfl rfl rfl (by rw [hk]; rfl) (fun _ _ => Iff.rfl) (fun _ _ => Iff.rfl) ?_ (fun _ _ => Or.inl rfl)
      exact ⟨hl, hr, hch, hcalm, hrest⟩
    · obtain rfl := Option.some.inj hs
      exact h.drops hc (by rw [hk]; rfl) hch hrest
  | copyuvm np =>
    obtain ⟨hl, hr, hch, hcalm, hrest⟩ := ht
    simp only [Threads.instr] at hs
    split_ifs at hs
    · obtain rfl := Option.some.inj hs
      refine h.own hc rfl rfl rfl (by rw [hk]; rfl) (fun _ _ => Iff.rfl) (fun _ _ => Iff.rfl) ?_ (fun _ _ => Or.inl (by simp))
      have hcalm' : Calm (.setRunnable np :: .release .ptable :: k) :=
        calm_cons (calm_cons hcalm (by simp) (by simp)) (by simp) (by simp)
      have hch' : child (.release .ptable :: k) = none := hch
      simpa [next, Typed, hl, hr, hch', hcalm, hcalm'] using hrest
    · obtain rfl := Option.some.inj hs
      exact h.drops hc (by rw [hk]; rfl) hch hrest
  | setRunnable np =>
    obtain rfl := Option.some.inj hs
    have hnp : child (m.code p) = some np := by rw [hk]; rfl
    have hne : np ≠ p := by
      rintro rfl
      exact (h.onCpu_thread hc).2 (h.embryo np np hnp)
    refine h.letGo hc hnp ht.2.2.1 ht.2.2.2 (by simp [next, hne.symm]) (fun q hq hqn => by simp [next, hq, hqn])
      (by simp [next, child]) ?_
    exact .launch rfl rfl (by simp [next])
  | reparent =>
    obtain rfl := Option.some.inj hs
    obtain ⟨hl, hr, _, ht⟩ := ht
    apply h.wakes hc (by simpa using hl) hr (by rw [hk]; rfl) (hr ▸ ht)
    intro q
    exact (states_wakeup1 _ _ q).trans ((reparentAll_reparented _ p m.initproc).state q)
  | waitScan =>
    obtain ⟨hl, ho, hr, ha, hrest⟩ := ht
    have hl' : m.lock = some c := by simpa using hl
    have hdone : Typed lk (holds m.lock c) (holds m.other p) .running (.release .ptable :: k) :=
      ⟨hl, rfl, calm_of_notMem ha, hr ▸ hrest⟩
    simp only [Threads.instr] at hs
    split at hs
    · next hw =>
      obtain rfl := Option.some.inj hs
      exact h.reaps hc hl' hr hw (by rw [hk]; rfl) hdone
    · obtain rfl := Option.some.inj hs
      exact h.wakes hc hl' hr (by rw [hk]; rfl) hdone (fun _ => Or.inl rfl)
    · obtain rfl := Option.some.inj hs
      refine h.wakes hc hl' hr (by rw [hk, child_sleep]) ?_ (fun _ => Or.inl rfl)
      rw [hl, ho]
      exact Typed.waitSleep _ ha (by rw [ho, hr] at hrest; exact hrest)
  | await =>
    obtain ⟨hl, ho, hp, hr, ha, hrest⟩ := ht
    simp only [Threads.instr] at hs
    split_ifs at hs
    · obtain rfl := Option.some.inj hs
      exact h.own hc rfl rfl rfl (by rw [hk]; rfl) (fun _ _ => Iff.rfl) (fun _ _ => Iff.rfl) hrest (fun _ _ => Or.inl rfl)
    · obtain rfl := Option.some.inj hs
      refine h.own hc rfl rfl rfl (by rw [hk, child_sleep]) (fun _ _ => Iff.rfl) (fun _ _ => Iff.rfl) ?_ (fun _ _ => Or.inl rfl)
      change Typed lk (holds m.lock c) (holds m.other p) (m.ptable.states p) _
      rw [hr] at hrest ⊢
      exact Typed.sleep ch hl ho hp ha hrest
  | setCond b =>
    obtain rfl := Option.some.inj hs
    exact h.own hc rfl rfl rfl (by rw [hk]; rfl) (fun _ _ => Iff.rfl) (fun _ _ => Iff.rfl) ht.2.2.2 (fun _ _ => Or.inl rfl)

end

end instructions

variable {x : Ctx}

section

variable (h : Inv lk m)

include h

theorem Inv.schedule {l : Option ℕ} {t : Ptable} {pr : ℕ → Option Slot} (hc : ∀ q, m.ctx c ≠ .thread q)
    (hx : ∀ q, x ≠ .thread q) (hback : ∀ q, x ≠ .back q) (hpr : ∀ d, pr d = (update m.ctx c x d).proc)
    (hl : ∀ d, d ≠ c → (l = some d ↔ m.lock = some d)) (hlock : x.scheduling → l = some c)
    (hidle : x = .idle → l ≠ some c) (hone : ∀ d q, d ≠ c → x.proc = some q → (m.ctx d).proc ≠ some q)
    (hst : ∀ q, t.states q = m.ptable.states q ∨ m.ctx c = .picked q ∧ t.states q = .running)
    (hpicked : ∀ q, x = .picked q → t.states q = .runnable) (hentering : ∀ q, x = .entering q → t.states q = .running)
    (hrun : ∀ q, (m.ctx c).proc = some q → x.proc = some q ∨ t.states q ≠ .running) :
    Inv lk { m with ptable := t, lock := l, proc := pr, ctx := update m.ctx c x } := by
  have hsame : ∀ d q, d ≠ c → (m.ctx d).proc = some q → t.states q = m.ptable.states q := by
    intro d q hd hq
    rcases hst q with hs | ⟨hp, _⟩
    · exact hs
    · exact absurd (h.one d c q hq (by rw [hp]; rfl)) hd
  have hthread : ∀ d q, update m.ctx c x d = .thread q ↔ m.ctx d = .thread q := by
    intro d q
    by_cases hdc : d = c
    · subst hdc; simp [hx, hc]
    · simp [hdc]
  refine .mk (fun d => ?_) hpr (fun d e q hd he => ?_) (fun q hq => ?_) (fun q hq => ?_) (fun q np hq => ?_) h.creator
  · by_cases hdc : d = c
    · subst hdc
      exact ⟨by simpa using hlock, by simpa using hidle, by simpa using hpicked,
        by simpa using hentering, by simp [hback], by simp [hx]⟩
    · exact (h.cpu d).frame (by simp [hdc]) (hl d hdc) fun q hq => ⟨hsame d q hdc hq, rfl, Iff.rfl⟩
  · by_cases hdc : d = c <;> by_cases hec : e = c
    · rw [hdc, hec]
    · subst hdc
      exact absurd (by simpa [hec] using he) (hone e q hec (by simpa using hd))
    · subst hec
      exact absurd (by simpa [hdc] using hd) (hone d q hdc (by simpa using he))
    · exact h.one d e q (by simpa [hdc] using hd) (by simpa [hec] using he)
  · obtain ⟨hno, hpark⟩ := h.off q (fun d hd => hq d ((hthread d q).mpr hd))
    refine ⟨hno, ?_⟩
    rcases hst q with hs | ⟨hp, hs⟩
    · simpa only [hs] using hpark
    · rw [(h.cpu c).picked q hp] at hpark
      rw [hs]
      exact hpark
  · by_cases hqc : (m.ctx c).proc = some q
    · rcases hrun q hqc with hq' | hq'
      · exact absurd (by simpa using hq') (hq c)
      · exact hq'
    have hnot : ∀ d, (m.ctx d).proc ≠ some q := by
      intro d hd
      have hdc : d ≠ c := by
        rintro rfl
        exact hqc hd
      exact hq d (by simpa [hdc] using hd)
    rcases hst q with hs | ⟨hp, _⟩
    · simpa only [hs] using h.running q hnot
    · exact absurd (by rw [hp]; rfl) hqc
  · have hemb := h.embryo q np hq
    rcases hst np with hs | ⟨hp, _⟩
    · rw [hs, hemb]
    · simp [(h.cpu c).picked np hp] at hemb

theorem Inv.enters (hc : m.ctx c = .entering p) : Inv lk { m with ctx := update m.ctx c (.thread p) } := by
  have hlock : m.lock = some c := (h.cpu c).lock (by simp [hc, Ctx.scheduling])
  have hrun := (h.cpu c).entering p hc
  have hproc : ∀ d, (update m.ctx c (.thread p) d).proc = (m.ctx d).proc := proc_update (by rw [hc]; rfl)
  have hnone : ∀ d, m.ctx d ≠ .thread p := by
    intro d hd
    obtain rfl := h.one d c p (by rw [hd]; rfl) (by rw [hc]; rfl)
    simp [hc] at hd
  obtain ⟨hno, hpark⟩ := h.off p hnone
  refine .mk (fun d => ?_) (fun d => ?_) (fun d e q hd he => ?_) (fun q hq => ?_) (fun q hq => ?_) h.embryo h.creator
  · by_cases hdc : d = c
    · subst hdc
      have hno' : holds m.other p = false := by simpa [holds] using hno
      simp only [hrun, Parked] at hpark
      exact .thread (update_self _ _ _) (by simpa [hlock, hno', hrun] using hpark.2)
    · exact (h.cpu d).frame (by simp [hdc]) Iff.rfl fun _ _ => ⟨rfl, rfl, Iff.rfl⟩
  · rw [hproc]
    exact h.proc d
  · exact h.one d e q ((hproc d).symm.trans hd) ((hproc e).symm.trans he)
  · apply h.off q
    intro d hd
    have hdc : d ≠ c := by
      rintro rfl
      simp [hc] at hd
    exact hq d (by simpa [hdc] using hd)
  · exact h.running q (fun d hd => hq d ((hproc d).trans hd))

theorem Inv.proc_same (hx : (m.ctx c).proc = x.proc) (d : ℕ) : m.proc d = (update m.ctx c x d).proc :=
  (h.proc d).trans (proc_update hx d).symm

theorem Inv.proc_new (x : Ctx) (d : ℕ) : update m.proc c x.proc d = (update m.ctx c x d).proc := by
  by_cases hd : d = c
  · subst hd; simp
  · simp [h.proc, hd]

theorem Inv.scheduler (hc : m.ctx c = x) (hs : m.scheduler c x = some m') : Inv lk m' := by
  have hsame : ∀ d, d ≠ c → (m.lock = some d ↔ m.lock = some d) := fun _ _ => Iff.rfl
  have hstay : ∀ q, m.ptable.states q = m.ptable.states q ∨ m.ctx c = .picked q ∧ m.ptable.states q = .running :=
    fun _ => Or.inl rfl
  cases x with
  | idle =>
    simp only [Threads.scheduler, guard_some] at hs
    obtain ⟨hfree, rfl⟩ := hs
    exact h.schedule (by simp [hc]) (by simp) (by simp) (h.proc_same (by rw [hc]; rfl))
      (fun d hd => by simp [hfree, Ne.symm hd]) (by simp) (by simp) (by simp [Ctx.proc]) hstay (by simp) (by simp)
      (by simp [hc, Ctx.proc])
  | scan i =>
    have hlock : m.lock = some c := (h.cpu c).lock (by simp [hc, Ctx.scheduling])
    simp only [Threads.scheduler] at hs
    split_ifs at hs with hi hr
    · cases hs
      have hone : ∀ d, d ≠ c → (m.ctx d).proc ≠ some ⟨i, hi⟩ := by
        intro d hd hq
        have hl := h.locked_eq hq (by simp [hr])
        exact hd (Option.some.inj (hl.symm.trans hlock))
      exact h.schedule (by simp [hc]) (by simp) (by simp) (h.proc_new (.picked ⟨i, hi⟩)) hsame (fun _ => hlock) (by simp)
        (fun d q hd hq => Option.some.inj hq ▸ hone d hd) hstay (fun q hq => by simpa using Ctx.picked.inj hq ▸ hr) (by simp)
        (by simp [hc, Ctx.proc])
    · cases hs
      exact h.schedule (by simp [hc]) (by simp) (by simp) (h.proc_same (by rw [hc]; rfl)) hsame (fun _ => hlock) (by simp)
        (by simp [Ctx.proc]) hstay (by simp) (by simp) (by simp [hc, Ctx.proc])
    · cases hs
      exact h.schedule (by simp [hc]) (by simp) (by simp) (h.proc_same (by rw [hc]; rfl))
        (fun d hd => by simp [hlock, Ne.symm hd]) (by simp [Ctx.scheduling]) (by simp) (by simp [Ctx.proc]) hstay (by simp)
        (by simp) (by simp [hc, Ctx.proc])
  | picked p =>
    cases hs
    have hlock : m.lock = some c := (h.cpu c).lock (by simp [hc, Ctx.scheduling])
    refine h.schedule (by simp [hc]) (by simp) (by simp) (h.proc_same (by rw [hc]; rfl)) hsame (fun _ => hlock) (by simp)
      (fun d q hd hq hdq => ?_) (fun q => ?_) (by simp) (fun q hq => ?_) (fun q hq => Or.inl (by rw [← hq, hc]; rfl))
    · exact hd (h.one d c q hdq (by rw [hc]; exact hq))
    · by_cases hqp : q = p
      · subst hqp; exact Or.inr ⟨hc, by simp⟩
      · exact Or.inl (by simp [hqp])
    · obtain rfl : p = q := by simpa using hq
      simp
  | entering p =>
    cases hs
    exact h.enters hc
  | back p =>
    cases hs
    have hlock : m.lock = some c := (h.cpu c).lock (by simp [hc, Ctx.scheduling])
    refine h.schedule (by simp [hc]) (by simp) (by simp) (h.proc_new (.scan (p + 1))) hsame (fun _ => hlock) (by simp)
      (by simp [Ctx.proc]) hstay (by simp) (by simp) (fun q hq => Or.inr ?_)
    obtain rfl : p = q := by simpa [hc, Ctx.proc] using hq
    rcases (h.cpu c).back p hc with hb | hb | hb <;> simp [hb]
  | thread p => simp [Threads.scheduler] at hs

theorem Inv.running_of_free (hfree : m.lock = none) (hd : (m.ctx d).proc = some q) : m.ptable.states q = .running := by
  by_contra hq
  exact absurd (h.locked_eq hd hq) (by simp [hfree])

theorem Inv.interrupt (hfree : m.lock = none) {t : Ptable} (hw : ∀ q, (m.ptable.states q).wokenTo (t.states q)) :
    Inv lk { m with ptable := t } := by
  refine .mk (fun d => (h.cpu d).frame rfl Iff.rfl fun q hq => ⟨?_, rfl, Iff.rfl⟩) h.proc h.one (fun q hq => ?_)
    (fun q hq => ?_) (fun q np hq => ?_) h.creator
  · have hr := h.running_of_free hfree hq
    rw [hr]
    exact ((hw q).eq_iff (by simp) (by simp)).mpr hr
  · obtain ⟨hno, hpark⟩ := h.off q hq
    have hshift : Shift True (m.ptable.states q) (t.states q) (m.code q) (m.code q) := by
      rcases hw q with hs | ⟨hs, hr⟩
      · exact .same hs rfl
      · exact .woken trivial hs hr rfl
    exact ⟨hno, hshift.parked hpark⟩
  · rw [Ne, (hw q).eq_iff (by simp) (by simp)]
    exact h.running q hq
  · rw [(hw np).eq_iff (by simp) (by simp)]
    exact h.embryo q np hq

end

variable {ch : Chan}

theorem Inv.step (h : Inv lk m) {a : Move} (hs : m.step lk ch a = some m') : Inv lk m' := by
  cases a with
  | start c f =>
    simp only [Threads.step] at hs
    split at hs
    · next p hc =>
      simp only [guard_some] at hs
      obtain ⟨⟨hnil, _⟩, rfl⟩ := hs
      have ht := (h.cpu c).typed p hc
      rw [hnil] at ht
      obtain ⟨hpt, hot, hr⟩ := ht
      refine h.own hc rfl rfl rfl (by rw [hnil, f.child_code]; rfl) (fun _ _ => Iff.rfl) (fun _ _ => Iff.rfl) ?_
        (fun _ _ => Or.inl rfl)
      change Typed lk (holds m.lock c) (holds m.other p) (m.ptable.states p) _
      rw [hpt, hot, hr]
      exact f.typed lk ch
    · simp at hs
  | timer c =>
    simp only [Threads.step] at hs
    split at hs
    · next p hc =>
      simp only [guard_some] at hs
      obtain ⟨⟨hl, ho⟩, rfl⟩ := hs
      have ht := (h.cpu c).typed p hc
      have hl' : holds m.lock c = false := by simpa [holds] using hl
      have ho' : holds m.other p = false := by simpa [holds] using ho
      have hr : m.ptable.states p = .running := by
        by_contra hr
        simpa [hl'] using (ht.not_running hr).1
      refine h.own hc rfl rfl rfl (child_yield _) (fun _ _ => Iff.rfl) (fun _ _ => Iff.rfl) ?_ (fun _ _ => Or.inl rfl)
      change Typed lk (holds m.lock c) (holds m.other p) (m.ptable.states p) _
      rw [hl', ho', hr] at ht ⊢
      exact ht.yield
    · simp at hs
  | intr x =>
    simp only [Threads.step, guard_some] at hs
    obtain ⟨hfree, rfl⟩ := hs
    exact h.interrupt hfree (states_wakeup1 _ _)
  | run c ok =>
    simp only [Threads.step] at hs
    split at hs
    · next p hc =>
      split at hs
      · simp at hs
      · next i k hk => exact h.instr hc hk hs
    · next x hx => exact h.scheduler rfl hs

theorem bootThreads_inv (lk : Lock) : Inv lk bootThreads := by
  have hst : ∀ q : Slot, q ≠ 0 → bootThreads.ptable.states q = .unused := by
    intro q hq
    simp [bootThreads, bootTable, Ptable.states, bssProc, hq]
  have hst0 : bootThreads.ptable.states 0 = .runnable := rfl
  have hchild : ∀ q, child (bootThreads.code q) = none := by
    intro q
    by_cases hq : q = 0 <;> simp [bootThreads, child, hq]
  constructor
  · exact fun c => by constructor <;> simp [bootThreads, Ctx.scheduling]
  · exact fun _ => rfl
  · exact fun c d q hc => by simp [bootThreads, Ctx.proc] at hc
  · intro q _
    by_cases hq : q = 0
    · subst hq
      rw [hst0]
      simp [bootThreads, Parked, Typed, Calm, drowsy]
    · rw [hst q hq]
      simp [bootThreads, Parked, hq]
  · intro q _
    by_cases hq : q = 0
    · subst hq; simp [hst0]
    · simp [hst q hq]
  · exact fun q np hq => by simp [hchild] at hq
  · exact fun q r np hq => by simp [hchild] at hq

theorem inv_of_run {as : List Move} (hr : run (step lk ch) bootThreads as = some m) : Inv lk m :=
  invariant (fun _ _ _ h hs => h.step hs) (bootThreads_inv lk) hr

theorem instr_proc {ok : Bool} {i : Instr} (hc : m.ctx c = .thread p)
    (hs : instr lk ch m c p ok k i = some m') (d : ℕ) : (m'.ctx d).proc = (m.ctx d).proc := by
  have hswtch : (update m.ctx c (.back p) d).proc = (m.ctx d).proc := by
    by_cases hd : d = c
    · subst hd; simp [hc, Ctx.proc]
    · simp [hd]
  cases i with
  | acquire l | release l =>
    cases l <;> simp only [instr, guard_some] at hs <;> obtain ⟨_, rfl⟩ := hs <;> rfl
  | swtch =>
    simp only [instr, guard_some] at hs
    obtain ⟨_, rfl⟩ := hs
    exact hswtch
  | allocproc => simp only [instr] at hs; split at hs <;> cases hs <;> rfl
  | kstack np | copyuvm np => simp only [instr] at hs; split_ifs at hs <;> cases hs <;> rfl
  | waitScan => simp only [instr] at hs; split at hs <;> cases hs <;> rfl
  | await => simp only [instr] at hs; split_ifs at hs <;> cases hs <;> rfl
  | _ => obtain rfl := Option.some.inj hs; rfl

theorem step_proc {a : Move} (hs : m.step lk ch a = some m')
    (hd : (m.ctx d).proc = some q) : (m'.ctx d).proc = some q ∨ m'.ptable = m.ptable := by
  cases a with
  | start c f | timer c =>
    simp only [step] at hs
    split at hs
    · simp only [guard_some] at hs
      obtain ⟨_, rfl⟩ := hs
      exact Or.inr rfl
    · simp at hs
  | intr x =>
    simp only [step, guard_some] at hs
    obtain ⟨_, rfl⟩ := hs
    exact Or.inl hd
  | run c ok =>
    simp only [step] at hs
    split at hs
    · next p hc =>
      split at hs
      · simp at hs
      · rw [instr_proc hc hs]
        exact Or.inl hd
    next x hx =>
    cases hcx : m.ctx c with
    | idle =>
      simp only [hcx, scheduler, guard_some] at hs
      obtain ⟨_, rfl⟩ := hs
      exact Or.inr rfl
    | scan i =>
      simp only [hcx, scheduler] at hs
      split_ifs at hs <;> cases hs <;> exact Or.inr rfl
    | picked p =>
      simp only [hcx, scheduler, Option.some.injEq] at hs
      obtain rfl := hs
      refine Or.inl ?_
      by_cases hdc : d = c
      · subst hdc; simpa [hcx, Ctx.proc] using hd
      · simpa [hdc] using hd
    | entering p | back p =>
      simp only [hcx, scheduler, Option.some.injEq] at hs
      obtain rfl := hs
      exact Or.inr rfl
    | thread p => simp [hcx, scheduler] at hs

/-- While `ptable.lock` is free the running processes are those that CPUs have in `proc`, each on one CPU, and no step, in
particular none of `wait`, frees the slot of a process that is on a CPU. -/
theorem scheduler_exclusive {ch : Chan} {as : List Move} (hr : run (step lk ch) bootThreads as = some m) :
    (m.lock = none → ∀ p, m.ptable.states p = .running ↔ ∃ c, m.proc c = some p) ∧
      (∀ p c d, m.proc c = some p → m.proc d = some p → c = d) ∧
      (m.lock = none → ∀ p c, m.ptable.states p ∈ [.unused, .embryo, .sleeping, .zombie] → m.proc c ≠ some p) ∧
      ∀ a m' p, m.step lk ch a = some m' → m.ptable.states p ≠ .unused → m'.ptable.states p = .unused → ∀ c,
        m.proc c ≠ some p := by
  have h : Inv lk m := inv_of_run hr
  have hfree : m.lock = none → ∀ p c, m.proc c = some p → m.ptable.states p = .running := by
    intro hl p c hp
    exact h.running_of_free hl ((h.proc c).symm.trans hp)
  refine ⟨fun hl p => ⟨fun hp => ?_, fun ⟨c, hp⟩ => hfree hl p c hp⟩, fun p c d hc hd => ?_, fun hl p c hp hpc => ?_, ?_⟩
  · by_contra hnone
    push Not at hnone
    exact h.running p (fun c hc => hnone c ((h.proc c).trans hc)) hp
  · exact h.one c d p ((h.proc c).symm.trans hc) ((h.proc d).symm.trans hd)
  · simp [hfree hl p c hpc] at hp
  · intro a m' p hs hp hp' c hc
    rcases step_proc hs ((h.proc c).symm.trans hc) with hstill | htable
    · exact ((h.step hs).onCpu hstill).1 hp'
    · rw [htable] at hp'
      exact hp hp'

theorem scheduler_exclusive_first : ∃ m, run (step .other (.other 0)) bootThreads (List.replicate 5 (.run 0 true)) = some m ∧
    m.lock = none ∧ m.proc 0 = some 0 ∧ m.ptable.states 0 = .running := by
  let r := run (step .other (.other 0)) bootThreads (List.replicate 5 (.run 0 true))
  have hr : run (step .other (.other 0)) bootThreads (List.replicate 5 (.run 0 true)) = some (r.get rfl) := rfl
  exact ⟨r.get rfl, hr, rfl, rfl, ((scheduler_exclusive hr).1 rfl 0).mpr ⟨0, rfl⟩⟩

end Threads

end Laboratorio.Procs
