import Laboratorio.Lib.Links
import Laboratorio.Lib.Runs
import Laboratorio.Param

/-!
The buffer cache of `xv6/bio.c`, for processes that use a buffer only between `bread` and `brelse`. A step is one section of
code under `bcache.lock`, one wait for a sleep lock or one transfer of `iderw`.
-/

namespace Laboratorio.Bio

open Function

instance : NeZero nbuf := ⟨by decide⟩

abbrev Buf := Fin nbuf

abbrev Ident := UInt32 × UInt32

/-- Where a process is: in `bread` when it waits for the buffer's lock, tests `B_VALID` or returns, in `bwrite` before `iderw`,
in `brelse` after `releasesleep`, or elsewhere. -/
inductive Pc
  | run
  | lock (b : Buf) (id : Ident)
  | fill (b : Buf) (id : Ident)
  | ret (b : Buf) (id : Ident)
  | write (b : Buf)
  | drop (b : Buf)
  deriving DecidableEq, Repr

/-- `unsaved` marks the buffers changed since they were last logged or
written; `stored` is what was last stored in a block, if anything. -/
structure State (P D : Type) where
  links : Links Buf
  ident : Buf → Ident
  valid : Buf → Bool
  dirty : Buf → Bool
  refcnt : Buf → ℕ
  lock : Buf → Option P
  data : Buf → D
  disk : Ident → D
  pc : P → Pc
  unsaved : Buf → Bool
  stored : Ident → Option D

inductive Act (P D : Type)
  | bread (p : P) (id : Ident)
  | modify (p : P) (b : Buf) (x : D)
  | logWrite (p : P) (b : Buf)
  | bwrite (p : P) (b : Buf)
  | brelse (p : P) (b : Buf)
  | step (p : P)

namespace State

variable {P D : Type} [DecidableEq P] (s : State P D)

def goto (p : P) (l : Pc) : State P D := { s with pc := update s.pc p l }

def cached (id : Ident) : Option (Option Buf) := Links.seek s.links.next (fun b => s.ident b = id) (nbuf + 1)
    (s.links.next none)

def unused : Option (Option Buf) := Links.seek s.links.prev (fun b => s.refcnt b = 0 ∧ s.dirty b = false) (nbuf + 1)
    (s.links.prev none)

/-- `bget` up to `acquiresleep`; there is no step from its panic. -/
def bget (p : P) (id : Ident) : Option (State P D) :=
  match s.cached id with
  | none => none
  | some (some b) => some { s.goto p (.lock b id) with refcnt := update s.refcnt b (s.refcnt b + 1) }
  | some none =>
    match s.unused with
    | some (some b) => some { s.goto p (.lock b id) with
        ident := update s.ident b id, valid := update s.valid b false, dirty := update s.dirty b false, refcnt :=
          update s.refcnt b 1 }
    | _ => none

def iderw (b : Buf) : Option (State P D) :=
  if s.valid b = true ∧ s.dirty b = false then none
  else some { s with
    disk := if s.dirty b then update s.disk (s.ident b) (s.data b) else s.disk
    data := if s.dirty b then s.data else update s.data b (s.disk (s.ident b))
    valid := update s.valid b true
    dirty := update s.dirty b false }

def moveFront (b : Buf) : State P D := { s with links := (s.links.remove b).insert b }

def next (p : P) : Pc → Option (State P D)
  | .run => none
  | .lock b id => if s.lock b = none then some { s.goto p (.fill b id) with lock := update s.lock b (some p) } else none
  | .fill b id => if s.valid b then some (s.goto p (.ret b id)) else (s.iderw b).map fun t => t.goto p (.ret b id)
  | .ret _ _ => some (s.goto p .run)
  | .write b => (s.iderw b).map fun t => { t.goto p .run with unsaved := update t.unsaved b false }
  | .drop b =>
    let t : State P D := { s.goto p .run with refcnt := update s.refcnt b (s.refcnt b - 1) }
    some (if t.refcnt b = 0 then t.moveFront b else t)

def mine (p : P) (b : Buf) : Prop := s.pc p = .run ∧ s.lock b = some p

instance (p : P) (b : Buf) : Decidable (s.mine p b) := inferInstanceAs (Decidable (_ ∧ _))

def step : Act P D → Option (State P D)
  | .bread p id => if s.pc p = .run then s.bget p id else none
  | .modify p b x =>
    if s.mine p b then
      some { s with
        data := update s.data b x, unsaved := update s.unsaved b true, stored := update s.stored (s.ident b) (some x) }
    else none
  | .logWrite p b => if s.mine p b then some { s with
    dirty := update s.dirty b true, unsaved := update s.unsaved b false } else none
  | .bwrite p b => if s.mine p b then some { s.goto p (.write b) with dirty := update s.dirty b true } else none
  | .brelse p b => if s.mine p b ∧ s.unsaved b = false then some { s.goto p (.drop b) with
    lock := update s.lock b none } else none
  | .step p => s.next p (s.pc p)

end State

def binit {P D : Type} (disk : Ident → D) (data : Buf → D) : State P D where
  links := (List.finRange nbuf).foldl Links.insert Links.empty
  ident := fun _ => (0, 0)
  valid := fun _ => false
  dirty := fun _ => false
  refcnt := fun _ => 0
  lock := fun _ => none
  data := data
  disk := disk
  pc := fun _ => .run
  unsaved := fun _ => false
  stored := fun _ => none

end Laboratorio.Bio
