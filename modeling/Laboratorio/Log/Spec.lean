import Laboratorio.Log.Machine

/-!
What the log is for: operations make writes, the writes made since the last group commit become
durable together when the header reaches the disk, and a crash forgets those that have not.
-/

namespace Laboratorio.Log

open Function

structure Write where
  op : ℕ
  block : ℕ
  data : Block

structure Spec where
  committed : List (List Write)
  current : List Write
  issued : List Write
  pending : ℕ → Option (ℕ × Block)
  op : ℕ → ℕ
  nextOp : ℕ
  used : ℕ → Finset ℕ

namespace Spec

/-- The operations are numbered as they begin; `op p` is the last one of process `p`, `used p` the
blocks it has called `log_write` on. -/
def step (x : Spec) : Act → Spec
  | .beginOp p =>
    { x with op := update x.op p x.nextOp, nextOp := x.nextOp + 1, used := update x.used p ∅ }
  | .logWrite p b v =>
    { x with pending := update x.pending p (some (b, v)), used := update x.used p (insert b (x.used p)) }
  | .logAppend p =>
    match x.pending p with
    | some (b, v) => { x with current := x.current ++ [⟨x.op p, b, v⟩], issued := x.issued ++ [⟨x.op p, b, v⟩] }
    | none => x
  | .writeHead => { x with committed := x.committed ++ [x.current], current := [] }
  | .crash => { x with current := [] }
  | _ => x

def init : Spec := ⟨[], [], [], fun _ => none, fun _ => 0, 0, fun _ => ∅⟩

end Spec

def contents (d : ℕ → Block) (ws : List Write) : ℕ → Block := ws.foldl (fun d w => update d w.block w.data) d

@[simp] theorem contents_nil (d : ℕ → Block) : contents d [] = d := rfl

theorem contents_append (d : ℕ → Block) (ws vs : List Write) :
    contents d (ws ++ vs) = contents (contents d ws) vs := List.foldl_append

theorem contents_snoc (d : ℕ → Block) (ws : List Write) (w : Write) :
    contents d (ws ++ [w]) = update (contents d ws) w.block w.data := by
  rw [contents_append]
  rfl

theorem contents_other (d : ℕ → Block) (ws : List Write) {b : ℕ} (h : ∀ w ∈ ws, w.block ≠ b) : contents d ws b = d b := by
  induction ws generalizing d with
  | nil => rfl
  | cons w ws ih =>
    have hw : b ≠ w.block := (h w (by simp)).symm
    change contents (update d w.block w.data) ws b = d b
    rw [ih _ (fun v hv => h v (by simp [hv]))]
    simp [hw]

theorem getHeader_putHeader (lh : List ℕ) (b : Block) : getHeader (putHeader lh b) = lh := by
  apply List.ext_getElem
  · simp [getHeader, putHeader]
  · intro i _ h
    simp [getHeader, putHeader, h]

structure Tracked where
  sys : Sys
  spec : Spec

def Tracked.step (t : Tracked) (a : Act) : Option Tracked :=
  (t.sys.step a).map (fun s => ⟨s, if s.noBuffers then t.spec else t.spec.step a⟩)

def Tracked.boot (start size : ℕ) (disk : ℕ → Block) : Tracked := ⟨Log.boot start size disk, .init⟩

end Laboratorio.Log
