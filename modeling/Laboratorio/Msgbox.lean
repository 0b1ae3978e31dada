import Laboratorio.Lib.Strings

/-!
Messages of `lab-05/msgbox.c`: the structure that `send_message` fills and the strings that are printed of it.
-/

namespace Laboratorio.Msgbox

open Bytes

def usernameMaxsize : ℕ := 15

def maxMsgSize : ℕ := 100

def maxMsgs : ℕ := 10

def sizeofMsg : ℕ := usernameMaxsize + maxMsgSize

abbrev Queue := List (List UInt8)

def strncpy (m : Bytes) (dst : ℕ) (src : List UInt8) (n : ℕ) : Bytes := store m dst n fun i => src.getD i 0

/-- The arguments of a call of `send_message`; before it the structure has the bytes of `stack`. -/
structure Call where
  stack : Bytes
  login : List UInt8
  message : List UInt8
  login_nonzero : (0 : UInt8) ∉ login
  message_nonzero : (0 : UInt8) ∉ message

namespace Call

def newMessage (x : Call) : Bytes :=
  strncpy (strncpy x.stack 0 x.login (usernameMaxsize - 1)) usernameMaxsize x.message (maxMsgSize - 1)

def bytes (x : Call) : List UInt8 := (List.range sizeofMsg).map x.newMessage

end Call

def sendMessage (q : Queue) (x : Call) : Option Queue := if q.length < maxMsgs then some (q ++ [x.bytes]) else none

def mqReceive (m : Bytes) (a : ℕ) : Queue → Option (Bytes × Queue)
  | [] => none
  | msg :: q => some (store m a msg.length fun i => msg.getD i 0, q)

/-- The characters that `%s` prints; none if there is no zero in the `n` bytes from `a` to the end of the memory. -/
def printed (m : Bytes) : ℕ → ℕ → Option (List UInt8)
  | 0, _ => none
  | n + 1, a => if m a = 0 then some [] else (printed m n (a + 1)).map (m a :: ·)

inductive Line
  | recibido
  | enLaCola (queueName : List UInt8)
  | remitente (sender : List UInt8)
  | mensaje (text : List UInt8)
  | noHayMensajes
  deriving DecidableEq

def printMessage (m : Bytes) (top a : ℕ) : Option (List Line) :=
  match printed m (top - a) a, printed m (top - (a + usernameMaxsize)) (a + usernameMaxsize) with
  | some sender, some text => some [.remitente sender, .mensaje text]
  | _, _ => none

/-- What is printed, `none` when a string has no end; `received_message` is at `a`. -/
def receiveMessage (m : Bytes) (top a : ℕ) (q : Queue) : Option (List Line × Queue) :=
  match mqReceive m a q with
  | none => some ([.noHayMensajes], q)
  | some (m, q) => (printMessage m top a).map fun ls => (.recibido :: ls, q)

def receiveLoop (top a : ℕ) : Bytes → Queue → Option (List Line)
  | _, [] => some []
  | m, msg :: q =>
    let m := store m a msg.length fun i => msg.getD i 0
    match printMessage m top a, receiveLoop top a m q with
    | some ls, some rest => some (ls ++ rest)
    | _, _ => none

def receiveAllMessages (m : Bytes) (top a : ℕ) (queueName : List UInt8) (q : Queue) : Option (List Line) :=
  (receiveLoop top a m q).map (.enLaCola queueName :: ·)

namespace Call

def lines (x : Call) : List Line :=
    [.remitente (x.login.take (usernameMaxsize - 1)), .mensaje (x.message.take (maxMsgSize - 1))]

def Terminated (x : Call) : Prop :=
  (x.login.length < usernameMaxsize - 1 ∨ x.stack (usernameMaxsize - 1) = 0) ∧
    (x.message.length < maxMsgSize - 1 ∨ x.stack (sizeofMsg - 1) = 0)

end Call

variable {a : ℕ}

theorem printed_iff {m : Bytes} {n : ℕ} {w : List UInt8} : printed m n a = some w ↔ StringAt m a w ∧ w.length < n := by
  induction n generalizing a w with
  | zero => simp [printed]
  | succ n ih =>
    rw [printed]
    by_cases h0 : m a = 0
    · rw [if_pos h0]
      constructor
      · intro h
        cases h
        exact ⟨⟨trivial, h0, List.not_mem_nil⟩, Nat.succ_pos n⟩
      · rintro ⟨hw, -⟩
        cases w with
        | nil => rfl
        | cons x w =>
          have hx : m a = x := hw.chars.1
          exact absurd (by simp [← hx, h0]) hw.nonzero
    · rw [if_neg h0, Option.map_eq_some_iff]
      constructor
      · rintro ⟨w, hw, rfl⟩
        obtain ⟨⟨hchars, hnul, hne⟩, hlen⟩ := ih.mp hw
        refine ⟨⟨⟨rfl, hchars⟩, ?_, ?_⟩, by simpa using hlen⟩
        · rwa [List.length_cons, Nat.add_comm w.length, ← Nat.add_assoc]
        · simp [hne, Ne.symm h0]
      · rintro ⟨hw, hlen⟩
        cases w with
        | nil => exact absurd hw.nul h0
        | cons x w =>
          have hx : m a = x := hw.chars.1
          refine ⟨w, ih.mpr ⟨hw.tail, by simpa using hlen⟩, by rw [hx]⟩

theorem field_iff {m : Bytes} {n : ℕ} {w : List UInt8} (h0 : (0 : UInt8) ∉ w) (hchars : ∀ i, i < n → m (a + i) = w.getD i 0) :
    StringAt m a (w.take n) ↔ w.length < n ∨ m (a + n) = 0 := by
  by_cases hlen : w.length < n
  · have hnul : m (a + w.length) = 0 := by
      rw [hchars _ hlen]
      simp
    rw [List.take_of_length_le (Nat.le_of_lt hlen)]
    exact ⟨fun _ => .inl hlen, fun _ => ⟨at_iff.mpr fun i hi => hchars i (by omega), hnul, h0⟩⟩
  have htake : (w.take n).length = n := by
    rw [List.length_take]
    omega
  constructor
  · intro h
    have hnul := h.nul
    rw [htake] at hnul
    exact .inr hnul
  · intro h
    refine ⟨at_iff.mpr fun i hi => ?_, ?_, fun h => h0 (List.mem_of_mem_take h)⟩
    · rw [htake] at hi
      rw [hchars i hi, List.getD_eq_getElem?_getD, List.getD_eq_getElem?_getD, List.getElem?_take_of_lt hi]
    · rw [htake]
      exact h.resolve_left hlen

section received

variable (m : Bytes) (a : ℕ) (x : Call) {i : ℕ}

theorem received_byte (hi : i < sizeofMsg) : store m a x.bytes.length (fun i => x.bytes.getD i 0) (a + i) = x.newMessage i := by
  have hlen : x.bytes.length = sizeofMsg := by simp [Call.bytes]
  rw [store_of_mem (by omega) (by omega), Nat.add_sub_cancel_left]
  simp [Call.bytes, hi]

theorem newMessage_login (hi : i < usernameMaxsize - 1) : x.newMessage i = x.login.getD i 0 := by
  simp only [usernameMaxsize] at hi
  rw [Call.newMessage, strncpy, store_of_notMem (by simp only [usernameMaxsize]; omega), strncpy, store_of_mem (by omega)
    (by simp only [usernameMaxsize]; omega), Nat.sub_zero]

theorem newMessage_message (hi : i < maxMsgSize - 1) : x.newMessage (usernameMaxsize + i) = x.message.getD i 0 := by
  rw [Call.newMessage, strncpy, store_of_mem (by omega) (by omega), Nat.add_sub_cancel_left]

theorem newMessage_last (hi : i = usernameMaxsize - 1 ∨ i = sizeofMsg - 1) : x.newMessage i = x.stack i := by
  simp only [usernameMaxsize, sizeofMsg, maxMsgSize] at hi
  rw [Call.newMessage, strncpy, store_of_notMem (by simp only [usernameMaxsize, maxMsgSize]; omega), strncpy,
    store_of_notMem (by simp only [usernameMaxsize]; omega)]

theorem printMessage_iff {top : ℕ} (htop : a + sizeofMsg ≤ top) :
    printMessage (store m a x.bytes.length fun i => x.bytes.getD i 0) top a = some x.lines ↔ x.Terminated := by
  have hbyte : ∀ {i : ℕ}, i < sizeofMsg → _ := fun hi => received_byte m a x hi
  generalize (store m a x.bytes.length fun i => x.bytes.getD i 0) = m' at hbyte ⊢
  have hsizes : usernameMaxsize = 15 ∧ maxMsgSize = 100 ∧ sizeofMsg = 115 := ⟨rfl, rfl, rfl⟩
  have hlogin : StringAt m' a (x.login.take (usernameMaxsize - 1)) ↔
      x.login.length < usernameMaxsize - 1 ∨ x.stack (usernameMaxsize - 1) = 0 := by
    rw [field_iff x.login_nonzero fun i hi => (hbyte (by omega)).trans (newMessage_login x hi), hbyte (by omega),
      newMessage_last x (.inl rfl)]
  have hmessage : StringAt m' (a + usernameMaxsize) (x.message.take (maxMsgSize - 1)) ↔
      x.message.length < maxMsgSize - 1 ∨ x.stack (sizeofMsg - 1) = 0 := by
    have hlast : a + usernameMaxsize + (maxMsgSize - 1) = a + (sizeofMsg - 1) := by omega
    rw [field_iff x.message_nonzero fun i hi => ?_, hlast, hbyte (by omega), newMessage_last x (.inr rfl)]
    rw [Nat.add_assoc, hbyte (by omega), newMessage_message x hi]
  have hshort : ∀ (w : List UInt8) (n : ℕ), (w.take n).length ≤ n := fun w n => List.length_take_le n w
  have hshort₁ := hshort x.login (usernameMaxsize - 1)
  have hshort₂ := hshort x.message (maxMsgSize - 1)
  rw [Call.Terminated, ← hlogin, ← hmessage]
  constructor
  · intro h
    unfold printMessage at h
    split at h
    · next sender text hs ht =>
      obtain ⟨rfl, rfl⟩ : sender = _ ∧ text = _ := by simpa [Call.lines] using h
      exact ⟨(printed_iff.mp hs).1, (printed_iff.mp ht).1⟩
    · simp at h
  · rintro ⟨hs, ht⟩
    rw [printMessage, printed_iff.mpr ⟨hs, by omega⟩, printed_iff.mpr ⟨ht, by omega⟩]
    rfl

theorem length_lines_of_print {top : ℕ} {m' : Bytes} {ls : List Line} (h : printMessage m' top a = some ls) :
    ls.length = x.lines.length := by
  unfold printMessage at h
  split at h
  · cases h
    rfl
  · simp at h

end received

theorem receiveLoop_iff (m : Bytes) {top : ℕ} (htop : a + sizeofMsg ≤ top) (xs : List Call) :
    receiveLoop top a m (xs.map Call.bytes) = some (xs.flatMap Call.lines) ↔ ∀ x ∈ xs, x.Terminated := by
  induction xs generalizing m with
  | nil => simp [receiveLoop]
  | cons x xs ih =>
    have hprint := printMessage_iff m a x htop
    have hrest := ih (store m a x.bytes.length fun i => x.bytes.getD i 0)
    rw [List.forall_mem_cons, ← hprint, ← hrest, List.map_cons, receiveLoop, List.flatMap_cons]
    constructor
    · intro h
      split at h
      · next ls rest hls hr =>
        obtain ⟨rfl, rfl⟩ := List.append_inj (Option.some.inj h) (length_lines_of_print a x hls)
        exact ⟨hls, hr⟩
      · simp at h
    · rintro ⟨hls, hr⟩
      simp only [hls, hr]

inductive Pending : Queue → List Call → Prop
  | created : Pending [] []
  | sent {q q' : Queue} {xs : List Call} {x : Call} (h : Pending q xs) (hsend : sendMessage q x = some q') :
      Pending q' (xs ++ [x])
  | received {q q' : Queue} {xs : List Call} {m m' : Bytes} {a : ℕ} (h : Pending q xs) (hreceive : mqReceive m a q =
      some (m', q')) : Pending q' xs.tail

theorem Pending.queue_eq {q : Queue} {xs : List Call} (h : Pending q xs) : q = xs.map Call.bytes := by
  induction h with
  | created => rfl
  | sent h hsend ih =>
    unfold sendMessage at hsend
    split_ifs at hsend
    cases hsend
    rw [ih, List.map_append, List.map_singleton]
  | @received q q' xs m m' a h hreceive ih =>
    subst ih
    cases xs with
    | nil => simp [mqReceive] at hreceive
    | cons x xs =>
      obtain ⟨-, rfl⟩ := Prod.mk.inj (Option.some.inj hreceive)
      rfl

theorem message_round_trip_iff (m : Bytes) {top a : ℕ} (htop : a + sizeofMsg ≤ top) (queueName : List UInt8)
    {q : Queue} {x : Call} {xs : List Call} (hq : Pending q (x :: xs)) :
    (receiveMessage m top a q = some (.recibido :: x.lines, xs.map Call.bytes) ↔ x.Terminated) ∧
      (receiveAllMessages m top a queueName q = some (.enLaCola queueName :: (x :: xs).flatMap Call.lines) ↔ ∀ y ∈ x :: xs,
      y.Terminated) := by
  obtain rfl := hq.queue_eq
  constructor
  · rw [← printMessage_iff m a x htop, List.map_cons, receiveMessage, mqReceive]
    simp
  · rw [← receiveLoop_iff m htop, receiveAllMessages]
    simp

def sample (c : UInt8) : Call := ⟨fun _ => c, List.replicate 14 97, [104, 105], by decide, by decide⟩

theorem pending_sample (c : UInt8) : Pending [(sample c).bytes] [sample c] := Pending.sent .created rfl

theorem message_round_trip_long :
    receiveMessage (fun _ => 0) 200 0 [(sample 0).bytes] =
      some ([.recibido, .remitente (List.replicate 14 97), .mensaje [104, 105]], []) :=
  (message_round_trip_iff (fun _ => 0) (by decide) [] (pending_sample 0)).1.mpr ⟨.inr rfl, .inr rfl⟩

theorem message_sender_runs_on : receiveMessage (fun _ => 0) 200 0 [(sample 98).bytes] =
      some ([.recibido, .remitente (List.replicate 14 97 ++ [98, 104, 105]), .mensaje [104, 105]], []) ∧
    (sample 98).lines = [.remitente (List.replicate 14 97), .mensaje [104, 105]] := by
  decide +kernel

end Laboratorio.Msgbox
