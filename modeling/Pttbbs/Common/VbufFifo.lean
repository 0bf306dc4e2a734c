/-
The ring buffer as a bounded queue.

An operation of the buffer is compared with what a bounded queue does.  The bytes in the
buffer are always those of the queue; what is handed back to the caller is right exactly
where `Condition` says so.
-/

import Pttbbs.Common.VbufQueue
import Pttbbs.Lib.Runs

namespace Pttbbs.Common.Vbuf

open Pttbbs.Lib

inductive Op where
  | add (c : UInt8)
  | pop
  | popn (n : Nat)
  | putblk (p : List UInt8)
  | getblk (sz : Nat)
  | putstr (s : List UInt8)
  | strchr (c : UInt8)
  | peekat (i : Int)
  | getstr (sz : Nat)
  | generalRead (sz : Int) (reader : List (Option (List UInt8)))
  | generalWrite (sz : Int) (writer : List (Option Nat))

inductive Out where
  | done
  | undefined
  | code (result : Int)
  | block (result : Int) (bytes : List UInt8)
  | string (s : Option (List UInt8))
deriving DecidableEq

def step (v : VBUF) : Op → Option (VBUF × Out)
  | .add c => some ((vbufAdd v c).1, .code (vbufAdd v c).2)
  | .pop => some ((vbufPop v).1, .code (vbufPop v).2)
  | .popn n => some (vbufPopn v n, .done)
  | .putblk p => (vbufPutblk v p).map fun (v, code) => (v, .code code)
  | .getblk sz => (vbufGetblk v sz).map fun (v, code, bytes) => (v, .block code bytes)
  | .putstr s => (vbufPutstr v s).map fun (v, code) => (v, .code code)
  | .strchr c => some (v, .code (vbufStrchr v c))
  | .peekat i => some (v, (vbufPeekat v i).elim .undefined .code)
  | .getstr sz => some ((vbufGetstr v sz).1, .string (vbufGetstr v sz).2)
  | .generalRead sz reader => (vbufGeneralRead v sz reader).map fun (v, code) => (v, .code code)
  | .generalWrite sz writer =>
      (vbufGeneralWrite v sz writer).map fun (v, code, taken) => (v, .block code taken)

def advance (v : VBUF) (op : Op) : VBUF := ((step v op).map Prod.fst).getD v

/-! ### The queue -/

def getstrTaken : Nat → List UInt8 → List UInt8
  | 0, _ => []
  | _ + 1, [] => []
  | sz + 1, byte :: rest => if byte = 0 then [byte] else byte :: getstrTaken sz rest

/--
How much is moved when up to `sz` bytes are asked for until all are there, or only once.
Each answer is an amount within what is still asked for, or an error, which ends the
call; the result tells how much was moved and whether an error has ended the call.
-/
def transfer (isMin : Bool) : Nat → List (Option Nat) → Option (Nat × Bool)
  | _, [] => none
  | _, none :: _ => some (0, true)
  | sz, some rw :: answers =>
      if sz < rw then none
      else if sz - rw > 0 ∧ isMin = false then
        (transfer isMin (sz - rw) answers).map fun (moved, failed) => (rw + moved, failed)
      else some (rw, false)

def asked (sz : Int) (all : Nat) : Int := if sz = rwszAll ∨ sz = rwszMin then all else sz

/-- A call moves nothing when it asks for nothing or for more than there is. -/
def TurnedDown (sz : Int) (all : Nat) : Prop := asked sz all < 1 ∨ all < asked sz all

instance (sz : Int) (all : Nat) : Decidable (TurnedDown sz all) :=
  inferInstanceAs (Decidable (_ ∨ _))

def moves (sz : Int) (all : Nat) (answers : List (Option Nat)) : Option (Nat × Bool) :=
  if TurnedDown sz all then some (0, false)
  else transfer (sz == rwszMin) (asked sz all).toNat answers

def amounts (reader : List (Option (List UInt8))) : List (Option Nat) :=
  reader.map fun answer => answer.map List.length

def handed (reader : List (Option (List UInt8))) : List UInt8 := (reader.filterMap id).flatten

/--
The queue after an operation.  It has none for a call outside of what the operations are
for: more bytes popped than there are, no room for a string, an answer larger than
what was asked for, and a call that still waits for answers.
-/
def fifoNext (capacity : Nat) (bytes : List UInt8) : Op → Option (List UInt8)
  | .add c => some (if bytes.length < capacity then bytes ++ [c] else bytes)
  | .pop => some bytes.tail
  | .popn n => if n ≤ bytes.length then some (bytes.drop n) else none
  | .putblk p => some (if bytes.length + p.length ≤ capacity then bytes ++ p else bytes)
  | .getblk sz => some (if sz ≤ bytes.length then bytes.drop sz else bytes)
  | .putstr s =>
      some (if bytes.length + (strBytes s).length ≤ capacity then bytes ++ strBytes s else bytes)
  | .strchr _ => some bytes
  | .peekat _ => some bytes
  | .getstr sz => if sz = 0 then none else some (bytes.drop (getstrTaken sz bytes).length)
  | .generalRead sz reader =>
      (moves sz (capacity - bytes.length) (amounts reader)).map fun (moved, _) =>
        bytes ++ (handed reader).take moved
  | .generalWrite sz writer =>
      (moves sz bytes.length writer).map fun (moved, _) => bytes.drop moved

def fifoRun (capacity : Nat) : List UInt8 → List Op → Option (List UInt8)
  | bytes, [] => some bytes
  | bytes, op :: ops => (fifoNext capacity bytes op).bind fun next => fifoRun capacity next ops

def movedCode : Nat × Bool → Int
  | (0, true) => -1
  | (moved, _) => moved

def OutRight (capacity : Nat) (bytes : List UInt8) (out : Out) : Op → Prop
  | .add _ => out = .code (if bytes.length < capacity then 1 else 0)
  | .pop => out = .code (bytes.head?.elim eof fun byte => byte.toNat)
  | .popn _ => out = .done
  | .putblk p => out = .code (if p ≠ [] ∧ bytes.length + p.length ≤ capacity then 1 else 0)
  | .getblk sz =>
      out = if 0 < sz ∧ sz ≤ bytes.length then .block 1 (bytes.take sz) else .block 0 []
  | .putstr s => out = .code (if bytes.length + (strBytes s).length ≤ capacity then 1 else 0)
  | .strchr c => out = .code ((memchr bytes c).elim eof fun place => place)
  | .peekat i =>
      out = .code (if 0 ≤ i then (bytes[i.toNat]?).elim eof fun byte => byte.toNat else eof)
  | .getstr sz =>
      if bytes = [] then out = .string none
      else
        -- A NUL that was taken ends the string itself.
        let taken := getstrTaken sz bytes
        let s := if 0 ∈ taken then taken else taken ++ [0]
        out = .string (some s) ∧ s.length ≤ sz
  | .generalRead sz reader =>
      ∃ result, moves sz (capacity - bytes.length) (amounts reader) = some result ∧
        out = .code (movedCode result)
  | .generalWrite sz writer =>
      ∃ result, moves sz bytes.length writer = some result ∧
        out = .block (movedCode result) (bytes.take result.1)

def Refused (v : VBUF) : Op → Prop
  | .add _ => vbufIsFull v = true
  | .putblk p => p = [] ∨ vbufSpace v < p.length
  | .getblk sz => sz = 0 ∨ vbufSize v < sz
  | .putstr s => vbufSpace v < (strBytes s).length
  | .getstr _ => vbufIsEmpty v = true
  | .generalRead sz _ => TurnedDown sz (vbufSpace v)
  | .generalWrite sz _ => TurnedDown sz (vbufSize v)
  | _ => False

/-! ### Where the results are right -/

def quiet : List (Option Nat) → Bool
  | some rw :: answers => rw == 0 && quiet answers
  | _ => true

/-- The answers a call looks at when it goes on until nothing is missing, or asks once. -/
def lookedAt (sz : Int) (answers : List (Option Nat)) : List (Option Nat) :=
  if sz = rwszMin then answers.take 1 else answers

/--
The states and arguments for which the caller of the code sees what the caller of a queue
sees.  A byte that stands before the end of a buffer that goes round is not
peeked at; one behind the queue is, where it stands at the beginning of the buffer.  A
string is padded in the right place only after a NUL or where it just fits, and the bytes
moved are never counted.
-/
def Condition (v : VBUF) : Op → Prop
  | .strchr c => ∀ place, memchr v.queue c = some place → place < 2 ^ 31
  | .peekat i =>
      vbufIsEmpty v = true ∨
        if toInt v.capacity ≤ i then i < 0 ∨ vbufSize v ≤ i
        else if v.head < v.tail then 0 ≤ i ∧ v.head + i < v.size
        else if 0 ≤ i then v.size ≤ v.head + i
        else v.tail ≤ v.head + i
  | .getstr sz => vbufIsEmpty v = true ∨ 0 ∈ v.queue.take sz ∨ vbufSize v + 1 = sz
  | .generalRead sz reader =>
      TurnedDown sz (vbufSpace v) ∨ quiet (lookedAt sz (amounts reader)) = true
  | .generalWrite sz writer => TurnedDown sz (vbufSize v) ∨ quiet (lookedAt sz writer) = true
  | _ => True

/-- The operation hands back what a queue would, and changes nothing where it is refused. -/
def Right (v : VBUF) (op : Op) : Prop :=
  ∃ next out, step v op = some (next, out) ∧ OutRight v.capacity v.queue out op ∧
    (Refused v op → next = v)

end Pttbbs.Common.Vbuf
