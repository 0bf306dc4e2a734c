/-
The ring buffer of the network code.

Pointers are offsets from `buf`, so that `size` stands for `buf_end`.  The memory is
given from `buf` on and goes past `buf_end`; what stands there belongs to others.
Integers that the code keeps in an `int` are wrapped as the conversion does.
-/

import Pttbbs.Lib.Bytes
import Pttbbs.Lib.RingBuffer

namespace Pttbbs.Common.Vbuf

open Pttbbs.Lib

structure VBUF where
  mem : Nat → UInt8
  size : Nat
  head : Nat
  tail : Nat
  capacity : Nat

def eof : Int := -1

/-- The conversion of a difference of pointers or of a size to `int`. -/
def toInt (value : Int) : Int := value.bmod 4294967296

def rwszAll : Int := 0

def rwszMin : Int := -1

def vbufNew (mem : Nat → UInt8) (szbuf : Nat) : VBUF :=
  { mem := mem, size := szbuf, head := 0, tail := 0, capacity := szbuf - 1 }

def vbufSize (v : VBUF) : Nat :=
  if v.head ≤ v.tail then v.tail - v.head else v.size - v.head + v.tail

def vbufSpace (v : VBUF) : Nat := v.capacity - vbufSize v

def vbufIsFull (v : VBUF) : Bool := vbufSpace v == 0

def vbufIsEmpty (v : VBUF) : Bool := v.head == v.tail

def vbufPeek (v : VBUF) : Int := if vbufIsEmpty v then eof else (v.mem v.head).toNat

/-- Reading in front of `buf` has no defined result. -/
def vbufPeekat (v : VBUF) (i : Int) : Option Int :=
  let s := v.head + i
  if vbufIsEmpty v ∨ toInt v.capacity ≤ i then some eof
  else if s < v.tail then if 0 ≤ s then some (v.mem s.toNat).toNat else none
  else
    let s := if s ≥ v.size then s - v.size else s
    if s < v.tail then some (v.mem s.toNat).toNat else some eof

def vbufNormalize (v : VBUF) : VBUF :=
  if v.head = v.tail then { v with head := 0, tail := 0 } else v

def vbufPop (v : VBUF) : VBUF × Int :=
  let c := vbufPeek v
  let v :=
    if c ≥ 0 then { v with head := if v.head + 1 = v.size then 0 else v.head + 1 } else v
  (vbufNormalize v, c)

def vbufPopn (v : VBUF) (n : Nat) : VBUF :=
  let v := { v with head := v.head + n }
  if v.head < v.size then v
  else
    let v := { v with head := v.head - v.size }
    vbufNormalize (if v.head > v.tail then { v with head := v.tail } else v)

def vbufAdd (v : VBUF) (c : UInt8) : VBUF × Int :=
  if vbufIsFull v then (v, 0)
  else
    ({ v with
        mem := copyTo v.mem v.tail [c]
        tail := if v.tail + 1 = v.size then 0 else v.tail + 1 }, 1)

/-- `memchr` over the bytes of a block: the offset of the first one equal to `c`. -/
def memchr (block : List UInt8) (c : UInt8) : Option Nat := block.findIdx? fun byte => byte == c

def strchrPlace (v : VBUF) (c : UInt8) : Option Nat :=
  if vbufIsEmpty v then none
  else
    let d := if v.tail < v.head then v.size else v.tail
    let p := memchr (cells v.mem v.head (d - v.head)) c
    if p.isSome then p
    else if v.tail > v.head then none
    else (memchr (cells v.mem 0 v.tail) c).map fun p => v.size - v.head + p

/-- An offset is returned as an `int`. -/
def position : Option Nat → Int
  | some p => toInt p
  | none => eof

def vbufStrchr (v : VBUF) (c : UInt8) : Int := position (strchrPlace v c)

/--
The loop of `vbuf_getstr` over what is left of `sz`.  It ends with `none` after a NUL, and
otherwise with the value of `sz` at the place where the NUL is padded, `size_t` wrapped.
-/
def getstrLoop : Nat → VBUF → VBUF × List UInt8 × Option Nat
  | 0, v => (v, [], some (2 ^ 64 - 1))
  | sz + 1, v =>
      if vbufIsEmpty v then (v, [], some sz)
      else
        let (v, c) := vbufPop v
        let byte := UInt8.ofNat c.toNat
        if byte = 0 then (v, [byte], none)
        else
          let (v, s, left) := getstrLoop sz v
          (v, byte :: s, left)

def vbufGetstr (v : VBUF) (sz : Nat) : VBUF × Option (List UInt8) :=
  if vbufIsEmpty v then (v, none)
  else
    match getstrLoop sz v with
    | (v, s, none) => (v, some s)
    | (v, s, some left) => (v, some (if left = 0 then s ++ [0] else s.dropLast ++ [0]))

def tailSz (v : VBUF) : Nat := if v.head ≤ v.tail then v.tail - v.head else v.size - v.head

def headSz (v : VBUF) : Nat := if v.tail < v.head then v.head - v.tail else v.size - v.tail

def getblkPhase (v : VBUF) (sz : Nat) : VBUF × List UInt8 × Nat :=
  let rw := min (tailSz v) sz
  let head := v.head + rw
  ({ v with head := if head = v.size then 0 else head }, cells v.mem v.head rw, sz - rw)

def getblkPhases : Nat → VBUF → Nat → VBUF × List UInt8 × Nat
  | 0, v, sz => (v, [], sz)
  | phases + 1, v, sz =>
      if sz = 0 then (v, [], sz)
      else
        let (v, s, sz) := getblkPhase v sz
        let (v, rest, sz) := getblkPhases phases v sz
        (v, s ++ rest, sz)

/-- There is no result where the assertion behind the phases fails. -/
def vbufGetblk (v : VBUF) (sz : Nat) : Option (VBUF × Int × List UInt8) :=
  if sz = 0 ∨ vbufSize v < sz then some (v, 0, [])
  else
    let (v, s, sz) := getblkPhases 2 v sz
    if sz = 0 then some (vbufNormalize v, 1, s) else none

def putblkPhase (v : VBUF) (s : List UInt8) : VBUF × List UInt8 :=
  let rw := min (headSz v) s.length
  let tail := v.tail + rw
  ({ v with
      mem := copyTo v.mem v.tail (s.take rw)
      tail := if tail = v.size then 0 else tail }, s.drop rw)

def putblkPhases : Nat → VBUF → List UInt8 → VBUF × List UInt8
  | 0, v, s => (v, s)
  | phases + 1, v, s =>
      if s.length = 0 then (v, s)
      else
        let (v, s) := putblkPhase v s
        putblkPhases phases v s

def vbufPutblk (v : VBUF) (p : List UInt8) : Option (VBUF × Int) :=
  if p.length = 0 ∨ vbufSpace v < p.length then some (v, 0)
  else
    let (v, s) := putblkPhases 2 v p
    if s.length = 0 then some (v, 1) else none

def strBytes (s : List UInt8) : List UInt8 := s.takeWhile fun byte => byte != 0

def vbufPutstr (v : VBUF) (s : List UInt8) : Option (VBUF × Int) :=
  if vbufSpace v < (strBytes s).length then some (v, 0)
  else (vbufPutblk v (strBytes s)).map fun (v, _) => (v, 1)

/--
The loop of `vbuf_general_write`.  The writer answers with the number of bytes it has
taken, or with an error.  The loop has no result while answers are awaited and where
the assertion `rw <= sz` fails; the last component lists the bytes taken.
-/
def generalWriteLoop (isMin : Bool) (copied : Int) :
    VBUF → Nat → List (Option Nat) → Option (VBUF × Int × List UInt8)
  | _, _, [] => none
  | v, _, none :: _ => some (v, if copied > 0 then copied else -1, [])
  | v, sz, some rw :: answers =>
      let first := min (tailSz v) sz
      let iov := cells v.mem v.head first ++ cells v.mem 0 (sz - first)
      let head := v.head + rw
      let next := { v with head := if head ≥ v.size then head - v.size else head }
      if sz < rw then none
      else if sz - rw > 0 ∧ isMin = false then
        (generalWriteLoop isMin copied next (sz - rw) answers).map fun (v, code, taken) =>
          (v, code, iov.take rw ++ taken)
      else some (next, copied, iov.take rw)

def vbufGeneralWrite (v : VBUF) (sz : Int) (writer : List (Option Nat)) :
    Option (VBUF × Int × List UInt8) :=
  let isMin := sz == rwszMin
  let sz := if sz = rwszAll ∨ sz = rwszMin then (vbufSize v : Int) else sz
  if sz < 1 ∨ vbufSize v < sz then some (v, 0, [])
  else generalWriteLoop isMin 0 v sz.toNat writer

/-- The loop of `vbuf_general_read`; the reader answers with the bytes it has stored. -/
def generalReadLoop (isMin : Bool) (copied : Int) :
    VBUF → Nat → List (Option (List UInt8)) → Option (VBUF × Int)
  | _, _, [] => none
  | v, _, none :: _ => some (v, if copied > 0 then copied else -1)
  | v, sz, some bytes :: answers =>
      let first := min (headSz v) sz
      let tail := v.tail + bytes.length
      let next :=
        { v with
          -- The bytes behind the first block go to the one at `buf`.
          mem := copyTo (copyTo v.mem v.tail (bytes.take first)) 0 (bytes.drop first)
          tail := if tail ≥ v.size then tail - v.size else tail }
      if sz < bytes.length then none
      else if sz - bytes.length > 0 ∧ isMin = false then
        generalReadLoop isMin copied next (sz - bytes.length) answers
      else some (next, copied)

def vbufGeneralRead (v : VBUF) (sz : Int) (reader : List (Option (List UInt8))) :
    Option (VBUF × Int) :=
  let isMin := sz == rwszMin
  let sz := if sz = rwszAll ∨ sz = rwszMin then (vbufSpace v : Int) else sz
  if sz < 1 ∨ vbufSpace v < sz then some (v, 0)
  else generalReadLoop isMin 0 v sz.toNat reader

/-! ### Flattening -/

def memmove (mem : Nat → UInt8) (dst src count : Nat) : Nat → UInt8 :=
  copyTo mem dst (cells mem src count)

def vbufReverse (mem : Nat → UInt8) (first last : Nat) : Nat → UInt8 :=
  if first < last then
    let c := mem (last - 1)
    let mem := copyTo mem (last - 1) [mem first]
    vbufReverse (copyTo mem first [c]) (first + 1) (last - 1)
  else mem
termination_by last - first

def vbufFlatInplace (v : VBUF) : VBUF :=
  if v.tail ≥ v.head then v
  else
    let sz := vbufSize v
    let mem := vbufReverse v.mem 0 v.tail
    let mem := vbufReverse mem v.head v.size
    let mem := memmove mem v.tail v.head (v.size - v.head)
    { v with mem := vbufReverse mem 0 sz, head := 0, tail := sz }

def tmpSize : Nat := 128

/-- The second step of `vbuf_flat`, which goes through the segment B by pieces of `tmp`. -/
def rotateLoop (lenA lenB : Nat) (mem : Nat → UInt8) (processed : Nat) : Nat → UInt8 :=
  if processed < lenB then
    let chunk := min tmpSize (lenB - processed)
    let tmp := cells mem processed chunk
    let mem := memmove mem processed (processed + chunk) lenA
    rotateLoop lenA lenB (copyTo mem (processed + lenA) tmp) (processed + chunk)
  else mem
termination_by lenB - processed
decreasing_by simp only [tmpSize]; omega

def vbufFlat (v : VBUF) : VBUF :=
  if v.tail ≥ v.head then v
  else
    let lenB := v.tail
    let lenA := v.size - v.head
    let sz := lenA + lenB
    let mem := memmove v.mem lenB v.head lenA
    { v with mem := rotateLoop lenA lenB mem 0, head := 0, tail := sz }

/-- The result is the offset of the string, or `NULL`. -/
def vbufCstr (v : VBUF) : VBUF × Option Nat :=
  if vbufIsEmpty v then (v, none)
  else
    let v := vbufFlat v
    ({ v with mem := copyTo v.mem v.tail [0] }, some v.head)

end Pttbbs.Common.Vbuf
