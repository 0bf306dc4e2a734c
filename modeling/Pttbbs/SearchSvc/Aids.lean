/-
Articles by their time stamps.

The name of an article carries a time stamp and a number of three hexadecimal digits, and
both together are its AID.  A directory is searched for one by a hint, by a binary search on
the stamps with a window around the place where it ends, and from the end, in this order.
-/

import Pttbbs.Lib.NearSearch
import Pttbbs.Lib.Text
import Pttbbs.SearchSvc.Backtrack
import Pttbbs.SearchSvc.Predicates

namespace Pttbbs.SearchSvc

open Pttbbs.Lib

/-! ### Names -/

def digitOf (byte : UInt8) : Nat :=
  if 48 ≤ byte ∧ byte ≤ 57 then byte.toNat - 48
  else if 65 ≤ byte ∧ byte ≤ 90 then byte.toNat - 55
  else if 97 ≤ byte ∧ byte ≤ 122 then byte.toNat - 87
  else 36

def isSpace (byte : UInt8) : Bool := byte = 32 ∨ 9 ≤ byte ∧ byte ≤ 13

/-- `0x` in front of a hexadecimal number; without a digit behind it the number is the 0. -/
def skipRadix (base : Nat) : Bytes → Bytes
  | 48 :: mark :: digit :: rest =>
      if base = 16 ∧ (mark = 120 ∨ mark = 88) ∧ digitOf digit < 16 then digit :: rest
      else 48 :: mark :: digit :: rest
  | text => text

/-- `strtoul` into an unsigned long of 64 bits: blanks, a sign, and digits as far as they go. -/
def strtoul (base : Nat) (text : Bytes) : Nat :=
  let signed := text.dropWhile isSpace
  let minus := signed.head? = some 45
  let unsigned := if minus ∨ signed.head? = some 43 then signed.tail else signed
  let digits := (skipRadix base unsigned).takeWhile (fun byte => digitOf byte < base)
  let value := digits.foldl (fun total byte => base * total + digitOf byte) 0
  if 2 ^ 64 ≤ value then 2 ^ 64 - 1
  else if minus then (2 ^ 64 - value) % 2 ^ 64
  else value

/-- `get_fhdr_stamp_ts`; the two bytes in front are a type and a dot, or `.d`. -/
def getFhdrStampTs (fn : Bytes) : Int :=
  let stamp :=
    if fn ≠ [] ∧ (fn.getD 1 0 = 46 ∨ fn.getD 0 0 = 46 ∧ fn.getD 1 0 = 100) then fn.drop 2 else fn
  time4 (strtoul 10 stamp % 2 ^ 32)

def getFhdrStampHex (fn : Bytes) : Nat :=
  match cut (utf8 ".A.") fn with
  | none => 0
  | some (_, hex) => strtoul 16 hex % 2 ^ 12

def aiduRaw (aidu : Nat) : Nat := aidu % 2 ^ 45

def stampBits (stamp : Int) : Nat := (stamp % 2 ^ 32).toNat

def fn2aidu (fn : Bytes) : Nat :=
  if fn.head? ≠ some 77 ∧ fn.head? ≠ some 71 ∨ fn.getD 1 0 ≠ 46 then 0
  else if getFhdrStampTs fn ≤ 0 then 0
  else
    match cut (utf8 ".A") (fn.drop 2) with
    | none => 0
    | some (_, rest) =>
        if rest ≠ [] ∧ rest.head? ≠ some 46 then 0
        else
          stampBits (getFhdrStampTs fn) * 2 ^ 12 + getFhdrStampHex fn +
            if fn.head? = some 71 then 2 ^ 44 else 0

/-! ### Records -/

def fileBottom : UInt32 := 0x0008

structure Wanted where
  prefixCh : UInt8
  targetTs : Int
  targetHex : Nat
  allowPrefix : Bool
  requiredMode : UInt32

/-- The number behind the last dot is a zero, or there is none. -/
def hexIsZero (fn : Bytes) : Bool :=
  46 ∈ fn && match (splitOn 46 fn).getLast? with
    | none => false
    | some last => last.head? = some 48 ∨ last = [65]

def matchFhdrStampHex (wanted : Wanted) (fh : Fileheader) : Bool :=
  if fh.filename = [] ∨ fh.filename.head? = some 46 then false
  else if wanted.prefixCh ≠ 0 ∧ fh.filename.head? ≠ some wanted.prefixCh ∧
      ¬ (wanted.prefixCh = 77 ∧ fh.filename.head? = some 76 ∧
        wanted.requiredMode &&& fileBottom ≠ 0) then false
  else if wanted.requiredMode ≠ 0 ∧ (fh.owner.head? = some 45 ∨
      fh.filemode.toUInt32 &&& wanted.requiredMode ≠ wanted.requiredMode) then false
  else if getFhdrStampTs fh.filename ≠ wanted.targetTs then false
  else if getFhdrStampHex fh.filename = wanted.targetHex then
    if wanted.targetHex ≠ 0 ∨ wanted.allowPrefix then true else hexIsZero fh.filename
  else false

/-! ### Directories -/

/-- The stamps that `c_compute_dir_backtrack` reads: those of articles that are there. -/
def tsBufOf (dir : List Fileheader) : List Int :=
  dir.map fun fh =>
    if (fh.filename.head? = some 77 ∨ fh.filename.head? = some 71) ∧ fh.owner.head? ≠ some 45 then
      getFhdrStampTs fh.filename
    else 0

section Search

variable (dir : List Fileheader) (wanted : Wanted)

def isWanted (place : Nat) : Bool :=
  match dir[place]? with
  | none => false
  | some fh => matchFhdrStampHex wanted fh

def stampAt (place : Nat) : Int :=
  match dir[place]? with
  | none => 0
  | some fh => getFhdrStampTs fh.filename

def stampTurn (place : Nat) : Turn :=
  if stampAt dir place = wanted.targetTs then .halt
  else if stampAt dir place < wanted.targetTs then .later
  else .earlier

def bsearchEnd : Nat :=
  match approach (fun low stop => some (middle low stop)) (stampTurn dir wanted) dir.length 0
    dir.length 0 with
  | .found mid => mid
  | .near mid => mid

def bsearchWin : Nat := 256

def windowOf (total mid : Nat) (maxBacktrack : Int) : Nat × Nat :=
  let size := if 0 ≤ maxBacktrack then maxBacktrack.toNat * 2 + bsearchWin else bsearchWin
  let size := min size total
  let start := mid - size / 2
  (if total < start + size then total - size else start, size)

/-- `search_dir_by_stamp_fd_bounded` on the records of a file.  Places are counted from 0
here and from 1 in the result; the batches in which the records are read have no effect on
what is found. -/
def searchDirByStamp (hintIdx maxBacktrack : Int) : Nat :=
  let total := dir.length
  let hint := hintIdx.toNat
  let hit := isWanted dir wanted
  if total = 0 then 0
  else if 1 ≤ hintIdx ∧ hint ≤ total ∧ hit (hint - 1) then hint
  else
    match (if 1 ≤ hintIdx then scanDown hit (hint - 33) (min total (hint + 4)) else none) with
    | some place => place + 1
    | none =>
        if bsearchWin < total then
          let window := windowOf total (bsearchEnd dir wanted) maxBacktrack
          match scanDown hit window.1 (window.1 + window.2) with
          | some place => place + 1
          | none =>
              if 0 ≤ maxBacktrack then 0
              else ((scanDown hit 0 total).map (· + 1)).getD 0
        else ((scanDown hit 0 total).map (· + 1)).getD 0

end Search

end Pttbbs.SearchSvc
