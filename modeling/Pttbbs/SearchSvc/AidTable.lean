/-
The table of a board's AIDs in memory.

The search service keeps the raw AIDs of a board's records, 0 for those that have none, and
answers from it where an article is.  Posts and deletions patch the table; the distance by
which the stamps are out of order is the one that was computed when the table was loaded.
-/

import Pttbbs.SearchSvc.Aids

namespace Pttbbs.SearchSvc

open Pttbbs.Lib

structure BoardAIDTable where
  aids : List Nat
  maxBacktrack : Nat
  minTS : Nat
  maxTS : Nat
deriving DecidableEq, Repr

namespace BoardAIDTable

def load (aids : List Nat) : BoardAIDTable :=
  let stats := computeBoardAIDStats aids
  { aids := aids
    maxBacktrack := stats.maxBacktrack
    minTS := stats.minTS
    maxTS := stats.maxTS }

/-! ### Searching -/

section Search

variable (table : BoardAIDTable)

def rawAt (place : Nat) : Nat := table.aids.getD place 0

/-- The loop around a record without an AID: one record on, one record back, and so on. -/
def nearestFrom (low stop mid : Nat) : Nat → Nat → Option Nat
  | 0, _ => none
  | fuel + 1, delta =>
      if mid + delta < stop ∨ low + delta ≤ mid then
        if mid + delta < stop ∧ table.rawAt (mid + delta) ≠ 0 then some (mid + delta)
        else if low + delta ≤ mid ∧ table.rawAt (mid - delta) ≠ 0 then some (mid - delta)
        else nearestFrom low stop mid fuel (delta + 1)
      else none

def probe (low stop : Nat) : Option Nat :=
  if table.rawAt (middle low stop) ≠ 0 then some (middle low stop)
  else table.nearestFrom low stop (middle low stop) (stop - low) 1

def turn (targetRaw place : Nat) : Turn :=
  if table.rawAt place = targetRaw then .found
  else if stampOf (table.rawAt place) = stampOf targetRaw then .halt
  else if stampOf (table.rawAt place) < stampOf targetRaw then .later
  else .earlier

def halfWindow : Nat := max (table.maxBacktrack * 2 + 128) 256 / 2

def outOfRange (targetTS : Nat) : Bool :=
  0 < targetTS ∧ (0 < table.minTS ∧ targetTS < table.minTS ∨
    0 < table.maxTS ∧ table.maxTS < targetTS)

/-- The place of a raw AID: at the tail, where the binary search meets it, or in the window
around the place where that ends. -/
def placeOf (targetRaw : Nat) : Option Nat :=
  let hit := fun place => table.rawAt place = targetRaw
  let total := table.aids.length
  if targetRaw = 0 ∨ total = 0 then none
  else if table.outOfRange (stampOf targetRaw) then none
  else
    match scanDown hit (total - 64) total with
    | some place => some place
    | none =>
        match approach table.probe (table.turn targetRaw) total 0 total 0 with
        | .found place => some place
        | .near mid =>
            scanDown hit (mid - table.halfWindow) (min (mid + table.halfWindow) total)

def searchAID (targetAIDU : Nat) : Int :=
  match table.placeOf (aiduRaw targetAIDU) with
  | none => 0
  | some place => (Int32.ofNat (place + 1)).toInt

end Search

/-! ### Changing -/

def noteStamp (raw : Nat) (table : BoardAIDTable) : BoardAIDTable :=
  let stamp := stampOf raw
  if 0 < stamp then
    { table with
      minTS := if table.minTS = 0 ∨ stamp < table.minTS then stamp else table.minTS
      maxTS := if table.maxTS < stamp then stamp else table.maxTS }
  else table

def appendPost (recno : Int32) (aidu : Nat) (table : BoardAIDTable) : BoardAIDTable :=
  let raw := aiduRaw aidu
  let idx := (recno - 1).toInt
  if raw = 0 ∨ idx < 0 then table
  else
    let noted := table.noteStamp raw
    let padded := noted.aids ++ List.replicate (idx.toNat - noted.aids.length) 0
    { noted with
      aids := if padded.length = idx.toNat then padded ++ [raw] else padded.set idx.toNat raw }

def deletePostChecked (recno : Int32) (aidu : Nat) (table : BoardAIDTable) :
    Bool × BoardAIDTable :=
  let idx := (recno - 1).toInt
  let raw := aiduRaw aidu
  if idx < 0 then (false, table)
  else if idx.toNat < table.aids.length then
    if raw ≠ 0 ∧ table.rawAt idx.toNat ≠ 0 ∧ table.rawAt idx.toNat ≠ raw then (false, table)
    else (true, { table with aids := table.aids.eraseIdx idx.toNat })
  else (decide (idx.toNat = table.aids.length), table)

def syncRecord (name : Option Bytes) (table : BoardAIDTable) : BoardAIDTable :=
  match name with
  | none => { table with aids := table.aids ++ [0] }
  | some fn =>
      if fn = [] then { table with aids := table.aids ++ [0] }
      else
        let raw := aiduRaw (fn2aidu fn)
        { table.noteStamp raw with aids := table.aids ++ [raw] }

/-- `SyncTail`, with what `ReadFilenameAt` returns for the records of the directory. -/
def syncTail (readFilenameAt : Int → Option Bytes) (curTotal : Int32) (table : BoardAIDTable) :
    BoardAIDTable :=
  let curLen := Int32.ofNat table.aids.length
  (List.range (curTotal.toInt - curLen.toInt).toNat).foldl
    (fun table step => table.syncRecord (readFilenameAt (curLen.toInt + 1 + step))) table

inductive Call where
  | appendPost (recno : Int32) (aidu : Nat)
  | deletePostChecked (recno : Int32) (aidu : Nat)
  | syncTail (readFilenameAt : Int → Option Bytes) (curTotal : Int32)

def apply (table : BoardAIDTable) : Call → BoardAIDTable
  | .appendPost recno aidu => table.appendPost recno aidu
  | .deletePostChecked recno aidu => (table.deletePostChecked recno aidu).2
  | .syncTail readFilenameAt curTotal => table.syncTail readFilenameAt curTotal

def run (table : BoardAIDTable) (calls : List Call) : BoardAIDTable := calls.foldl apply table

end BoardAIDTable

end Pttbbs.SearchSvc
