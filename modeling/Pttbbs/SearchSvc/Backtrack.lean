/-
How far a board's articles are out of order.

The records of a board are nearly sorted by their time stamps.  Three functions compute how
far back a record has a larger stamp before it: two in C, from the largest stamps so far,
and one in Go, which looks back from the last of the largest stamps and gives up after a
while.
-/

import Pttbbs.Lib.Bisect
import Mathlib.Algebra.Order.Ring.Int
import Mathlib.Tactic.ByContra

namespace Pttbbs.SearchSvc

open Pttbbs.Lib

/-- A stamp as a `time4_t`. -/
def time4 (stamp : Nat) : Int := if stamp < 2 ^ 31 then stamp else stamp - 2 ^ 32

/-! ### In C -/

/-- The first loop: the records with the largest stamps so far; records without a stamp, and
with a stamp that is negative as a `time4_t`, are passed over. -/
def candIdxFrom : Nat → List Int → List Nat → Int → List Nat
  | _, [], cands, _ => cands
  | index, stamp :: rest, cands, maxSeen =>
      if stamp ≤ 0 then candIdxFrom (index + 1) rest cands maxSeen
      else if cands = [] ∨ maxSeen < stamp then
        candIdxFrom (index + 1) rest (cands ++ [index]) stamp
      else candIdxFrom (index + 1) rest cands maxSeen

def candIdx (tsBuf : List Int) : List Nat := candIdxFrom 0 tsBuf [] 0

structure Backtrack where
  maxBacktrack : Int := 0
  maxTimeDiff : Int := 0
deriving DecidableEq, Repr

/-- One turn of the second loop: the earliest of the largest stamps that is larger. -/
def Backtrack.visit (tsBuf : List Int) (cands : List Nat) (record : Nat) (found : Backtrack) :
    Backtrack :=
  let stamp := tsBuf.getD record 0
  let last := tsBuf.getD (cands.getD (cands.length - 1) 0) 0
  if stamp ≤ 0 then found
  else if 0 < cands.length ∧ stamp < last then
    let best := bisect (fun place => stamp < tsBuf.getD (cands.getD place 0) 0) cands.length 0
      cands.length (cands.length - 1)
    let dist : Int := record - (cands.getD best 0 : Nat)
    { maxBacktrack := if found.maxBacktrack < dist then dist else found.maxBacktrack
      maxTimeDiff := if found.maxTimeDiff < last - stamp then last - stamp else found.maxTimeDiff }
  else found

def Backtrack.visitDown (tsBuf : List Int) (cands : List Nat) : Nat → Backtrack → Backtrack
  | 0, found => found
  | record + 1, found => visitDown tsBuf cands record (found.visit tsBuf cands record)

/-- `c_compute_dir_backtrack`, from the stamps it has read. -/
def cComputeDirBacktrack (tsBuf : List Int) : Backtrack :=
  if tsBuf.length ≤ 1 then {}
  else Backtrack.visitDown tsBuf (candIdx tsBuf) tsBuf.length {}

/-- The part of `c_search_aidu_and_compute_backtrack` that computes the same. -/
def cSearchAiduBacktrack (tsBuf : List Int) : Backtrack :=
  if 1 < tsBuf.length then Backtrack.visitDown tsBuf (candIdx tsBuf) tsBuf.length {}
  else {}

/-! ### In Go -/

/-- The stamp of a raw AID, `(raw >> 12) & 0xFFFFFFFF`. -/
def stampOf (raw : Nat) : Nat := raw / 2 ^ 12 % 2 ^ 32

/-- The inner loop of `computeBoardAIDStats`: back from the last of the largest stamps, for
1000 records more than the distance so far, until a stamp is a day before. -/
def lookBack (aids : List Nat) (record stamp maxBacktrack : Nat) : Nat → Nat → Nat
  | 0, earliest => earliest
  | place + 1, earliest =>
      if record ≤ place + maxBacktrack + 1000 then
        let raw := aids.getD place 0
        if raw = 0 then lookBack aids record stamp maxBacktrack place earliest
        else if stamp < stampOf raw then lookBack aids record stamp maxBacktrack place place
        else if 86400 < stamp - stampOf raw then earliest
        else lookBack aids record stamp maxBacktrack place earliest
      else earliest

structure AidStats where
  maxBacktrack : Nat := 0
  maxTimeDiff : Nat := 0
  minTS : Nat := 0
  maxTS : Nat := 0
  maxSeenTS : Nat := 0
  maxSeenIdx : Nat := 0
deriving DecidableEq, Repr

def AidStats.visit (aids : List Nat) (record : Nat) (stats : AidStats) : AidStats :=
  let raw := aids.getD record 0
  let stamp := stampOf raw
  if raw = 0 ∨ stamp = 0 then stats
  else
    let ranged :=
      { stats with
        minTS := if stats.minTS = 0 ∨ stamp < stats.minTS then stamp else stats.minTS
        maxTS := if stats.maxTS < stamp then stamp else stats.maxTS }
    if stats.maxSeenTS ≤ stamp then { ranged with maxSeenTS := stamp, maxSeenIdx := record }
    else
      let earliest :=
        lookBack aids record stamp stats.maxBacktrack stats.maxSeenIdx stats.maxSeenIdx
      { ranged with
        maxTimeDiff := max stats.maxTimeDiff (stats.maxSeenTS - stamp)
        maxBacktrack := max stats.maxBacktrack (record - earliest) }

def computeBoardAIDStats (aids : List Nat) : AidStats :=
  (List.range aids.length).foldl (fun stats record => stats.visit aids record) {}

end Pttbbs.SearchSvc
