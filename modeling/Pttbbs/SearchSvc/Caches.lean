/-
The two caches of the search service.

A search lies in the map of the entries, in the map of its directory and in the list of last use,
and the numbers of all lists of records are summed up.  An answer for an AID lies in three such
places of its own, and once more under its record number.  Hints change entries in place; a loop
over a map comes to its entries in any order.  The tables of AIDs are kept apart and left out.
-/

import Pttbbs.Lib.TagLists
import Pttbbs.SearchSvc.Aids
import Pttbbs.SearchSvc.ScoreHints

namespace Pttbbs.SearchSvc.Caches

open Pttbbs.Lib

abbrev Ref := Nat

/-! ### Searches -/

structure CacheKey where
  direct : Bytes
  bid : Int32
  predsHex : Bytes
deriving DecidableEq

structure CacheEntry where
  key : CacheKey
  indices : List Int32
  scannedRecs : Int32

/-- The cache of the searches; `heap` holds what the pointers lead to.  An entry's `elem` is its
place in the list of the shelf, and is nil where it has none. -/
structure Searches where
  shelf : Shelf CacheKey Bytes Ref := .empty
  heap : Ref → CacheEntry
  totalIndices : Int := 0
  maxEntries : Int
  maxIndices : Int
  evictions : Nat := 0

namespace Searches

def keyOf (s : Searches) (e : Ref) : CacheKey := (s.heap e).key

def removeEntryLocked (s : Searches) (e : Ref) : Searches :=
  let total := s.totalIndices - (s.heap e).indices.length
  { s with
    shelf := s.shelf.remove CacheKey.direct s.keyOf e
    totalIndices := if total < 0 then 0 else total }

theorem length_remove_lt {s : Searches} {victim : Ref}
    (back : s.shelf.lru.getLast? = some victim) :
    (s.removeEntryLocked victim).shelf.lru.length < s.shelf.lru.length := by
  have member := List.mem_of_getLast? back
  change (s.shelf.lru.erase victim).length < _
  rw [List.length_erase_of_mem member]
  have positive := List.length_pos_of_mem member
  omega

def evict (s : Searches) : Searches :=
  if (s.maxEntries < s.shelf.entries.size ∨ s.maxIndices < s.totalIndices) ∧
      1 < s.shelf.lru.length then
    match _back : s.shelf.lru.getLast? with
    | none => s
    | some victim =>
        evict { s.removeEntryLocked victim with evictions := s.evictions + 1 }
  else s
termination_by s.shelf.lru.length
decreasing_by exact length_remove_lt _back

def putEntryLocked (s : Searches) (e : Ref) : Searches :=
  let free :=
    match s.shelf.entries.lookup (s.keyOf e) with
    | none => s
    | some old => s.removeEntryLocked old
  evict
    { free with
      shelf := free.shelf.push CacheKey.direct free.keyOf e
      totalIndices := free.totalIndices + (free.heap e).indices.length }

def alloc (s : Searches) (e : Ref) (entry : CacheEntry) : Searches :=
  { s with heap := Function.update s.heap e entry }

/-- One turn of the loop of `handleHintComment`. -/
def hintEntry (recno score : Int32) (s : Searches) (e : Ref) : Searches :=
  let entry := s.heap e
  if entry.scannedRecs < recno then s
  else
    let seen := inspectScorePredicates entry.key.predsHex score.toInt
    if !seen.hasScore then s
    else
      let idx := sortSearch entry.indices.length fun i => recno ≤ entry.indices.getD i 0
      let present : Bool := entry.indices[idx]? = some recno
      if !seen.allScoreMatch && present then
        { s.alloc e
            { entry with indices := entry.indices.take idx ++ entry.indices.drop (idx + 1) } with
          totalIndices := if s.totalIndices - 1 < 0 then 0 else s.totalIndices - 1 }
      else if seen.allScoreMatch && !present && seen.allScore then
        { s.alloc e
            { entry with indices := entry.indices.take idx ++ recno :: entry.indices.drop idx } with
          totalIndices := s.totalIndices + 1 }
      else s

end Searches

/-! ### AIDs -/

structure AIDCacheKey where
  direct : Bytes
  aiduRaw : UInt64
  requiredMode : Int32
deriving DecidableEq

structure AIDCacheEntry where
  key : AIDCacheKey
  bid : Int32
  foundIdx : Int32
  fhBytes : Bytes
  scannedRecs : Int32

structure BoardRecKey where
  direct : Bytes
  recno : Int32
deriving DecidableEq

/-- The cache of the AIDs, as `Searches`. -/
structure Answers where
  shelf : Shelf AIDCacheKey Bytes Ref := .empty
  heap : Ref → AIDCacheEntry
  byRec : KeyMap BoardRecKey (List Ref) := ∅
  maxAIDEntries : Int
  aidEvictions : Nat := 0

def AIDCacheEntry.recKey (entry : AIDCacheEntry) : BoardRecKey :=
  { direct := entry.key.direct, recno := entry.foundIdx }

def fhdrOffScore : Nat := 32

def setFileheaderScore (fh : Bytes) (score : Int32) : Bytes :=
  fh.take fhdrOffScore ++ (bigEndian 2 score.toUInt32.toUInt16.toNat).reverse ++ fh.drop (fhdrOffScore + 2)

namespace Answers

def keyOf (s : Answers) (e : Ref) : AIDCacheKey := (s.heap e).key

def removeAIDEntryLocked (s : Answers) (e : Ref) : Answers :=
  { s with
    shelf := s.shelf.remove AIDCacheKey.direct s.keyOf e
    byRec :=
      if 0 < (s.heap e).foundIdx then TagLists.drop s.byRec (s.heap e).recKey e else s.byRec }

theorem length_remove_lt {s : Answers} {victim : Ref}
    (back : s.shelf.lru.getLast? = some victim) :
    (s.removeAIDEntryLocked victim).shelf.lru.length < s.shelf.lru.length := by
  have member := List.mem_of_getLast? back
  change (s.shelf.lru.erase victim).length < _
  rw [List.length_erase_of_mem member]
  have positive := List.length_pos_of_mem member
  omega

def evict (s : Answers) : Answers :=
  if s.maxAIDEntries < s.shelf.entries.size ∧ 1 < s.shelf.lru.length then
    match _back : s.shelf.lru.getLast? with
    | none => s
    | some victim =>
        evict { s.removeAIDEntryLocked victim with aidEvictions := s.aidEvictions + 1 }
  else s
termination_by s.shelf.lru.length
decreasing_by exact length_remove_lt _back

def putAIDEntryLocked (s : Answers) (e : Ref) : Answers :=
  let free :=
    match s.shelf.entries.lookup (s.keyOf e) with
    | none => s
    | some old => s.removeAIDEntryLocked old
  evict
    { free with
      shelf := free.shelf.push AIDCacheKey.direct free.keyOf e
      byRec :=
        if 0 < (free.heap e).foundIdx then TagLists.add free.byRec (free.heap e).recKey e
        else free.byRec }

def alloc (s : Answers) (e : Ref) (entry : AIDCacheEntry) : Answers :=
  { s with heap := Function.update s.heap e entry }

def hintScore (s : Answers) (direct : Bytes) (recno score : Int32) : Answers :=
  (TagLists.under s.byRec { direct := direct, recno := recno }).foldl
    (fun s e => s.alloc e { s.heap e with fhBytes := setFileheaderScore (s.heap e).fhBytes score }) s

end Answers

/-! ### Both caches -/

structure Service where
  searches : Searches
  answers : Answers

/-- The closure `match` of `invalidateInternal`. -/
def isMatch (resolvedDirect : Bytes) (bid : Int32) (kDirect : Bytes) (kBid : Int32) : Bool :=
  (bid = 0 && resolvedDirect = []) || (resolvedDirect ≠ [] && kDirect = resolvedDirect) ||
    (0 < bid && kBid = bid)

/-- `targetDirects` of a directory that is given: it and those of the board. -/
def targetDirects (boards : List (Bytes × Int32)) (resolvedDirect : Bytes) (bid : Int32) :
    List Bytes :=
  (resolvedDirect ::
    if 0 < bid then (boards.filter fun board => board.2 = bid).map Prod.fst else []).dedup

section Victims

variable {Key : Type} [DecidableEq Key]

def victims (shelf : Shelf Key Bytes Ref) (directOf : Ref → Bytes) (bidOf : Ref → Int32)
    (boards : List (Bytes × Int32)) (resolvedDirect : Bytes) (bid : Int32) : List Ref :=
  if resolvedDirect ≠ [] ∧ bid = 0 then
    (targetDirects boards resolvedDirect bid).flatMap shelf.groupRefs
  else if resolvedDirect ≠ [] then
    (targetDirects boards resolvedDirect bid).flatMap shelf.groupRefs ++
      (shelf.byGroup.keys.filter fun dir => dir ∉ targetDirects boards resolvedDirect bid).flatMap
        fun dir => (shelf.groupRefs dir).filter fun e => bidOf e = bid
  else shelf.entries.values.filter fun e => isMatch resolvedDirect bid (directOf e) (bidOf e)

end Victims

/-- `invalidateInternal` on the caches; the entries are removed in some order. -/
def InvalidateInternal (boards : List (Bytes × Int32)) (resolvedDirect : Bytes) (bid : Int32)
    (s s' : Service) : Prop :=
  ∃ order aidOrder : List Ref,
    order.Perm (victims s.searches.shelf (fun e => (s.searches.keyOf e).direct)
      (fun e => (s.searches.keyOf e).bid) boards resolvedDirect bid) ∧
    aidOrder.Perm (victims s.answers.shelf (fun e => (s.answers.keyOf e).direct)
      (fun e => (s.answers.heap e).bid) boards resolvedDirect bid) ∧
    s' =
      { searches := order.foldl Searches.removeEntryLocked s.searches
        answers := aidOrder.foldl Answers.removeAIDEntryLocked s.answers }

def HandleHintComment (direct : Bytes) (recno score : Int32) (s s' : Service) : Prop :=
  if direct = [] ∨ recno ≤ 0 then s' = s
  else
    ∃ order : List Ref, order.Perm (s.searches.shelf.groupRefs direct) ∧
      s' =
        { searches := order.foldl (Searches.hintEntry recno score) s.searches
          answers := s.answers.hintScore direct recno score }

def aiduRawMask : UInt64 := 0x00001FFFFFFFFFFF

def hintName (fhBytes : Bytes) : Bytes := (fhBytes.take 33).takeWhile (· ≠ 0)

/-- `handleHintPost` with a new entry at a place of its own. -/
def handleHintPost (direct : Bytes) (resolvedBid recno : Int32) (aidu : UInt64) (fhBytes : Bytes)
    (e : Ref) (s : Service) : Service :=
  let aidu := if aidu = 0 then UInt64.ofNat (fn2aidu (hintName fhBytes)) else aidu
  if aidu = 0 ∨ recno ≤ 0 ∨ direct = [] then s
  else
    { s with
      answers := (s.answers.alloc e
        { key := { direct := direct, aiduRaw := aidu &&& aiduRawMask, requiredMode := 0 }
          bid := resolvedBid, foundIdx := recno, fhBytes := fhBytes
          scannedRecs := recno }).putAIDEntryLocked e }

def forgetDeleted (direct : Bytes) (aidu : UInt64) (s : Service) : Service :=
  if aidu ≠ 0 ∧ direct ≠ [] then
    match s.answers.shelf.entries.lookup
        { direct := direct, aiduRaw := aidu &&& aiduRawMask, requiredMode := 0 } with
    | none => s
    | some e => { s with answers := s.answers.removeAIDEntryLocked e }
  else s

def HandleHintDelete (boards : List (Bytes × Int32)) (direct : Bytes) (bid : Int32)
    (aidu : UInt64) (s s' : Service) : Prop :=
  InvalidateInternal boards direct bid (forgetDeleted direct aidu s) s'

/-! ### Runs -/

/-- A call that changes the caches; a new entry is none that a cache holds. -/
inductive Step : Service → Service → Prop where
  | putEntry (s : Service) (e : Ref) (entry : CacheEntry) (new : e ∉ s.searches.shelf.lru) :
      Step s { s with searches := (s.searches.alloc e entry).putEntryLocked e }
  | removeEntry (s : Service) (e : Ref) (held : e ∈ s.searches.shelf.lru) :
      Step s { s with searches := s.searches.removeEntryLocked e }
  | putAIDEntry (s : Service) (e : Ref) (entry : AIDCacheEntry) (new : e ∉ s.answers.shelf.lru) :
      Step s { s with answers := (s.answers.alloc e entry).putAIDEntryLocked e }
  | removeAIDEntry (s : Service) (e : Ref) (held : e ∈ s.answers.shelf.lru) :
      Step s { s with answers := s.answers.removeAIDEntryLocked e }
  | hintComment {s s' : Service} (direct : Bytes) (recno score : Int32)
      (hint : HandleHintComment direct recno score s s') : Step s s'
  | hintPost (s : Service) (direct : Bytes) (resolvedBid recno : Int32) (aidu : UInt64)
      (fhBytes : Bytes) (e : Ref) (new : e ∉ s.answers.shelf.lru) :
      Step s (handleHintPost direct resolvedBid recno aidu fhBytes e s)
  | hintDelete {s s' : Service} (boards : List (Bytes × Int32)) (direct : Bytes) (bid : Int32)
      (aidu : UInt64) (hint : HandleHintDelete boards direct bid aidu s s') : Step s s'
  | invalidate {s s' : Service} (boards : List (Bytes × Int32)) (resolvedDirect : Bytes)
      (bid : Int32) (flushed : InvalidateInternal boards resolvedDirect bid s s') : Step s s'
  | searchHit (s : Service) (e : Ref) (held : e ∈ s.searches.shelf.lru) :
      Step s { s with searches := { s.searches with shelf := s.searches.shelf.touch e } }
  | aidHit (s : Service) (e : Ref) (held : e ∈ s.answers.shelf.lru) :
      Step s { s with answers := { s.answers with shelf := s.answers.shelf.touch e } }
  | setCacheLimits (s : Service) (maxEntries maxIndices maxAIDEntries : Int) :
      Step s
        { searches := { s.searches with maxEntries := maxEntries, maxIndices := maxIndices }
          answers := { s.answers with maxAIDEntries := maxAIDEntries } }

inductive Reachable : Service → Prop where
  | start (heap : Ref → CacheEntry) (aidHeap : Ref → AIDCacheEntry)
      (maxEntries maxIndices maxAIDEntries : Int) :
      Reachable
        { searches := { heap := heap, maxEntries := maxEntries, maxIndices := maxIndices }
          answers := { heap := aidHeap, maxAIDEntries := maxAIDEntries } }
  | step {s s' : Service} (before : Reachable s) (call : Step s s') : Reachable s'

end Pttbbs.SearchSvc.Caches
