/-
The table of boards in shared memory.

Boards have numbers from 1 on, bids.  Two index tables list the places of the boards, by name and
by class and name, and the boards of a group are threaded through the headers, one list for each
of the two orders.  Nothing here runs concurrently, so `Bbusystate` is never seen set.
-/

import Mathlib.Data.List.Nodup
import Mathlib.Data.List.Perm.Basic
import Mathlib.Data.Prod.Lex
import Mathlib.Logic.Function.Basic
import Pttbbs.Lib.CStr

namespace Pttbbs.Common.BoardTable

open Pttbbs.Lib

/-! ### Shared memory -/

def maxBoard : Int := 8192

/-- `BRD_GROUP_LL_TYPE_NAME` and `BRD_GROUP_LL_TYPE_CLASS`. -/
inductive GroupType where
  | name
  | «class»
deriving DecidableEq

structure BoardHeader where
  brdname : CStr
  bclass : CStr := default
  gid : Int := 0
  next : GroupType → Int := fun _ => 0
  firstchild : GroupType → Int := fun _ => 0
  parent : Int := 0
  childcount : Int := 0

/-- `bcache` is indexed by the bid as in `getbcache`; of `bsorted` the first `Bnumber` entries are
kept, each a bid less one. -/
structure Shm where
  bnumber : Nat
  bcache : Int → BoardHeader
  bsorted : GroupType → List Int

/-! ### Sorting -/

section Sorting

variable (bcache : Int → BoardHeader)

def cmpboardname (i j : Int) : Int := (bcache (i + 1)).brdname.strcasecmp (bcache (j + 1)).brdname

def cmpboardclass (i j : Int) : Int :=
  let cmp := (bcache (i + 1)).bclass.strcmp (bcache (j + 1)).bclass
  if cmp ≠ 0 then cmp
  else (bcache (i + 1)).brdname.strcasecmp (bcache (j + 1)).brdname

def compare : GroupType → Int → Int → Int
  | .name => cmpboardname bcache
  | .class => cmpboardclass bcache

def qsort (cmp : Int → Int → Int) (entries : List Int) : List Int :=
  entries.mergeSort fun i j => cmp i j ≤ 0

end Sorting

def Shm.places (shm : Shm) : List Int := (List.range shm.bnumber).map Int.ofNat

def sortBcache (shm : Shm) : Shm :=
  { shm with
    bsorted := fun type => qsort (compare shm.bcache type) shm.places
    bcache := fun bid =>
      if 1 ≤ bid ∧ bid ≤ shm.bnumber then { shm.bcache bid with firstchild := fun _ => 0 }
      else shm.bcache bid }

def ListsAll (shm : Shm) (type : GroupType) : Prop := (shm.bsorted type).Perm shm.places

structure Indexed (shm : Shm) (type : GroupType) : Prop where
  all : ListsAll shm type
  sorted : (shm.bsorted type).Pairwise fun i j => compare shm.bcache type i j ≤ 0

theorem ListsAll.length_eq {shm : Shm} {type : GroupType} (all : ListsAll shm type) :
    (shm.bsorted type).length = shm.bnumber := by
  rw [List.Perm.length_eq all, Shm.places, List.length_map, List.length_range]

theorem ListsAll.nodup {shm : Shm} {type : GroupType} (all : ListsAll shm type) :
    (shm.bsorted type).Nodup := by
  rw [List.Perm.nodup_iff all]
  exact List.Nodup.map (fun _ _ same => Int.ofNat.inj same) List.nodup_range

theorem ListsAll.mem_iff {shm : Shm} {type : GroupType} (all : ListsAll shm type) {place : Int} :
    place ∈ shm.bsorted type ↔ 0 ≤ place ∧ place < shm.bnumber := by
  rw [List.Perm.mem_iff all, Shm.places, List.mem_map]
  constructor
  · rintro ⟨number, inside, rfl⟩
    exact ⟨Int.natCast_nonneg _, Int.ofNat_lt.mpr (List.mem_range.mp inside)⟩
  · rintro ⟨low, high⟩
    exact ⟨place.toNat, List.mem_range.mpr (by omega), Int.toNat_of_nonneg low⟩

/-! ### What `sort_bcache` leaves -/

def sortKey (bcache : Int → BoardHeader) : GroupType → Int → Bytes ×ₗ Bytes
  | .name, place => toLex ([], (bcache (place + 1)).brdname.fold)
  | .class, place => toLex ((bcache (place + 1)).bclass.bytes, (bcache (place + 1)).brdname.fold)

theorem compare_le_zero (bcache : Int → BoardHeader) (type : GroupType) (i j : Int) :
    compare bcache type i j ≤ 0 ↔ sortKey bcache type i ≤ sortKey bcache type j := by
  have names : (bcache (i + 1)).brdname.strcasecmp (bcache (j + 1)).brdname ≤ 0 ↔
      (bcache (i + 1)).brdname.fold ≤ (bcache (j + 1)).brdname.fold := by
    rw [← not_lt, CStr.strcasecmp_pos, not_lt]
  cases type with
  | name =>
      rw [compare, cmpboardname, names, sortKey, sortKey, Prod.Lex.toLex_le_toLex]
      exact ⟨fun below => .inr ⟨rfl, below⟩, fun less => (less.resolve_left (lt_irrefl _)).2⟩
  | «class» =>
      rw [compare, cmpboardclass, sortKey, sortKey, Prod.Lex.toLex_le_toLex]
      dsimp only
      split
      · rename_i differ
        rw [ne_eq, CStr.strcmp_eq_zero] at differ
        have apart : (bcache (i + 1)).bclass.bytes ≠ (bcache (j + 1)).bclass.bytes :=
          fun same => differ (CStr.strcmp_eq_zero.mp ((CStr.difference_sign
            (bcache (i + 1)).bclass.plain (bcache (j + 1)).bclass.plain).2.mpr same))
        rw [le_iff_lt_or_eq, CStr.strcmp_neg, CStr.strcmp_eq_zero]
        exact ⟨fun less => .inl (less.resolve_right differ),
          fun less => .inl (less.resolve_right fun both => apart both.1)⟩
      · rename_i same
        rw [ne_eq, not_not, CStr.strcmp_eq_zero] at same
        rw [names, same]
        exact ⟨fun below => .inr ⟨rfl, below⟩, fun less => (less.resolve_left (lt_irrefl _)).2⟩

theorem indexed_sortBcache (shm : Shm) (type : GroupType) : Indexed (sortBcache shm) type := by
  have unread : ∀ i j, compare (sortBcache shm).bcache type i j = compare shm.bcache type i j := by
    have name : ∀ bid, ((sortBcache shm).bcache bid).brdname = (shm.bcache bid).brdname := by
      intro bid
      rw [sortBcache]
      dsimp only
      split <;> rfl
    have «class» : ∀ bid, ((sortBcache shm).bcache bid).bclass = (shm.bcache bid).bclass := by
      intro bid
      rw [sortBcache]
      dsimp only
      split <;> rfl
    intro i j
    cases type with
    | name => rw [compare, compare, cmpboardname, cmpboardname, name, name]
    | «class» =>
        rw [compare, compare, cmpboardclass, cmpboardclass, name, name, «class», «class»]
  constructor
  · exact List.mergeSort_perm _ _
  · have sorted := @List.pairwise_mergeSort Int
      (fun i j => decide (compare shm.bcache type i j ≤ 0)) ?_ ?_ shm.places
    · refine sorted.imp ?_
      intro i j below
      rw [unread]
      exact of_decide_eq_true below
    · intro i j k first second
      rw [decide_eq_true_iff, compare_le_zero] at first second ⊢
      exact first.trans second
    · intro i j
      rw [Bool.or_eq_true, decide_eq_true_iff, decide_eq_true_iff, compare_le_zero,
        compare_le_zero]
      exact le_total _ _

end Pttbbs.Common.BoardTable
