/-
Finding a board by its name.

`getbnum` halves a window of the name index whose two ends both belong to it.  The end that moves
onto the middle keeps it, so a window of two entries is looked at one entry after the other.
-/

import Pttbbs.Common.BoardTable

namespace Pttbbs.Common.BoardTable

open Pttbbs.Lib

/-- The loop of `getbnum` on the entries from `start` to `end`; there is no result when it reads
behind the entries that are in use. -/
def lookup (shm : Shm) (bname : CStr) (start stop : Nat) (ordered : start ≤ stop) : Option Int :=
  match (shm.bsorted .name)[(start + stop) / 2]? with
  | none => none
  | some entry =>
      let j := bname.strcasecmp (shm.bcache (entry + 1)).brdname
      if j = 0 then some (entry + 1)
      else if single : stop = start then some 0
      else if low : (start + stop) / 2 = start then lookup shm bname stop stop (Nat.le_refl _)
      else if 0 < j then lookup shm bname ((start + stop) / 2) stop (by omega)
      else lookup shm bname start ((start + stop) / 2) (by omega)
termination_by stop - start

def getbnum (shm : Shm) (bname : CStr) : Option Int :=
  lookup shm bname 0 (shm.bnumber - 1) (Nat.zero_le _)

/-! ### The search -/

section Search

variable {shm : Shm} {bname : CStr} {start stop : Nat}

def Shm.nameAt (shm : Shm) (entry : Int) : Bytes := (shm.bcache (entry + 1)).brdname.fold

structure Window (shm : Shm) (bname : CStr) (start stop : Nat) : Prop where
  bound : stop < shm.bnumber
  covers : ∀ place entry, (shm.bsorted .name)[place]? = some entry →
    shm.nameAt entry = bname.fold → start ≤ place ∧ place ≤ stop

theorem Indexed.nameAt_le (indexed : Indexed shm .name) {place other : Nat} {first second : Int}
    (here : (shm.bsorted .name)[place]? = some first)
    (there : (shm.bsorted .name)[other]? = some second) (before : place ≤ other) :
    shm.nameAt first ≤ shm.nameAt second := by
  rcases Nat.lt_or_eq_of_le before with earlier | same
  · obtain ⟨inside, firstHere⟩ := List.getElem?_eq_some_iff.mp here
    obtain ⟨within, secondThere⟩ := List.getElem?_eq_some_iff.mp there
    have ordered := List.pairwise_iff_getElem.mp indexed.sorted place other inside within earlier
    rw [firstHere, secondThere, compare_le_zero, sortKey, sortKey, Prod.Lex.toLex_le_toLex]
      at ordered
    exact (ordered.resolve_left (lt_irrefl _)).2
  · rw [same, there] at here
    rw [Option.some.inj here]

theorem Indexed.entry (indexed : Indexed shm .name) {place : Nat} (inside : place < shm.bnumber) :
    ∃ entry, (shm.bsorted .name)[place]? = some entry := by
  rw [← indexed.all.length_eq] at inside
  exact ⟨_, List.getElem?_eq_getElem inside⟩

theorem Window.above (window : Window shm bname start stop) (indexed : Indexed shm .name)
    {middle : Nat} {entry : Int} (here : (shm.bsorted .name)[middle]? = some entry)
    (less : shm.nameAt entry < bname.fold) : Window shm bname (middle + 1) stop where
  bound := window.bound
  covers := by
    intro place other there same
    constructor
    · by_contra before
      have ordered := indexed.nameAt_le there here (by omega)
      rw [same] at ordered
      exact absurd less (not_lt.mpr ordered)
    · exact (window.covers place other there same).2

theorem Window.below (window : Window shm bname start stop) (indexed : Indexed shm .name)
    {middle : Nat} {entry : Int} (here : (shm.bsorted .name)[middle]? = some entry)
    (inside : middle ≤ stop) (greater : bname.fold < shm.nameAt entry) :
    Window shm bname start middle where
  bound := Nat.lt_of_le_of_lt inside window.bound
  covers := by
    intro place other there same
    constructor
    · exact (window.covers place other there same).1
    · by_contra behind
      have ordered := indexed.nameAt_le here there (by omega)
      rw [same] at ordered
      exact absurd greater (not_lt.mpr ordered)

theorem Window.widen {first : Nat} (window : Window shm bname (first + 1) stop) :
    Window shm bname first stop where
  bound := window.bound
  covers place entry there same :=
    ⟨Nat.le_of_succ_le (window.covers place entry there same).1,
      (window.covers place entry there same).2⟩

def Finds (shm : Shm) (bname : CStr) (bid : Int) : Prop :=
  (∃ entry ∈ shm.bsorted .name, shm.nameAt entry = bname.fold ∧ bid = entry + 1) ∨
    (bid = 0 ∧ ∀ entry ∈ shm.bsorted .name, shm.nameAt entry ≠ bname.fold)

theorem lookup_finds (indexed : Indexed shm .name) {ordered : start ≤ stop}
    (window : Window shm bname start stop) :
    ∃ bid, lookup shm bname start stop ordered = some bid ∧ Finds shm bname bid := by
  have bound := window.bound
  obtain ⟨entry, here⟩ := indexed.entry (show (start + stop) / 2 < shm.bnumber by omega)
  induction start, stop, ordered using lookup.induct shm bname generalizing entry with
  | case1 start stop ordered missing =>
      rw [missing] at here
      cases here
  | case2 start stop ordered _ read j found =>
      rw [lookup, read]
      dsimp only
      rw [if_pos found]
      exact ⟨_, rfl, .inl ⟨_, List.mem_of_getElem? read,
        (CStr.strcasecmp_eq_zero.mp found).symm, rfl⟩⟩
  | case3 start middle j differs ordered read =>
      rw [lookup, read]
      dsimp only
      rw [if_neg differs, dif_pos rfl]
      refine ⟨0, rfl, .inr ⟨rfl, ?_⟩⟩
      intro other member same
      obtain ⟨place, there⟩ := List.mem_iff_getElem?.mp member
      have covered := window.covers place other there same
      have atMiddle : place = (start + start) / 2 := by omega
      rw [atMiddle, read] at there
      cases there
      exact differs (CStr.strcasecmp_eq_zero.mpr same.symm)
  | case4 start stop ordered middle read j differs single low ih =>
      rw [lookup, read]
      dsimp only
      rw [if_neg differs, dif_neg single, dif_pos low]
      -- Of the two entries the first is another board, so the window is the second alone.
      have rest : Window shm bname stop stop := by
        refine ⟨bound, ?_⟩
        intro place other there same
        have covered := window.covers place other there same
        have notFirst : place ≠ (start + stop) / 2 := by
          rintro rfl
          rw [read] at there
          cases there
          exact differs (CStr.strcasecmp_eq_zero.mpr same.symm)
        omega
      exact ih rest bound (indexed.entry (by omega)).choose (indexed.entry (by omega)).choose_spec
  | case5 start stop ordered middle read j differs single low more ih =>
      rw [lookup, read]
      dsimp only
      rw [if_neg differs, dif_neg single, dif_neg low, if_pos more]
      have rest := (window.above indexed read (CStr.strcasecmp_pos.mp more)).widen
      exact ih rest bound (indexed.entry (by omega)).choose (indexed.entry (by omega)).choose_spec
  | case6 start stop ordered middle read j differs single low more ih =>
      rw [lookup, read]
      dsimp only
      rw [if_neg differs, dif_neg single, dif_neg low, if_neg more]
      have less : j < 0 := lt_of_le_of_ne (not_lt.mp more) differs
      have rest := window.below indexed read (by omega) (CStr.strcasecmp_neg.mp less)
      exact ih rest rest.bound (indexed.entry (by omega)).choose
        (indexed.entry (by omega)).choose_spec

/-- A search of an index in order ends without reading past it.  It finds a bid exactly if some
board has the name up to case, and then a board that has it. -/
theorem getbnum_exact (indexed : Indexed shm .name) (some' : 1 ≤ shm.bnumber) :
    ∃ bid, getbnum shm bname = some bid ∧
      (0 < bid ↔ ∃ other : Int, 1 ≤ other ∧ other ≤ shm.bnumber ∧
        (shm.bcache other).brdname.fold = bname.fold) ∧
      (0 < bid → bid ≤ shm.bnumber ∧ (shm.bcache bid).brdname.fold = bname.fold) := by
  have window : Window shm bname 0 (shm.bnumber - 1) := by
    refine ⟨by omega, ?_⟩
    intro place entry there _
    have inside := (List.getElem?_eq_some_iff.mp there).1
    rw [indexed.all.length_eq] at inside
    omega
  obtain ⟨bid, found, finds⟩ := @lookup_finds _ _ _ _ indexed (Nat.zero_le _) window
  refine ⟨bid, found, ?_⟩
  rcases finds with ⟨entry, member, same, rfl⟩ | ⟨rfl, none⟩
  · obtain ⟨low, high⟩ := indexed.all.mem_iff.mp member
    exact ⟨⟨fun _ => ⟨entry + 1, by omega, by omega, same⟩, fun _ => by omega⟩,
      fun _ => ⟨by omega, same⟩⟩
  · refine ⟨⟨fun impossible => absurd impossible (lt_irrefl 0), ?_⟩,
      fun impossible => absurd impossible (lt_irrefl 0)⟩
    rintro ⟨other, low, high, same⟩
    have member : other - 1 ∈ shm.bsorted .name := indexed.all.mem_iff.mpr (by omega)
    refine absurd ?_ (none _ member)
    rw [Shm.nameAt, Int.sub_add_cancel]
    exact same

end Search

def sampleBoards : Shm where
  bnumber := 3
  bcache bid :=
    if bid = 1 then { brdname := ⟨utf8 "SYSOP", by decide⟩ }
    else if bid = 3 then { brdname := ⟨utf8 "Test", by decide⟩ }
    else { brdname := default }
  bsorted _ := []

theorem getbnum_sample :
    ∃ bid, getbnum (sortBcache sampleBoards) ⟨utf8 "tEST", by decide⟩ = some bid ∧
      (0 < bid ↔ ∃ other : Int, 1 ≤ other ∧ other ≤ (sortBcache sampleBoards).bnumber ∧
        ((sortBcache sampleBoards).bcache other).brdname.fold =
          CStr.fold ⟨utf8 "tEST", by decide⟩) ∧
      (0 < bid → bid ≤ (sortBcache sampleBoards).bnumber ∧
        ((sortBcache sampleBoards).bcache bid).brdname.fold =
          CStr.fold ⟨utf8 "tEST", by decide⟩) :=
  getbnum_exact (indexed_sortBcache sampleBoards .name) (by decide)

end Pttbbs.Common.BoardTable
