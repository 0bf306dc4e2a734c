/-
What the search of a directory finds.

Without a bound the search ends with a scan of all records and misses nothing.  With a bound
it trusts the window around the place where the binary search ended.  The bound is a distance
between articles that are out of order; records with the same stamp, and records that are not
counted as articles, can lead the search farther away.
-/

import Pttbbs.SearchSvc.Aids
import Pttbbs.SearchSvc.BacktrackBound

namespace Pttbbs.SearchSvc

open Pttbbs.Lib

section Search

variable {dir : List Fileheader} {wanted : Wanted} {place : Nat}

theorem isWanted_iff : isWanted dir wanted place = true ↔
    ∃ fh, dir[place]? = some fh ∧ matchFhdrStampHex wanted fh = true := by
  unfold isWanted
  cases dir[place]? with
  | none => simp
  | some fh => simp

theorem isWanted_lt (here : isWanted dir wanted place = true) : place < dir.length := by
  obtain ⟨fh, record, _⟩ := isWanted_iff.mp here
  exact (List.getElem?_eq_some_iff.mp record).1

theorem stampAt_of_isWanted (here : isWanted dir wanted place = true) :
    stampAt dir place = wanted.targetTs := by
  obtain ⟨fh, record, found⟩ := isWanted_iff.mp here
  unfold stampAt
  rw [record]
  unfold matchFhdrStampHex at found
  by_contra different
  dsimp only at different
  rw [if_pos different] at found
  split at found
  · cases found
  · split at found
    · cases found
    · split at found
      · cases found
      · cases found

theorem exists_isWanted : (∃ fh ∈ dir, matchFhdrStampHex wanted fh = true) ↔
    ∃ place, isWanted dir wanted place = true := by
  constructor
  · rintro ⟨fh, member, found⟩
    obtain ⟨place, record⟩ := List.getElem?_of_mem member
    exact ⟨place, isWanted_iff.mpr ⟨fh, record, found⟩⟩
  · rintro ⟨place, here⟩
    obtain ⟨fh, record, found⟩ := isWanted_iff.mp here
    exact ⟨fh, List.mem_of_getElem? record, found⟩

/-! ### Where the binary search ends -/

theorem stampTurn_cases :
    stampTurn dir wanted place ≠ .found ∧
    (stampTurn dir wanted place = .halt → stampAt dir place = wanted.targetTs) ∧
    (stampTurn dir wanted place = .later → stampAt dir place < wanted.targetTs) ∧
    (stampTurn dir wanted place = .earlier → wanted.targetTs < stampAt dir place) := by
  unfold stampTurn
  split
  · rename_i same
    exact ⟨nofun, fun _ => same, nofun, nofun⟩
  · split
    · rename_i less
      exact ⟨nofun, nofun, fun _ => less, nofun⟩
    · exact ⟨nofun, nofun, nofun, fun _ => by omega⟩

theorem bsearchEnd_cases (here : isWanted dir wanted place = true) :
    ∃ other, other < dir.length ∧
      (stampAt dir other = wanted.targetTs ∧ bsearchEnd dir wanted = other ∨
        (place < other ∧ stampAt dir other < wanted.targetTs) ∧
          (bsearchEnd dir wanted = other ∨ bsearchEnd dir wanted = other + 1) ∨
        (other < place ∧ wanted.targetTs < stampAt dir other) ∧
          (bsearchEnd dir wanted = other ∨ bsearchEnd dir wanted + 1 = other)) := by
  have inside := isWanted_lt here
  have self : stampTurn dir wanted place = .halt := by
    unfold stampTurn
    rw [if_pos (stampAt_of_isWanted here)]
  unfold bsearchEnd
  cases ended : approach (fun low stop => some (middle low stop)) (stampTurn dir wanted)
    dir.length 0 dir.length 0 with
  | found mid => exact absurd (approach_found ended) stampTurn_cases.1
  | near mid =>
      have ends : DeadEnd (fun other => other < dir.length)
          (fun low stop => some (middle low stop)) (stampTurn dir wanted) place mid := by
        refine approach_near ?_ nofun ?_ (Nat.le_refl _) ?_ (Nat.sub_le _ 0)
          (Or.inl (Nat.zero_lt_of_lt inside)) ended
        · intro low stop mid more bound probed
          cases probed
          unfold middle
          omega
        · rw [self]
          exact ⟨nofun, nofun⟩
        · exact ⟨Nat.zero_le _, Or.inl (Nat.zero_le _), Or.inl inside⟩
      cases ends with
      | halt present halted =>
          exact ⟨mid, present, Or.inl ⟨stampTurn_cases.2.1 halted, rfl⟩⟩
      | @late other mid wrong present misled next =>
          refine ⟨other, present, Or.inr (Or.inl ⟨⟨wrong, stampTurn_cases.2.2.1 misled⟩, ?_⟩)⟩
          rcases next with same | after | ⟨_, _, none, _⟩
          · exact Or.inl same
          · exact Or.inr after
          · cases none
      | @early other mid wrong present misled next =>
          refine ⟨other, present, Or.inr (Or.inr ⟨⟨wrong, stampTurn_cases.2.2.2 misled⟩, ?_⟩)⟩
          rcases next with same | before | ⟨_, _, none, _⟩
          · exact Or.inl same
          · exact Or.inr before
          · cases none

/-! ### The window -/

theorem windowOf_reaches {total mid bound : Nat} (inside : place < total)
    (near : total ≤ bound * 2 + bsearchWin ∨
      place < mid + bound + 128 ∧ mid ≤ place + bound + 128) :
    (windowOf total mid bound).1 ≤ place ∧
      place < (windowOf total mid bound).1 + (windowOf total mid bound).2 := by
  unfold windowOf
  unfold bsearchWin at *
  rw [if_pos (Int.natCast_nonneg bound), Int.toNat_natCast]
  dsimp only
  split <;> omega

variable (dir) in
/-- A record that the bound says nothing about: one with the same stamp, or one on the wrong
side where one of the two is not counted as an article. -/
def Stray (place other : Nat) : Prop :=
  stampAt dir other = stampAt dir place ∨
    (place < other ∧ stampAt dir other < stampAt dir place ∨
      other < place ∧ stampAt dir place < stampAt dir other) ∧
    ((tsBufOf dir).getD place 0 ≤ 0 ∨ (tsBufOf dir).getD other 0 ≤ 0)

/-- A wanted record is near the hint, the window is the whole directory, or no stray record is
farther away than the window reaches. -/
def InBounds (dir : List Fileheader) (wanted : Wanted) (hintIdx : Int) (bound : Nat) : Prop :=
  ∃ place, isWanted dir wanted place = true ∧
    (1 ≤ hintIdx ∧ hintIdx ≤ place + 33 ∧ place < hintIdx + 4 ∨
      dir.length ≤ bound * 2 + bsearchWin ∨
      ∀ other, other < dir.length → Stray dir place other →
        place ≤ other + bound + 126 ∧ other ≤ place + bound + 126)

theorem tsBufOf_pos (counted : 0 < (tsBufOf dir).getD place 0) :
    (tsBufOf dir).getD place 0 = stampAt dir place := by
  unfold tsBufOf stampAt at *
  rw [List.getD_eq_getElem?_getD, List.getElem?_map] at *
  cases record : dir[place]? with
  | none =>
      rw [record] at counted
      exact absurd counted (Int.lt_irrefl 0)
  | some fh =>
      rw [record] at counted
      simp only [Option.map_some, Option.getD_some] at counted ⊢
      split at counted
      · rename_i article
        rw [if_pos article]
      · exact absurd counted (Int.lt_irrefl 0)

theorem near_of_counted {bound other : Nat}
    (covers : (cComputeDirBacktrack (tsBufOf dir)).maxBacktrack ≤ bound)
    (stray : ∀ other, other < dir.length → Stray dir place other →
      place ≤ other + bound + 126 ∧ other ≤ place + bound + 126)
    (inside : other < dir.length)
    (wrong : place < other ∧ stampAt dir other < stampAt dir place ∨
      other < place ∧ stampAt dir place < stampAt dir other) :
    place ≤ other + bound + 126 ∧ other ≤ place + bound + 126 := by
  by_cases uncounted : (tsBufOf dir).getD place 0 ≤ 0 ∨ (tsBufOf dir).getD other 0 ≤ 0
  · exact stray other inside (Or.inr ⟨wrong, uncounted⟩)
  · obtain ⟨first, second⟩ := not_or.mp uncounted
    have firstStamp := tsBufOf_pos (Int.not_le.mp first)
    have secondStamp := tsBufOf_pos (Int.not_le.mp second)
    obtain ⟨distance, largest, same⟩ := cComputeDirBacktrack_max (tsBufOf dir)
    rw [← firstStamp, ← secondStamp] at wrong
    rcases wrong with ⟨order, less⟩ | ⟨order, less⟩
    · have le := largest.bound place other ⟨order, by omega, less⟩
      omega
    · have le := largest.bound other place ⟨order, by omega, less⟩
      omega

theorem window_finds {bound : Nat}
    (covers : (cComputeDirBacktrack (tsBufOf dir)).maxBacktrack ≤ bound)
    (here : isWanted dir wanted place = true)
    (near : dir.length ≤ bound * 2 + bsearchWin ∨
      ∀ other, other < dir.length → Stray dir place other →
        place ≤ other + bound + 126 ∧ other ≤ place + bound + 126) :
    (windowOf dir.length (bsearchEnd dir wanted) bound).1 ≤ place ∧
      place < (windowOf dir.length (bsearchEnd dir wanted) bound).1 +
        (windowOf dir.length (bsearchEnd dir wanted) bound).2 := by
  refine windowOf_reaches (isWanted_lt here) (near.imp_right fun stray => ?_)
  have stamp := stampAt_of_isWanted here
  obtain ⟨other, inside, ended⟩ := bsearchEnd_cases here
  rw [← stamp] at ended
  rcases ended with ⟨same, rfl⟩ | ⟨wrong, next⟩ | ⟨wrong, next⟩
  · have close := stray _ inside (Or.inl same)
    omega
  · have close := near_of_counted covers stray inside (Or.inl wrong)
    omega
  · have close := near_of_counted covers stray inside (Or.inr wrong)
    omega

/-! ### The result -/

theorem scanDown_number {hit : Nat → Bool} {start stop : Nat}
    (found : 0 < ((scanDown hit start stop).map (· + 1)).getD 0) :
    hit (((scanDown hit start stop).map (· + 1)).getD 0 - 1) = true := by
  cases scanned : scanDown hit start stop with
  | none =>
      rw [scanned] at found
      exact absurd found (Nat.lt_irrefl 0)
  | some place => exact (scanDown_some scanned).1

theorem scanDown_number_pos {hit : Nat → Bool} {start stop : Nat} (here : hit place = true)
    (above : start ≤ place) (below : place < stop) :
    0 < ((scanDown hit start stop).map (· + 1)).getD 0 := by
  obtain ⟨other, scanned⟩ := scanDown_isSome here above below
  rw [scanned]
  exact Nat.succ_pos other

theorem searchDirByStamp_sound {hintIdx maxBacktrack : Int}
    (found : 0 < searchDirByStamp dir wanted hintIdx maxBacktrack) :
    isWanted dir wanted (searchDirByStamp dir wanted hintIdx maxBacktrack - 1) = true := by
  unfold searchDirByStamp at found ⊢
  dsimp only at found ⊢
  split at found
  · exact absurd found (Nat.lt_irrefl 0)
  · rename_i notEmpty
    rw [if_neg notEmpty]
    split at found
    · rename_i hinted
      rw [if_pos hinted]
      exact hinted.2.2
    · rename_i notHinted
      rw [if_neg notHinted]
      split at found
      · rename_i place shifted
        split at shifted
        · exact (scanDown_some shifted).1
        · cases shifted
      · split at found
        · rename_i long
          rw [if_pos long]
          split at found
          · rename_i place inWindow
            exact (scanDown_some inWindow).1
          · split at found
            · exact absurd found (Nat.lt_irrefl 0)
            · rename_i unbounded
              rw [if_neg unbounded]
              exact scanDown_number found
        · rename_i short
          rw [if_neg short]
          exact scanDown_number found

/-- A wanted record is found where the search goes to the end, near the hint, and in the
window. -/
theorem searchDirByStamp_pos {hintIdx maxBacktrack : Int} (here : isWanted dir wanted place = true)
    (seen : maxBacktrack < 0 ∨ dir.length ≤ bsearchWin ∨
      1 ≤ hintIdx ∧ hintIdx ≤ place + 33 ∧ place < hintIdx + 4 ∨
      (windowOf dir.length (bsearchEnd dir wanted) maxBacktrack).1 ≤ place ∧
        place < (windowOf dir.length (bsearchEnd dir wanted) maxBacktrack).1 +
          (windowOf dir.length (bsearchEnd dir wanted) maxBacktrack).2) :
    0 < searchDirByStamp dir wanted hintIdx maxBacktrack := by
  have inside := isWanted_lt here
  have whole := scanDown_number_pos here (Nat.zero_le place) inside
  unfold searchDirByStamp
  dsimp only
  rw [if_neg (by omega)]
  split
  · rename_i hinted
    omega
  · split
    · exact Nat.succ_pos _
    · rename_i notShifted
      split
      · rename_i long
        split
        · exact Nat.succ_pos _
        · rename_i notInWindow
          split
          · rename_i bounded
            rcases seen with unbounded | short | near | inWindow
            · omega
            · omega
            · rw [if_pos near.1] at notShifted
              obtain ⟨other, scanned⟩ := @scanDown_isSome _ (hintIdx.toNat - 33)
                (min dir.length (hintIdx.toNat + 4)) place here (by omega) (by omega)
              rw [notShifted] at scanned
              cases scanned
            · obtain ⟨other, scanned⟩ := scanDown_isSome here inWindow.1 inWindow.2
              rw [notInWindow] at scanned
              cases scanned
          · exact whole
      · exact whole

end Search

def FindsWanted (dir : List Fileheader) (wanted : Wanted) (result : Nat) : Prop :=
  (0 < result ↔ ∃ fh ∈ dir, matchFhdrStampHex wanted fh = true) ∧
    (0 < result → ∃ fh, dir[result - 1]? = some fh ∧ matchFhdrStampHex wanted fh = true)

theorem findsWanted_of_pos {dir : List Fileheader} {wanted : Wanted}
    {hintIdx maxBacktrack : Int} (complete : (∃ fh ∈ dir, matchFhdrStampHex wanted fh = true) →
      0 < searchDirByStamp dir wanted hintIdx maxBacktrack) :
    FindsWanted dir wanted (searchDirByStamp dir wanted hintIdx maxBacktrack) := by
  have sound := @searchDirByStamp_sound dir wanted hintIdx maxBacktrack
  refine ⟨⟨fun found => ?_, complete⟩, fun found => isWanted_iff.mp (sound found)⟩
  exact exists_isWanted.mpr ⟨_, sound found⟩

/-- Without a hint, in a long directory whose stamps are out of order by a known distance: nothing
is found where the window holds nothing that is wanted. -/
theorem searchDirByStamp_window {dir : List Fileheader} {wanted : Wanted} {mid : Nat}
    {maxBacktrack : Int} (long : bsearchWin < dir.length) (known : 0 ≤ maxBacktrack)
    (ends : bsearchEnd dir wanted = mid)
    (missed : scanDown (isWanted dir wanted) (windowOf dir.length mid maxBacktrack).1
      ((windowOf dir.length mid maxBacktrack).1 + (windowOf dir.length mid maxBacktrack).2) =
        none) :
    searchDirByStamp dir wanted 0 maxBacktrack = 0 := by
  rw [searchDirByStamp]
  dsimp only
  rw [if_neg (by omega), if_neg fun both => absurd both.1 (by decide), if_neg (by decide)]
  dsimp only
  rw [if_pos long, ends, missed]
  exact if_pos known

def namedRecord (filename : Bytes) : Fileheader :=
  { filename := filename, score := 0, owner := [], title := [], money := 0, filemode := 0
    comments := 0 }

def wantedArticle : Wanted :=
  { prefixCh := 77, targetTs := 1000000000, targetHex := 0x123, allowPrefix := false
    requiredMode := 0 }

end Pttbbs.SearchSvc
