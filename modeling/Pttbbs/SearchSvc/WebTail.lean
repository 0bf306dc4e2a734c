/-
A page of search results, counted from the newest.

The web asks for a page by its distance from the last match.  The service answers from a
cached list, or scans the directory from the end and stops as soon as it has enough; without
the service the directory is scanned twice from the beginning.
-/

import Pttbbs.SearchSvc.ScoreHints
import Mathlib.Algebra.Order.Ring.Int
import Mathlib.Data.Nat.Cast.Order.Ring

namespace Pttbbs.SearchSvc

open Pttbbs.Lib

section Scan

variable (config : Config) (preds : List FileheaderPredicate)

def recordMatches (fh : Fileheader) : Bool := fh.filename ≠ [] ∧ matchesAll config preds fh

/-- The loop of `c_scan_dir_reverse` over records and their numbers, and whether it stopped
before the first record; with `maxMatches` 0 it does not stop. -/
def scanReverse (maxMatches : Nat) : List (Fileheader × Nat) → List Nat → List Nat × Bool
  | [], found => (found, false)
  | (fh, recno) :: rest, found =>
      if recordMatches config preds fh then
        let found := found ++ [recno]
        if 0 < maxMatches ∧ maxMatches ≤ found.length then (found, decide (1 < recno))
        else scanReverse maxMatches rest found
      else scanReverse maxMatches rest found

def scanBatch : Nat := 1024

structure ReverseScan where
  indices : List Nat
  totalMatches : Nat
  stoppedEarly : Bool
deriving DecidableEq, Repr

/-- `c_scan_dir_reverse` as `ScanDirReverse` calls it: a directory of one batch is scanned as
a whole, and a larger one down to the depth, if there is one. -/
def scanDirReverse (dir : List Fileheader) (maxMatches maxScanDepth : Nat) : ReverseScan :=
  let maxOut := max maxMatches 1024
  let records := (dir.zipIdx 1).reverse
  let scanned :=
    if dir.length ≤ scanBatch then scanReverse config preds 0 records []
    else if 0 < maxScanDepth ∧ maxScanDepth < dir.length then
      scanReverse config preds maxMatches (records.take maxScanDepth) []
    else scanReverse config preds maxMatches records []
  { indices := scanned.1.take maxOut
    totalMatches := if scanned.2 then scanned.1.length + 1 else scanned.1.length
    stoppedEarly := scanned.2 }

def slice (start stop : Int) (items : List Nat) : List Nat :=
  (items.take stop.toNat).drop start.toNat

def forwardWindow (indices : List Nat) (total offset limit : Int) : List Nat :=
  let wOffset := max 0 (offset + total)
  if wOffset < total ∧ 0 < limit then slice wOffset (min (wOffset + limit) total) indices else []

/-- `targetMatches`, from the bounded offset and limit. -/
def targetMatches (offset limit : Int) : Nat := (max (-offset) limit).toNat

/-- `queryWebSearchTailInternal`: the page and the reported total, from the cached list of a
valid entry or from a scan. -/
def queryWebSearchTail (dir : List Fileheader) (cached : Option (List Nat))
    (webSearchMaxDepth : Nat) (offset limit : Int) : Option (List Nat × Nat) :=
  let curTotalRecs : Int := dir.length
  let limit := min limit curTotalRecs
  let offset := max offset (-curTotalRecs)
  match cached with
  | some indices => some (forwardWindow indices indices.length offset limit, indices.length)
  | none =>
      if preds = [] then none
      else
        let target := targetMatches offset limit
        let scan := scanDirReverse config preds dir target webSearchMaxDepth
        let revMatches := scan.indices
        if scan.stoppedEarly then
          let startIdx := max 0 ((target : Int) - limit)
          let window :=
            if startIdx < revMatches.length then
              (slice startIdx (min (target : Int) revMatches.length) revMatches).reverse
            else []
          some (window, scan.totalMatches)
        else
          some (forwardWindow revMatches.reverse scan.totalMatches offset limit, scan.totalMatches)

/-- The second pass of `search_predicates_local`. -/
def localScan (offset limit : Nat) : List (Fileheader × Nat) → Nat → List Nat → Nat × List Nat
  | [], total, out => (total, out)
  | (fh, recno) :: rest, total, out =>
      if recordMatches config preds fh then
        localScan offset limit rest (total + 1)
          (if offset ≤ total ∧ out.length < limit then out ++ [recno] else out)
      else localScan offset limit rest total out

/-- `search_predicates_local` with a negative offset: the page and the total. -/
def searchPredicatesLocal (dir : List Fileheader) (offset limit : Int) :
    Option (List Nat × Nat) :=
  if preds = [] then none
  else
    let counted := (dir.zipIdx 1).countP fun entry => recordMatches config preds entry.1
    let first := max 0 (offset + counted)
    if limit ≤ 0 then some ([], counted)
    else
      let scanned := localScan config preds first.toNat limit.toNat (dir.zipIdx 1) 0 []
      some (scanned.2, scanned.1)

end Scan

/-- What a page is: from `offset` before the end on, and at most `limit` matches. -/
def page (all : List Nat) (offset limit : Int) : List Nat :=
  (all.drop (max 0 (all.length + offset)).toNat).take limit.toNat

/-! ### The scans -/

section Scans

variable {config : Config} {preds : List FileheaderPredicate}

def hitsOf (config : Config) (preds : List FileheaderPredicate)
    (records : List (Fileheader × Nat)) : List Nat :=
  records.filterMap fun entry => if recordMatches config preds entry.1 then some entry.2 else none

theorem matchingRecords_eq_hitsOf (dir : List Fileheader) :
    matchingRecords config preds dir = hitsOf config preds (dir.zipIdx 1) := by
  unfold matchingRecords hitsOf recordMatches
  simp only [decide_eq_true_eq]

theorem hitsOf_cons (fh : Fileheader) (recno : Nat) (rest : List (Fileheader × Nat)) :
    hitsOf config preds ((fh, recno) :: rest) =
      if recordMatches config preds fh then recno :: hitsOf config preds rest
      else hitsOf config preds rest := by
  unfold hitsOf
  rw [List.filterMap_cons]
  split
  · rename_i none
    split at none
    · cases none
    · rename_i notMatched
      rw [if_neg notMatched]
  · rename_i value some
    split at some
    · rename_i matched
      cases some
      rw [if_pos matched]
    · cases some

theorem scanReverse_all (records : List (Fileheader × Nat)) (found : List Nat) :
    scanReverse config preds 0 records found = (found ++ hitsOf config preds records, false) := by
  induction records generalizing found with
  | nil =>
      rw [scanReverse]
      simp [hitsOf]
  | cons entry rest ih =>
      obtain ⟨fh, recno⟩ := entry
      rw [scanReverse, hitsOf_cons]
      split
      · dsimp only
        rw [if_neg (by omega), ih, List.append_assoc]
        rfl
      · exact ih found

/-- With a limit, all matches are found if there are fewer; otherwise as many as wanted, and
the last one of them tells whether the scan stopped early. -/
theorem scanReverse_eq {maxMatches : Nat} (records : List (Fileheader × Nat))
    {found : List Nat} (room : found.length < maxMatches) :
    scanReverse config preds maxMatches records found =
      if found.length + (hitsOf config preds records).length < maxMatches then
        (found ++ hitsOf config preds records, false)
      else
        (found ++ (hitsOf config preds records).take (maxMatches - found.length),
          decide (1 < (hitsOf config preds records).getD (maxMatches - found.length - 1) 0)) := by
  induction records generalizing found with
  | nil =>
      have empty : hitsOf config preds [] = [] := rfl
      rw [scanReverse, empty, List.length_nil, if_pos (by omega), List.append_nil]
  | cons entry rest ih =>
      obtain ⟨fh, recno⟩ := entry
      rw [scanReverse, hitsOf_cons]
      by_cases matched : recordMatches config preds fh = true
      · rw [if_pos matched, if_pos matched]
        dsimp only
        rw [List.length_append, List.length_singleton, List.length_cons]
        by_cases full : maxMatches ≤ found.length + 1
        · have last : maxMatches - found.length = 1 := by omega
          rw [if_pos (by omega), if_neg (by omega), last]
          rfl
        · have more : maxMatches - found.length = maxMatches - (found.length + 1) + 1 := by omega
          have more' : maxMatches - (found.length + 1) =
              maxMatches - (found.length + 1) - 1 + 1 := by omega
          rw [if_neg (by omega), ih (by rw [List.length_append, List.length_singleton]; omega),
            List.length_append, List.length_singleton, List.append_assoc, List.append_assoc,
            more, List.take_succ_cons, Nat.add_sub_cancel, more', List.getD_cons_succ, ← more']
          have same : found.length + 1 + (hitsOf config preds rest).length =
              found.length + ((hitsOf config preds rest).length + 1) := by omega
          rw [same]
          rfl
      · rw [if_neg matched, if_neg matched]
        exact ih room

theorem localScan_eq (offset limit : Nat) (records : List (Fileheader × Nat)) (total : Nat)
    (out : List Nat) :
    localScan config preds offset limit records total out =
      (total + (hitsOf config preds records).length,
        out ++ ((hitsOf config preds records).drop (offset - total)).take
          (limit - out.length)) := by
  induction records generalizing total out with
  | nil =>
      rw [localScan]
      simp [hitsOf]
  | cons entry rest ih =>
      obtain ⟨fh, recno⟩ := entry
      rw [localScan, hitsOf_cons]
      split
      · rw [ih, List.length_cons]
        refine Prod.ext (by dsimp only; omega) ?_
        dsimp only
        by_cases started : offset ≤ total
        · have here : offset - total = 0 := by omega
          have next : offset - (total + 1) = 0 := by omega
          rw [here, next, List.drop_zero, List.drop_zero]
          by_cases room : out.length < limit
          · have more : limit - out.length = limit - (out.length + 1) + 1 := by omega
            rw [if_pos ⟨started, room⟩, List.length_append, List.length_singleton, more,
              List.take_succ_cons, List.append_assoc]
            rfl
          · have full : limit - out.length = 0 := by omega
            rw [if_neg (by omega), full, List.take_zero, List.take_zero]
        · have more : offset - total = offset - (total + 1) + 1 := by omega
          rw [if_neg (by omega), more, List.drop_succ_cons]
      · exact ih total out

theorem countP_recordMatches (records : List (Fileheader × Nat)) :
    records.countP (fun entry => recordMatches config preds entry.1) =
      (hitsOf config preds records).length := by
  induction records with
  | nil => rfl
  | cons entry rest ih =>
      obtain ⟨fh, recno⟩ := entry
      rw [List.countP_cons, hitsOf_cons, ih]
      split <;> rfl

variable {dir : List Fileheader} {target : Nat}

theorem matchingRecords_length_le : (matchingRecords config preds dir).length ≤ dir.length := by
  rw [matchingRecords_eq_hitsOf]
  have le := List.length_filterMap_le
    (fun entry : Fileheader × Nat =>
      if recordMatches config preds entry.1 then some entry.2 else none) (dir.zipIdx 1)
  rw [List.length_zipIdx] at le
  exact le

theorem hitsOf_reverse : hitsOf config preds (dir.zipIdx 1).reverse =
    (matchingRecords config preds dir).reverse := by
  rw [matchingRecords_eq_hitsOf]
  exact List.filterMap_reverse

theorem all_of_first (enough : target ≤ (matchingRecords config preds dir).length)
    (positive : 0 < target)
    (first : (matchingRecords config preds dir).reverse.getD (target - 1) 0 ≤ 1) :
    target = (matchingRecords config preds dir).length := by
  by_contra fewer
  have ascending := ascending_matchingRecords config preds dir
  have numbered : ∀ recno ∈ matchingRecords config preds dir, 1 ≤ recno :=
    fun recno member => (mem_matchingRecords.mp member).1
  generalize matchingRecords config preds dir = all at *
  rw [List.getD_eq_getElem _ _ (by rw [List.length_reverse]; omega), List.getElem_reverse] at first
  have before := List.pairwise_iff_getElem.mp ascending 0 (all.length - 1 - (target - 1))
    (by omega) (by omega) (by omega)
  have least := numbered all[0] (List.getElem_mem _)
  omega

theorem scanDirReverse_cases (positive : 0 < target ∨ dir.length ≤ scanBatch) :
    (scanDirReverse config preds dir target 0 =
      { indices := (matchingRecords config preds dir).reverse
        totalMatches := (matchingRecords config preds dir).length
        stoppedEarly := false }) ∨
    (0 < target ∧ target ≤ (matchingRecords config preds dir).length) ∧
    scanDirReverse config preds dir target 0 =
      { indices := (matchingRecords config preds dir).reverse.take target
        totalMatches := target + 1
        stoppedEarly := true } := by
  have le := @matchingRecords_length_le config preds dir
  unfold scanDirReverse
  dsimp only
  by_cases small : dir.length ≤ scanBatch
  · have within : dir.length ≤ 1024 := small
    rw [if_pos small, scanReverse_all, hitsOf_reverse, List.nil_append]
    refine Or.inl ?_
    dsimp only
    rw [List.take_of_length_le (by rw [List.length_reverse]; omega), List.length_reverse]
    rfl
  · have some := positive.resolve_right small
    rw [if_neg small, if_neg (by omega), scanReverse_eq _ some, hitsOf_reverse, List.length_nil,
      List.length_reverse, List.nil_append, List.nil_append, Nat.zero_add, Nat.sub_zero]
    by_cases few : (matchingRecords config preds dir).length < target
    · rw [if_pos few]
      refine Or.inl ?_
      dsimp only
      rw [List.take_of_length_le (by rw [List.length_reverse]; omega), List.length_reverse]
      rfl
    · rw [if_neg few]
      dsimp only
      have length : ((matchingRecords config preds dir).reverse.take target).length = target := by
        rw [List.length_take, List.length_reverse]
        omega
      rw [List.take_of_length_le (by omega), length]
      by_cases first : 1 < (matchingRecords config preds dir).reverse.getD (target - 1) 0
      · rw [decide_eq_true first]
        exact Or.inr ⟨⟨some, by omega⟩, rfl⟩
      · have all := @all_of_first config preds dir target (by omega) some (by omega)
        rw [decide_eq_false first, List.take_of_length_le (by rw [List.length_reverse]; omega)]
        refine Or.inl ?_
        rw [if_neg Bool.false_ne_true, ← all]

end Scans

/-! ### The pages -/

section Pages

variable {all : List Nat} {records : Nat} {offset limit : Int}

theorem start_eq (bound : all.length ≤ records) :
    max 0 (max offset (-records) + all.length) = max 0 ((all.length : Int) + offset) := by
  rcases le_total offset (-records) with far | near
  · rw [max_eq_right far, max_eq_left (by omega), max_eq_left (by omega)]
  · rw [max_eq_left near, Int.add_comm]

theorem take_bounded {rest : List Nat} (limit : Nat) (bound : rest.length ≤ records) :
    rest.take (min limit records) = rest.take limit := by
  apply List.take_eq_take_iff.mpr
  rw [Nat.min_assoc, Nat.min_eq_right bound]

theorem forwardWindow_eq (bound : all.length ≤ records) (before : offset < 0)
    (some : 0 < limit) :
    forwardWindow all all.length (max offset (-records)) (min limit records) =
      page all offset limit := by
  obtain ⟨limit, rfl⟩ := Int.eq_ofNat_of_zero_le some.le
  unfold forwardWindow page slice
  dsimp only
  rw [start_eq bound]
  obtain ⟨start, same⟩ := Int.eq_ofNat_of_zero_le (le_max_left 0 ((all.length : Int) + offset))
  rw [same, ← Nat.cast_min, ← Nat.cast_add, ← Nat.cast_min]
  simp only [Int.toNat_natCast]
  split
  · rw [← List.take_take, List.take_length, List.drop_take, Nat.add_sub_cancel_left]
    refine take_bounded limit ?_
    rw [List.length_drop]
    omega
  · rename_i outside
    have empty : all = [] := by
      apply List.eq_nil_of_length_eq_zero
      by_contra filled
      have below : max 0 ((all.length : Int) + offset) < all.length := max_lt (by omega) (by omega)
      exact outside ⟨same ▸ below, by omega⟩
    rw [empty, List.drop_nil, List.take_nil]

theorem reverseWindow_eq (bound : all.length ≤ records) (before : offset < 0) (some : 0 < limit)
    (enough : targetMatches (max offset (-records)) (min limit records) ≤ all.length)
    (reaches : limit ≤ -offset ∨ records ≤ -offset) :
    (slice (max 0 ((targetMatches (max offset (-records)) (min limit records) : Int) -
        min limit records))
      (min (targetMatches (max offset (-records)) (min limit records) : Int)
        (all.reverse.take (targetMatches (max offset (-records)) (min limit records))).length)
      (all.reverse.take (targetMatches (max offset (-records)) (min limit records)))).reverse =
      page all offset limit := by
  obtain ⟨limit, rfl⟩ := Int.eq_ofNat_of_zero_le some.le
  obtain ⟨back, rfl⟩ : ∃ back : Nat, offset = -(back : Int) := ⟨(-offset).toNat, by omega⟩
  have target : targetMatches (max (-back) (-records)) (min (limit : Int) records) =
      min back records := by
    have nearer : -max (-(back : Int)) (-records) = (min back records : Nat) := by omega
    rw [targetMatches, nearer, ← Nat.cast_min, ← Nat.cast_max, Int.toNat_natCast]
    refine max_eq_left ?_
    rcases reaches with within | all
    · exact min_le_min_right _ (by omega)
    · rw [min_eq_right (by omega : records ≤ back)]
      exact min_le_right _ _
  rw [target] at enough ⊢
  have length : (all.reverse.take (min back records)).length = min back records := by
    rw [List.length_take, List.length_reverse, min_eq_left enough]
  have first : (max 0 (((min back records : Nat) : Int) - min (limit : Int) records)).toNat =
      min back records - min limit records := by
    rw [← Nat.cast_min]
    generalize min back records = count
    generalize min limit records = most
    omega
  have start : (max 0 ((all.length : Int) + -(back : Int))).toNat =
      all.length - min back records := by
    rcases Nat.le_total back records with near | far
    · rw [min_eq_left near]
      omega
    · rw [min_eq_right far]
      omega
  have within : (all.drop (all.length - min back records)).length ≤ records := by
    rw [List.length_drop]
    omega
  unfold slice page
  rw [length, first, start, min_self, Int.toNat_natCast, List.take_take, min_self,
    List.take_reverse, List.drop_reverse, List.reverse_reverse, List.length_drop,
    Int.toNat_natCast, ← take_bounded limit within]
  apply List.take_eq_take_iff.mpr
  rw [List.length_drop]
  generalize min back records = count at enough
  generalize min limit records = most
  omega

end Pages

/-- A page is the same from the cached list, from a scan of the service and from a local one,
as long as a scan that stops early is asked for no more matches than lie behind the offset.
The total is that of all matches, or one more than a scan found before it stopped. -/
theorem queryWebSearchTail_page (config : Config) (preds : List FileheaderPredicate)
    (dir : List Fileheader) (offset limit : Int) (before : offset < 0) (some : 0 < limit) :
    let all := matchingRecords config preds dir
    let target := targetMatches (max offset (-dir.length)) (min limit dir.length)
    let scan := scanDirReverse config preds dir target 0
    queryWebSearchTail config preds dir (Option.some all) 0 offset limit =
        Option.some (page all offset limit, all.length) ∧
    (preds = [] → queryWebSearchTail config preds dir none 0 offset limit = none) ∧
    (preds ≠ [] →
      searchPredicatesLocal config preds dir offset limit =
        Option.some (page all offset limit, all.length) ∧
      (scan.stoppedEarly = false → queryWebSearchTail config preds dir none 0 offset limit =
        Option.some (page all offset limit, all.length)) ∧
      (scan.stoppedEarly = true → target ≤ all.length ∧ ∃ window,
        queryWebSearchTail config preds dir none 0 offset limit =
          Option.some (window, target + 1) ∧
        (limit ≤ -offset ∨ dir.length ≤ -offset → window = page all offset limit))) := by
  intro all target scan
  have bound : all.length ≤ dir.length := matchingRecords_length_le
  have forward := forwardWindow_eq bound before some
  refine ⟨?_, fun empty => ?_, fun given => ⟨?_, ?_⟩⟩
  · unfold queryWebSearchTail
    dsimp only
    rw [forward]
  · unfold queryWebSearchTail
    dsimp only
    rw [if_pos empty]
  · unfold searchPredicatesLocal
    dsimp only
    rw [if_neg given, if_neg (by omega), localScan_eq, countP_recordMatches,
      ← matchingRecords_eq_hitsOf, List.nil_append, List.length_nil, Nat.sub_zero, Nat.sub_zero,
      Nat.zero_add, Int.add_comm]
    rfl
  · have positive : 0 < target ∨ dir.length ≤ scanBatch := by
      by_cases empty : dir.length = 0
      · exact Or.inr (by rw [empty]; exact Nat.zero_le _)
      · refine Or.inl ?_
        change 0 < targetMatches _ _
        unfold targetMatches
        omega
    have answer : queryWebSearchTail config preds dir none 0 offset limit =
        if scan.stoppedEarly then
          Option.some (if max 0 ((target : Int) - min limit dir.length) < scan.indices.length then
            (slice (max 0 ((target : Int) - min limit dir.length))
              (min (target : Int) scan.indices.length) scan.indices).reverse
            else [], scan.totalMatches)
        else
          Option.some (forwardWindow scan.indices.reverse scan.totalMatches
            (max offset (-dir.length)) (min limit dir.length), scan.totalMatches) := by
      unfold queryWebSearchTail
      dsimp only
      rw [if_neg given]
    rcases @scanDirReverse_cases config preds dir target positive with
      whole | ⟨⟨nonzero, enough⟩, early⟩
    · have whole : scan = _ := whole
      rw [answer, whole]
      dsimp only
      rw [if_neg Bool.false_ne_true, List.reverse_reverse, forward]
      exact ⟨fun _ => rfl, nofun⟩
    · have early : scan = _ := early
      rw [answer, early]
      dsimp only
      rw [if_pos rfl]
      refine ⟨nofun, fun _ => ⟨enough, _, rfl, fun reaches => ?_⟩⟩
      have length : (all.reverse.take target).length = target := by
        rw [List.length_take, List.length_reverse]
        exact Nat.min_eq_left enough
      rw [if_pos]
      · exact reverseWindow_eq bound before some enough reaches
      · have records : 0 < dir.length := Nat.lt_of_lt_of_le nonzero (Nat.le_trans enough bound)
        change _ < ((all.reverse.take target).length : Int)
        rw [length]
        omega

def markedRecord (filemode : UInt16) : Fileheader :=
  { filename := [77], score := 0, owner := [], title := [], money := 0, filemode := filemode
    comments := 0 }

def markedOnly : FileheaderPredicate := { FileheaderPredicate.zero with mode := rsMark }

/-- The last page of a board on which every other article is marked. -/
theorem queryWebSearchTail_marked :
    let dir := [markedRecord 2, markedRecord 0, markedRecord 2, markedRecord 0, markedRecord 2]
    let all := matchingRecords { mbIsUtf8 := true } [markedOnly] dir
    queryWebSearchTail { mbIsUtf8 := true } [markedOnly] dir none 0 (-2) 2 =
        some (page all (-2) 2, all.length) ∧
      page all (-2) 2 = [3, 5] :=
  ⟨((queryWebSearchTail_page { mbIsUtf8 := true } [markedOnly] _ (-2) 2 (by decide)
    (by decide)).2.2 (by decide)).2.1 (by decide), by decide⟩

/-- Only the last of 1025 articles is marked: the scan stops when it has found it, and reports
that there are two.  All of them are marked: two matches are asked for where only one lies
behind the offset, and both are returned. -/
theorem queryWebSearchTail_more :
    let dir := List.replicate 1024 (markedRecord 0) ++ [markedRecord 2]
    let full := List.replicate 1025 (markedRecord 2)
    ((scanDirReverse { mbIsUtf8 := true } [markedOnly] dir 1 0).stoppedEarly = true ∧
      queryWebSearchTail { mbIsUtf8 := true } [markedOnly] dir none 0 (-1) 1 =
        some ([1025], 2) ∧
      (matchingRecords { mbIsUtf8 := true } [markedOnly] dir).length = 1) ∧
    queryWebSearchTail { mbIsUtf8 := true } [markedOnly] full none 0 (-1) 2 =
        some ([1024, 1025], 3) ∧
      page (matchingRecords { mbIsUtf8 := true } [markedOnly] full) (-1) 2 = [1025] := by
  refine ⟨⟨by decide +kernel, by decide +kernel, by decide +kernel⟩, by decide +kernel,
    by decide +kernel⟩

end Pttbbs.SearchSvc
