/-
Cached searches after a comment.

The service keeps the numbers of the records that a search found, in ascending order.  A
comment changes the score of one record, and a hint then patches the lists of the searches
that ask for a score: the predicates are read off the bytes of the cache key again.
-/

import Pttbbs.Lib.Ascending
import Pttbbs.Lib.Runs
import Pttbbs.SearchSvc.Predicates

namespace Pttbbs.SearchSvc

open Pttbbs.Lib

/-! ### The predicates of a key -/

def predSize : Nat := 84
def predOffMode : Nat := 0
def predOffScore : Nat := 72

/-- `binary.NativeEndian.Uint32` -/
def nativeUint32 (raw : Bytes) : UInt32 := uint32 (raw.take 4).reverse

def matchScoreThreshold (score predScore : Int) : Bool :=
  if 0 < predScore then predScore ≤ score else score ≤ predScore

structure Inspection where
  hasScore : Bool
  allScore : Bool
  allScoreMatch : Bool
deriving DecidableEq

def Inspection.refused : Inspection :=
  { hasScore := false, allScore := false, allScoreMatch := false }

/-- The loop of `inspectScorePredicates` over the predicates that are left. -/
def inspectFrom (score : Int) : Nat → Bytes → Inspection → Inspection
  | 0, _, seen => seen
  | count + 1, raw, seen =>
      if raw.length < predOffScore + 4 ∨ raw.length < predOffMode + 4 then .refused
      else
        inspectFrom score count (raw.drop predSize)
          (if hasMode (nativeUint32 (raw.drop predOffMode)) rsScore then
            { hasScore := true
              allScore := seen.allScore
              allScoreMatch := seen.allScoreMatch &&
                matchScoreThreshold score (nativeUint32 (raw.drop predOffScore)).toInt32.toInt }
          else { seen with allScore := false })

def inspectScorePredicates (predsRaw : Bytes) (score : Int) : Inspection :=
  if predsRaw.length < predSize then .refused
  else
    inspectFrom score (predsRaw.length / predSize) predsRaw
      { hasScore := false, allScore := true, allScoreMatch := true }

/-! ### The cache -/

structure CacheEntry where
  direct : Bytes
  preds : List FileheaderPredicate
  canonical : ∃ asked, preds = cSanitizePreds asked
  indices : List Nat
  scannedRecs : Nat

def CacheEntry.predsHex (entry : CacheEntry) : Bytes :=
  entry.preds.flatMap FileheaderPredicate.bytes

structure SearchCache where
  entries : List CacheEntry
  totalIndices : Int

/-- One turn of the loop of `handleHintComment`, with `totalIndices`. -/
def hintEntry (recno : Nat) (score : Int) (entry : CacheEntry) (total : Int) :
    CacheEntry × Int :=
  if entry.scannedRecs < recno then (entry, total)
  else
    let seen := inspectScorePredicates entry.predsHex score
    if !seen.hasScore then (entry, total)
    else
      let idx := sortSearch entry.indices.length fun index => recno ≤ entry.indices.getD index 0
      let present : Bool := entry.indices[idx]? = some recno
      if !seen.allScoreMatch && present then
        ({ entry with indices := entry.indices.take idx ++ entry.indices.drop (idx + 1) },
          if total - 1 < 0 then 0 else total - 1)
      else if seen.allScoreMatch && !present && seen.allScore then
        ({ entry with indices := entry.indices.take idx ++ recno :: entry.indices.drop idx },
          total + 1)
      else (entry, total)

def hintEntries (direct : Bytes) (recno : Nat) (score : Int) :
    List CacheEntry → Int → List CacheEntry × Int
  | [], total => ([], total)
  | entry :: rest, total =>
      let here := if entry.direct = direct then hintEntry recno score entry total
        else (entry, total)
      let later := hintEntries direct recno score rest here.2
      (here.1 :: later.1, later.2)

/-- `handleHintComment`; a record number that is not positive is 0 here. -/
def handleHintComment (direct : Bytes) (recno : Nat) (score : Int) (cache : SearchCache) :
    SearchCache :=
  if direct = [] ∨ recno = 0 then cache
  else
    let hinted := hintEntries direct recno score cache.entries cache.totalIndices
    { entries := hinted.1, totalIndices := hinted.2 }

/-! ### Comments -/

structure Searched where
  dirs : Bytes → List Fileheader
  cache : SearchCache

structure ScoreChange where
  direct : Bytes
  recno : Nat
  score : Int16

def setScore (dir : List Fileheader) (recno : Nat) (score : Int16) : List Fileheader :=
  dir.modify (recno - 1) fun fh => { fh with score := score }

def comment (searched : Searched) (change : ScoreChange) : Searched where
  dirs := Function.update searched.dirs change.direct
    (setScore (searched.dirs change.direct) change.recno change.score)
  cache := handleHintComment change.direct change.recno change.score.toInt searched.cache

/-- What the search of an entry finds now, among the records it has scanned. -/
def CacheEntry.found (config : Config) (dirs : Bytes → List Fileheader) (entry : CacheEntry) :
    List Nat :=
  matchingRecords config entry.preds ((dirs entry.direct).take entry.scannedRecs)

def CacheEntry.HasScore (entry : CacheEntry) : Prop :=
  ∃ pred ∈ entry.preds, kindOf pred.mode = .score

instance (entry : CacheEntry) : Decidable entry.HasScore :=
  inferInstanceAs (Decidable (∃ pred ∈ entry.preds, kindOf pred.mode = .score))

def CacheEntry.AllScore (entry : CacheEntry) : Prop :=
  entry.preds ≠ [] ∧ ∀ pred ∈ entry.preds, kindOf pred.mode = .score

def indexCount (entries : List CacheEntry) : Nat :=
  (entries.map fun entry => entry.indices.length).sum

def SearchCache.Counted (cache : SearchCache) : Prop :=
  cache.totalIndices = indexCount cache.entries

/-- An entry after some comments: searches for scores only are exact, no list holds a
record that does not match, and the others are as they were. -/
structure Tracks (config : Config) (dirs : Bytes → List Fileheader)
    (old new : CacheEntry) : Prop where
  direct : new.direct = old.direct
  preds : new.preds = old.preds
  scannedRecs : new.scannedRecs = old.scannedRecs
  ascending : Ascending new.indices
  sound : ∀ recno ∈ new.indices, recno ∈ new.found config dirs
  scores : old.AllScore → new.indices = new.found config dirs
  others : ¬ old.HasScore → new.indices = old.indices

/-! ### Reading the key -/

theorem nativeUint32_wordBytes (value : UInt32) (rest : Bytes) :
    nativeUint32 (FileheaderPredicate.wordBytes value ++ rest) = value := by
  unfold nativeUint32
  rw [List.take_left' (FileheaderPredicate.wordBytes_length value), FileheaderPredicate.wordBytes,
    List.reverse_reverse, uint32_putUint32]

theorem nativeUint32_mode (pred : FileheaderPredicate) (rest : Bytes) :
    nativeUint32 ((pred.bytes ++ rest).drop predOffMode) = pred.mode := by
  unfold predOffMode FileheaderPredicate.bytes
  rw [List.drop_zero, List.append_assoc, nativeUint32_wordBytes]

theorem nativeUint32_score (pred : FileheaderPredicate) (rest : Bytes) :
    (nativeUint32 ((pred.bytes ++ rest).drop predOffScore)).toInt32 = pred.score := by
  have before : predOffScore = (FileheaderPredicate.wordBytes pred.mode ++ (pred.keyword.bytes ++
      [pred.padding.1, pred.padding.2.1, pred.padding.2.2])).length := by
    simp only [List.length_append, FileheaderPredicate.wordBytes_length, Keyword.bytes_length,
      List.length_cons, List.length_nil]
    rfl
  have regroup : pred.bytes ++ rest = (FileheaderPredicate.wordBytes pred.mode ++
      (pred.keyword.bytes ++ [pred.padding.1, pred.padding.2.1, pred.padding.2.2])) ++
        (FileheaderPredicate.wordBytes pred.score.toUInt32 ++
          (FileheaderPredicate.wordBytes pred.money.toUInt32 ++
            (FileheaderPredicate.wordBytes pred.comments.toUInt32 ++ rest))) := by
    simp only [FileheaderPredicate.bytes, List.append_assoc]
  rw [regroup, before, List.drop_left, nativeUint32_wordBytes, Int32.toInt32_toUInt32]

def inspectPreds (score : Int) (preds : List FileheaderPredicate) (seen : Inspection) :
    Inspection :=
  { hasScore := seen.hasScore || preds.any fun pred => hasMode pred.mode rsScore
    allScore := seen.allScore && preds.all fun pred => hasMode pred.mode rsScore
    allScoreMatch := seen.allScoreMatch && preds.all fun pred =>
      !hasMode pred.mode rsScore || matchScoreThreshold score pred.score.toInt }

theorem inspectFrom_bytes (score : Int) (preds : List FileheaderPredicate) (seen : Inspection) :
    inspectFrom score preds.length (preds.flatMap FileheaderPredicate.bytes) seen =
      inspectPreds score preds seen := by
  induction preds generalizing seen with
  | nil => simp [inspectFrom, inspectPreds]
  | cons first rest ih =>
      have long : ¬ ((first.bytes ++ rest.flatMap FileheaderPredicate.bytes).length <
          predOffScore + 4 ∨ (first.bytes ++ rest.flatMap FileheaderPredicate.bytes).length <
          predOffMode + 4) := by
        rw [List.length_append, first.bytes_length]
        unfold predOffScore predOffMode
        omega
      rw [List.length_cons, List.flatMap_cons, inspectFrom, if_neg long, nativeUint32_mode,
        nativeUint32_score]
      have behind : (first.bytes ++ rest.flatMap FileheaderPredicate.bytes).drop predSize =
          rest.flatMap FileheaderPredicate.bytes := List.drop_left' first.bytes_length
      rw [behind, ih]
      unfold inspectPreds
      cases scored : hasMode first.mode rsScore with
      | true => simp [scored, Bool.and_assoc]
      | false => simp [scored]

theorem inspectScorePredicates_eq (score : Int) {preds : List FileheaderPredicate}
    (nonempty : preds ≠ []) :
    inspectScorePredicates (preds.flatMap FileheaderPredicate.bytes) score =
      inspectPreds score preds { hasScore := false, allScore := true, allScoreMatch := true } := by
  have length : (preds.flatMap FileheaderPredicate.bytes).length = preds.length * predSize := by
    induction preds with
    | nil => rfl
    | cons first rest ih =>
        rw [List.flatMap_cons, List.length_append, first.bytes_length, List.length_cons]
        by_cases last : rest = []
        · rw [last]
          rfl
        · rw [ih last, Nat.add_mul]
          unfold predSize
          omega
  have some' : 0 < preds.length := List.length_pos_of_ne_nil nonempty
  have long : ¬ (preds.flatMap FileheaderPredicate.bytes).length < predSize := by
    rw [length]
    unfold predSize
    omega
  unfold inspectScorePredicates
  rw [if_neg long, length, Nat.mul_div_cancel _ (by decide), inspectFrom_bytes]

theorem hasMode_score_iff {asked : List FileheaderPredicate} {pred : FileheaderPredicate}
    (member : pred ∈ cSanitizePreds asked) :
    hasMode pred.mode rsScore = true ↔ kindOf pred.mode = .score := by
  obtain ⟨origin, _, rfl⟩ := mem_cSanitizePreds.mp member
  have only : (cleanPred origin).mode = (kindOf origin.mode).bit := by
    rw [cleanPred_eq]
    cases kindOf origin.mode <;> rfl
  rw [only, kindOf_bit]
  cases kindOf origin.mode <;> decide

/-! ### Matching after a comment -/

theorem mem_matchingRecords {config : Config} {preds : List FileheaderPredicate}
    {dir : List Fileheader} {recno : Nat} :
    recno ∈ matchingRecords config preds dir ↔
      1 ≤ recno ∧ ∃ fh, dir[recno - 1]? = some fh ∧ fh.filename ≠ [] ∧
        matchesAll config preds fh = true := by
  unfold matchingRecords
  rw [List.mem_filterMap]
  constructor
  · rintro ⟨⟨fh, number⟩, listed, taken⟩
    obtain ⟨positive, found⟩ := List.mk_mem_zipIdx_iff_le_and_getElem?_sub.mp listed
    dsimp only at taken
    split at taken
    · rename_i matched
      cases taken
      exact ⟨positive, fh, found, matched⟩
    · cases taken
  · rintro ⟨positive, fh, found, matched⟩
    refine ⟨(fh, recno), List.mk_mem_zipIdx_iff_le_and_getElem?_sub.mpr ⟨positive, found⟩, ?_⟩
    exact if_pos matched

theorem ascending_matchingRecords (config : Config) (preds : List FileheaderPredicate)
    (dir : List Fileheader) : Ascending (matchingRecords config preds dir) := by
  have numbered : (dir.zipIdx 1).Pairwise fun first second => first.2 < second.2 := by
    rw [← List.pairwise_map (f := Prod.snd) (R := (· < ·)), List.zipIdx_map_snd]
    exact List.pairwise_lt_range'
  refine List.Pairwise.filterMap _ ?_ numbered
  intro first second less low isLow high isHigh
  split at isLow
  · split at isHigh
    · cases isLow
      cases isHigh
      exact less
    · cases isHigh
  · cases isLow

theorem matchFileheaderPredicate_setScore (config : Config) (fh : Fileheader) (score : Int16)
    {pred : FileheaderPredicate} (other : kindOf pred.mode ≠ .score) :
    matchFileheaderPredicate config { fh with score := score } pred =
      matchFileheaderPredicate config fh pred := by
  rw [matchFileheaderPredicate_eq, matchFileheaderPredicate_eq]
  generalize kindOf pred.mode = kind at other
  cases kind with
  | score => exact absurd rfl other
  | mark | solved | newpost | author | keyword | keywordExclude | title | comments | money | none =>
      rfl

theorem matchFileheaderPredicate_score (config : Config) (fh : Fileheader)
    {pred : FileheaderPredicate} (asked : kindOf pred.mode = .score) :
    matchFileheaderPredicate config fh pred =
      matchScoreThreshold fh.score.toInt pred.score.toInt := by
  rw [matchFileheaderPredicate_eq, asked]
  rfl

theorem allScoreMatch_iff {asked preds : List FileheaderPredicate}
    (canonical : preds = cSanitizePreds asked) (score : Int) (seen : Inspection)
    (started : seen.allScoreMatch = true) :
    (inspectPreds score preds seen).allScoreMatch = true ↔
      ∀ pred ∈ preds, kindOf pred.mode = .score →
        matchScoreThreshold score pred.score.toInt = true := by
  unfold inspectPreds
  rw [started, Bool.true_and, List.all_eq_true]
  apply forall₂_congr
  intro pred member
  rw [Bool.or_eq_true, Bool.not_eq_true', ← Bool.not_eq_true]
  rw [hasMode_score_iff (canonical ▸ member)]
  tauto

/-! ### One entry -/

structure Patched (recno : Nat) (seen : Inspection) (old new : CacheEntry)
    (before after : Int) : Prop where
  direct : new.direct = old.direct
  preds : new.preds = old.preds
  scannedRecs : new.scannedRecs = old.scannedRecs
  ascending : Ascending new.indices
  elsewhere : ∀ other, other ≠ recno → (other ∈ new.indices ↔ other ∈ old.indices)
  here : recno ∈ new.indices ↔
    if seen.hasScore then
      seen.allScoreMatch = true ∧ (recno ∈ old.indices ∨ seen.allScore = true)
    else recno ∈ old.indices
  unscored : seen.hasScore = false → new.indices = old.indices
  total : (old.indices.length : Int) ≤ before →
    after = before + new.indices.length - old.indices.length

theorem hintEntry_beyond {recno : Nat} {score total : Int} {entry : CacheEntry}
    (beyond : entry.scannedRecs < recno) : hintEntry recno score entry total = (entry, total) := by
  unfold hintEntry
  rw [if_pos beyond]

theorem Patched.unchanged {recno : Nat} {seen : Inspection} {entry : CacheEntry} {total : Int}
    (ascending : Ascending entry.indices)
    (here : recno ∈ entry.indices ↔
      if seen.hasScore then
        seen.allScoreMatch = true ∧ (recno ∈ entry.indices ∨ seen.allScore = true)
      else recno ∈ entry.indices) : Patched recno seen entry entry total total :=
  { direct := rfl
    preds := rfl
    scannedRecs := rfl
    ascending := ascending
    elsewhere := fun _ _ => Iff.rfl
    here := here
    unscored := fun _ => rfl
    total := fun _ => by omega }

theorem Patched.removed {recno : Nat} {seen : Inspection} {entry : CacheEntry} {total : Int}
    {front back : List Nat} (ascending : Ascending entry.indices)
    (whole : entry.indices = front ++ recno :: back) (scored : seen.hasScore = true)
    (failed : seen.allScoreMatch = false) :
    Patched recno seen entry { entry with indices := front ++ back } total
      (if total - 1 < 0 then 0 else total - 1) := by
  have single := ascending.nodup
  rw [whole] at ascending single
  have gone : recno ∉ front ++ back := (List.nodup_cons.mp (List.nodup_middle.mp single)).1
  refine
    { direct := rfl
      preds := rfl
      scannedRecs := rfl
      ascending := ascending.remove
      elsewhere := ?_
      here := ?_
      unscored := ?_
      total := ?_ }
  · intro other different
    rw [whole, List.mem_append, List.mem_append, List.mem_cons]
    simp only [different, false_or]
  · rw [if_pos scored, failed]
    simp only [gone, Bool.false_eq_true, false_and]
  · intro unscored
    rw [scored] at unscored
    cases unscored
  · intro enough
    have size : entry.indices.length = front.length + (back.length + 1) := by
      rw [whole, List.length_append, List.length_cons]
    rw [size] at enough ⊢
    rw [List.length_append]
    push_cast at enough ⊢
    rw [if_neg (by omega)]
    omega

theorem Patched.inserted {recno : Nat} {seen : Inspection} {entry : CacheEntry} {total : Int}
    {front back : List Nat} (ascending : Ascending entry.indices)
    (whole : entry.indices = front ++ back) (smaller : ∀ member ∈ front, member < recno)
    (larger : ∀ member ∈ back, recno < member) (scored : seen.hasScore = true)
    (passed : seen.allScoreMatch = true) (only : seen.allScore = true) :
    Patched recno seen entry { entry with indices := front ++ recno :: back } total
      (total + 1) := by
  refine
    { direct := rfl
      preds := rfl
      scannedRecs := rfl
      ascending := (whole ▸ ascending).insert smaller larger
      elsewhere := ?_
      here := ?_
      unscored := ?_
      total := ?_ }
  · intro other different
    rw [whole, List.mem_append, List.mem_append, List.mem_cons]
    simp only [different, false_or]
  · rw [if_pos scored]
    simp only [List.mem_append, List.mem_cons, true_or, or_true, passed, only, and_self]
  · intro unscored
    rw [scored] at unscored
    cases unscored
  · intro _enough
    rw [whole, List.length_append, List.length_append, List.length_cons]
    push_cast
    omega

theorem hintEntry_patched {recno : Nat} {score total : Int} {entry : CacheEntry}
    (ascending : Ascending entry.indices) (inside : recno ≤ entry.scannedRecs) :
    Patched recno (inspectScorePredicates entry.predsHex score) entry
      (hintEntry recno score entry total).1 total (hintEntry recno score entry total).2 := by
  unfold hintEntry
  rw [if_neg (by omega)]
  dsimp only
  generalize inspectScorePredicates entry.predsHex score = seen
  cases scored : seen.hasScore with
  | false =>
      rw [Bool.not_false, if_pos rfl]
      apply Patched.unchanged ascending
      rw [scored, if_neg Bool.false_ne_true]
  | true =>
      obtain ⟨front, back, whole, smaller, larger, place⟩ := ascending.sortSearch_splits recno
      rw [Bool.not_true, if_neg Bool.false_ne_true, place]
      by_cases member : recno ∈ entry.indices
      · -- the search stops at the record
        obtain ⟨rest, rfl⟩ : ∃ rest, back = recno :: rest := by
          rw [whole] at member ascending
          have inBack : recno ∈ back := by
            refine (List.mem_append.mp member).resolve_left ?_
            intro inFront
            have less := smaller recno inFront
            omega
          cases back with
          | nil => cases inBack
          | cons top rest =>
              have least := larger top List.mem_cons_self
              rcases List.mem_cons.mp inBack with same | later
              · exact ⟨rest, by rw [same]⟩
              · have above := (List.pairwise_cons.mp ascending.front_back.2).1 recno later
                omega
        have found : entry.indices[front.length]? = some recno := by
          rw [whole, List.getElem?_append_right (Nat.le_refl _), Nat.sub_self,
            List.getElem?_cons_zero]
        have before : entry.indices.take front.length = front := by
          rw [whole, List.take_left]
        have after : entry.indices.drop (front.length + 1) = rest := by
          rw [whole, List.drop_append, Nat.add_sub_cancel_left, List.drop_eq_nil_of_le (by omega)]
          rfl
        rw [found, before, after, decide_eq_true rfl, Bool.and_true]
        cases matched : seen.allScoreMatch with
        | false =>
            rw [Bool.not_false, if_pos rfl]
            exact Patched.removed ascending whole scored matched
        | true =>
            rw [Bool.not_true, if_neg Bool.false_ne_true, Bool.and_false, Bool.false_and,
              if_neg Bool.false_ne_true]
            apply Patched.unchanged ascending
            simp only [scored, matched, member, true_or, and_self, if_true]
      · have missing : entry.indices[front.length]? ≠ some recno := by
          intro found
          exact member (List.mem_of_getElem? found)
        have before : entry.indices.take front.length = front := by
          rw [whole, List.take_left]
        have after : entry.indices.drop front.length = back := by
          rw [whole, List.drop_left]
        rw [decide_eq_false missing, before, after, Bool.and_false, if_neg Bool.false_ne_true,
          Bool.not_false, Bool.and_true]
        by_cases added : (seen.allScoreMatch && seen.allScore) = true
        · rw [if_pos added]
          obtain ⟨matched, only⟩ := Bool.and_eq_true_iff.mp added
          apply Patched.inserted ascending whole smaller ?_ scored matched only
          intro other inBack
          have least := larger other inBack
          have different : other ≠ recno := by
            intro same
            apply member
            rw [whole, ← same]
            exact List.mem_append_right _ inBack
          omega
        · rw [if_neg added]
          apply Patched.unchanged ascending
          rw [if_pos scored]
          rw [Bool.and_eq_true_iff] at added
          simp only [member, false_or, false_iff]
          exact added

/-! ### One comment -/

variable {config : Config}

theorem getElem?_setScore (dir : List Fileheader) (recno : Nat) (score : Int16) (index : Nat) :
    (setScore dir recno score)[index]? =
      (dir[index]?).map fun fh => if index = recno - 1 then { fh with score := score } else fh := by
  unfold setScore
  rw [List.getElem?_modify]
  cases dir[index]? with
  | none => rfl
  | some fh =>
      by_cases same : recno - 1 = index
      · rw [same]
        simp
      · have other : index ≠ recno - 1 := fun equal => same equal.symm
        simp [same, other]

theorem getElem?_take_iff {dir : List Fileheader} {count index : Nat} {fh : Fileheader} :
    (dir.take count)[index]? = some fh ↔ index < count ∧ dir[index]? = some fh := by
  rw [List.getElem?_take]
  split
  · rename_i inside
    simp only [inside, true_and]
  · rename_i outside
    simp only [outside, false_and, reduceCtorEq]

theorem mem_found_elsewhere {dirs : Bytes → List Fileheader} {change : ScoreChange}
    {entry : CacheEntry} {recno : Nat}
    (other : entry.direct ≠ change.direct ∨ recno ≠ change.recno) (changed : 1 ≤ change.recno) :
    recno ∈ entry.found config (Function.update dirs change.direct
        (setScore (dirs change.direct) change.recno change.score)) ↔
      recno ∈ entry.found config dirs := by
  unfold CacheEntry.found
  rw [mem_matchingRecords, mem_matchingRecords]
  by_cases same : entry.direct = change.direct
  · have different := other.resolve_left fun elsewhere => elsewhere same
    rw [same, Function.update_self]
    apply and_congr_right
    intro positive
    apply exists_congr
    intro fh
    rw [getElem?_take_iff, getElem?_take_iff, getElem?_setScore]
    have away : recno - 1 ≠ change.recno - 1 := by omega
    simp only [if_neg away, Option.map_id']
  · rw [Function.update_of_ne same]

theorem mem_found_here {dirs : Bytes → List Fileheader} {change : ScoreChange}
    {entry : CacheEntry} {fh : Fileheader} (same : entry.direct = change.direct)
    (changed : 1 ≤ change.recno) (inside : change.recno ≤ entry.scannedRecs)
    (record : (dirs change.direct)[change.recno - 1]? = some fh) (named : fh.filename ≠ []) :
    change.recno ∈ entry.found config (Function.update dirs change.direct
        (setScore (dirs change.direct) change.recno change.score)) ↔
      matchesAll config entry.preds { fh with score := change.score } = true := by
  unfold CacheEntry.found
  rw [mem_matchingRecords, same, Function.update_self]
  have now : ((setScore (dirs change.direct) change.recno change.score).take
      entry.scannedRecs)[change.recno - 1]? = some { fh with score := change.score } := by
    rw [getElem?_take_iff, getElem?_setScore, record]
    exact ⟨by omega, by simp⟩
  rw [now]
  constructor
  · rintro ⟨_positive, found, isFound, _named, all⟩
    cases isFound
    exact all
  · intro all
    exact ⟨changed, _, rfl, named, all⟩

theorem matchesAll_setScore_iff (preds : List FileheaderPredicate) (fh : Fileheader)
    (score : Int16) :
    matchesAll config preds { fh with score := score } = true ↔
      (∀ pred ∈ preds, kindOf pred.mode = .score →
        matchScoreThreshold score.toInt pred.score.toInt = true) ∧
      ∀ pred ∈ preds, kindOf pred.mode ≠ .score →
        matchFileheaderPredicate config fh pred = true := by
  unfold matchesAll
  rw [List.all_eq_true]
  constructor
  · intro all
    constructor
    · intro pred member asked
      have matched := all pred member
      rwa [matchFileheaderPredicate_score config _ asked] at matched
    · intro pred member other
      have matched := all pred member
      rwa [matchFileheaderPredicate_setScore config fh score other] at matched
  · rintro ⟨scores, others⟩ pred member
    by_cases asked : kindOf pred.mode = .score
    · rw [matchFileheaderPredicate_score config _ asked]
      exact scores pred member asked
    · rw [matchFileheaderPredicate_setScore config fh score asked]
      exact others pred member asked

theorem matchesAll_kinds {preds : List FileheaderPredicate} {fh : Fileheader}
    (all : matchesAll config preds fh = true) :
    ∀ pred ∈ preds, matchFileheaderPredicate config fh pred = true := by
  unfold matchesAll at all
  exact List.all_eq_true.mp all

theorem hasScore_iff (entry : CacheEntry) (score : Int) :
    (inspectScorePredicates entry.predsHex score).hasScore = true ↔ entry.HasScore := by
  obtain ⟨asked, canonical⟩ := entry.canonical
  unfold CacheEntry.HasScore CacheEntry.predsHex
  by_cases empty : entry.preds = []
  · rw [empty]
    constructor
    · intro found
      exact absurd found Bool.false_ne_true
    · rintro ⟨pred, member, _⟩
      cases member
  · rw [inspectScorePredicates_eq score empty, inspectPreds, Bool.false_or, List.any_eq_true]
    apply exists_congr
    intro pred
    apply and_congr_right
    intro member
    exact hasMode_score_iff (canonical ▸ member)

theorem CacheEntry.HasScore.preds_ne_nil {entry : CacheEntry} (scored : entry.HasScore) :
    entry.preds ≠ [] := by
  obtain ⟨pred, member, _⟩ := scored
  exact List.ne_nil_of_mem member

theorem allScore_iff {entry : CacheEntry} (scored : entry.HasScore) (score : Int) :
    (inspectScorePredicates entry.predsHex score).allScore = true ↔ entry.AllScore := by
  obtain ⟨asked, canonical⟩ := entry.canonical
  unfold CacheEntry.AllScore CacheEntry.predsHex
  rw [inspectScorePredicates_eq score scored.preds_ne_nil, inspectPreds, Bool.true_and,
    List.all_eq_true]
  simp only [ne_eq, scored.preds_ne_nil, not_false_eq_true, true_and]
  apply forall₂_congr
  intro pred member
  exact hasMode_score_iff (canonical ▸ member)

theorem entry_allScoreMatch_iff {entry : CacheEntry} (scored : entry.HasScore) (score : Int) :
    (inspectScorePredicates entry.predsHex score).allScoreMatch = true ↔
      ∀ pred ∈ entry.preds, kindOf pred.mode = .score →
        matchScoreThreshold score pred.score.toInt = true := by
  obtain ⟨asked, canonical⟩ := entry.canonical
  unfold CacheEntry.predsHex
  rw [inspectScorePredicates_eq score scored.preds_ne_nil, allScoreMatch_iff canonical]
  rfl

def Named (dirs : Bytes → List Fileheader) (change : ScoreChange) : Prop :=
  change.direct ≠ [] ∧ 1 ≤ change.recno ∧
    ∃ fh, (dirs change.direct)[change.recno - 1]? = some fh ∧ fh.filename ≠ []

section Step

variable {dirs : Bytes → List Fileheader} {change : ScoreChange} {old new : CacheEntry}

theorem Tracks.congr (tracks : Tracks config dirs old new) {dirs' : Bytes → List Fileheader}
    (same : ∀ recno, recno ∈ new.found config dirs' ↔ recno ∈ new.found config dirs) :
    Tracks config dirs' old new := by
  have found : new.found config dirs' = new.found config dirs :=
    (ascending_matchingRecords _ _ _).eq_of_mem_iff (ascending_matchingRecords _ _ _) same
  exact
    { direct := tracks.direct
      preds := tracks.preds
      scannedRecs := tracks.scannedRecs
      ascending := tracks.ascending
      sound := fun recno member => (same recno).mpr (tracks.sound recno member)
      scores := fun all => (tracks.scores all).trans found.symm
      others := tracks.others }

theorem Tracks.hint (tracks : Tracks config dirs old new) (named : Named dirs change)
    (here : new.direct = change.direct) (inside : change.recno ≤ new.scannedRecs) (total : Int) :
    Tracks config (Function.update dirs change.direct
        (setScore (dirs change.direct) change.recno change.score)) old
      (hintEntry change.recno change.score.toInt new total).1 := by
  obtain ⟨_path, positive, fh, record, hasName⟩ := named
  have patched : Patched change.recno
      (inspectScorePredicates new.predsHex change.score.toInt) new
      (hintEntry change.recno change.score.toInt new total).1 total
      (hintEntry change.recno change.score.toInt new total).2 :=
    hintEntry_patched tracks.ascending inside
  generalize (hintEntry change.recno change.score.toInt new total).1 = hinted at patched
  have found : ∀ dirs, hinted.found config dirs = new.found config dirs := by
    intro dirs
    unfold CacheEntry.found
    rw [patched.direct, patched.preds, patched.scannedRecs]
  have elsewhere : ∀ recno, recno ≠ change.recno →
      (recno ∈ new.found config (Function.update dirs change.direct
        (setScore (dirs change.direct) change.recno change.score)) ↔
        recno ∈ new.found config dirs) :=
    fun recno different => mem_found_elsewhere (Or.inr different) positive
  have now : change.recno ∈ new.found config (Function.update dirs change.direct
      (setScore (dirs change.direct) change.recno change.score)) ↔
      (∀ pred ∈ new.preds, kindOf pred.mode = .score →
        matchScoreThreshold change.score.toInt pred.score.toInt = true) ∧
      ∀ pred ∈ new.preds, kindOf pred.mode ≠ .score →
        matchFileheaderPredicate config fh pred = true := by
    rw [mem_found_here here positive inside record hasName, matchesAll_setScore_iff]
  -- a record that was listed matched the predicates for other fields
  have listed : change.recno ∈ new.indices → ∀ pred ∈ new.preds,
      matchFileheaderPredicate config fh pred = true := by
    intro member
    obtain ⟨_one, there, isThere, _name, all⟩ :=
      mem_matchingRecords.mp (tracks.sound change.recno member)
    rw [here] at isThere
    have same := (getElem?_take_iff.mp isThere).2
    rw [record] at same
    cases same
    exact matchesAll_kinds all
  have holds : change.recno ∈ hinted.indices ↔
      if new.HasScore then
        (∀ pred ∈ new.preds, kindOf pred.mode = .score →
          matchScoreThreshold change.score.toInt pred.score.toInt = true) ∧
        (change.recno ∈ new.indices ∨ new.AllScore)
      else change.recno ∈ new.indices := by
    rw [patched.here]
    by_cases scored : new.HasScore
    · rw [if_pos ((hasScore_iff new _).mpr scored), if_pos scored,
        entry_allScoreMatch_iff scored, allScore_iff scored]
    · rw [if_neg fun found => scored ((hasScore_iff new _).mp found), if_neg scored]
  have same : old.preds = new.preds := tracks.preds.symm
  refine
    { direct := patched.direct.trans tracks.direct
      preds := patched.preds.trans tracks.preds
      scannedRecs := patched.scannedRecs.trans tracks.scannedRecs
      ascending := patched.ascending
      sound := ?_
      scores := ?_
      others := ?_ }
  · intro recno member
    rw [found]
    by_cases isHere : recno = change.recno
    · subst isHere
      rw [now]
      rw [holds] at member
      split at member
      · obtain ⟨scores, kept | only⟩ := member
        · exact ⟨scores, fun pred inPreds _ => listed kept pred inPreds⟩
        · exact ⟨scores, fun pred inPreds other => absurd (only.2 pred inPreds) other⟩
      · rename_i unscored
        constructor
        · intro pred inPreds asked
          exact absurd ⟨pred, inPreds, asked⟩ unscored
        · intro pred inPreds _
          exact listed member pred inPreds
    · rw [elsewhere recno isHere]
      exact tracks.sound recno ((patched.elsewhere recno isHere).mp member)
  · intro all
    have only : new.AllScore := by
      unfold CacheEntry.AllScore at all ⊢
      rwa [same] at all
    have scored : new.HasScore := by
      obtain ⟨pred, inPreds⟩ := List.exists_mem_of_ne_nil _ only.1
      exact ⟨pred, inPreds, only.2 pred inPreds⟩
    rw [found]
    apply patched.ascending.eq_of_mem_iff (ascending_matchingRecords _ _ _)
    intro recno
    by_cases isHere : recno = change.recno
    · subst isHere
      change _ ↔ change.recno ∈ new.found config _
      rw [holds, now, if_pos scored]
      constructor
      · rintro ⟨scores, _⟩
        exact ⟨scores, fun pred inPreds other => absurd (only.2 pred inPreds) other⟩
      · rintro ⟨scores, _⟩
        exact ⟨scores, Or.inr only⟩
    · change _ ↔ recno ∈ new.found config _
      rw [patched.elsewhere recno isHere, elsewhere recno isHere, tracks.scores all]
  · intro unscored
    rw [← tracks.others unscored]
    apply patched.unscored
    rw [← Bool.not_eq_true, hasScore_iff]
    unfold CacheEntry.HasScore at unscored ⊢
    rwa [same] at unscored

theorem Tracks.apart (tracks : Tracks config dirs old new) (named : Named dirs change)
    (away : new.direct ≠ change.direct ∨ new.scannedRecs < change.recno) :
    Tracks config (Function.update dirs change.direct
      (setScore (dirs change.direct) change.recno change.score)) old new := by
  apply tracks.congr
  intro recno
  by_cases other : new.direct ≠ change.direct ∨ recno ≠ change.recno
  · exact mem_found_elsewhere other named.2.1
  · have beyond := away.resolve_left fun elsewhere => other (Or.inl elsewhere)
    have isHere : recno = change.recno := by
      by_contra different
      exact other (Or.inr different)
    have outside : ∀ dirs, recno ∉ new.found config dirs := by
      intro dirs member
      obtain ⟨_one, there, isThere, _⟩ := mem_matchingRecords.mp member
      have inside := (getElem?_take_iff.mp isThere).1
      omega
    exact iff_of_false (outside _) (outside _)

end Step

/-! ### All entries -/

theorem hintEntries_tracks {dirs : Bytes → List Fileheader} {change : ScoreChange}
    {olds news : List CacheEntry} (tracked : List.Forall₂ (Tracks config dirs) olds news)
    (named : Named dirs change) (total : Int) :
    List.Forall₂ (Tracks config (Function.update dirs change.direct
        (setScore (dirs change.direct) change.recno change.score))) olds
      (hintEntries change.direct change.recno change.score.toInt news total).1 := by
  induction tracked generalizing total with
  | nil => exact List.Forall₂.nil
  | @cons old new olds news tracks _ ih =>
      rw [hintEntries]
      refine List.Forall₂.cons ?_ (ih _)
      by_cases here : new.direct = change.direct
      · rw [if_pos here]
        by_cases inside : change.recno ≤ new.scannedRecs
        · exact tracks.hint named here inside total
        · rw [hintEntry_beyond (by omega)]
          exact tracks.apart named (Or.inr (by omega))
      · rw [if_neg here]
        exact tracks.apart named (Or.inl here)

theorem hintEntry_total {recno : Nat} {score total : Int} {entry : CacheEntry}
    (ascending : Ascending entry.indices) (enough : (entry.indices.length : Int) ≤ total) :
    (hintEntry recno score entry total).2 =
      total + (hintEntry recno score entry total).1.indices.length - entry.indices.length := by
  by_cases inside : recno ≤ entry.scannedRecs
  · exact (hintEntry_patched ascending inside).total enough
  · rw [hintEntry_beyond (by omega)]
    dsimp only
    omega

theorem hintEntries_total {direct : Bytes} {recno : Nat} {score total : Int}
    {entries : List CacheEntry} (ascending : ∀ entry ∈ entries, Ascending entry.indices)
    {extra : Nat} (counted : total = (extra + indexCount entries : Nat)) :
    (hintEntries direct recno score entries total).2 =
      (extra + indexCount (hintEntries direct recno score entries total).1 : Nat) := by
  induction entries generalizing total extra with
  | nil => exact counted
  | cons entry rest ih =>
      rw [hintEntries]
      dsimp only
      generalize made : (if entry.direct = direct then hintEntry recno score entry total
        else (entry, total)) = here
      have follows : here.2 = total + here.1.indices.length - entry.indices.length := by
        rw [← made]
        split
        · apply hintEntry_total (ascending entry List.mem_cons_self)
          rw [counted, indexCount, List.map_cons, List.sum_cons]
          omega
        · dsimp only
          omega
      have next : here.2 = ((extra + here.1.indices.length) + indexCount rest : Nat) := by
        rw [follows, counted, indexCount, List.map_cons, List.sum_cons, indexCount]
        push_cast
        omega
      rw [ih (fun other member => ascending other (List.mem_cons_of_mem _ member)) next]
      rw [indexCount, indexCount, List.map_cons, List.sum_cons]
      push_cast
      omega

/-! ### Runs -/

structure KeepsUp (config : Config) (olds : List CacheEntry) (searched : Searched) : Prop where
  entries : List.Forall₂ (Tracks config searched.dirs) olds searched.cache.entries
  counted : searched.cache.Counted

theorem KeepsUp.ascending {olds : List CacheEntry} {searched : Searched}
    (keepsUp : KeepsUp config olds searched) :
    ∀ entry ∈ searched.cache.entries, Ascending entry.indices := by
  obtain ⟨entries, _counted⟩ := keepsUp
  generalize searched.cache.entries = news at entries
  induction entries with
  | nil => nofun
  | cons tracks _ ih =>
      intro entry member
      rcases List.mem_cons.mp member with here | later
      · rw [here]
        exact tracks.ascending
      · exact ih entry later

theorem KeepsUp.comment {olds : List CacheEntry} {searched : Searched} {change : ScoreChange}
    (keepsUp : KeepsUp config olds searched) (named : Named searched.dirs change) :
    KeepsUp config olds (comment searched change) := by
  have hinted : handleHintComment change.direct change.recno change.score.toInt searched.cache =
      { entries := (hintEntries change.direct change.recno change.score.toInt
          searched.cache.entries searched.cache.totalIndices).1
        totalIndices := (hintEntries change.direct change.recno change.score.toInt
          searched.cache.entries searched.cache.totalIndices).2 } := by
    unfold handleHintComment
    rw [if_neg]
    rintro (noPath | zero)
    · exact named.1 noPath
    · have positive := named.2.1
      omega
  refine ⟨?_, ?_⟩
  · change List.Forall₂ _ olds (handleHintComment _ _ _ searched.cache).entries
    rw [hinted]
    exact hintEntries_tracks keepsUp.entries named _
  · change (handleHintComment _ _ _ searched.cache).Counted
    rw [hinted]
    have total : searched.cache.totalIndices =
        (0 + indexCount searched.cache.entries : Nat) := by
      rw [Nat.zero_add]
      exact keepsUp.counted
    change (hintEntries _ _ _ _ _).2 = _
    rw [hintEntries_total keepsUp.ascending total, Nat.zero_add]

theorem Named.comment {searched : Searched} {change other : ScoreChange}
    (named : Named searched.dirs other) : Named (comment searched change).dirs other := by
  obtain ⟨path, positive, fh, record, hasName⟩ := named
  refine ⟨path, positive, ?_⟩
  change ∃ fh, (Function.update searched.dirs change.direct _ other.direct)[other.recno - 1]? =
    some fh ∧ _
  by_cases same : other.direct = change.direct
  · rw [same, Function.update_self, getElem?_setScore, ← same, record]
    refine ⟨_, rfl, ?_⟩
    split
    · exact hasName
    · exact hasName
  · rw [Function.update_of_ne same]
    exact ⟨fh, record, hasName⟩

/-- After any comments on records with names, each with its hint. -/
theorem comments_keep_up {start : Searched} {changes : List ScoreChange}
    (exact : ∀ entry ∈ start.cache.entries, entry.indices = entry.found config start.dirs)
    (counted : start.cache.Counted) (named : ∀ change ∈ changes, Named start.dirs change) :
    KeepsUp config start.cache.entries (run comment start changes) := by
  have first : KeepsUp config start.cache.entries start := by
    refine ⟨List.forall₂_same.mpr ?_, counted⟩
    intro entry member
    have isExact := exact entry member
    refine
      { direct := rfl
        preds := rfl
        scannedRecs := rfl
        ascending := ?_
        sound := ?_
        scores := fun _ => isExact
        others := fun _ => rfl }
    · rw [isExact]
      exact ascending_matchingRecords _ _ _
    · intro recno listed
      rwa [← isExact]
  clear exact counted
  generalize start.cache.entries = olds at first
  induction changes generalizing start with
  | nil => exact first
  | cons change rest ih =>
      rw [run_cons]
      apply ih
      · intro other member
        exact (named other (List.mem_cons_of_mem _ member)).comment
      · exact first.comment (named change List.mem_cons_self)

def scoreSearch (indices : List Nat) : CacheEntry where
  direct := [46]
  preds := cSanitizePreds [{ FileheaderPredicate.zero with mode := rsScore, score := 1 }]
  canonical := ⟨_, rfl⟩
  indices := indices
  scannedRecs := 2

def scoredRecord (filename : Bytes) (score : Int16) : Fileheader :=
  { filename := filename, score := score, owner := [], title := [], money := 0, filemode := 0
    comments := 0 }

def scoreSearched (filename : Bytes) : Searched where
  dirs := fun _ => [scoredRecord [77] 3, scoredRecord filename 0]
  cache := { entries := [scoreSearch [1]], totalIndices := 1 }

/-- The second record gets a score of 5, and the first loses its score. -/
theorem scoreSearch_keeps_up :
    KeepsUp { mbIsUtf8 := false } [scoreSearch [1]]
      (run comment (scoreSearched [77]) [⟨[46], 2, 5⟩, ⟨[46], 1, 0⟩]) := by
  have exact : ∀ entry ∈ (scoreSearched [77]).cache.entries,
      entry.indices = entry.found { mbIsUtf8 := false } (scoreSearched [77]).dirs := by
    intro entry member
    rw [List.mem_singleton.mp member]
    decide
  apply comments_keep_up exact
  · exact rfl
  · intro change member
    have among : change = ⟨[46], 2, 5⟩ ∨ change = ⟨[46], 1, 0⟩ := by
      simpa using member
    rcases among with second | first
    · subst second
      exact ⟨by decide, by decide, scoredRecord [77] 0, rfl, by decide⟩
    · subst first
      exact ⟨by decide, by decide, scoredRecord [77] 3, rfl, by decide⟩

/-- A record without a name is found by no search, but a hint lists it. -/
theorem nameless_record_listed :
    (∀ entry ∈ (scoreSearched []).cache.entries,
      entry.indices = entry.found { mbIsUtf8 := false } (scoreSearched []).dirs) ∧
    (scoreSearched []).cache.Counted ∧
    ¬ KeepsUp { mbIsUtf8 := false } (scoreSearched []).cache.entries
      (run comment (scoreSearched []) [⟨[46], 2, 5⟩]) := by
  refine ⟨?_, rfl, ?_⟩
  · intro entry member
    rw [List.mem_singleton.mp member]
    decide
  · intro keepsUp
    have lists : ((run comment (scoreSearched []) [⟨[46], 2, 5⟩]).cache.entries.map
        CacheEntry.indices) = [[1, 2]] := by
      decide
    have finds : ((run comment (scoreSearched []) [⟨[46], 2, 5⟩]).cache.entries.map
        (CacheEntry.found { mbIsUtf8 := false }
          (run comment (scoreSearched []) [⟨[46], 2, 5⟩]).dirs)) = [[1]] := by
      decide
    obtain ⟨entries, _⟩ := keepsUp
    generalize (run comment (scoreSearched []) [⟨[46], 2, 5⟩]).dirs = dirs at finds entries
    generalize (run comment (scoreSearched []) [⟨[46], 2, 5⟩]).cache.entries = news
      at lists finds entries
    cases entries with
    | @cons _ new _ _ tracks rest =>
        rw [List.map_cons, List.cons.injEq] at lists finds
        have sound := tracks.sound 2
        rw [lists.1, finds.1] at sound
        revert sound
        decide

end Pttbbs.SearchSvc
