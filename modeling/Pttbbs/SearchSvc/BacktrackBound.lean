/-
The distance that the three functions compute.

An inversion is a record with a larger stamp before it.  The functions in C find the largest
distance between the two, because the earliest larger stamp is always one of the largest so
far; the one in Go finds a distance that is an inversion's, and the largest one where no
look back ends too early.
-/

import Pttbbs.SearchSvc.Backtrack
import Mathlib.Order.Basic
import Mathlib.Data.Int.Order.Basic
import Mathlib.Data.List.GetD
import Mathlib.Data.List.Range
import Mathlib.Data.Nat.Find

namespace Pttbbs.SearchSvc

open Pttbbs.Lib

def Inversion {α : Type} [Zero α] [LT α] (stamps : List α) (earlier later : Nat) : Prop :=
  earlier < later ∧ 0 < stamps.getD later 0 ∧ stamps.getD later 0 < stamps.getD earlier 0

structure MaxInversion {α : Type} [Zero α] [LT α] (stamps : List α) (distance : Nat) : Prop where
  bound : ∀ earlier later, Inversion stamps earlier later → later - earlier ≤ distance
  attained : distance = 0 ∨
    ∃ earlier later, Inversion stamps earlier later ∧ distance = later - earlier

theorem Inversion.inside {α : Type} [Zero α] [Preorder α] {stamps : List α} {earlier later : Nat}
    (inversion : Inversion stamps earlier later) : later < stamps.length := by
  by_contra past
  have zero : stamps.getD later 0 = 0 := List.getD_eq_default _ _ (Nat.le_of_not_lt past)
  have positive := inversion.2.1
  rw [zero] at positive
  exact lt_irrefl 0 positive

theorem maxInversion_cast {stamps : List Nat} {signed : List Int}
    (same : ∀ index, signed.getD index 0 = stamps.getD index 0) {distance : Nat}
    (found : MaxInversion signed distance) : MaxInversion stamps distance := by
  have iff : ∀ earlier later, Inversion signed earlier later ↔ Inversion stamps earlier later := by
    intro earlier later
    unfold Inversion
    rw [same, same]
    omega
  refine ⟨fun earlier later inversion => found.bound earlier later ((iff _ _).mpr inversion), ?_⟩
  rcases found.attained with zero | ⟨earlier, later, inversion, dist⟩
  · exact Or.inl zero
  · exact Or.inr ⟨earlier, later, (iff _ _).mp inversion, dist⟩

/-! ### The largest stamps so far -/

section Candidates

variable (tsBuf : List Int)

def IsPeak (index : Nat) : Prop :=
  0 < tsBuf.getD index 0 ∧ ∀ before, before < index → tsBuf.getD before 0 < tsBuf.getD index 0

instance (index : Nat) : Decidable (IsPeak tsBuf index) :=
  inferInstanceAs (Decidable (_ ∧ ∀ before, before < index → _))

structure Seen (count : Nat) (maxSeen : Int) : Prop where
  bound : ∀ before, before < count → tsBuf.getD before 0 ≤ maxSeen
  attained : maxSeen = 0 ∨ 0 < maxSeen ∧ ∃ before, before < count ∧ tsBuf.getD before 0 = maxSeen

variable {tsBuf}

theorem Seen.skip {count : Nat} {maxSeen : Int} (seen : Seen tsBuf count maxSeen)
    (small : tsBuf.getD count 0 ≤ maxSeen) : Seen tsBuf (count + 1) maxSeen := by
  constructor
  · intro before bound
    rcases Nat.lt_succ_iff_lt_or_eq.mp bound with earlier | rfl
    · exact seen.bound before earlier
    · exact small
  · rcases seen.attained with zero | ⟨positive, before, bound, same⟩
    · exact Or.inl zero
    · exact Or.inr ⟨positive, before, Nat.lt_succ_of_lt bound, same⟩

theorem Seen.nonneg {count : Nat} {maxSeen : Int} (seen : Seen tsBuf count maxSeen) :
    0 ≤ maxSeen := by
  rcases seen.attained with zero | ⟨positive, _⟩
  · omega
  · omega

theorem Seen.isPeak_iff {count : Nat} {maxSeen : Int} (seen : Seen tsBuf count maxSeen) :
    IsPeak tsBuf count ↔ maxSeen < tsBuf.getD count 0 := by
  constructor
  · rintro ⟨positive, larger⟩
    rcases seen.attained with zero | ⟨_, before, bound, same⟩
    · omega
    · rw [← same]
      exact larger before bound
  · intro larger
    have nonneg := seen.nonneg
    refine ⟨by omega, fun before bound => ?_⟩
    have le := seen.bound before bound
    omega

theorem Seen.raise {count : Nat} {maxSeen : Int} (seen : Seen tsBuf count maxSeen)
    (larger : maxSeen < tsBuf.getD count 0) : Seen tsBuf (count + 1) (tsBuf.getD count 0) := by
  have nonneg := seen.nonneg
  constructor
  · intro before bound
    rcases Nat.lt_succ_iff_lt_or_eq.mp bound with earlier | rfl
    · have le := seen.bound before earlier
      omega
    · exact Int.le_refl _
  · exact Or.inr ⟨by omega, count, Nat.lt_succ_self _, rfl⟩

theorem candIdxFrom_eq {rest : List Int} {index : Nat} {cands : List Nat} {maxSeen : Int}
    (seen : Seen tsBuf index maxSeen) (none : cands = [] → maxSeen = 0)
    (here : ∀ offset, offset < rest.length →
      rest.getD offset 0 = tsBuf.getD (index + offset) 0) :
    candIdxFrom index rest cands maxSeen =
      cands ++ (List.range' index rest.length).filter fun index => IsPeak tsBuf index := by
  induction rest generalizing index cands maxSeen with
  | nil => simp [candIdxFrom]
  | cons stamp rest ih =>
      have first : stamp = tsBuf.getD index 0 := here 0 (Nat.zero_lt_succ _)
      have next : ∀ offset, offset < rest.length →
          rest.getD offset 0 = tsBuf.getD (index + 1 + offset) 0 := by
        intro offset bound
        have later := here (offset + 1) (Nat.succ_lt_succ bound)
        rw [List.getD_cons_succ] at later
        rw [later]
        congr 1
        omega
      have nonneg := seen.nonneg
      rw [candIdxFrom, List.length_cons, List.range'_succ]
      by_cases peak : IsPeak tsBuf index
      · have larger := seen.isPeak_iff.mp peak
        rw [first, if_neg (by omega), if_pos (Or.inr larger),
          List.filter_cons_of_pos (by simpa using peak),
          ih (seen.raise larger) (fun empty => by simp at empty) next, List.append_assoc]
        rfl
      · have small : tsBuf.getD index 0 ≤ maxSeen :=
          Int.not_lt.mp fun larger => peak (seen.isPeak_iff.mpr larger)
        rw [List.filter_cons_of_neg (by simpa using peak), first]
        split
        · exact ih (seen.skip small) none next
        · rename_i positive
          rw [if_neg]
          · exact ih (seen.skip small) none next
          · rintro (empty | larger)
            · have zero := none empty
              omega
            · omega

theorem candIdx_eq (tsBuf : List Int) :
    candIdx tsBuf = (List.range tsBuf.length).filter fun index => IsPeak tsBuf index := by
  have start : Seen tsBuf 0 0 := ⟨fun _ bound => absurd bound (Nat.not_lt_zero _), Or.inl rfl⟩
  have all := @candIdxFrom_eq tsBuf tsBuf 0 [] 0 start (fun _ => rfl)
    (fun offset _ => by rw [Nat.zero_add])
  rw [candIdx, all, List.nil_append, List.range_eq_range']

theorem mem_candIdx {index : Nat} :
    index ∈ candIdx tsBuf ↔ IsPeak tsBuf index := by
  rw [candIdx_eq, List.mem_filter, List.mem_range, decide_eq_true_iff]
  refine ⟨And.right, fun peak => ⟨?_, peak⟩⟩
  by_contra past
  have zero : tsBuf.getD index 0 = 0 := List.getD_eq_default _ _ (Nat.le_of_not_lt past)
  have positive := peak.1
  omega

theorem sorted_candIdx (tsBuf : List Int) : (candIdx tsBuf).Pairwise (· < ·) := by
  rw [candIdx_eq]
  exact List.pairwise_lt_range.sublist List.filter_sublist

theorem exists_peak {bound : Int} (nonneg : 0 ≤ bound) {index : Nat}
    (larger : bound < tsBuf.getD index 0) :
    ∃ peak, peak ≤ index ∧ IsPeak tsBuf peak ∧ bound < tsBuf.getD peak 0 ∧
      ∀ before, before < peak → tsBuf.getD before 0 ≤ bound := by
  induction index using Nat.strong_induction_on with
  | h index ih =>
      by_cases first : ∃ before, before < index ∧ bound < tsBuf.getD before 0
      · obtain ⟨before, earlier, above⟩ := first
        obtain ⟨peak, inside, found⟩ := ih before earlier above
        exact ⟨peak, by omega, found⟩
      · have small : ∀ before, before < index → tsBuf.getD before 0 ≤ bound :=
          fun before earlier => Int.not_lt.mp fun above => first ⟨before, earlier, above⟩
        refine ⟨index, Nat.le_refl _, ⟨by omega, fun before earlier => ?_⟩, larger, small⟩
        have le := small before earlier
        omega

end Candidates

/-! ### The loop from the last record down -/

section Visits

variable {tsBuf : List Int} {record : Nat}

theorem candIdx_getD_mem {place : Nat} (inside : place < (candIdx tsBuf).length) :
    (candIdx tsBuf).getD place 0 ∈ candIdx tsBuf := by
  rw [List.getD_eq_getElem _ _ inside]
  exact List.getElem_mem inside

theorem candIdx_lt {first second : Nat} (order : first < second)
    (inside : second < (candIdx tsBuf).length) :
    (candIdx tsBuf).getD first 0 < (candIdx tsBuf).getD second 0 := by
  rw [List.getD_eq_getElem _ _ (Nat.lt_trans order inside), List.getD_eq_getElem _ _ inside]
  exact List.pairwise_iff_getElem.mp (sorted_candIdx tsBuf) first second _ _ order

theorem stamp_candIdx_le {first second : Nat} (order : first ≤ second)
    (inside : second < (candIdx tsBuf).length) :
    tsBuf.getD ((candIdx tsBuf).getD first 0) 0 ≤ tsBuf.getD ((candIdx tsBuf).getD second 0) 0 := by
  rcases Nat.lt_or_eq_of_le order with before | rfl
  · have peak := mem_candIdx.mp (candIdx_getD_mem inside)
    exact Int.le_of_lt (peak.2 _ (candIdx_lt before inside))
  · exact Int.le_refl _

theorem exists_place {index : Nat} (peak : IsPeak tsBuf index) :
    ∃ place, place < (candIdx tsBuf).length ∧ (candIdx tsBuf).getD place 0 = index := by
  obtain ⟨place, inside, same⟩ := List.getElem_of_mem (mem_candIdx.mpr peak)
  exact ⟨place, inside, by rw [List.getD_eq_getElem _ _ inside, same]⟩

theorem le_last_candidate (index : Nat) (positive : 0 < tsBuf.getD index 0) :
    0 < (candIdx tsBuf).length ∧ tsBuf.getD index 0 ≤
      tsBuf.getD ((candIdx tsBuf).getD ((candIdx tsBuf).length - 1) 0) 0 := by
  obtain ⟨first, _, isPeak, _, _⟩ := exists_peak (Int.le_refl 0) positive
  obtain ⟨place, inside, _⟩ := exists_place isPeak
  have some : 0 < (candIdx tsBuf).length := by omega
  refine ⟨some, ?_⟩
  by_contra larger
  -- A larger stamp would have a peak of its own, and the last one is the largest.
  have lastPeak := mem_candIdx.mp (candIdx_getD_mem (Nat.sub_lt some Nat.one_pos))
  obtain ⟨peak, _, isPeak, above, _⟩ :=
    exists_peak (Int.le_of_lt lastPeak.1) (Int.not_le.mp larger)
  obtain ⟨place, inside, rfl⟩ := exists_place isPeak
  have le := @stamp_candIdx_le tsBuf place ((candIdx tsBuf).length - 1) (by omega) (by omega)
  omega

theorem visit_cases (found : Backtrack) :
    (found.visit tsBuf (candIdx tsBuf) record = found ∧
      ∀ earlier, ¬ Inversion tsBuf earlier record) ∨
    ∃ first : Nat, tsBuf.getD record 0 < tsBuf.getD first 0 ∧ 0 < tsBuf.getD record 0 ∧
      (∀ before, before < first → tsBuf.getD before 0 ≤ tsBuf.getD record 0) ∧
      (found.visit tsBuf (candIdx tsBuf) record).maxBacktrack =
        if found.maxBacktrack < (record : Int) - first then (record : Int) - first
        else found.maxBacktrack := by
  unfold Backtrack.visit
  dsimp only
  split
  · rename_i ignored
    refine Or.inl ⟨rfl, fun earlier inversion => ?_⟩
    have positive := inversion.2.1
    omega
  · rename_i counted
    have positive : 0 < tsBuf.getD record 0 := by omega
    obtain ⟨some, le⟩ := le_last_candidate record positive
    split
    · rename_i smaller
      obtain ⟨_, smaller⟩ := smaller
      have opened : Open (fun place => tsBuf.getD record 0 <
          tsBuf.getD ((candIdx tsBuf).getD place 0) 0) (candIdx tsBuf).length 0
          (candIdx tsBuf).length ((candIdx tsBuf).length - 1) :=
        ⟨Nat.le_refl _, fun _ bound => absurd bound (Nat.not_lt_zero _),
          ⟨decide_eq_true smaller, by omega⟩, Or.inr rfl⟩
      have first := bisect_first (fun first second order inside above => by
        have le := stamp_candIdx_le order inside
        have larger := of_decide_eq_true above
        exact decide_eq_true (by omega)) opened (Nat.sub_le _ 0)
      obtain ⟨above, inside, least⟩ := first
      generalize bisect _ _ 0 _ _ = best at above inside least ⊢
      have larger := of_decide_eq_true above
      refine Or.inr ⟨_, larger, positive, ?_, rfl⟩
      intro before earlier
      by_contra other
      obtain ⟨peak, le, isPeak, higher, _⟩ :=
        exists_peak (Int.le_of_lt positive) (Int.not_le.mp other)
      obtain ⟨place, placed, rfl⟩ := exists_place isPeak
      have order : place < best := by
        by_contra notBefore
        rcases Nat.lt_or_eq_of_le (Nat.le_of_not_lt notBefore) with after | rfl
        · have lt := candIdx_lt after placed
          omega
        · omega
      have notAbove := of_decide_eq_false (least place order)
      omega
    · rename_i largest
      refine Or.inl ⟨rfl, fun earlier inversion => ?_⟩
      obtain ⟨_, le'⟩ := le_last_candidate earlier (Int.lt_trans positive inversion.2.2)
      have lt := inversion.2.2
      exact largest ⟨some, by omega⟩

theorem visitDown_spec {count : Nat} {found : Backtrack} (nonneg : 0 ≤ found.maxBacktrack) :
    let result := (found.visitDown tsBuf (candIdx tsBuf) count).maxBacktrack
    found.maxBacktrack ≤ result ∧
      (∀ earlier later, later < count → Inversion tsBuf earlier later →
        (later : Int) - earlier ≤ result) ∧
      (result = found.maxBacktrack ∨
        ∃ earlier later, Inversion tsBuf earlier later ∧ result = (later : Int) - earlier) := by
  induction count generalizing found with
  | zero => exact ⟨Int.le_refl _, fun _ _ bound => absurd bound (Nat.not_lt_zero _), Or.inl rfl⟩
  | succ record ih =>
      dsimp only
      rw [Backtrack.visitDown]
      -- What this turn does, and what the others do with it.
      have turn : found.maxBacktrack ≤ (found.visit tsBuf (candIdx tsBuf) record).maxBacktrack ∧
          (∀ earlier, Inversion tsBuf earlier record → (record : Int) - earlier ≤
            (found.visit tsBuf (candIdx tsBuf) record).maxBacktrack) ∧
          ((found.visit tsBuf (candIdx tsBuf) record).maxBacktrack = found.maxBacktrack ∨
            ∃ earlier later, Inversion tsBuf earlier later ∧
              (found.visit tsBuf (candIdx tsBuf) record).maxBacktrack =
                (later : Int) - earlier) := by
        rcases @visit_cases tsBuf record found with ⟨same, none⟩ | ⟨first, larger, positive, least, dist⟩
        · rw [same]
          exact ⟨Int.le_refl _, fun earlier inversion => absurd inversion (none earlier), Or.inl rfl⟩
        · rw [dist]
          refine ⟨by split <;> omega, ?_, ?_⟩
          · intro earlier inversion
            have notBefore : first ≤ earlier := by
              by_contra before
              have le := least earlier (by omega)
              have lt := inversion.2.2
              omega
            split <;> omega
          · split
            · exact Or.inr ⟨first, record, ⟨by omega, positive, larger⟩, rfl⟩
            · exact Or.inl rfl
      obtain ⟨grows, covers, attained⟩ := turn
      obtain ⟨le, all, last⟩ := @ih (found.visit tsBuf (candIdx tsBuf) record) (by omega)
      refine ⟨Int.le_trans grows le, ?_, ?_⟩
      · intro earlier later bound inversion
        rcases Nat.lt_succ_iff_lt_or_eq.mp bound with before | rfl
        · exact all earlier later before inversion
        · exact Int.le_trans (covers earlier inversion) le
      · rcases last with same | found
        · rw [same]
          exact attained
        · exact Or.inr found

theorem maxInversion_visitDown (tsBuf : List Int) :
    ∃ distance, MaxInversion tsBuf distance ∧
      (Backtrack.visitDown tsBuf (candIdx tsBuf) tsBuf.length {}).maxBacktrack = distance := by
  obtain ⟨nonneg, covers, attained⟩ :=
    @visitDown_spec tsBuf tsBuf.length {} (Int.le_refl 0)
  have nonneg : 0 ≤ (Backtrack.visitDown tsBuf (candIdx tsBuf) tsBuf.length {}).maxBacktrack :=
    nonneg
  obtain ⟨distance, same⟩ := Int.eq_ofNat_of_zero_le nonneg
  refine ⟨distance, ⟨?_, ?_⟩, same⟩
  · intro earlier later inversion
    have le := covers earlier later inversion.inside inversion
    omega
  · rcases attained with zero | ⟨earlier, later, inversion, dist⟩
    · left
      have zero : (Backtrack.visitDown tsBuf (candIdx tsBuf) tsBuf.length {}).maxBacktrack = 0 :=
        zero
      omega
    · refine Or.inr ⟨earlier, later, inversion, ?_⟩
      have lt := inversion.1
      omega

theorem maxInversion_short (short : tsBuf.length ≤ 1) : MaxInversion tsBuf 0 := by
  refine ⟨fun earlier later inversion => ?_, Or.inl rfl⟩
  have inside := inversion.inside
  have order := inversion.1
  omega

theorem cComputeDirBacktrack_max (tsBuf : List Int) :
    ∃ distance, MaxInversion tsBuf distance ∧
      (cComputeDirBacktrack tsBuf).maxBacktrack = distance := by
  unfold cComputeDirBacktrack
  split
  · rename_i short
    exact ⟨0, maxInversion_short short, rfl⟩
  · exact maxInversion_visitDown tsBuf

theorem cSearchAiduBacktrack_eq (tsBuf : List Int) :
    cSearchAiduBacktrack tsBuf = cComputeDirBacktrack tsBuf := by
  unfold cSearchAiduBacktrack cComputeDirBacktrack
  by_cases short : tsBuf.length ≤ 1
  · rw [if_neg (by omega), if_pos short]
  · rw [if_pos (by omega), if_neg short]

end Visits

/-! ### Stamps as `time4_t` -/

theorem getD_time4 {stamps : List Nat} (small : ∀ stamp ∈ stamps, stamp < 2 ^ 31) (index : Nat) :
    (stamps.map time4).getD index 0 = stamps.getD index 0 := by
  by_cases inside : index < stamps.length
  · have bound := small stamps[index] (List.getElem_mem inside)
    rw [List.getD_eq_getElem _ _ (by rwa [List.length_map]), List.getElem_map,
      List.getD_eq_getElem _ _ inside, time4, if_pos bound]
  · rw [List.getD_eq_default _ _ (by rw [List.length_map]; omega),
      List.getD_eq_default _ _ (by omega)]
    rfl

/-! ### Looking back in Go -/

section LookBack

variable {aids : List Nat} {record stamp maxBacktrack : Nat}

theorem stampOf_zero : stampOf 0 = 0 := by decide

theorem getD_stampOf (aids : List Nat) (index : Nat) :
    (aids.map stampOf).getD index 0 = stampOf (aids.getD index 0) := by
  have mapped := @List.getD_map _ _ aids 0 index stampOf
  rw [stampOf_zero] at mapped
  exact mapped

theorem lookBack_larger {place earliest : Nat} (larger : stamp < stampOf (aids.getD earliest 0)) :
    stamp < stampOf (aids.getD (lookBack aids record stamp maxBacktrack place earliest) 0) := by
  induction place generalizing earliest with
  | zero => exact larger
  | succ place ih =>
      rw [lookBack]
      split
      · dsimp only
        split
        · exact ih larger
        · split
          · rename_i here
            exact ih here
          · split
            · exact larger
            · exact ih larger
      · exact larger

theorem lookBack_le {place earliest : Nat} (bound : place ≤ earliest) :
    lookBack aids record stamp maxBacktrack place earliest ≤ earliest := by
  induction place generalizing earliest with
  | zero => exact Nat.le_refl _
  | succ place ih =>
      rw [lookBack]
      split
      · dsimp only
        split
        · exact ih (by omega)
        · split
          · exact Nat.le_trans (ih (Nat.le_refl place)) (by omega)
          · split
            · exact Nat.le_refl _
            · exact ih (by omega)
      · exact Nat.le_refl _

theorem lookBack_reaches {place earliest first : Nat} (before : first < place)
    (bound : place ≤ earliest) (near : record ≤ first + maxBacktrack + 1000)
    (larger : stamp < stampOf (aids.getD first 0))
    (close : ∀ between, first < between → between < place → aids.getD between 0 ≠ 0 →
      stamp ≤ stampOf (aids.getD between 0) + 86400) :
    lookBack aids record stamp maxBacktrack place earliest ≤ first := by
  induction place generalizing earliest with
  | zero => exact absurd before (Nat.not_lt_zero _)
  | succ place ih =>
      rw [lookBack, if_pos (by omega)]
      dsimp only
      by_cases here : first = place
      · subst here
        have some : aids.getD first 0 ≠ 0 := by
          intro zero
          rw [zero, stampOf_zero] at larger
          omega
        rw [if_neg some, if_pos larger]
        exact lookBack_le (Nat.le_refl _)
      · have earlier : first < place := by omega
        have rest : ∀ between, first < between → between < place → aids.getD between 0 ≠ 0 →
            stamp ≤ stampOf (aids.getD between 0) + 86400 :=
          fun between after inside => close between after (by omega)
        split
        · exact ih earlier (by omega) rest
        · rename_i some
          split
          · exact ih earlier (Nat.le_refl place) rest
          · have day := close place earlier (Nat.lt_succ_self place) some
            rw [if_neg (by omega)]
            exact ih earlier (by omega) rest

end LookBack

section Stats

variable (aids : List Nat)

structure AidStats.After (count : Nat) (stats : AidStats) : Prop where
  seen : ∀ index, index < count → stampOf (aids.getD index 0) ≤ stats.maxSeenTS
  peak : stats.maxSeenTS = 0 ∨
    (stats.maxSeenIdx < count ∧ stampOf (aids.getD stats.maxSeenIdx 0) = stats.maxSeenTS ∧
      ∀ index, stats.maxSeenIdx < index → index < count →
        stampOf (aids.getD index 0) < stats.maxSeenTS)
  attained : stats.maxBacktrack = 0 ∨ ∃ earlier later,
    Inversion (aids.map stampOf) earlier later ∧ stats.maxBacktrack = later - earlier

/-- No look back from a record ends before the earliest larger stamp: that is the last of the
largest so far, or it is at most 1000 records further than an inversion before, and none of
the records between them is more than a day older. -/
def LooksFarEnough (later : Nat) : Prop :=
  let stamp (index : Nat) := stampOf (aids.getD index 0)
  ∀ earlier, Inversion (aids.map stampOf) earlier later →
    (∀ before, before < earlier → stamp before ≤ stamp later) →
    (∀ peak, peak < later → (∀ index, index < later → stamp index ≤ stamp peak) → peak ≤ earlier) ∨
    ((later ≤ earlier + 1000 ∨ ∃ first second, second < later ∧
        Inversion (aids.map stampOf) first second ∧ later ≤ earlier + (second - first) + 1000) ∧
      ∀ between peak, earlier < between → between < peak → peak < later →
        (∀ index, index < later → stamp index ≤ stamp peak) → aids.getD between 0 ≠ 0 →
        stamp later ≤ stamp between + 86400)

def AidStats.Covers (count : Nat) (stats : AidStats) : Prop :=
  ∀ earlier later, later < count → Inversion (aids.map stampOf) earlier later →
    later - earlier ≤ stats.maxBacktrack

variable {aids} {record : Nat} {stats : AidStats}

theorem AidStats.After.visit (after : stats.After aids record) :
    (stats.visit aids record).After aids (record + 1) := by
  unfold AidStats.visit
  dsimp only
  split
  · rename_i ignored
    have zero : stampOf (aids.getD record 0) = 0 := by
      rcases ignored with none | zero
      · rw [none, stampOf_zero]
      · exact zero
    constructor
    · intro index bound
      rcases Nat.lt_succ_iff_lt_or_eq.mp bound with before | rfl
      · exact after.seen index before
      · omega
    · rcases after.peak with none | ⟨bound, same, last⟩
      · exact Or.inl none
      · by_cases empty : stats.maxSeenTS = 0
        · exact Or.inl empty
        · refine Or.inr ⟨by omega, same, fun index past bound => ?_⟩
          rcases Nat.lt_succ_iff_lt_or_eq.mp bound with before | rfl
          · exact last index past before
          · omega
    · exact after.attained
  · rename_i counted
    split
    · rename_i largest
      constructor
      · intro index bound
        rcases Nat.lt_succ_iff_lt_or_eq.mp bound with before | rfl
        · exact Nat.le_trans (after.seen index before) largest
        · exact Nat.le_refl _
      · refine Or.inr ⟨Nat.lt_succ_self record, rfl, fun index past bound => ?_⟩
        change record < index at past
        omega
      · exact after.attained
    · rename_i smaller
      have below : stampOf (aids.getD record 0) < stats.maxSeenTS := Nat.lt_of_not_le smaller
      obtain ⟨bound, same, last⟩ := after.peak.resolve_left (by omega)
      constructor
      · intro index bound
        rcases Nat.lt_succ_iff_lt_or_eq.mp bound with before | rfl
        · exact after.seen index before
        · exact Nat.le_of_lt below
      · refine Or.inr ⟨Nat.lt_succ_of_lt bound, same, fun index past bound => ?_⟩
        rcases Nat.lt_succ_iff_lt_or_eq.mp bound with before | rfl
        · exact last index past before
        · exact below
      · -- The look back ends at a larger stamp, so the distance is an inversion's.
        have peakLarger : stampOf (aids.getD record 0) <
            stampOf (aids.getD stats.maxSeenIdx 0) := by omega
        have larger := @lookBack_larger aids record _ stats.maxBacktrack stats.maxSeenIdx _ peakLarger
        have le := @lookBack_le aids record (stampOf (aids.getD record 0)) stats.maxBacktrack
          stats.maxSeenIdx _ (Nat.le_refl _)
        change max _ _ = 0 ∨ ∃ earlier later, _ ∧ max _ _ = _
        rcases Nat.le_total stats.maxBacktrack (record - lookBack aids record
          (stampOf (aids.getD record 0)) stats.maxBacktrack stats.maxSeenIdx stats.maxSeenIdx)
          with more | less
        · rw [Nat.max_eq_right more]
          refine Or.inr ⟨_, record, ⟨by omega, ?_, ?_⟩, rfl⟩
          · rw [getD_stampOf]
            exact Nat.pos_of_ne_zero fun zero => counted (Or.inr zero)
          · rw [getD_stampOf, getD_stampOf]
            exact larger
        · rw [Nat.max_eq_left less]
          exact after.attained

theorem AidStats.Covers.visit (covers : stats.Covers aids record) (after : stats.After aids record)
    (far : LooksFarEnough aids record) :
    (stats.visit aids record).Covers aids (record + 1) := by
  have grows : stats.maxBacktrack ≤ (stats.visit aids record).maxBacktrack := by
    unfold AidStats.visit
    dsimp only
    split
    · exact Nat.le_refl _
    · split
      · exact Nat.le_refl _
      · exact Nat.le_max_left _ _
  intro earlier later bound inversion
  rcases Nat.lt_succ_iff_lt_or_eq.mp bound with before | rfl
  · exact Nat.le_trans (covers earlier later before inversion) grows
  · -- The record itself: its look back reaches the earliest larger stamp.
    obtain ⟨order, positive, larger⟩ := inversion
    rw [getD_stampOf] at positive larger
    rw [getD_stampOf] at larger
    obtain ⟨first, isFirst, least⟩ : ∃ first,
        stampOf (aids.getD later 0) < stampOf (aids.getD first 0) ∧
          ∀ before, before < first →
            stampOf (aids.getD before 0) ≤ stampOf (aids.getD later 0) := by
      have exists_larger : ∃ index, stampOf (aids.getD later 0) < stampOf (aids.getD index 0) :=
        ⟨earlier, larger⟩
      refine ⟨Nat.find exists_larger, Nat.find_spec exists_larger, fun before bound => ?_⟩
      exact Nat.le_of_not_lt (Nat.find_min exists_larger bound)
    have firstLe : first ≤ earlier := by
      by_contra past
      have le := least earlier (by omega)
      omega
    have below : stampOf (aids.getD later 0) < stats.maxSeenTS :=
      Nat.lt_of_lt_of_le larger (after.seen earlier order)
    obtain ⟨peakBound, peakStamp, last⟩ := after.peak.resolve_left (by omega)
    have firstPeak : first ≤ stats.maxSeenIdx := by
      by_contra past
      have le := least stats.maxSeenIdx (by omega)
      omega
    have largest : ∀ index, index < later →
        stampOf (aids.getD index 0) ≤ stampOf (aids.getD stats.maxSeenIdx 0) := by
      intro index bound
      rw [peakStamp]
      exact after.seen index bound
    have reaches : lookBack aids later (stampOf (aids.getD later 0)) stats.maxBacktrack
        stats.maxSeenIdx stats.maxSeenIdx ≤ first := by
      by_cases same : stats.maxSeenIdx ≤ first
      · exact Nat.le_trans (lookBack_le (Nat.le_refl _)) same
      · have firstInversion : Inversion (aids.map stampOf) first later := by
          refine ⟨by omega, ?_, ?_⟩
          · rw [getD_stampOf]
            exact positive
          · rw [getD_stampOf, getD_stampOf]
            exact isFirst
        rcases far first firstInversion least with atPeak | ⟨near, close⟩
        · exact absurd (atPeak stats.maxSeenIdx peakBound largest) same
        · have reach : later ≤ first + stats.maxBacktrack + 1000 := by
            rcases near with short | ⟨one, other, before, inversion, short⟩
            · omega
            · have covered := covers one other before inversion
              omega
          exact lookBack_reaches (by omega) (Nat.le_refl _) reach isFirst
            fun between past inside => close between stats.maxSeenIdx past inside peakBound largest
    have some : ¬ (aids.getD later 0 = 0 ∨ stampOf (aids.getD later 0) = 0) := by
      rintro (none | zero)
      · rw [none, stampOf_zero] at positive
        omega
      · omega
    unfold AidStats.visit
    dsimp only
    rw [if_neg some, if_neg (by omega)]
    change _ ≤ max _ _
    omega

theorem computeBoardAIDStats_run (count : Nat) :
    let stats := (List.range count).foldl (fun stats record => stats.visit aids record)
      ({} : AidStats)
    stats.After aids count ∧
      ((∀ record, record < count → LooksFarEnough aids record) → stats.Covers aids count) := by
  induction count with
  | zero =>
      refine ⟨⟨fun _ bound => absurd bound (Nat.not_lt_zero _), Or.inl rfl, Or.inl rfl⟩, ?_⟩
      intro _ earlier later bound
      exact absurd bound (Nat.not_lt_zero _)
  | succ count ih =>
      obtain ⟨after, covers⟩ := ih
      dsimp only
      rw [List.range_succ, List.foldl_append, List.foldl_cons, List.foldl_nil]
      refine ⟨after.visit, fun far => ?_⟩
      exact (covers fun record bound => far record (by omega)).visit after
        (far count (Nat.lt_succ_self count))

end Stats

/-! ### The three functions -/

end Pttbbs.SearchSvc
