/-
Searching strings of single and double bytes.

One search takes the places where the bytes occur and steps over those inside of characters;
the other one compares at the first byte of every character.  A read behind the end of a string
has no result.
-/

import Pttbbs.Common.Dbcs
import Mathlib.Data.List.GetD
import Mathlib.Order.Monotone.Basic

namespace Pttbbs.Common.Dbcs

open Pttbbs.Lib

/-! ### The searches -/

def readAt (text : Bytes) (index : Nat) : Option UInt8 :=
  if index < text.length then some (text.getD index 0)
  else if index = text.length then some 0
  else none

/-- `strstr`: how far in front of the first occurrence the text begins. -/
def strstr (ptr : Bytes) : Bytes → Option Nat
  | [] => if ptr = [] then some 0 else none
  | byte :: rest =>
      if ptr.isPrefixOf (byte :: rest) then some 0 else (strstr ptr rest).map (· + 1)

def resync (pool : Bytes) (goal : Nat) : Nat → Nat → Option Nat
  | 0, _ => none
  | fuel + 1, scan =>
      if scan < goal then do
        let c ← readAt pool scan
        if isDbcsLead c then do
          let second ← readAt pool (scan + 1)
          resync pool goal fuel (if second ≠ 0 then scan + 2 else scan + 1)
        else resync pool goal fuel (scan + 1)
      else some scan

def mbsStrstrLoop (pool ptr : Bytes) : Nat → Nat → Option (Option Nat)
  | 0, _ => none
  | fuel + 1, scan =>
      match strstr ptr (pool.drop scan) with
      | none => some none
      | some ahead => do
          let goal := scan + ahead
          let scan ← resync pool goal (pool.length + 1) scan
          if scan = goal then some (some goal) else mbsStrstrLoop pool ptr fuel scan

/-- `mbs_strstr` of the build for Big5, with the index of the match. -/
def mbsStrstr (pool ptr : Bytes) : Option (Option Nat) :=
  if ptr = [] then some (some 0) else mbsStrstrLoop pool ptr (pool.length + 2) 0

/-- The inner loop of `mbs_strcasestr`: whether the rest is found. -/
def matchAt (pool ptr : Bytes) (i : Nat) : Nat → Nat → Option Bool
  | 0, _ => none
  | fuel + 1, i2 =>
      if i2 < ptr.length then do
        let c ← readAt pool (i + i2)
        let d ← readAt ptr i2
        if isDbcsLead c then
          if d ≠ c then some false
          else do
            let c2 ← readAt pool (i + i2 + 1)
            let d2 ← readAt ptr (i2 + 1)
            if d2 ≠ c2 then some false else matchAt pool ptr i fuel (i2 + 2)
        else if isDbcsLead d ∨ tolower d ≠ tolower c then some false
        else matchAt pool ptr i fuel (i2 + 1)
      else some true

def mbsStrcasestrLoop (pool ptr : Bytes) : Nat → Nat → Option (Option Nat)
  | 0, _ => none
  | fuel + 1, i =>
      if (i : Int) ≤ (pool.length : Int) - ptr.length then do
        let found ← matchAt pool ptr i (ptr.length + 1) 0
        if found then some (some i)
        else do
          let c ← readAt pool i
          mbsStrcasestrLoop pool ptr fuel (if isDbcsLead c then i + 2 else i + 1)
      else some none

/-- `mbs_strcasestr` of the build for Big5, with the index of the match. -/
def mbsStrcasestr (pool ptr : Bytes) : Option (Option Nat) :=
  mbsStrcasestrLoop pool ptr (pool.length + 2) 0

/-! ### Characters -/

def charLen (text : Bytes) (index : Nat) : Nat :=
  if isDbcsLead (text.getD index 0) = true ∧ index + 1 < text.length then 2 else 1

def walk (text : Bytes) : Nat → Nat
  | 0 => 0
  | count + 1 =>
      if walk text count < text.length then walk text count + charLen text (walk text count)
      else walk text count

def Boundary (text : Bytes) (index : Nat) : Prop := ∃ count, walk text count = index

def Occurs (pool ptr : Bytes) (index : Nat) : Prop := (pool.drop index).take ptr.length = ptr

def OccursCase (pool ptr : Bytes) (index : Nat) : Prop :=
  foldCase ((pool.drop index).take ptr.length) = foldCase ptr

def FirstBoundary (pool : Bytes) (holds : Nat → Prop) : Option Nat → Prop
  | none => ∀ index, Boundary pool index → ¬ holds index
  | some index => Boundary pool index ∧ holds index ∧
      ∀ before, before < index → Boundary pool before → ¬ holds before

def endsInLead (second : Bool) : Bytes → Bool
  | [] => second
  | byte :: rest => endsInLead (¬ second ∧ isDbcsLead byte = true) rest

theorem readAt_inside {text : Bytes} {index : Nat} (inside : index < text.length) :
    readAt text index = some (text.getD index 0) := if_pos inside

theorem charLen_pos (text : Bytes) (index : Nat) : 0 < charLen text index := by
  unfold charLen
  split <;> omega

theorem charLen_le (text : Bytes) {index : Nat} (inside : index < text.length) :
    index + charLen text index ≤ text.length := by
  unfold charLen
  split
  · rename_i double
    have := double.2
    omega
  · omega

theorem walk_le (text : Bytes) (count : Nat) : walk text count ≤ text.length := by
  induction count with
  | zero => exact Nat.zero_le _
  | succ count ih =>
      rw [walk]
      split
      · exact charLen_le text ‹_›
      · exact ih

theorem walk_mono (text : Bytes) : Monotone (walk text) := by
  refine monotone_nat_of_le_succ fun count => ?_
  rw [walk]
  split
  · omega
  · exact Nat.le_refl _

namespace Boundary

variable {text : Bytes} {index later : Nat}

theorem zero (text : Bytes) : Boundary text 0 := ⟨0, rfl⟩

theorem le (boundary : Boundary text index) : index ≤ text.length := by
  obtain ⟨count, rfl⟩ := boundary
  exact walk_le text count

theorem next (boundary : Boundary text index) (inside : index < text.length) :
    Boundary text (index + charLen text index) := by
  obtain ⟨count, rfl⟩ := boundary
  exact ⟨count + 1, by rw [walk, if_pos inside]⟩

theorem after (boundary : Boundary text index) (other : Boundary text later)
    (behind : index < later) : index + charLen text index ≤ later := by
  have inside : index < text.length := Nat.lt_of_lt_of_le behind other.le
  obtain ⟨count, rfl⟩ := boundary
  obtain ⟨count', rfl⟩ := other
  have order : count < count' := by
    by_contra reverse
    have less := walk_mono text (Nat.le_of_not_lt reverse)
    omega
  have most := walk_mono text (Nat.succ_le_of_lt order)
  rw [walk, if_pos inside] at most
  exact most

end Boundary

/-! ### The search by bytes -/

theorem strstr_spec (ptr text : Bytes) :
    match strstr ptr text with
    | none => ∀ index, index ≤ text.length → (text.drop index).take ptr.length ≠ ptr
    | some ahead => ahead + ptr.length ≤ text.length ∧
        (text.drop ahead).take ptr.length = ptr ∧
        ∀ before, before < ahead → (text.drop before).take ptr.length ≠ ptr := by
  induction text with
  | nil =>
      rw [strstr]
      by_cases empty : ptr = []
      · rw [if_pos empty]
        simp [empty]
      · rw [if_neg empty]
        intro index _ same
        simp only [List.drop_nil, List.take_nil] at same
        exact empty same.symm
  | cons byte rest ih =>
      rw [strstr]
      by_cases starts : ptr.isPrefixOf (byte :: rest) = true
      · rw [if_pos starts]
        have initial : ptr <+: byte :: rest := List.isPrefixOf_iff_prefix.1 starts
        refine ⟨?_, ?_, by simp⟩
        · rw [Nat.zero_add]
          exact initial.length_le
        · rw [List.drop_zero]
          exact (List.prefix_iff_eq_take.1 initial).symm
      · rw [if_neg starts]
        have here : (byte :: rest).take ptr.length ≠ ptr := fun same =>
          starts (List.isPrefixOf_iff_prefix.2 (List.prefix_iff_eq_take.2 same.symm))
        cases found : strstr ptr rest with
        | none =>
            rw [found] at ih
            intro index inside
            cases index with
            | zero => exact here
            | succ index => exact ih index (Nat.le_of_succ_le_succ inside)
        | some ahead =>
            rw [found] at ih
            obtain ⟨fits, same, first⟩ := ih
            refine ⟨?_, same, ?_⟩
            · change ahead + 1 + ptr.length ≤ rest.length + 1
              omega
            · intro before order
              cases before with
              | zero => exact here
              | succ before => exact first before (Nat.lt_of_succ_lt_succ order)

theorem getD_ne_zero {text : Bytes} (terminated : 0 ∉ text) {index : Nat}
    (inside : index < text.length) : text.getD index 0 ≠ 0 := by
  rw [List.getD_eq_getElem _ _ inside]
  exact fun zero => terminated (zero ▸ List.getElem_mem inside)

/-- What follows the first byte of a character is not the end exactly when the character has
two bytes. -/
theorem step_eq {text : Bytes} (terminated : 0 ∉ text) {index : Nat}
    (inside : index < text.length) (lead : isDbcsLead (text.getD index 0) = true) :
    ∃ second, readAt text (index + 1) = some second ∧
      (if second ≠ 0 then index + 2 else index + 1) = index + charLen text index := by
  unfold charLen
  by_cases more : index + 1 < text.length
  · refine ⟨_, readAt_inside more, ?_⟩
    rw [if_pos (getD_ne_zero terminated more), if_pos ⟨lead, more⟩]
  · refine ⟨0, ?_, ?_⟩
    · rw [readAt, if_neg more, if_pos (by omega)]
    · rw [if_neg (by simp), if_neg (fun held => more held.2)]

theorem resync_spec {pool : Bytes} (terminated : 0 ∉ pool) {goal : Nat}
    (reachable : goal ≤ pool.length) (fuel scan : Nat) (positive : 0 < fuel)
    (enough : goal < scan + fuel) (boundary : Boundary pool scan) :
    ∃ stop, resync pool goal fuel scan = some stop ∧ scan ≤ stop ∧ goal ≤ stop ∧
      Boundary pool stop ∧ ∀ index, Boundary pool index → scan ≤ index → index < stop →
        index < goal := by
  induction fuel generalizing scan with
  | zero => omega
  | succ fuel ih =>
      rw [resync]
      by_cases before : scan < goal
      · have inside : scan < pool.length := Nat.lt_of_lt_of_le before reachable
        have step := charLen_pos pool scan
        have next := boundary.next inside
        have again := ih (scan + charLen pool scan) (by omega) (by omega) next
        obtain ⟨stop, result, beyond, reached, last, between⟩ := again
        refine ⟨stop, ?_, by omega, reached, last, ?_⟩
        · rw [if_pos before, readAt_inside inside]
          by_cases lead : isDbcsLead (pool.getD scan 0) = true
          · obtain ⟨second, read, same⟩ := step_eq terminated inside lead
            simp only [Option.bind_eq_bind, Option.bind_some, lead, if_true, read, same, result]
          · have one : charLen pool scan = 1 := by
              unfold charLen
              rw [if_neg (fun held => lead held.1)]
            rw [one] at result
            simp only [Option.bind_eq_bind, Option.bind_some, lead, result]
            rfl
        · intro index other low high
          by_cases same : index = scan
          · omega
          · exact between index other (boundary.after other (by omega)) high
      · refine ⟨scan, if_neg before, Nat.le_refl _, Nat.le_of_not_lt before, boundary, ?_⟩
        intro index _ low high
        omega

theorem mbsStrstrLoop_spec {pool ptr : Bytes} (terminated : 0 ∉ pool) (nonempty : ptr ≠ [])
    (fuel scan : Nat) (enough : pool.length + 1 < scan + fuel) (boundary : Boundary pool scan)
    (before : ∀ index, index < scan → Boundary pool index → ¬ Occurs pool ptr index) :
    ∃ result, mbsStrstrLoop pool ptr fuel scan = some result ∧
      FirstBoundary pool (Occurs pool ptr) result := by
  induction fuel generalizing scan with
  | zero =>
      have most := boundary.le
      omega
  | succ fuel ih =>
      have most := boundary.le
      have spec := strstr_spec ptr (pool.drop scan)
      rw [mbsStrstrLoop]
      cases found : strstr ptr (pool.drop scan) with
      | none =>
          rw [found] at spec
          refine ⟨none, rfl, ?_⟩
          intro index other
          by_cases order : index < scan
          · exact before index order other
          · have bound := other.le
            have absent := spec (index - scan) (by rw [List.length_drop]; omega)
            rw [List.drop_drop, show scan + (index - scan) = index by omega] at absent
            exact absent
      | some ahead =>
          rw [found] at spec
          obtain ⟨fits, occurs, first⟩ := spec
          rw [List.length_drop] at fits
          rw [List.drop_drop] at occurs
          have longer : 0 < ptr.length := List.length_pos_of_ne_nil nonempty
          obtain ⟨stop, result, low, reached, last, between⟩ := @resync_spec pool terminated
            (scan + ahead) (by omega) (pool.length + 1) scan (by omega) (by omega) boundary
          have none : ∀ index, index < stop → index ≠ scan + ahead → Boundary pool index →
              ¬ Occurs pool ptr index := by
            intro index order apart other
            by_cases early : index < scan
            · exact before index early other
            · have near := between index other (by omega) order
              have absent := first (index - scan) (by omega)
              rw [List.drop_drop, show scan + (index - scan) = index by omega] at absent
              exact absent
          simp only [Option.bind_eq_bind, result, Option.bind_some]
          by_cases hit : stop = scan + ahead
          · rw [if_pos hit]
            refine ⟨_, rfl, hit ▸ last, occurs, ?_⟩
            intro index order
            exact none index (by omega) (by omega)
          · rw [if_neg hit]
            refine ih stop (by omega) last ?_
            intro index order other
            by_cases goal : index = scan + ahead
            · have near := between index other (by omega) order
              omega
            · exact none index order goal other

theorem mbsStrstr_spec {pool ptr : Bytes} (terminated : 0 ∉ pool) :
    ∃ result, mbsStrstr pool ptr = some result ∧ FirstBoundary pool (Occurs pool ptr) result := by
  rw [mbsStrstr]
  by_cases empty : ptr = []
  · rw [if_pos empty]
    refine ⟨_, rfl, Boundary.zero pool, ?_, by simp⟩
    simp [Occurs, empty]
  · rw [if_neg empty]
    exact mbsStrstrLoop_spec terminated empty _ 0 (by omega) (Boundary.zero pool) (by simp)

/-! ### The search without case -/

/-- What the code compares: the last byte is not the first half of a character of which the
second half follows. -/
def MatchesCase (pool ptr : Bytes) (index : Nat) : Prop :=
  OccursCase pool ptr index ∧
    (endsInLead false ptr = true → index + ptr.length = pool.length)

theorem foldCase_single {byte : UInt8} (single : ¬ isDbcsLead byte = true) (rest : Bytes) :
    foldCase (byte :: rest) = tolower byte :: foldCase rest := by
  simp [foldCase, foldCaseFrom, single]

theorem foldCase_double {lead : UInt8} (half : isDbcsLead lead = true) (second : UInt8)
    (rest : Bytes) : foldCase (lead :: second :: rest) = lead :: second :: foldCase rest := by
  simp [foldCase, foldCaseFrom, half, (tolower_facts lead).1 half]

theorem foldCase_head {left right : UInt8} {rest others : Bytes}
    (same : foldCase (left :: rest) = foldCase (right :: others)) : tolower left = tolower right := by
  simp only [foldCase, foldCaseFrom, Bool.false_eq_true, if_false, List.cons.injEq] at same
  exact same.1

theorem take_drop_cons {text : Bytes} {index : Nat} (inside : index < text.length) (count : Nat) :
    (text.drop index).take (count + 1) = text.getD index 0 :: (text.drop (index + 1)).take count := by
  rw [List.drop_eq_getElem_cons inside, List.take_succ_cons, List.getD_eq_getElem _ _ inside]

theorem drop_cons {text : Bytes} {index : Nat} (inside : index < text.length) :
    text.drop index = text.getD index 0 :: text.drop (index + 1) := by
  rw [List.drop_eq_getElem_cons inside, List.getD_eq_getElem _ _ inside]

theorem matchAt_spec {pool ptr : Bytes} (terminated : 0 ∉ pool) (terminated' : 0 ∉ ptr) {i : Nat}
    (fits : i + ptr.length ≤ pool.length) (fuel i2 : Nat) (enough : ptr.length < i2 + fuel)
    (positive : 0 < fuel) :
    ∃ found, matchAt pool ptr i fuel i2 = some found ∧
      (found = true ↔
        foldCase ((pool.drop (i + i2)).take (ptr.length - i2)) = foldCase (ptr.drop i2) ∧
          (endsInLead false (ptr.drop i2) = true → i + ptr.length = pool.length)) := by
  induction fuel generalizing i2 with
  | zero => omega
  | succ fuel ih =>
      rw [matchAt]
      by_cases more : i2 < ptr.length
      · have inPool : i + i2 < pool.length := by omega
        have count : ptr.length - i2 = (ptr.length - (i2 + 1)) + 1 := by omega
        rw [if_pos more, readAt_inside inPool, readAt_inside more, drop_cons more, count,
          take_drop_cons inPool]
        simp only [Option.bind_eq_bind, Option.bind_some]
        generalize pool.getD (i + i2) 0 = c
        generalize ptr.getD i2 0 = d
        by_cases lead : isDbcsLead c = true
        · rw [if_pos lead]
          by_cases same : d = c
          · rw [if_neg (not_not.2 same), same]
            by_cases pair : i2 + 1 < ptr.length
            · have second : i + i2 + 1 < pool.length := by omega
              have count' : ptr.length - (i2 + 1) = (ptr.length - (i2 + 2)) + 1 := by omega
              have ends : endsInLead false (c :: ptr.getD (i2 + 1) 0 :: ptr.drop (i2 + 2)) =
                  endsInLead false (ptr.drop (i2 + 2)) := by simp [endsInLead, lead]
              rw [readAt_inside second, readAt_inside pair, drop_cons pair, count',
                take_drop_cons second, ends, foldCase_double lead, foldCase_double lead]
              simp only [Option.bind_some, List.cons.injEq, true_and]
              by_cases equal : ptr.getD (i2 + 1) 0 = pool.getD (i + i2 + 1) 0
              · rw [if_neg (not_not.2 equal)]
                obtain ⟨found, result, means⟩ := ih (i2 + 2) (by omega) (by omega)
                refine ⟨found, result, means.trans ?_⟩
                simp only [equal, true_and]
                exact Iff.rfl
              · rw [if_pos equal]
                refine ⟨false, rfl, iff_of_false (by simp) ?_⟩
                exact fun held => equal held.1.1.symm
            · -- the pattern ends with the first half
              have last : i2 + 1 = ptr.length := by omega
              have none : readAt ptr (i2 + 1) = some 0 := by
                rw [readAt, if_neg pair, if_pos last]
              have ends : endsInLead false [c] = true := by simp [endsInLead, lead]
              have rest : ptr.drop (i2 + 1) = [] := List.drop_eq_nil_of_le (by omega)
              rw [none, rest, Nat.sub_eq_zero_of_le (by omega), List.take_zero]
              by_cases inside : i + i2 + 1 < pool.length
              · rw [readAt_inside inside]
                simp only [Option.bind_some]
                rw [if_pos (Ne.symm (getD_ne_zero terminated inside))]
                refine ⟨false, rfl, iff_of_false (by simp) ?_⟩
                intro held
                have := held.2 ends
                omega
              · have atEnd : readAt pool (i + i2 + 1) = some 0 := by
                  rw [readAt, if_neg inside, if_pos (by omega)]
                obtain ⟨found, result, means⟩ := ih (i2 + 2) (by omega) (by omega)
                have whole : ptr.drop (i2 + 2) = [] := List.drop_eq_nil_of_le (by omega)
                rw [whole, Nat.sub_eq_zero_of_le (by omega), List.take_zero] at means
                rw [atEnd]
                simp only [Option.bind_some]
                refine ⟨found, by simpa using result, ?_⟩
                exact iff_of_true (means.2 (by simp [endsInLead])) ⟨trivial, fun _ => by omega⟩
          · rw [if_pos same]
            refine ⟨false, rfl, iff_of_false (by simp) ?_⟩
            rintro ⟨folded, _⟩
            have heads := foldCase_head folded
            have half : isDbcsLead d = true := by rw [← isDbcsLead_eq heads, lead]
            rw [(tolower_facts c).1 lead, (tolower_facts d).1 half] at heads
            exact same heads.symm
        · rw [if_neg lead]
          by_cases differ : isDbcsLead d = true ∨ tolower d ≠ tolower c
          · rw [if_pos differ]
            refine ⟨false, rfl, iff_of_false (by simp) ?_⟩
            rintro ⟨folded, _⟩
            have heads := foldCase_head folded
            rcases differ with half | apart
            · rw [← isDbcsLead_eq heads] at half
              exact lead half
            · exact apart heads.symm
          · rw [if_neg differ]
            have single : ¬ isDbcsLead d = true := fun half => differ (.inl half)
            have equal : tolower c = tolower d := by
              by_contra apart
              exact differ (.inr (Ne.symm apart))
            have ends : endsInLead false (d :: ptr.drop (i2 + 1)) =
                endsInLead false (ptr.drop (i2 + 1)) := by simp [endsInLead, single]
            obtain ⟨found, result, means⟩ := ih (i2 + 1) (by omega) (by omega)
            refine ⟨found, result, means.trans ?_⟩
            rw [foldCase_single lead, foldCase_single single, ends]
            simp only [List.cons.injEq, equal, true_and]
            exact Iff.rfl
      · rw [if_neg more, List.drop_eq_nil_of_le (Nat.le_of_not_lt more),
          Nat.sub_eq_zero_of_le (Nat.le_of_not_lt more), List.take_zero]
        exact ⟨true, rfl, iff_of_true rfl ⟨rfl, by simp [endsInLead]⟩⟩

theorem foldCaseFrom_length (second : Bool) (text : Bytes) :
    (foldCaseFrom second text).length = text.length := by
  induction text generalizing second with
  | nil => rfl
  | cons byte rest ih => rw [foldCaseFrom, List.length_cons, ih, List.length_cons]

theorem OccursCase.fits {pool ptr : Bytes} {index : Nat} (occurs : OccursCase pool ptr index) :
    ptr = [] ∨ index + ptr.length ≤ pool.length := by
  have lengths := congrArg List.length occurs
  simp only [foldCase, foldCaseFrom_length, List.length_take, List.length_drop] at lengths
  by_cases empty : ptr = []
  · exact .inl empty
  · have longer := List.length_pos_of_ne_nil empty
    right
    omega

theorem mbsStrcasestrLoop_spec {pool ptr : Bytes} (terminated : 0 ∉ pool)
    (terminated' : 0 ∉ ptr) (fuel i : Nat) (positive : 0 < fuel)
    (enough : pool.length + 1 < i + fuel) (place : Boundary pool i ∨ pool.length < i)
    (before : ∀ index, index < i → Boundary pool index → ¬ MatchesCase pool ptr index) :
    ∃ result, mbsStrcasestrLoop pool ptr fuel i = some result ∧
      FirstBoundary pool (MatchesCase pool ptr) result := by
  induction fuel generalizing i with
  | zero => omega
  | succ fuel ih =>
      rw [mbsStrcasestrLoop]
      by_cases room : (i : Int) ≤ (pool.length : Int) - ptr.length
      · have boundary : Boundary pool i := place.resolve_right (by omega)
        obtain ⟨found, result, means⟩ := matchAt_spec terminated terminated' (i := i) (by omega)
          (ptr.length + 1) 0 (by omega) (by omega)
        have here : found = true ↔ MatchesCase pool ptr i := means
        simp only [if_pos room, Option.bind_eq_bind, result, Option.bind_some]
        by_cases hit : found = true
        · rw [if_pos hit]
          exact ⟨_, rfl, boundary, here.1 hit, before⟩
        · rw [if_neg hit]
          have absent : ¬ MatchesCase pool ptr i := fun held => hit (here.2 held)
          have nonempty : ptr ≠ [] := by
            rintro rfl
            exact absent ⟨by simp [OccursCase], by simp [endsInLead]⟩
          have longer := List.length_pos_of_ne_nil nonempty
          have inside : i < pool.length := by omega
          rw [readAt_inside inside]
          simp only [Option.bind_some]
          -- where the next character begins, there is no match in front of it
          have none : ∀ index, index < i + charLen pool i → Boundary pool index →
              ¬ MatchesCase pool ptr index := by
            intro index order other held
            rcases Nat.lt_trichotomy index i with early | same | late
            · exact before index early other held
            · exact absent (same ▸ held)
            · have step := boundary.after other late
              omega
          have next := boundary.next inside
          by_cases lead : isDbcsLead (pool.getD i 0) = true
          · rw [if_pos lead]
            by_cases pair : i + 1 < pool.length
            · have two : charLen pool i = 2 := if_pos ⟨lead, pair⟩
              rw [two] at none next
              exact ih (i + 2) (by omega) (by omega) (.inl next) none
            · refine ih (i + 2) (by omega) (by omega) (.inr (by omega)) ?_
              intro index order other held
              have fits := held.1.fits.resolve_left nonempty
              exact none index (by have := charLen_pos pool i; omega) other held
          · have one : charLen pool i = 1 := if_neg fun held => lead held.1
            rw [one] at none next
            rw [if_neg lead]
            exact ih (i + 1) (by omega) (by omega) (.inl next) none
      · rw [if_neg room]
        refine ⟨none, rfl, ?_⟩
        intro index other held
        by_cases early : index < i
        · exact before index early other held
        · rcases held.1.fits with empty | fits
          · subst empty
            have most := other.le
            simp only [List.length_nil] at room
            omega
          · omega

theorem mbsStrcasestr_spec {pool ptr : Bytes} (terminated : 0 ∉ pool) (terminated' : 0 ∉ ptr) :
    ∃ result, mbsStrcasestr pool ptr = some result ∧
      FirstBoundary pool (MatchesCase pool ptr) result :=
  mbsStrcasestrLoop_spec terminated terminated' _ 0 (by omega) (by omega)
    (.inl (Boundary.zero pool)) (by simp)

/-! ### Where the searches are exact -/

/-- The search by bytes finds the first occurrence at a character.  The one without case does
so exactly when the pattern does not end inside of a character, or occurs at characters only at
the end of the text. -/
theorem first_matches (pool ptr : CString) :
    (∃ result, mbsStrstr pool.text ptr.text = some result ∧
        FirstBoundary pool.text (Occurs pool.text ptr.text) result) ∧
      ∃ result, mbsStrcasestr pool.text ptr.text = some result ∧
        (FirstBoundary pool.text (OccursCase pool.text ptr.text) result ↔
          (endsInLead false ptr.text = true → ∀ index, Boundary pool.text index →
            OccursCase pool.text ptr.text index →
              index + ptr.text.length = pool.text.length)) := by
  refine ⟨mbsStrstr_spec pool.terminated, ?_⟩
  obtain ⟨result, computed, first⟩ := mbsStrcasestr_spec pool.terminated ptr.terminated
  refine ⟨result, computed, ?_⟩
  constructor
  · intro exact half index boundary occurs
    have nonempty : ptr.text ≠ [] := by
      intro empty
      rw [empty] at half
      cases half
    have fits := occurs.fits.resolve_left nonempty
    cases result with
    | none => exact absurd occurs (exact index boundary)
    | some found =>
        have atEnd := first.2.1.2 half
        by_cases early : index < found
        · exact absurd occurs (exact.2.2 index early boundary)
        · omega
  · intro only
    have same : ∀ index, Boundary pool.text index →
        (MatchesCase pool.text ptr.text index ↔ OccursCase pool.text ptr.text index) :=
      fun index boundary =>
        ⟨fun held => held.1, fun occurs => ⟨occurs, fun half => only half index boundary occurs⟩⟩
    cases result with
    | none => exact fun index boundary occurs => first index boundary ((same index boundary).2 occurs)
    | some found =>
        obtain ⟨boundary, held, before⟩ := first
        exact ⟨boundary, (same found boundary).1 held, fun index early other occurs =>
          before index early other ((same index other).2 occurs)⟩

/-- The first half of a character is found by its byte, and not without case. -/
theorem half_not_found :
    mbsStrstr [0xA4, 0x40] [0xA4] = some (some 0) ∧
      mbsStrcasestr [0xA4, 0x40] [0xA4] = some none ∧ OccursCase [0xA4, 0x40] [0xA4] 0 := by
  refine ⟨by decide, by decide, ?_⟩
  unfold OccursCase
  decide

end Pttbbs.Common.Dbcs
