/-
The parameters that the keyboard parser accumulates.

A semicolon before any digit is not counted, and digits behind the eighth parameter go on
with the eighth.  The numbers that are stored are those of the parameter string exactly
for the strings called sound here.
-/

import Pttbbs.Common.Vtkbd
import Mathlib.Data.List.GetD

namespace Pttbbs.Common.Vtkbd

open Pttbbs.Lib

/-! ### Numbers and pieces -/

theorem digitsValue_concat (digits : Bytes) (c : UInt8) :
    digitsValue (digits ++ [c]) = digitsValue digits * 10 + (c.toNat - 48) := by
  rw [digitsValue, List.foldl_append, Nat.mul_comm]
  rfl

theorem digitsValue_append (digits more : Bytes) :
    digitsValue (digits ++ more) = digitsValue digits * 10 ^ more.length + digitsValue more := by
  induction more using List.reverseRecOn with
  | nil => simp [digitsValue]
  | append_singleton more c ih =>
      rw [← List.append_assoc, digitsValue_concat, ih, digitsValue_concat, List.length_append,
        List.length_singleton, Nat.pow_succ]
      ring

theorem digitsValue_eq_zero_iff {digits : Bytes} (all : ∀ c ∈ digits, isDigitByte c = true) :
    digitsValue digits = 0 ↔ ∀ c ∈ digits, c = 48 := by
  induction digits using List.reverseRecOn with
  | nil => simp [digitsValue]
  | append_singleton digits c ih =>
      have digit := all c (by simp)
      rw [isDigitByte, Bool.and_eq_true, decide_eq_true_eq, decide_eq_true_eq,
        UInt8.le_iff_toNat_le, UInt8.le_iff_toNat_le] at digit
      have low : 48 ≤ c.toNat := digit.1
      have zero : c.toNat - 48 = 0 ↔ c = 48 := by
        rw [← UInt8.toNat_inj]
        change c.toNat - 48 = 0 ↔ c.toNat = 48
        omega
      rw [digitsValue_concat, List.forall_mem_append, List.forall_mem_singleton,
        ← ih fun other member => all other (List.mem_append_left _ member), ← zero]
      omega

theorem splitOn_concat_separator (separator : UInt8) (text : Bytes) :
    splitOn separator (text ++ [separator]) = splitOn separator text ++ [[]] :=
  splitOn_append_cons separator text []

theorem splitOn_concat_of_ne {separator c : UInt8} (apart : c ≠ separator) (text : Bytes) :
    ∃ front last, splitOn separator text = front ++ [last] ∧
      splitOn separator (text ++ [c]) = front ++ [last ++ [c]] := by
  induction text with
  | nil =>
      refine ⟨[], [], rfl, ?_⟩
      rw [List.nil_append, splitOn, if_neg apart]
      rfl
  | cons byte rest ih =>
      obtain ⟨front, last, before, after⟩ := ih
      rw [List.cons_append, splitOn, splitOn, before, after]
      by_cases ends : byte = separator
      · rw [if_pos ends, if_pos ends]
        exact ⟨[] :: front, last, rfl, rfl⟩
      · rw [if_neg ends, if_neg ends]
        cases front with
        | nil => exact ⟨[], byte :: last, rfl, rfl⟩
        | cons first others => exact ⟨(byte :: first) :: others, last, rfl, rfl⟩

/-! ### Where digits are stored -/

/-- The pieces that get a place: a leading empty one does not. -/
def effective (body : Bytes) : List Bytes :=
  match splitOn 59 body with
  | [] :: rest => rest
  | pieces => pieces

/-- The digits that are stored at a place; the last one takes all that follow. -/
def slot (pieces : List Bytes) (place : Nat) : Bytes :=
  if place < 7 then pieces.getD place [] else (pieces.drop 7).flatten

theorem effective_nil : effective [] = [] := rfl

theorem effective_semicolon (body : Bytes) :
    effective (body ++ [59]) = effective body ++ [[]] := by
  have nonempty := splitOn_ne_nil 59 body
  rw [effective, effective, splitOn_concat_separator]
  cases pieces : splitOn 59 body with
  | nil => exact absurd pieces nonempty
  | cons first others =>
      cases first with
      | nil => rfl
      | cons c digits => rfl

theorem effective_digit {c : UInt8} (apart : c ≠ 59) (body : Bytes) :
    effective body = [] ∧ effective (body ++ [c]) = [[c]] ∨
      ∃ front last, effective body = front ++ [last] ∧
        effective (body ++ [c]) = front ++ [last ++ [c]] := by
  obtain ⟨front, last, before, after⟩ := splitOn_concat_of_ne apart body
  rw [effective, effective, before, after]
  cases front with
  | nil =>
      cases last with
      | nil => exact Or.inl ⟨rfl, rfl⟩
      | cons first digits => exact Or.inr ⟨[], first :: digits, rfl, rfl⟩
  | cons first others =>
      right
      cases first with
      | nil => exact ⟨others, last, rfl, rfl⟩
      | cons byte digits => exact ⟨(byte :: digits) :: others, last, rfl, rfl⟩

theorem slot_semicolon (pieces : List Bytes) (place : Nat) :
    slot (pieces ++ [[]]) place = slot pieces place := by
  unfold slot
  split
  case isTrue =>
      by_cases inside : place < pieces.length
      · rw [List.getD_append _ _ _ _ inside]
      · have missing : pieces.getD place [] = [] := List.getD_eq_default _ _ (by omega)
        rw [List.getD_append_right _ _ _ _ (by omega), missing]
        cases place - pieces.length <;> rfl
  case isFalse =>
      rw [List.drop_append, List.flatten_append]
      cases 7 - pieces.length <;> simp

theorem slot_digit (front : List Bytes) (last : Bytes) (c : UInt8) {place : Nat}
    (within : place < 8) :
    slot (front ++ [last ++ [c]]) place =
      if place = min front.length 7 then slot (front ++ [last]) place ++ [c]
      else slot (front ++ [last]) place := by
  unfold slot
  by_cases small : place < 7
  · rw [if_pos small, if_pos small]
    by_cases inside : place < front.length
    · rw [if_neg (by omega), List.getD_append _ _ _ _ inside, List.getD_append _ _ _ _ inside]
    · rw [List.getD_append_right _ _ _ _ (by omega), List.getD_append_right _ _ _ _ (by omega)]
      by_cases here : place = front.length
      · rw [if_pos (by omega), here, Nat.sub_self]
        rfl
      · rw [if_neg (by omega), List.getD_eq_default _ _ (by rw [List.length_singleton]; omega),
          List.getD_eq_default _ _ (by rw [List.length_singleton]; omega)]
  · rw [if_neg small, if_neg small, List.drop_append, List.drop_append, List.flatten_append,
      List.flatten_append]
    by_cases many : 7 ≤ front.length
    · rw [if_pos (by omega), Nat.sub_eq_zero_of_le many]
      simp
    · have behind : ∀ piece : Bytes, [piece].drop (7 - front.length) = [] := by
        intro piece
        apply List.drop_eq_nil_of_le
        rw [List.length_singleton]
        omega
      rw [if_neg (by omega), behind, behind]

theorem slot_beyond {pieces : List Bytes} {place : Nat} (within : place < 8)
    (beyond : pieces.length ≤ place) : slot pieces place = [] := by
  unfold slot
  split
  case isTrue => exact List.getD_eq_default _ _ beyond
  case isFalse =>
      rw [List.drop_eq_nil_of_le (by omega)]
      rfl

def Fits (body : Bytes) : Prop := ∀ place < 8, digitsValue (slot (effective body) place) ≤ intMax

def storedParams (body : Bytes) : List Nat :=
  (List.range 8).map fun place => digitsValue (slot (effective body) place)

def storedCount (body : Bytes) : Nat := min (effective body).length 8

/-! ### When they are the parameters -/

/--
The parameter strings that are read as the grammar says: the numbers fit, nothing but
zeros is added to the eighth parameter, and the first parameter is not empty, unless
there are only zeros, enough of them for the count to be the same.
-/
def Sound (body : Bytes) : Prop :=
  (∀ piece ∈ (splitOn 59 body).take 8, digitsValue piece ≤ intMax) ∧
    (((splitOn 59 body).drop 8).flatten = [] ∨
      ∀ c ∈ ((splitOn 59 body).drop 7).flatten, c = 48) ∧
    (body.head? ≠ some 59 ∨
      8 < (splitOn 59 body).length ∧ ∀ piece ∈ splitOn 59 body, ∀ c ∈ piece, c = 48)

instance (body : Bytes) : Decidable (Sound body) :=
  inferInstanceAs (Decidable (_ ∧ _ ∧ _))

theorem map_take_eq_range (pieces : List Bytes) (count : Nat) :
    (pieces.take count).map digitsValue =
      (List.range (min count pieces.length)).map fun place => digitsValue (pieces.getD place []) := by
  apply List.ext_getElem
  · rw [List.length_map, List.length_take, List.length_map, List.length_range]
  · intro place left _right
    rw [List.length_map, List.length_take] at left
    have inside : place < pieces.length := by omega
    simp only [List.getElem_map, List.getElem_take, List.getElem_range]
    rw [List.getD_eq_getElem _ _ inside]

theorem counted_iff {body : Bytes} (nonempty : body ≠ []) :
    (storedParams body).take (storedCount body) = parametersOf body ↔
      min (effective body).length 8 = min (splitOn 59 body).length 8 ∧
        ∀ place < min (splitOn 59 body).length 8,
          digitsValue (slot (effective body) place) =
            digitsValue ((splitOn 59 body).getD place []) := by
  rw [parametersOf, if_neg nonempty, map_take_eq_range, storedParams, storedCount,
    List.map_take.symm, List.take_range, Nat.min_eq_left (Nat.min_le_right _ _)]
  change _ = (List.range (min 8 _)).map _ ↔ _
  rw [Nat.min_comm 8]
  constructor
  · intro same
    have lengths := congrArg List.length same
    rw [List.length_map, List.length_map, List.length_range, List.length_range] at lengths
    rw [lengths, List.map_inj_left] at same
    exact ⟨lengths, fun place within => same place (List.mem_range.mpr within)⟩
  · rintro ⟨lengths, same⟩
    rw [lengths, List.map_inj_left]
    exact fun place within => same place (List.mem_range.mp within)

theorem digits_of_splitOn {body : Bytes} (valid : IsParameterString body) :
    ∀ piece ∈ splitOn 59 body, ∀ c ∈ piece, isDigitByte c = true := by
  intro piece member c inside
  rcases valid c (mem_of_mem_splitOn member inside) with digit | separator
  · exact digit
  · exact absurd (separator ▸ inside) (not_mem_of_mem_splitOn member)

theorem digits_of_flatten {pieces : List Bytes}
    (all : ∀ piece ∈ pieces, ∀ c ∈ piece, isDigitByte c = true) :
    ∀ c ∈ pieces.flatten, isDigitByte c = true := by
  intro c member
  obtain ⟨piece, among, inside⟩ := List.mem_flatten.mp member
  exact all piece among c inside

theorem digitsValue_append_eq_iff {digits more : Bytes}
    (all : ∀ c ∈ digits ++ more, isDigitByte c = true) :
    digitsValue (digits ++ more) = digitsValue digits ↔ more = [] ∨ ∀ c ∈ digits ++ more, c = 48 := by
  have front : ∀ c ∈ digits, isDigitByte c = true := fun c member =>
    all c (List.mem_append_left _ member)
  have back : ∀ c ∈ more, isDigitByte c = true := fun c member =>
    all c (List.mem_append_right _ member)
  rw [List.forall_mem_append, ← digitsValue_eq_zero_iff front, ← digitsValue_eq_zero_iff back,
    digitsValue_append]
  constructor
  · intro same
    by_cases nothing : more = []
    · exact Or.inl nothing
    · right
      have large : 10 ≤ 10 ^ more.length := by
        calc 10 = 10 ^ 1 := rfl
          _ ≤ 10 ^ more.length :=
            Nat.pow_le_pow_right (by decide) (List.length_pos_iff.mpr nothing)
      have grows := Nat.mul_le_mul_left (digitsValue digits) large
      omega
  · rintro (nothing | ⟨zero, zeros⟩)
    · subst nothing
      simp [digitsValue]
    · rw [zero, zeros, Nat.zero_mul]

theorem getD_mem_take {pieces : List Bytes} {place : Nat} (inside : place < pieces.length)
    (small : place < 8) : pieces.getD place [] ∈ pieces.take 8 := by
  rw [List.getD_eq_getElem _ _ inside]
  exact List.mem_take_iff_getElem.mpr ⟨place, by omega, rfl⟩

theorem slot_seven (pieces : List Bytes) :
    slot pieces 7 = pieces.getD 7 [] ++ (pieces.drop 8).flatten := by
  unfold slot
  rw [if_neg (by decide)]
  by_cases inside : 7 < pieces.length
  · rw [List.drop_eq_getElem_cons inside, List.getD_eq_getElem _ _ inside]
    rfl
  · rw [List.drop_eq_nil_of_le (by omega), List.drop_eq_nil_of_le (by omega),
      List.getD_eq_default _ _ (by omega)]
    rfl

theorem stored_iff_of_first {body : Bytes} (valid : IsParameterString body) (nonempty : body ≠ [])
    (first : effective body = splitOn 59 body) :
    (Fits body ∧ (storedParams body).take (storedCount body) = parametersOf body) ↔
      (∀ piece ∈ (splitOn 59 body).take 8, digitsValue piece ≤ intMax) ∧
        (((splitOn 59 body).drop 8).flatten = [] ∨
          ∀ c ∈ ((splitOn 59 body).drop 7).flatten, c = 48) := by
  have digits := digits_of_splitOn valid
  rw [counted_iff nonempty, first, and_iff_right rfl]
  generalize splitOn 59 body = pieces at first digits ⊢
  have lastDigits : ∀ c ∈ pieces.getD 7 [] ++ (pieces.drop 8).flatten, isDigitByte c = true := by
    rw [← slot_seven]
    exact digits_of_flatten fun piece member => digits piece (List.mem_of_mem_drop member)
  have zeros : (pieces.drop 7).flatten = pieces.getD 7 [] ++ (pieces.drop 8).flatten :=
    slot_seven pieces
  have own : ∀ place < 7, slot pieces place = pieces.getD place [] := fun place small =>
    if_pos small
  rw [zeros, ← digitsValue_append_eq_iff lastDigits, ← slot_seven]
  unfold Fits
  rw [first]
  constructor
  · rintro ⟨fits, same⟩
    have last : digitsValue (slot pieces 7) = digitsValue (pieces.getD 7 []) := by
      by_cases inside : 7 < pieces.length
      · exact same 7 (by omega)
      · rw [slot_beyond (by decide) (by omega), List.getD_eq_default _ _ (by omega)]
    refine ⟨?_, last⟩
    intro piece member
    obtain ⟨place, within, here⟩ := List.mem_take_iff_getElem.mp member
    have bound := fits place (by omega)
    have value : digitsValue (slot pieces place) = digitsValue (pieces.getD place []) :=
      same place (by omega)
    rw [value, List.getD_eq_getElem _ _ (by omega), here] at bound
    exact bound
  · rintro ⟨bounds, last⟩
    have same : ∀ place < 8,
        digitsValue (slot pieces place) = digitsValue (pieces.getD place []) := by
      intro place within
      by_cases small : place < 7
      · rw [own place small]
      · rw [show place = 7 by omega]
        exact last
    refine ⟨?_, fun place within => same place (by omega)⟩
    intro place within
    rw [same place within]
    by_cases inside : place < pieces.length
    · exact bounds _ (getD_mem_take inside within)
    · rw [List.getD_eq_default _ _ (by omega)]
      exact Nat.zero_le _

theorem stored_iff_of_empty_first {rest : Bytes} (valid : IsParameterString (59 :: rest)) :
    (Fits (59 :: rest) ∧
        (storedParams (59 :: rest)).take (storedCount (59 :: rest)) = parametersOf (59 :: rest)) ↔
      8 < (splitOn 59 (59 :: rest)).length ∧
        ∀ piece ∈ splitOn 59 (59 :: rest), ∀ c ∈ piece, c = 48 := by
  have digits := digits_of_splitOn valid
  have split : splitOn 59 (59 :: rest) = [] :: splitOn 59 rest := by
    rw [splitOn, if_pos rfl]
  have shifted : effective (59 :: rest) = splitOn 59 rest := by
    rw [effective, split]
  rw [counted_iff (List.cons_ne_nil _ _), Fits, shifted, split]
  rw [split] at digits
  generalize splitOn 59 rest = pieces at digits ⊢
  have back : ∀ piece ∈ pieces, ∀ c ∈ piece, isDigitByte c = true := fun piece member =>
    digits piece (List.mem_cons_of_mem _ member)
  rw [List.length_cons, List.forall_mem_cons]
  constructor
  · rintro ⟨_, lengths, same⟩
    have many : 8 ≤ pieces.length := by omega
    refine ⟨by omega, by simp, ?_⟩
    -- Each number is the one before it, and the first of them is the empty one.
    have zero : ∀ place < 7, digitsValue (pieces.getD place []) = 0 := by
      intro place small
      induction place with
      | zero => exact same 0 (by omega)
      | succ place ih =>
          have value := same (place + 1) (by omega)
          rw [slot, if_pos small, List.getD_cons_succ] at value
          rw [value]
          exact ih (by omega)
    have last : digitsValue (pieces.drop 7).flatten = 0 := by
      have value := same 7 (by omega)
      rw [slot, if_neg (by decide), List.getD_cons_succ] at value
      rw [value]
      exact zero 6 (by decide)
    have lastZeros := (digitsValue_eq_zero_iff (digits_of_flatten fun piece member =>
      back piece (List.mem_of_mem_drop member))).mp last
    intro piece member
    obtain ⟨place, inside, here⟩ := List.mem_iff_getElem.mp member
    by_cases small : place < 7
    · have value := zero place small
      rw [List.getD_eq_getElem _ _ inside, here] at value
      exact (digitsValue_eq_zero_iff (back piece member)).mp value
    · intro c within
      apply lastZeros c
      apply List.mem_flatten.mpr
      refine ⟨piece, ?_, within⟩
      exact List.mem_drop_iff_getElem.mpr ⟨place - 7, by omega, by simp only [← here]; congr 1; omega⟩
  · rintro ⟨many, _, zeros⟩
    have zeroPiece : ∀ place, digitsValue (pieces.getD place []) = 0 := by
      intro place
      by_cases inside : place < pieces.length
      · have member : pieces.getD place [] ∈ pieces := by
          rw [List.getD_eq_getElem _ _ inside]
          exact List.getElem_mem inside
        exact (digitsValue_eq_zero_iff (back _ member)).mpr (zeros _ member)
      · rw [List.getD_eq_default _ _ (by omega)]
        rfl
    have zeroSlot : ∀ place, digitsValue (slot pieces place) = 0 := by
      intro place
      unfold slot
      split
      case isTrue => exact zeroPiece place
      case isFalse =>
          have among : ∀ piece ∈ pieces.drop 7, piece ∈ pieces := fun piece member =>
            List.mem_of_mem_drop member
          apply (digitsValue_eq_zero_iff (digits_of_flatten fun piece member =>
            back piece (among piece member))).mpr
          intro c member
          obtain ⟨piece, inside, within⟩ := List.mem_flatten.mp member
          exact zeros piece (among piece inside) c within
    refine ⟨fun place _ => ?_, by omega, fun place _ => ?_⟩
    · rw [zeroSlot]
      exact Nat.zero_le _
    · rw [zeroSlot]
      cases place with
      | zero => rfl
      | succ place => exact (zeroPiece place).symm

theorem stored_iff {body : Bytes} (valid : IsParameterString body) :
    (Fits body ∧ (storedParams body).take (storedCount body) = parametersOf body) ↔
      Sound body := by
  cases body with
  | nil =>
      apply iff_of_true
      · refine ⟨?_, rfl⟩
        intro place within
        rw [effective_nil, slot_beyond within (Nat.zero_le _)]
        exact Nat.zero_le _
      · decide
  | cons c rest =>
      by_cases leads : c = 59
      · subst leads
        rw [stored_iff_of_empty_first valid, Sound]
        constructor
        · rintro ⟨many, zeros⟩
          refine ⟨?_, Or.inr ?_, Or.inr ⟨many, zeros⟩⟩
          · intro piece member
            have among := List.mem_of_mem_take member
            rw [(digitsValue_eq_zero_iff (digits_of_splitOn valid piece among)).mpr
              (zeros piece among)]
            exact Nat.zero_le _
          · intro c member
            obtain ⟨piece, inside, within⟩ := List.mem_flatten.mp member
            exact zeros piece (List.mem_of_mem_drop inside) c within
        · rintro ⟨_, _, first | zeros⟩
          · exact absurd rfl first
          · exact zeros
      · have first : effective (c :: rest) = splitOn 59 (c :: rest) := by
          rw [effective, splitOn, if_neg leads]
          cases splitOn 59 rest <;> rfl
        rw [stored_iff_of_first valid (List.cons_ne_nil _ _) first, Sound]
        have head : (c :: rest).head? ≠ some 59 := fun same => leads (Option.some.inj same)
        simp only [ne_eq, head, not_false_eq_true, true_or, and_true]

end Pttbbs.Common.Vtkbd
