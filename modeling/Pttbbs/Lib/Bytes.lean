/-
Byte strings, their lexicographic order, and big-endian integers.

A byte string is a list of bytes.  The order is the one an ordered key-value
store compares keys with.  The range from a prefix to the same prefix followed
by the byte 0xff is described exactly, including the keys it leaves out.
-/

import Mathlib.Order.Basic
import Mathlib.Data.List.Lex
import Mathlib.Tactic.Cases
import Mathlib.Tactic.Ring
import Mathlib.Algebra.Order.Ring.Nat

namespace Pttbbs.Lib

abbrev Bytes := List UInt8

instance lawfulByte : LawfulBEq UInt8 := inferInstance

instance lawfulBytes : LawfulBEq Bytes := inferInstance

instance linearOrderUInt8 : LinearOrder UInt8 where
  le_refl := UInt8.le_refl
  le_trans := fun _ _ _ => UInt8.le_trans
  le_antisymm := fun _ _ => UInt8.le_antisymm
  le_total := UInt8.le_total
  lt_iff_le_not_ge := fun left right => by
    rw [UInt8.lt_iff_toNat_lt, UInt8.le_iff_toNat_le, UInt8.le_iff_toNat_le]
    omega
  toDecidableLE := inferInstance
  toDecidableEq := inferInstance
  toDecidableLT := inferInstance

instance linearOrderUInt32 : LinearOrder UInt32 where
  le_refl := UInt32.le_refl
  le_trans := fun _ _ _ => UInt32.le_trans
  le_antisymm := fun _ _ => UInt32.le_antisymm
  le_total := UInt32.le_total
  lt_iff_le_not_ge := fun left right => by
    rw [UInt32.lt_iff_toNat_lt, UInt32.le_iff_toNat_le, UInt32.le_iff_toNat_le]
    omega
  toDecidableLE := inferInstance
  toDecidableEq := inferInstance
  toDecidableLT := inferInstance

instance linearOrderUInt64 : LinearOrder UInt64 where
  le_refl := UInt64.le_refl
  le_trans := fun _ _ _ => UInt64.le_trans
  le_antisymm := fun _ _ => UInt64.le_antisymm
  le_total := UInt64.le_total
  lt_iff_le_not_ge := fun left right => by
    rw [UInt64.lt_iff_toNat_lt, UInt64.le_iff_toNat_le, UInt64.le_iff_toNat_le]
    omega
  toDecidableLE := inferInstance
  toDecidableEq := inferInstance
  toDecidableLT := inferInstance

instance linearOrderInt64 : LinearOrder Int64 where
  le_refl := Int64.le_refl
  le_trans := fun _ _ _ => Int64.le_trans
  le_antisymm := fun _ _ => Int64.le_antisymm
  le_total := Int64.le_total
  lt_iff_le_not_ge := fun left right => by
    rw [Int64.lt_iff_toInt_lt, Int64.le_iff_toInt_le, Int64.le_iff_toInt_le]
    omega
  toDecidableLE := inferInstance
  toDecidableEq := inferInstance
  toDecidableLT := inferInstance

theorem int64_lt_add_one {time : Int64} (notMax : time ≠ Int64.maxValue) : time < time + 1 := by
  have small : time.toInt ≠ 2 ^ 63 - 1 := by
    intro same
    apply notMax
    apply Int64.toInt_inj.mp
    rw [same]
    rfl
  have upper := time.toInt_lt
  have lower := time.le_toInt
  have added : (time + 1).toInt = time.toInt + 1 := by
    have unit : (1 : Int64).toInt = 1 := rfl
    rw [Int64.toInt_add, unit]
    exact Int.bmod_eq_of_le (by omega) (by omega)
  rw [Int64.lt_iff_toInt_lt, added]
  omega

theorem uint32_lt_add_one {value : UInt32} (room : value ≠ 0xffffffff) : value < value + 1 := by
  have bound := value.toNat_lt
  have small : value.toNat ≠ 0xffffffff := fun same => room (UInt32.toNat_inj.mp same)
  have unit : (1 : UInt32).toNat = 1 := rfl
  rw [UInt32.lt_iff_toNat_lt, UInt32.toNat_add, unit, Nat.mod_eq_of_lt (by omega)]
  omega

def utf8 (text : String) : Bytes := text.toUTF8.data.toList

@[simp] theorem utf8_inj {left right : String} : utf8 left = utf8 right ↔ left = right := by
  constructor
  · intro same
    have arrays : left.toUTF8.data = right.toUTF8.data := Array.toList_inj.mp same
    have blocks : left.toUTF8 = right.toUTF8 := ByteArray.ext arrays
    exact String.toByteArray_inj.mp blocks
  · intro same
    rw [same]

/-! ### Prefix ranges -/

theorem append_le_append_left (stem left right : Bytes) :
    stem ++ left ≤ stem ++ right ↔ left ≤ right := by
  induction stem with
  | nil => rfl
  | cons byte rest ih =>
      rw [List.cons_append, List.cons_append, ← not_lt, List.cons_lt_cons_iff]
      constructor
      · intro later
        apply ih.mp
        apply not_lt.mp
        intro before
        exact later (Or.inr ⟨rfl, before⟩)
      · rintro ordered (less | ⟨_same, before⟩)
        · exact lt_irrefl _ less
        · exact not_lt.mpr (ih.mpr ordered) before

theorem append_lt_append_left (stem left right : Bytes) :
    stem ++ left < stem ++ right ↔ left < right := by
  rw [← not_le, ← not_le, append_le_append_left]

theorem nil_le (key : Bytes) : ([] : Bytes) ≤ key := by
  cases key with
  | nil => exact le_refl _
  | cons byte rest => exact le_of_lt (List.nil_lt_cons byte rest)

/-- What the range from `stem` up to `stem` followed by 0xff holds: the stem
itself and its extensions whose next byte is below 0xff. -/
theorem prefix_range_iff (stem key : Bytes) :
    (stem ≤ key ∧ key < stem ++ [0xff]) ↔
      ∃ suffix, key = stem ++ suffix ∧ ∀ byte ∈ suffix.head?, byte < 0xff := by
  constructor
  · rintro ⟨above, below⟩
    induction stem generalizing key with
    | nil =>
        refine ⟨key, rfl, ?_⟩
        intro byte atHead
        cases key with
        | nil => cases atHead
        | cons first rest =>
            have headEq : first = byte := Option.some.inj atHead
            subst headEq
            rcases List.cons_lt_cons_iff.mp below with less | ⟨_same, impossible⟩
            · exact less
            · exact absurd impossible (List.not_lt_nil rest)
    | cons byte rest ih =>
        cases key with
        | nil => exact absurd (List.nil_lt_cons byte rest) (not_lt.mpr above)
        | cons first tail =>
            have notBelow : ¬ first < byte := by
              intro less
              exact not_lt.mpr above (List.cons_lt_cons_iff.mpr (Or.inl less))
            rcases List.cons_lt_cons_iff.mp below with less | ⟨same, tailBelow⟩
            · exact absurd less notBelow
            · subst same
              have tailAbove : rest ≤ tail := by
                apply not_lt.mp
                intro less
                exact not_lt.mpr above (List.cons_lt_cons_iff.mpr (Or.inr ⟨rfl, less⟩))
              obtain ⟨suffix, tailEq, small⟩ := ih tail tailAbove tailBelow
              exact ⟨suffix, by rw [tailEq]; rfl, small⟩
  · rintro ⟨suffix, keyEq, small⟩
    subst keyEq
    constructor
    · conv_lhs => rw [← List.append_nil stem]
      exact (append_le_append_left stem [] suffix).mpr (nil_le suffix)
    · rw [append_lt_append_left]
      cases suffix with
      | nil => exact List.nil_lt_cons _ _
      | cons byte rest =>
          exact List.cons_lt_cons_iff.mpr (Or.inl (small byte rfl))

/-! ### Big-endian integers -/

def bigEndian : Nat → Nat → Bytes
  | 0, _value => []
  | width + 1, value => UInt8.ofNat (value / 256 ^ width) :: bigEndian width value

def fromBigEndian (bytes : Bytes) : Nat :=
  bytes.foldl (fun total byte => total * 256 + byte.toNat) 0

@[simp] theorem bigEndian_length (width value : Nat) : (bigEndian width value).length = width := by
  induction width with
  | zero => rfl
  | succ width ih => simp [bigEndian, ih]

private theorem foldl_bigEndian (width value start : Nat) :
    (bigEndian width value).foldl (fun total byte => total * 256 + byte.toNat) start =
      start * 256 ^ width + value % 256 ^ width := by
  induction width generalizing start with
  | zero => simp [bigEndian, Nat.mod_one]
  | succ width ih =>
      rw [bigEndian, List.foldl_cons, ih]
      have digit : (UInt8.ofNat (value / 256 ^ width)).toNat = value / 256 ^ width % 256 := by
        simp
      rw [digit, Nat.pow_succ, Nat.mod_mul]
      ring

theorem fromBigEndian_bigEndian (width value : Nat) (bound : value < 256 ^ width) :
    fromBigEndian (bigEndian width value) = value := by
  unfold fromBigEndian
  rw [foldl_bigEndian, Nat.zero_mul, Nat.zero_add, Nat.mod_eq_of_lt bound]

theorem bigEndian_mod (width value : Nat) :
    bigEndian width (value % 256 ^ width) = bigEndian width value := by
  suffices general : ∀ wide, width ≤ wide →
      bigEndian width (value % 256 ^ wide) = bigEndian width value from general width le_rfl
  induction width with
  | zero => intro wide _below; rfl
  | succ width ih =>
      intro wide below
      rw [bigEndian, bigEndian, ih wide (by omega)]
      congr 1
      apply UInt8.toNat_inj.mp
      obtain ⟨extra, wideEq⟩ : ∃ extra, wide = width + (extra + 1) :=
        ⟨wide - (width + 1), by omega⟩
      simp only [UInt8.toNat_ofNat']
      rw [wideEq, Nat.pow_add, Nat.mod_mul_right_div_self, Nat.pow_succ,
        Nat.mod_mul_left_mod]

theorem bigEndian_lt_iff (width left right : Nat)
    (leftBound : left < 256 ^ width) (rightBound : right < 256 ^ width) :
    bigEndian width left < bigEndian width right ↔ left < right := by
  induction width generalizing left right with
  | zero =>
      have leftZero : left = 0 := by simpa using leftBound
      have rightZero : right = 0 := by simpa using rightBound
      rw [leftZero, rightZero]
      exact ⟨fun less => absurd less (lt_irrefl _), fun less => absurd less (lt_irrefl _)⟩
  | succ width ih =>
      have positive : 0 < 256 ^ width := Nat.pow_pos (by omega)
      have digitBound : ∀ {value}, value < 256 ^ (width + 1) → value / 256 ^ width < 256 := by
        intro value bound
        rw [Nat.pow_succ] at bound
        exact Nat.div_lt_of_lt_mul bound
      have digit : ∀ {value}, value < 256 ^ (width + 1) →
          (UInt8.ofNat (value / 256 ^ width)).toNat = value / 256 ^ width := by
        intro value bound
        rw [UInt8.toNat_ofNat']
        exact Nat.mod_eq_of_lt (digitBound bound)
      rw [bigEndian, bigEndian, List.cons_lt_cons_iff, UInt8.lt_iff_toNat_lt,
        ← UInt8.toNat_inj, digit leftBound, digit rightBound,
        ← bigEndian_mod width left, ← bigEndian_mod width right,
        ih _ _ (Nat.mod_lt _ positive) (Nat.mod_lt _ positive)]
      have leftSplit := Nat.div_add_mod left (256 ^ width)
      have rightSplit := Nat.div_add_mod right (256 ^ width)
      have leftRest := Nat.mod_lt left positive
      have rightRest := Nat.mod_lt right positive
      constructor
      · rintro (less | ⟨same, less⟩)
        · exact Nat.lt_of_div_lt_div less
        · rw [same] at leftSplit
          omega
      · intro less
        rcases Nat.lt_or_eq_of_le (Nat.div_le_div_right (c := 256 ^ width) (Nat.le_of_lt less))
          with digitLess | digitSame
        · exact Or.inl digitLess
        · rw [digitSame] at leftSplit
          exact Or.inr ⟨digitSame, by omega⟩

private theorem foldl_fromBigEndian (bytes : Bytes) (start : Nat) :
    bytes.foldl (fun total byte => total * 256 + byte.toNat) start =
      start * 256 ^ bytes.length + fromBigEndian bytes := by
  induction bytes generalizing start with
  | nil => simp [fromBigEndian]
  | cons byte rest ih =>
      unfold fromBigEndian
      rw [List.foldl_cons, List.foldl_cons, ih, ih, List.length_cons, Nat.pow_succ]
      ring

theorem fromBigEndian_cons (byte : UInt8) (rest : Bytes) :
    fromBigEndian (byte :: rest) = byte.toNat * 256 ^ rest.length + fromBigEndian rest := by
  conv_lhs => unfold fromBigEndian
  rw [List.foldl_cons, foldl_fromBigEndian, Nat.zero_mul, Nat.zero_add]

theorem fromBigEndian_lt (bytes : Bytes) : fromBigEndian bytes < 256 ^ bytes.length := by
  induction bytes with
  | nil => simp [fromBigEndian]
  | cons byte rest ih =>
      have digit : byte.toNat + 1 ≤ 256 := byte.toNat_lt
      calc fromBigEndian (byte :: rest)
          = byte.toNat * 256 ^ rest.length + fromBigEndian rest := fromBigEndian_cons byte rest
        _ < byte.toNat * 256 ^ rest.length + 256 ^ rest.length := Nat.add_lt_add_left ih _
        _ = (byte.toNat + 1) * 256 ^ rest.length := by ring
        _ ≤ 256 * 256 ^ rest.length := Nat.mul_le_mul_right _ digit
        _ = 256 ^ (byte :: rest).length := by rw [List.length_cons, Nat.pow_succ, Nat.mul_comm]

theorem bigEndian_fromBigEndian (bytes : Bytes) :
    bigEndian bytes.length (fromBigEndian bytes) = bytes := by
  induction bytes with
  | nil => rfl
  | cons byte rest ih =>
      have below := fromBigEndian_lt rest
      have positive : 0 < 256 ^ rest.length := Nat.pow_pos (by decide)
      have top : (byte.toNat * 256 ^ rest.length + fromBigEndian rest) / 256 ^ rest.length =
          byte.toNat := by
        rw [Nat.add_comm, Nat.add_mul_div_right _ _ positive, Nat.div_eq_of_lt below,
          Nat.zero_add]
      have low : (byte.toNat * 256 ^ rest.length + fromBigEndian rest) % 256 ^ rest.length =
          fromBigEndian rest := by
        rw [Nat.add_comm, Nat.add_mul_mod_self_right, Nat.mod_eq_of_lt below]
      rw [fromBigEndian_cons, List.length_cons, bigEndian, top, ← bigEndian_mod, low, ih,
        UInt8.ofNat_toNat]

/-- `binary.BigEndian.PutUint64` and `PutUint32`. -/
def putUint64 (value : UInt64) : Bytes := bigEndian 8 value.toNat

def putUint32 (value : UInt32) : Bytes := bigEndian 4 value.toNat

def uint64 (bytes : Bytes) : UInt64 := UInt64.ofNat (fromBigEndian bytes)

def uint32 (bytes : Bytes) : UInt32 := UInt32.ofNat (fromBigEndian bytes)

@[simp] theorem putUint64_length (value : UInt64) : (putUint64 value).length = 8 :=
  bigEndian_length 8 _

@[simp] theorem putUint32_length (value : UInt32) : (putUint32 value).length = 4 :=
  bigEndian_length 4 _

@[simp] theorem uint64_putUint64 (value : UInt64) : uint64 (putUint64 value) = value := by
  unfold uint64 putUint64
  rw [fromBigEndian_bigEndian 8 value.toNat value.toNat_lt]
  exact UInt64.ofNat_toNat

@[simp] theorem uint32_putUint32 (value : UInt32) : uint32 (putUint32 value) = value := by
  unfold uint32 putUint32
  rw [fromBigEndian_bigEndian 4 value.toNat value.toNat_lt]
  exact UInt32.ofNat_toNat

@[simp] theorem putUint64_inj {left right : UInt64} :
    putUint64 left = putUint64 right ↔ left = right := by
  constructor
  · intro same
    rw [← uint64_putUint64 left, same, uint64_putUint64]
  · intro same
    rw [same]

@[simp] theorem putUint32_inj {left right : UInt32} :
    putUint32 left = putUint32 right ↔ left = right := by
  constructor
  · intro same
    rw [← uint32_putUint32 left, same, uint32_putUint32]
  · intro same
    rw [same]

theorem putUint64_uint64 {bytes : Bytes} (wide : bytes.length = 8) :
    putUint64 (uint64 bytes) = bytes := by
  have below := fromBigEndian_lt bytes
  have back := bigEndian_fromBigEndian bytes
  rw [wide] at below back
  unfold putUint64 uint64
  rw [UInt64.toNat_ofNat', Nat.mod_eq_of_lt (by omega), back]

theorem putUint32_uint32 {bytes : Bytes} (wide : bytes.length = 4) :
    putUint32 (uint32 bytes) = bytes := by
  have below := fromBigEndian_lt bytes
  have back := bigEndian_fromBigEndian bytes
  rw [wide] at below back
  unfold putUint32 uint32
  rw [UInt32.toNat_ofNat', Nat.mod_eq_of_lt (by omega), back]

theorem take_le_take {left right : Bytes} (ordered : left ≤ right) (count : Nat) :
    left.take count ≤ right.take count := by
  induction count generalizing left right with
  | zero => exact le_refl _
  | succ count ih =>
      cases left with
      | nil => exact nil_le _
      | cons first rest =>
          cases right with
          | nil => exact absurd (List.nil_lt_cons first rest) (not_lt.mpr ordered)
          | cons other others =>
              rw [List.take_succ_cons, List.take_succ_cons]
              apply not_lt.mp
              intro less
              rcases List.cons_lt_cons_iff.mp less with below | ⟨same, below⟩
              · exact not_lt.mpr ordered (List.cons_lt_cons_iff.mpr (Or.inl below))
              · subst same
                have tails : rest ≤ others := by
                  apply not_lt.mp
                  intro tail
                  exact not_lt.mpr ordered (List.cons_lt_cons_iff.mpr (Or.inr ⟨rfl, tail⟩))
                exact not_lt.mpr (ih tails) below

theorem uint64_le_uint64 {left right : Bytes} (leftWide : left.length = 8)
    (rightWide : right.length = 8) (ordered : left ≤ right) : uint64 left ≤ uint64 right := by
  by_contra less
  rw [not_le, UInt64.lt_iff_toNat_lt] at less
  have back := (bigEndian_lt_iff 8 _ _ (uint64 right).toNat_lt (uint64 left).toNat_lt).mpr less
  change putUint64 _ < putUint64 _ at back
  rw [putUint64_uint64 leftWide, putUint64_uint64 rightWide] at back
  exact absurd back (not_lt.mpr ordered)

theorem putUint32_lt_iff (left right : UInt32) :
    putUint32 left < putUint32 right ↔ left.toNat < right.toNat :=
  bigEndian_lt_iff 4 _ _ left.toNat_lt right.toNat_lt

/-- A 32-bit number written below a prefix falls outside the prefix range
exactly when its top byte is 0xff. -/
theorem putUint32_head_lt_iff (value : UInt32) :
    (∀ byte ∈ (putUint32 value).head?, byte < 0xff) ↔ value.toNat < 0xff000000 := by
  have bound := value.toNat_lt
  have topByte : (UInt8.ofNat (value.toNat / 256 ^ 3)).toNat = value.toNat / 16777216 := by
    rw [UInt8.toNat_ofNat']
    omega
  have atHead : (putUint32 value).head? = some (UInt8.ofNat (value.toNat / 256 ^ 3)) := rfl
  rw [atHead]
  constructor
  · intro small
    have less := UInt8.lt_iff_toNat_lt.mp (small _ rfl)
    rw [topByte] at less
    change value.toNat / 16777216 < 255 at less
    omega
  · intro small byte same
    have byteEq : UInt8.ofNat (value.toNat / 256 ^ 3) = byte := Option.some.inj same
    subst byteEq
    rw [UInt8.lt_iff_toNat_lt, topByte]
    change value.toNat / 16777216 < 255
    omega

end Pttbbs.Lib
