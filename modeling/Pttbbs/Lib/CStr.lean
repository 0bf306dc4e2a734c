/-
C strings and the comparisons of the C library.

A C string is held as the bytes before its terminator, so none of them is NUL.  `strcmp` and
`strcasecmp` return the difference of the first two bytes that differ; only its sign matters, and
it is the order of the strings, of the lowered strings for `strcasecmp`.
-/

import Pttbbs.Lib.Bytes

namespace Pttbbs.Lib

structure CStr where
  bytes : Bytes
  plain : (0 : UInt8) ∉ bytes
deriving DecidableEq

namespace CStr

theorem nil_ok : (0 : UInt8) ∉ ([] : Bytes) := List.not_mem_nil

instance : Inhabited CStr := ⟨⟨[], nil_ok⟩⟩

def lower (byte : UInt8) : UInt8 := if 65 ≤ byte ∧ byte ≤ 90 then byte + 32 else byte

theorem lower_lower (byte : UInt8) : lower (lower byte) = lower byte := by
  unfold lower
  by_cases upper : 65 ≤ byte ∧ byte ≤ 90
  · have above : ¬ (byte + 32 : UInt8) ≤ 90 := by
      rw [UInt8.le_iff_toNat_le, UInt8.le_iff_toNat_le] at upper
      have low : 65 ≤ byte.toNat := upper.1
      have high : byte.toNat ≤ 90 := upper.2
      have moved : (byte + 32).toNat = (byte.toNat + 32) % 256 := UInt8.toNat_add byte 32
      rw [UInt8.le_iff_toNat_le]
      change ¬ (byte + 32).toNat ≤ 90
      omega
    rw [if_pos upper, if_neg fun both => above both.2]
  · rw [if_neg upper, if_neg upper]

theorem lower_eq_zero {byte : UInt8} : lower byte = 0 ↔ byte = 0 := by
  unfold lower
  have below := byte.toNat_lt
  split
  · rename_i upper
    rw [UInt8.le_iff_toNat_le, UInt8.le_iff_toNat_le] at upper
    have low : 65 ≤ byte.toNat := upper.1
    have high : byte.toNat ≤ 90 := upper.2
    rw [← UInt8.toNat_inj, ← UInt8.toNat_inj, UInt8.toNat_add]
    change (byte.toNat + 32) % 256 = 0 ↔ byte.toNat = 0
    omega
  · rfl

def fold (text : CStr) : Bytes := text.bytes.map lower

theorem zero_not_mem_fold (text : CStr) : (0 : UInt8) ∉ text.fold := by
  intro member
  obtain ⟨byte, inside, zero⟩ := List.mem_map.mp member
  rw [lower_eq_zero] at zero
  exact text.plain (zero ▸ inside)

/-- The difference of the first bytes that differ; past its end a string has its NUL. -/
def difference : Bytes → Bytes → Int
  | [], [] => 0
  | [], byte :: _ => -byte.toNat
  | byte :: _, [] => byte.toNat
  | left :: lefts, right :: rights =>
      if left = right then difference lefts rights else left.toNat - right.toNat

def strcmp (left right : CStr) : Int := difference left.bytes right.bytes

def strcasecmp (left right : CStr) : Int := difference left.fold right.fold

theorem difference_sign {left right : Bytes} (leftPlain : (0 : UInt8) ∉ left)
    (rightPlain : (0 : UInt8) ∉ right) :
    (difference left right < 0 ↔ left < right) ∧ (difference left right = 0 ↔ left = right) := by
  have positive : ∀ byte : UInt8, byte ≠ 0 → 0 < byte.toNat := by
    intro byte notZero
    apply Nat.pos_of_ne_zero
    intro zero
    exact notZero (UInt8.toNat_inj.mp zero)
  induction left generalizing right with
  | nil =>
      cases right with
      | nil => exact ⟨iff_of_false (by decide) (lt_irrefl _), iff_of_true rfl rfl⟩
      | cons byte rest =>
          have more := positive byte fun zero => rightPlain (by rw [zero]; exact List.mem_cons_self)
          rw [difference]
          exact ⟨iff_of_true (by omega) (List.nil_lt_cons _ _),
            iff_of_false (by omega) (List.cons_ne_nil _ _).symm⟩
  | cons byte rest ih =>
      have more := positive byte fun zero => leftPlain (by rw [zero]; exact List.mem_cons_self)
      cases right with
      | nil =>
          rw [difference]
          exact ⟨iff_of_false (by omega) (List.not_lt_nil _),
            iff_of_false (by omega) (List.cons_ne_nil _ _)⟩
      | cons other others =>
          have next := ih (fun inside => leftPlain (List.mem_cons_of_mem _ inside))
            (fun inside => rightPlain (List.mem_cons_of_mem _ inside))
          rw [difference, List.cons_lt_cons_iff, List.cons.injEq]
          by_cases same : byte = other
          · rw [if_pos same, next.1, next.2]
            exact ⟨⟨fun less => .inr ⟨same, less⟩,
              fun less => (less.resolve_left (same ▸ lt_irrefl byte)).2⟩,
              ⟨fun equal => ⟨same, equal⟩, And.right⟩⟩
          · have apart : byte.toNat ≠ other.toNat := fun equal => same (UInt8.toNat_inj.mp equal)
            rw [if_neg same, UInt8.lt_iff_toNat_lt]
            constructor
            · constructor
              · intro less
                exact .inl (by omega)
              · rintro (less | equal)
                · omega
                · exact absurd equal.1 same
            · exact iff_of_false (by omega) (fun equal => same equal.1)

theorem strcasecmp_eq_zero {left right : CStr} :
    left.strcasecmp right = 0 ↔ left.fold = right.fold :=
  (difference_sign left.zero_not_mem_fold right.zero_not_mem_fold).2

theorem strcasecmp_neg {left right : CStr} :
    left.strcasecmp right < 0 ↔ left.fold < right.fold :=
  (difference_sign left.zero_not_mem_fold right.zero_not_mem_fold).1

theorem strcasecmp_pos {left right : CStr} :
    0 < left.strcasecmp right ↔ right.fold < left.fold := by
  rw [← not_le, ← not_le, not_iff_not, le_iff_lt_or_eq, le_iff_lt_or_eq, strcasecmp_neg,
    strcasecmp_eq_zero]

theorem strcmp_eq_zero {left right : CStr} : left.strcmp right = 0 ↔ left = right := by
  rw [strcmp, (difference_sign left.plain right.plain).2]
  constructor
  · intro same
    cases left
    cases right
    cases same
    rfl
  · rintro rfl
    rfl

theorem strcmp_neg {left right : CStr} : left.strcmp right < 0 ↔ left.bytes < right.bytes :=
  (difference_sign left.plain right.plain).1

end CStr

end Pttbbs.Lib
