/-
Numbers with a fixed number of digits in a base, the most significant one first.
-/

import Mathlib.Data.List.Induction
import Mathlib.Data.Nat.Basic
import Mathlib.Tactic.Ring

namespace Pttbbs.Lib

def fixedDigits (base : Nat) : Nat → Nat → List Nat
  | 0, _ => []
  | count + 1, value => fixedDigits base count (value / base) ++ [value % base]

def digitsFrom (base start : Nat) (digits : List Nat) : Nat :=
  digits.foldl (fun total digit => base * total + digit) start

variable {base : Nat}

@[simp]
theorem fixedDigits_length (base count value : Nat) :
    (fixedDigits base count value).length = count := by
  induction count generalizing value with
  | zero => rfl
  | succ count ih => rw [fixedDigits, List.length_append, ih, List.length_singleton]

theorem fixedDigits_lt (positive : 0 < base) (count value : Nat) :
    ∀ digit ∈ fixedDigits base count value, digit < base := by
  induction count generalizing value with
  | zero => simp [fixedDigits]
  | succ count ih =>
      intro digit member
      rcases List.mem_append.1 member with before | last
      · exact ih (value / base) digit before
      · rw [List.mem_singleton.1 last]
        exact Nat.mod_lt _ positive

theorem digitsFrom_append (base start : Nat) (left right : List Nat) :
    digitsFrom base start (left ++ right) = digitsFrom base (digitsFrom base start left) right :=
  List.foldl_append

theorem digitsFrom_fixedDigits (base count value : Nat) :
    digitsFrom base 0 (fixedDigits base count value) = value % base ^ count := by
  induction count generalizing value with
  | zero =>
      rw [Nat.pow_zero, Nat.mod_one]
      rfl
  | succ count ih =>
      rw [fixedDigits, digitsFrom_append, ih]
      change base * (value / base % base ^ count) + value % base = _
      rw [Nat.pow_succ, Nat.mul_comm (base ^ count), Nat.mod_mul, Nat.add_comm]

theorem fixedDigits_digitsFrom {digits : List Nat} (below : ∀ digit ∈ digits, digit < base) :
    fixedDigits base digits.length (digitsFrom base 0 digits) = digits := by
  induction digits using List.reverseRecOn with
  | nil => rfl
  | append_singleton digits last ih =>
      have small := below last (by simp)
      have positive : 0 < base := Nat.lt_of_le_of_lt (Nat.zero_le _) small
      rw [digitsFrom_append, List.length_append, List.length_singleton, fixedDigits]
      change fixedDigits base digits.length ((base * digitsFrom base 0 digits + last) / base) ++
        [(base * digitsFrom base 0 digits + last) % base] = _
      rw [Nat.mul_add_div positive, Nat.div_eq_of_lt small, Nat.add_zero, Nat.mul_add_mod,
        Nat.mod_eq_of_lt small, ih (fun digit member => below digit (by simp [member]))]

end Pttbbs.Lib
