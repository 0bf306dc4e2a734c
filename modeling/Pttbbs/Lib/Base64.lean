/-
Base64 with padding.

Three bytes stand in four digits of six bits.  One or two bytes at the end stand in two or
three digits, and padding makes them four.
-/

import Pttbbs.Lib.Bytes

namespace Pttbbs.Lib.Base64

def pad : UInt8 := 61

def digit (value : Nat) : UInt8 :=
  if value < 26 then .ofNat (65 + value)
  else if value < 52 then .ofNat (71 + value)
  else if value < 62 then .ofNat (value - 4)
  else if value = 62 then 43
  else 47

/-- The value of a digit; padding and other bytes are none. -/
def digit? (byte : UInt8) : Option Nat :=
  if 65 ≤ byte ∧ byte ≤ 90 then some (byte.toNat - 65)
  else if 97 ≤ byte ∧ byte ≤ 122 then some (byte.toNat - 71)
  else if 48 ≤ byte ∧ byte ≤ 57 then some (byte.toNat + 4)
  else if byte = 43 then some 62
  else if byte = 47 then some 63
  else none

def digits (first second third : UInt8) : Bytes :=
  let word := (first.toNat * 256 + second.toNat) * 256 + third.toNat
  [digit (word / 262144), digit (word / 4096 % 64), digit (word / 64 % 64), digit (word % 64)]

def encode : Bytes → Bytes
  | [] => []
  | [first] => (digits first 0 0).take 2 ++ [pad, pad]
  | [first, second] => (digits first second 0).take 3 ++ [pad]
  | first :: second :: third :: rest => digits first second third ++ encode rest

def decode : Bytes → Bytes
  | first :: second :: third :: fourth :: rest =>
      let value (byte : UInt8) := (digit? byte).getD 0
      let word := ((value first * 64 + value second) * 64 + value third) * 64 + value fourth
      List.take (3 - [third, fourth].count pad)
        [.ofNat (word / 65536), .ofNat (word / 256), .ofNat word] ++ decode rest
  | _ => []

theorem digit?_digit {value : Nat} (small : value < 64) : digit? (digit value) = some value := by
  have all : ∀ value : Fin 64, digit? (digit value) = some value.val := by decide
  exact all ⟨value, small⟩

theorem digits_spec (first second third : UInt8) :
    ∃ a b c d : Nat, digits first second third = [digit a, digit b, digit c, digit d] ∧
      a < 64 ∧ b < 64 ∧ c < 64 ∧ d < 64 ∧ ((a * 64 + b) * 64 + c) * 64 + d =
        (first.toNat * 256 + second.toNat) * 256 + third.toNat := by
  have high := first.toNat_lt
  have middle := second.toNat_lt
  have low := third.toNat_lt
  refine ⟨_, _, _, _, rfl, ?_⟩
  omega

theorem ofNat_eq {value : Nat} {byte : UInt8} (same : value % 256 = byte.toNat) :
    UInt8.ofNat value = byte := by
  rw [← UInt8.toNat_inj, UInt8.toNat_ofNat', same]

theorem digit_ne_pad {value : Nat} (small : value < 64) : digit value ≠ pad := by
  intro same
  have read := digit?_digit small
  rw [same] at read
  cases read

theorem decode_encode (text : Bytes) : decode (encode text) = text := by
  have padding : digit? pad = none := rfl
  induction text using encode.induct with
  | case1 => rfl
  | case2 first =>
      obtain ⟨a, b, c, d, same, ha, hb, hc, hd, word⟩ := digits_spec first 0 0
      have range := first.toNat_lt
      rw [show (0 : UInt8).toNat = 0 from rfl] at word
      simp [-UInt8.ofNat_add, -UInt8.ofNat_mul, encode, same, decode,
        digit?_digit ha, digit?_digit hb, padding]
      exact ofNat_eq (by omega)
  | case3 first second =>
      obtain ⟨a, b, c, d, same, ha, hb, hc, hd, word⟩ := digits_spec first second 0
      have range := second.toNat_lt
      have high := first.toNat_lt
      rw [show (0 : UInt8).toNat = 0 from rfl] at word
      simp [-UInt8.ofNat_add, -UInt8.ofNat_mul, encode, same, decode,
        digit?_digit ha, digit?_digit hb, digit?_digit hc, padding, digit_ne_pad hc]
      constructor <;> exact ofNat_eq (by omega)
  | case4 first second third rest ih =>
      obtain ⟨a, b, c, d, same, ha, hb, hc, hd, word⟩ := digits_spec first second third
      have high := first.toNat_lt
      have middle := second.toNat_lt
      have low := third.toNat_lt
      simp [-UInt8.ofNat_add, -UInt8.ofNat_mul, encode, same, decode,
        digit?_digit ha, digit?_digit hb, digit?_digit hc, digit?_digit hd, digit_ne_pad hc,
        digit_ne_pad hd, ih]
      refine ⟨?_, ?_, ?_⟩ <;> exact ofNat_eq (by omega)

theorem mem_encode {text : Bytes} {byte : UInt8} (member : byte ∈ encode text) :
    (digit? byte).isSome = true ∨ byte = pad := by
  have each {first second third : UInt8} (inside : byte ∈ digits first second third) :
      (digit? byte).isSome = true := by
    obtain ⟨a, b, c, d, same, ha, hb, hc, hd, _⟩ := digits_spec first second third
    rw [same] at inside
    simp only [List.mem_cons, List.not_mem_nil, or_false] at inside
    rcases inside with rfl | rfl | rfl | rfl <;> rw [digit?_digit (by assumption)] <;> rfl
  induction text using encode.induct with
  | case1 => cases member
  | case4 first second third rest ih =>
      rcases List.mem_append.mp member with inside | later
      · exact .inl (each inside)
      · exact ih later
  | _ =>
      rcases List.mem_append.mp member with inside | padding
      · exact .inl (each (List.mem_of_mem_take inside))
      · exact .inr (by simpa using padding)

end Pttbbs.Lib.Base64
