/-
Addresses of the Internet protocol, version 4.

An address is a number of 32 bits and is written as four decimal octets between dots.  `inet_pton`
takes exactly these texts, with no zero in front of an octet.
-/

import Mathlib.Data.Nat.Bitwise
import Pttbbs.Lib.Text

namespace Pttbbs.Lib.Ipv4

def dot : UInt8 := 46

structure Quad where
  first : Fin 256
  second : Fin 256
  third : Fin 256
  fourth : Fin 256
deriving DecidableEq

namespace Quad

def octets (quad : Quad) : List Bytes :=
  [formatNat quad.first, formatNat quad.second, formatNat quad.third, formatNat quad.fourth]

def text (quad : Quad) : Bytes := joinWith [dot] quad.octets

def number (quad : Quad) : Nat :=
  quad.first * 2 ^ 24 + quad.second * 2 ^ 16 + quad.third * 2 ^ 8 + quad.fourth

/-- The address, in the byte order of the host. -/
def value (quad : Quad) : UInt32 := UInt32.ofNat quad.number

theorem number_lt (quad : Quad) : quad.number < 2 ^ 32 := by
  have first := quad.first.isLt
  have second := quad.second.isLt
  have third := quad.third.isLt
  have fourth := quad.fourth.isLt
  unfold number
  omega

theorem toNat_value (quad : Quad) : quad.value.toNat = quad.number :=
  UInt32.toNat_ofNat_of_lt' quad.number_lt

end Quad

theorem Quad.octets_of_value (quad : Quad) :
    quad.value.toNat / 2 ^ 24 = quad.first ∧ quad.value.toNat / 2 ^ 16 % 256 = quad.second ∧
      quad.value.toNat / 2 ^ 8 % 256 = quad.third ∧ quad.value.toNat % 256 = quad.fourth := by
  have first := quad.first.isLt
  have second := quad.second.isLt
  have third := quad.third.isLt
  have fourth := quad.fourth.isLt
  rw [quad.toNat_value, Quad.number]
  omega

theorem joinWith_splitOn (separator : UInt8) (text : Bytes) :
    joinWith [separator] (splitOn separator text) = text := by
  induction text with
  | nil => rfl
  | cons byte rest ih =>
      obtain ⟨first, others, parts⟩ :=
        List.exists_cons_of_ne_nil (splitOn_ne_nil separator rest)
      rw [parts] at ih
      rw [splitOn, parts]
      split
      · rename_i here
        rw [joinWith, ih, List.nil_append, List.singleton_append, here]
      · cases others with
        | nil => exact congrArg (byte :: ·) ih
        | cons next others => exact congrArg (byte :: ·) ih

/-! ### Octets -/

def spells (text : Bytes) (octet : Fin 256) : Bool := formatNat octet = text

def octet? (text : Bytes) : Option (Fin 256) := (List.finRange 256).find? (spells text)

theorem formatNat_octet_inj {left right : Fin 256} (same : formatNat left = formatNat right) :
    left = right := by
  have value := congrArg digitsValue same
  rw [digitsValue_formatNat, digitsValue_formatNat] at value
  exact Fin.ext value

theorem octet?_eq_some {text : Bytes} {octet : Fin 256} :
    octet? text = some octet ↔ text = formatNat octet := by
  constructor
  · intro found
    have written : spells text octet = true := List.find?_some found
    exact (of_decide_eq_true written).symm
  · rintro rfl
    have here : spells (formatNat octet) octet = true := decide_eq_true rfl
    have some' := List.find?_isSome.mpr ⟨octet, List.mem_finRange octet, here⟩
    obtain ⟨other, found⟩ := Option.isSome_iff_exists.mp some'
    have written : spells (formatNat octet) other = true := List.find?_some found
    rw [octet?, found, formatNat_octet_inj (of_decide_eq_true written)]

theorem formatNat_length_le (octet : Fin 256) : (formatNat octet).length ≤ 3 := by
  have all : ∀ octet : Fin 256, (formatNat octet).length ≤ 3 := by decide +kernel
  exact all octet

theorem dot_not_mem_formatNat (value : Nat) : dot ∉ formatNat value := by
  intro member
  exact absurd (formatNat_digits value _ member) (by decide)

/-! ### Quads -/

/-- `inet_pton` of `AF_INET`, with the address in the byte order of the host. -/
def inetPton (text : Bytes) : Option UInt32 :=
  match splitOn dot text with
  | [a, b, c, d] => do
      let first ← octet? a
      let second ← octet? b
      let third ← octet? c
      let fourth ← octet? d
      some (Quad.value ⟨first, second, third, fourth⟩)
  | _ => none

theorem splitOn_text (quad : Quad) : splitOn dot quad.text = quad.octets := by
  refine splitOn_joinWith (List.cons_ne_nil _ _) fun octet member => ?_
  simp only [Quad.octets, List.mem_cons, List.not_mem_nil, or_false] at member
  rcases member with rfl | rfl | rfl | rfl <;> exact dot_not_mem_formatNat _

theorem inetPton_eq_some {text : Bytes} {address : UInt32} :
    inetPton text = some address ↔ ∃ quad : Quad, text = quad.text ∧ address = quad.value := by
  constructor
  · intro read
    unfold inetPton at read
    split at read
    · rename_i a b c d parts
      simp only [Option.bind_eq_bind, Option.bind_eq_some_iff, octet?_eq_some, Option.some.injEq]
        at read
      obtain ⟨first, rfl, second, rfl, third, rfl, fourth, rfl, same⟩ := read
      refine ⟨⟨first, second, third, fourth⟩, ?_, same.symm⟩
      rw [Quad.text, Quad.octets, ← parts, joinWith_splitOn]
    · cases read
  · rintro ⟨quad, rfl, rfl⟩
    rw [inetPton, splitOn_text]
    simp only [Quad.octets, octet?_eq_some.mpr rfl, Option.bind_eq_bind, Option.bind_some]

theorem inetPton_text (quad : Quad) : inetPton quad.text = some quad.value :=
  inetPton_eq_some.mpr ⟨quad, rfl, rfl⟩

theorem Quad.text_eq (quad : Quad) :
    quad.text = formatNat quad.first ++ dot :: (formatNat quad.second ++
      dot :: (formatNat quad.third ++ dot :: formatNat quad.fourth)) := by
  simp only [Quad.text, Quad.octets, joinWith, List.append_assoc, List.singleton_append]

theorem Quad.text_length_le (quad : Quad) : quad.text.length ≤ 15 := by
  have first := formatNat_length_le quad.first
  have second := formatNat_length_le quad.second
  have third := formatNat_length_le quad.third
  have fourth := formatNat_length_le quad.fourth
  rw [quad.text_eq]
  simp only [List.length_append, List.length_cons]
  omega

theorem Quad.dot_mem_text (quad : Quad) : dot ∈ quad.text := by
  rw [quad.text_eq]
  exact List.mem_append_right _ List.mem_cons_self

theorem Quad.of_mem_text {quad : Quad} {byte : UInt8} (member : byte ∈ quad.text) :
    byte = dot ∨ isDigitByte byte = true := by
  rcases mem_joinWith member with separator | ⟨octet, inside, here⟩
  · exact Or.inl (List.mem_singleton.mp separator)
  · simp only [Quad.octets, List.mem_cons, List.not_mem_nil, or_false] at inside
    rcases inside with rfl | rfl | rfl | rfl <;> exact Or.inr (formatNat_digits _ byte here)

/-! ### Subnets -/

def mask (length : Nat) : UInt32 :=
  if length = 0 then 0
  else if length = 32 then 0xFFFFFFFF
  else 0xFFFFFFFF <<< UInt32.ofNat (32 - length)

theorem mask_toNat {length : Nat} (bound : length ≤ 32) :
    (mask length).toNat = (2 ^ length - 1) <<< (32 - length) := by
  have all : ∀ length : Fin 33,
      (mask length).toNat = (2 ^ length.val - 1) <<< (32 - length.val) := by
    decide +kernel
  exact all ⟨length, Nat.lt_succ_of_le bound⟩

theorem and_high {x length : Nat} (fits : x < 2 ^ 32) (bound : length ≤ 32) :
    x &&& (2 ^ length - 1) <<< (32 - length) = (x >>> (32 - length)) <<< (32 - length) := by
  refine Nat.eq_of_testBit_eq fun i => ?_
  rw [Nat.testBit_and, Nat.testBit_shiftLeft, Nat.testBit_shiftLeft, Nat.testBit_shiftRight,
    Nat.testBit_two_pow_sub_one]
  by_cases high : 32 - length ≤ i
  · rw [Nat.add_sub_cancel' high]
    by_cases inside : i < 32
    · simp only [high, decide_true, Bool.true_and, show i - (32 - length) < length by omega,
        Bool.and_true]
    · have above := Nat.testBit_lt_two_pow
        (Nat.lt_of_lt_of_le fits (Nat.pow_le_pow_right (by decide) (not_lt.mp inside)))
      rw [above, Bool.false_and, Bool.and_false]
  · simp only [high, decide_false, Bool.false_and, Bool.and_false]

theorem subnet_iff (ip address : UInt32) {length : Nat} (bound : length ≤ 32) :
    ip &&& mask length ≤ address ∧ address ≤ (ip &&& mask length) ||| ~~~mask length ↔
      address.toNat / 2 ^ (32 - length) = ip.toNat / 2 ^ (32 - length) := by
  have positive : 0 < 2 ^ (32 - length) := Nat.two_pow_pos _
  have split : 2 ^ length * 2 ^ (32 - length) = 2 ^ 32 := by
    rw [← Nat.pow_add, Nat.add_sub_cancel' bound]
  have low : (ip &&& mask length).toNat =
      (ip.toNat / 2 ^ (32 - length)) <<< (32 - length) := by
    rw [UInt32.toNat_and, mask_toNat bound, and_high ip.toNat_lt bound,
      Nat.shiftRight_eq_div_pow]
  have rest : (~~~mask length).toNat = 2 ^ (32 - length) - 1 := by
    have fits : 2 ^ (32 - length) ≤ 2 ^ 32 := Nat.pow_le_pow_right (by decide) (by omega)
    rw [UInt32.toNat_not, mask_toNat bound, Nat.shiftLeft_eq, Nat.sub_mul, split, Nat.one_mul]
    change 2 ^ 32 - 1 - (2 ^ 32 - 2 ^ (32 - length)) = 2 ^ (32 - length) - 1
    omega
  have high : ((ip &&& mask length) ||| ~~~mask length).toNat =
      ip.toNat / 2 ^ (32 - length) * 2 ^ (32 - length) + (2 ^ (32 - length) - 1) := by
    rw [UInt32.toNat_or, low, rest, ← Nat.shiftLeft_add_eq_or_of_lt (by omega),
      Nat.shiftLeft_eq]
  rw [Nat.shiftLeft_eq] at low
  rw [UInt32.le_iff_toNat_le, UInt32.le_iff_toNat_le, low, high, Nat.div_eq_iff positive]
  constructor
  · intro between
    omega
  · intro between
    omega

end Pttbbs.Lib.Ipv4
