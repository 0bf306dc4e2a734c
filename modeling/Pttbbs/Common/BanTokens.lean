/-
The tokens of the ban list.

A token is an address, a subnet, a range or a pattern with stars for octets, and comes out as a
range of addresses.  The forms are told apart by the first of `/`, `-` and `*` that the token
holds anywhere.
-/

import Pttbbs.Common.Money
import Pttbbs.Lib.CStr
import Pttbbs.Lib.Ipv4

namespace Pttbbs.Common.BanIp

open Pttbbs.Lib Pttbbs.Lib.Ipv4

def slash : UInt8 := 47

def dash : UInt8 := 45

def star : UInt8 := 42

/-! ### The C library -/

def front (byte : UInt8) (text : Bytes) : Bytes := text.takeWhile (· ≠ byte)

def back (byte : UInt8) (text : Bytes) : Bytes := (text.dropWhile (· ≠ byte)).tail

def isSpace (byte : UInt8) : Bool := byte = 32 || 9 ≤ byte && byte ≤ 13

/-- `atoi`: `strtol`, which stops at the ends of its 64 bits, cut to 32 bits. -/
def atoi (text : Bytes) : Int :=
  let signed := signOf (text.dropWhile isSpace)
  let value : Int := digitsValue (signed.2.takeWhile isDigitByte)
  Money.wrap (if signed.1 then max (-value) (-2 ^ 63) else min value (2 ^ 63 - 1))

/-! ### `parse_ip_or_range` -/

/-- The loop that writes `s_min` and `s_max`, buffers of 128 bytes. -/
def expand : Bytes → Bytes → Bytes → Option (Bytes × Bytes)
  | [], sMin, sMax => some (sMin, sMax)
  | byte :: rest, sMin, sMax =>
      let needMax := if byte = star then 3 else 1
      if 128 ≤ sMin.length + 1 ∨ 128 ≤ sMax.length + needMax then none
      else if byte = star then expand rest (sMin ++ [48]) (sMax ++ [50, 53, 53])
      else expand rest (sMin ++ [byte]) (sMax ++ [byte])

def ordered (ip1 ip2 : UInt32) : UInt32 × UInt32 :=
  if ip2 < ip1 then (ip2, ip1) else (ip1, ip2)

def parseCidr (buf : Bytes) : Option (UInt32 × UInt32) :=
  let length := atoi (back slash buf)
  if length < 0 ∨ 32 < length then none
  else
    (inetPton (front slash buf)).map fun ip =>
      let start := ip &&& mask length.toNat
      (start, start ||| ~~~mask length.toNat)

def parseRange (buf : Bytes) : Option (UInt32 × UInt32) :=
  (inetPton (front dash buf)).bind fun ip1 =>
    let sEnd := back dash buf
    if dot ∈ sEnd then (inetPton sEnd).map (ordered ip1)
    else
      let val := atoi sEnd
      if val < 0 ∨ 255 < val then none
      else some (ordered ip1 ((ip1 &&& 0xFFFFFF00) ||| UInt32.ofNat val.toNat))

def parseWildcard (buf : Bytes) : Option (UInt32 × UInt32) :=
  (expand buf [] []).bind fun (sMin, sMax) =>
    (inetPton sMin).bind fun low => (inetPton sMax).map (ordered low)

def parseIpOrRange (s : CStr) : Option (UInt32 × UInt32) :=
  let buf := s.bytes.take 127
  if slash ∈ buf then parseCidr buf
  else if dash ∈ buf then parseRange buf
  else if star ∈ buf then parseWildcard buf
  else (inetPton buf).map fun ip => (ip, ip)

/-! ### The forms of a token -/

structure Pattern where
  first : Option (Fin 256)
  second : Option (Fin 256)
  third : Option (Fin 256)
  fourth : Option (Fin 256)
deriving DecidableEq

def octetText : Option (Fin 256) → Bytes
  | none => [star]
  | some octet => formatNat octet

namespace Pattern

def octets (pattern : Pattern) : List (Option (Fin 256)) :=
  [pattern.first, pattern.second, pattern.third, pattern.fourth]

def text (pattern : Pattern) : Bytes := joinWith [dot] (pattern.octets.map octetText)

structure Matches (pattern : Pattern) (address : UInt32) : Prop where
  first : ∀ octet ∈ pattern.first, address.toNat / 2 ^ 24 = octet
  second : ∀ octet ∈ pattern.second, address.toNat / 2 ^ 16 % 256 = octet
  third : ∀ octet ∈ pattern.third, address.toNat / 2 ^ 8 % 256 = octet
  fourth : ∀ octet ∈ pattern.fourth, address.toNat % 256 = octet

structure StarsLast (pattern : Pattern) : Prop where
  first : pattern.first = none → pattern.second = none
  second : pattern.second = none → pattern.third = none
  third : pattern.third = none → pattern.fourth = none

def filled (pattern : Pattern) (octet : Fin 256) : Quad where
  first := pattern.first.getD octet
  second := pattern.second.getD octet
  third := pattern.third.getD octet
  fourth := pattern.fourth.getD octet

end Pattern

def Between (left right address : UInt32) : Prop :=
  left ≤ address ∧ address ≤ right ∨ right ≤ address ∧ address ≤ left

inductive Denotes : Bytes → (UInt32 → Prop) → Prop where
  | single (quad : Quad) : Denotes quad.text fun address => address = quad.value
  | cidr (quad : Quad) {digits : Bytes} {length : Nat} (number : parseNat? digits = some length)
      (bound : length ≤ 32) :
      Denotes (quad.text ++ slash :: digits) fun address =>
        address.toNat / 2 ^ (32 - length) = quad.value.toNat / 2 ^ (32 - length)
  | range (left right : Quad) :
      Denotes (left.text ++ dash :: right.text) (Between left.value right.value)
  | lastOctet (quad : Quad) {digits : Bytes} {octet : Fin 256}
      (number : parseNat? digits = some octet.val) :
      Denotes (quad.text ++ dash :: digits)
        (Between quad.value { quad with fourth := octet }.value)
  | wildcard (pattern : Pattern) (some : none ∈ pattern.octets) :
      Denotes pattern.text pattern.Matches

/-- A token is taken exactly when it is in one of the forms, and for what it denotes. -/
structure MeansIt (s : CStr) : Prop where
  taken : (∃ ends, parseIpOrRange s = some ends) ↔ ∃ denoted, Denotes s.bytes denoted
  addresses : ∀ ends denoted, parseIpOrRange s = some ends → Denotes s.bytes denoted →
    ∀ address, ends.1 ≤ address ∧ address ≤ ends.2 ↔ denoted address

/-- A number up to a bound is read, from a text that may have been cut, as the decimal that the
whole text is. -/
def ReadsDecimal (bound : Int) (cut whole : Bytes) : Prop :=
  0 ≤ atoi cut → atoi cut ≤ bound → parseNat? whole = some (atoi cut).toNat

def Plain (s : CStr) : Prop :=
  let buf := s.bytes.take 127
  if slash ∈ buf then
    (∃ ip, inetPton (front slash buf) = some ip) →
      ReadsDecimal 32 (back slash buf) (back slash s.bytes)
  else if dash ∈ buf then
    (∃ ip, inetPton (front dash buf) = some ip) → dot ∉ back dash buf →
      ReadsDecimal 255 (back dash buf) (back dash s.bytes)
  else ∀ pattern : Pattern, s.bytes = pattern.text → pattern.StarsLast

/-! ### Cutting at a byte -/

theorem front_back {byte : UInt8} {text : Bytes} (member : byte ∈ text) :
    text = front byte text ++ byte :: back byte text := by
  induction text with
  | nil => cases member
  | cons first rest ih =>
      by_cases here : first = byte
      · subst here
        simp [front, back]
      · have later := (List.mem_cons.mp member).resolve_left fun same => here same.symm
        have joined := ih later
        have kept : decide (first ≠ byte) = true := decide_eq_true here
        unfold front back at joined ⊢
        rw [List.takeWhile_cons, List.dropWhile_cons, kept, if_pos rfl, if_pos rfl,
          List.cons_append, ← joined]

theorem front_append {byte : UInt8} {left : Bytes} (absent : byte ∉ left) (right : Bytes) :
    front byte (left ++ byte :: right) = left := by
  have others : ∀ other ∈ left, decide (other ≠ byte) = true := by
    intro other member
    exact decide_eq_true fun same => absent (same ▸ member)
  rw [front, List.takeWhile_append_of_pos others,
    List.takeWhile_cons_of_neg (by simp), List.append_nil]

theorem back_append {byte : UInt8} {left : Bytes} (absent : byte ∉ left) (right : Bytes) :
    back byte (left ++ byte :: right) = right := by
  have others : ∀ other ∈ left, decide (other ≠ byte) = true := by
    intro other member
    exact decide_eq_true fun same => absent (same ▸ member)
  rw [back, List.dropWhile_append_of_pos others, List.dropWhile_cons_of_neg (by simp),
    List.tail_cons]

theorem not_mem_front (byte : UInt8) (text : Bytes) : byte ∉ front byte text := by
  intro member
  have other := List.mem_takeWhile_imp member
  exact absurd rfl (of_decide_eq_true other)

theorem take_cut {byte : UInt8} {text : Bytes} {count : Nat} (member : byte ∈ text.take count) :
    front byte (text.take count) = front byte text ∧
      back byte (text.take count) =
        (back byte text).take (count - (front byte text).length - 1) := by
  have joined := front_back (List.mem_of_mem_take member)
  have absent := not_mem_front byte text
  generalize front byte text = left at joined absent ⊢
  generalize back byte text = right at joined ⊢
  subst joined
  have room : left.length < count := by
    by_contra short
    rw [List.take_append_of_le_length (by omega)] at member
    exact absent (List.mem_of_mem_take member)
  rw [List.take_append, List.take_of_length_le (by omega)] at member ⊢
  obtain ⟨rest, more⟩ := Nat.exists_eq_add_of_lt room
  have split : count - left.length = rest + 1 := by omega
  rw [split, List.take_succ_cons, front_append absent, back_append absent]
  exact ⟨rfl, rfl⟩

/-! ### Numbers -/

theorem digitsValue_append_le (front rest : Bytes) :
    digitsValue front ≤ digitsValue (front ++ rest) := by
  unfold digitsValue
  rw [List.foldl_append]
  generalize front.foldl _ 0 = start
  induction rest generalizing start with
  | nil => exact Nat.le_refl _
  | cons byte rest ih =>
      rw [List.foldl_cons]
      refine Nat.le_trans ?_ (ih _)
      omega

theorem digit_bounds {byte : UInt8} (digit : isDigitByte byte = true) :
    48 ≤ byte.toNat ∧ byte.toNat ≤ 57 := by
  rw [isDigitByte, Bool.and_eq_true, decide_eq_true_eq, decide_eq_true_eq,
    UInt8.le_iff_toNat_le, UInt8.le_iff_toNat_le] at digit
  exact digit

theorem not_isSpace_of_digit {byte : UInt8} (digit : isDigitByte byte = true) :
    isSpace byte = false := by
  have bounds := digit_bounds digit
  rw [isSpace, Bool.or_eq_false_iff, Bool.and_eq_false_iff]
  refine ⟨decide_eq_false ?_, Or.inr (decide_eq_false ?_)⟩
  · rintro rfl
    exact absurd bounds.1 (by decide)
  · rw [UInt8.le_iff_toNat_le]
    change ¬ byte.toNat ≤ 13
    omega

theorem atoi_digits {digits : Bytes} (all : digits.all isDigitByte = true)
    (small : digitsValue digits ≤ 255) : atoi digits = digitsValue digits := by
  have noSpace : digits.dropWhile isSpace = digits := by
    cases digits with
    | nil => rfl
    | cons byte rest =>
        have digit := List.all_eq_true.mp all byte List.mem_cons_self
        rw [List.dropWhile_cons_of_neg (by rw [not_isSpace_of_digit digit]; exact Bool.false_ne_true)]
  have noSign : signOf digits = (false, digits) := by
    cases digits with
    | nil => rfl
    | cons byte rest =>
        have bounds := digit_bounds (List.all_eq_true.mp all byte List.mem_cons_self)
        have notMinus : byte ≠ 45 := by
          rintro rfl
          exact absurd bounds.1 (by decide)
        have notPlus : byte ≠ 43 := by
          rintro rfl
          exact absurd bounds.1 (by decide)
        rw [signOf, if_neg notMinus, if_neg notPlus]
  have whole : digits.takeWhile isDigitByte = digits :=
    List.takeWhile_eq_self_iff.mpr (List.all_eq_true.mp all)
  rw [atoi, noSpace, noSign]
  dsimp only
  rw [whole, if_neg Bool.false_ne_true, min_eq_left (by omega)]
  exact Money.wrap_of_fits (by unfold Money.intMin; omega) (by unfold Money.intMax; omega)

theorem atoi_take {digits : Bytes} {value : Nat} (number : parseNat? digits = some value)
    (small : value ≤ 255) (count : Nat) :
    0 ≤ atoi (digits.take count) ∧ atoi (digits.take count) ≤ value := by
  rw [parseNat?] at number
  split at number
  · rename_i both
    have same := Option.some.inj number
    have less := digitsValue_append_le (digits.take count) (digits.drop count)
    rw [List.take_append_drop, same] at less
    have all : (digits.take count).all isDigitByte = true :=
      List.all_eq_true.mpr fun byte member =>
        List.all_eq_true.mp both.2 byte (List.mem_of_mem_take member)
    rw [atoi_digits all (by omega)]
    omega
  · cases number

/-! ### Patterns -/

def spelled (filler text : Bytes) : Bytes :=
  text.flatMap fun byte => if byte = star then filler else [byte]

theorem spelled_cons (filler : Bytes) (byte : UInt8) (rest : Bytes) :
    spelled filler (byte :: rest) =
      (if byte = star then filler else [byte]) ++ spelled filler rest :=
  List.flatMap_cons

theorem spelled_of_not_mem {filler text : Bytes} (absent : star ∉ text) :
    spelled filler text = text := by
  induction text with
  | nil => rfl
  | cons byte rest ih =>
      have other : byte ≠ star := fun same => absent (List.mem_cons.mpr (Or.inl same.symm))
      rw [spelled_cons, if_neg other, ih fun member => absent (List.mem_cons_of_mem _ member),
        List.singleton_append]

theorem length_le_spelled {filler : Bytes} (some : filler ≠ []) (text : Bytes) :
    text.length ≤ (spelled filler text).length := by
  have positive := List.length_pos_iff.mpr some
  induction text with
  | nil => exact Nat.zero_le _
  | cons byte rest ih =>
      rw [spelled_cons, List.length_append, List.length_cons]
      split
      · omega
      · rw [List.length_singleton]
        omega

theorem length_spelled_of_mem {text : Bytes} (member : star ∈ text) :
    text.length + 2 ≤ (spelled [50, 53, 53] text).length := by
  induction text with
  | nil => cases member
  | cons byte rest ih =>
      have rest' := length_le_spelled (List.cons_ne_nil 50 [53, 53]) rest
      rw [spelled_cons, List.length_append, List.length_cons]
      by_cases here : byte = star
      · rw [if_pos here]
        change rest.length + 1 + 2 ≤ 3 + _
        omega
      · have later := ih ((List.mem_cons.mp member).resolve_left fun same => here same.symm)
        rw [if_neg here, List.length_singleton]
        omega

theorem splitOn_spelled {filler : Bytes} (absent : dot ∉ filler) (text : Bytes) :
    splitOn dot (spelled filler text) = (splitOn dot text).map (spelled filler) := by
  induction text with
  | nil => rfl
  | cons byte rest ih =>
      obtain ⟨first, others, parts⟩ := List.exists_cons_of_ne_nil (splitOn_ne_nil dot rest)
      rw [parts, List.map_cons] at ih
      rw [spelled_cons]
      by_cases here : byte = dot
      · subst here
        have other : dot ≠ star := by decide
        rw [if_neg other, List.singleton_append, splitOn, if_pos rfl, splitOn, if_pos rfl, ih,
          parts]
        rfl
      · have around : splitOn dot (byte :: rest) = (byte :: first) :: others := by
          rw [splitOn, if_neg here, parts]
        have filled : dot ∉ (if byte = star then filler else [byte]) := by
          split
          · exact absent
          · exact fun member => here (List.mem_singleton.mp member).symm
        rw [splitOn_append_of_not_mem filled ih, around, List.map_cons, spelled_cons]

theorem inetPton_long {text : Bytes} (long : 15 < text.length) : inetPton text = none := by
  cases read : inetPton text with
  | none => rfl
  | some address =>
      obtain ⟨quad, rfl, _⟩ := inetPton_eq_some.mp read
      exact absurd quad.text_length_le (not_le.mpr long)

theorem expand_some {text sMin sMax : Bytes} {ends : Bytes × Bytes}
    (fits : expand text sMin sMax = some ends) :
    ends = (sMin ++ spelled [48] text, sMax ++ spelled [50, 53, 53] text) := by
  induction text generalizing sMin sMax with
  | nil =>
      rw [← Option.some.inj fits]
      simp only [spelled, List.flatMap_nil, List.append_nil]
  | cons byte rest ih =>
      unfold expand at fits
      dsimp only at fits
      rw [spelled_cons, spelled_cons]
      by_cases here : byte = star
      · rw [if_pos here, if_pos here] at fits
        rw [if_pos here, if_pos here, ← List.append_assoc, ← List.append_assoc]
        split at fits
        · cases fits
        · exact ih fits
      · rw [if_neg here, if_neg here] at fits
        rw [if_neg here, if_neg here, ← List.append_assoc, ← List.append_assoc]
        split at fits
        · cases fits
        · exact ih fits

theorem expand_none {text sMin sMax : Bytes} (full : expand text sMin sMax = none) :
    128 ≤ (sMin ++ spelled [48] text).length ∨
      128 ≤ (sMax ++ spelled [50, 53, 53] text).length := by
  induction text generalizing sMin sMax with
  | nil => cases full
  | cons byte rest ih =>
      unfold expand at full
      dsimp only at full
      rw [spelled_cons, spelled_cons]
      by_cases here : byte = star
      · rw [if_pos here, if_pos here] at full
        rw [if_pos here, if_pos here, ← List.append_assoc, ← List.append_assoc]
        split at full
        · rename_i long
          simp only [List.length_append, List.length_cons, List.length_nil]
          omega
        · exact ih full
      · rw [if_neg here, if_neg here] at full
        rw [if_neg here, if_neg here, ← List.append_assoc, ← List.append_assoc]
        split at full
        · rename_i long
          simp only [List.length_append, List.length_cons, List.length_nil]
          omega
        · exact ih full

theorem parseWildcard_eq (buf : Bytes) :
    parseWildcard buf =
      (inetPton (spelled [48] buf)).bind fun low =>
        (inetPton (spelled [50, 53, 53] buf)).map (ordered low) := by
  rw [parseWildcard]
  cases fits : expand buf [] [] with
  | some ends =>
      rw [expand_some fits]
      rfl
  | none =>
      rcases expand_none fits with long | long
      · rw [List.nil_append] at long
        rw [inetPton_long (by omega : 15 < (spelled [48] buf).length)]
        rfl
      · rw [List.nil_append] at long
        rw [inetPton_long (by omega : 15 < (spelled [50, 53, 53] buf).length)]
        cases inetPton (spelled [48] buf) <;> rfl

theorem star_not_mem_formatNat (value : Nat) : star ∉ formatNat value := by
  intro member
  exact absurd (formatNat_digits value _ member) (by decide)

theorem spelled_octetText (octet : Option (Fin 256)) (filler : Fin 256) :
    spelled (formatNat filler) (octetText octet) = formatNat (octet.getD filler) := by
  cases octet with
  | none =>
      change formatNat filler ++ [] = formatNat filler
      rw [List.append_nil]
  | some octet => exact spelled_of_not_mem (star_not_mem_formatNat octet)

theorem dot_not_mem_octetText (octet : Option (Fin 256)) : dot ∉ octetText octet := by
  cases octet with
  | none => decide
  | some octet => exact dot_not_mem_formatNat octet

theorem Pattern.splitOn_text (pattern : Pattern) :
    splitOn dot pattern.text = pattern.octets.map octetText := by
  refine splitOn_joinWith (List.cons_ne_nil _ _) fun piece member => ?_
  obtain ⟨octet, _, rfl⟩ := List.mem_map.mp member
  exact dot_not_mem_octetText octet

theorem octetText_of_spelled {piece : Bytes} {octet : Fin 256}
    (same : spelled [50, 53, 53] piece = formatNat octet) : ∃ given, piece = octetText given := by
  by_cases member : star ∈ piece
  · have long := length_spelled_of_mem member
    have short := formatNat_length_le octet
    rw [← same] at short
    have one : piece.length = 1 :=
      Nat.le_antisymm (by omega) (List.length_pos_of_mem member)
    obtain ⟨byte, rfl⟩ := List.length_eq_one_iff.mp one
    exact ⟨none, by rw [octetText, List.mem_singleton.mp member]⟩
  · rw [spelled_of_not_mem member] at same
    exact ⟨some octet, same⟩

theorem inetPton_spelled (pattern : Pattern) (filler : Fin 256) :
    inetPton (spelled (formatNat filler) pattern.text) = some (pattern.filled filler).value := by
  have pieces : splitOn dot (spelled (formatNat filler) pattern.text) =
      (pattern.filled filler).octets := by
    rw [splitOn_spelled (dot_not_mem_formatNat filler), pattern.splitOn_text]
    simp only [Pattern.octets, List.map_cons, List.map_nil, spelled_octetText, Quad.octets,
      Pattern.filled]
  have text : spelled (formatNat filler) pattern.text = (pattern.filled filler).text := by
    rw [← joinWith_splitOn dot (spelled _ _), pieces, Quad.text]
  rw [text, inetPton_text]

theorem Pattern.filled_le (pattern : Pattern) :
    (pattern.filled 0).value ≤ (pattern.filled 255).value := by
  rw [UInt32.le_iff_toNat_le, Quad.toNat_value, Quad.toNat_value, Quad.number, Quad.number]
  have bound (octet : Option (Fin 256)) : (octet.getD 0).val ≤ (octet.getD 255).val := by
    cases octet with
    | none => decide
    | some octet => exact Nat.le_refl _
  have first := bound pattern.first
  have second := bound pattern.second
  have third := bound pattern.third
  have fourth := bound pattern.fourth
  simp only [Pattern.filled]
  omega

theorem parseWildcard_text (pattern : Pattern) :
    parseWildcard pattern.text =
      some ((pattern.filled 0).value, (pattern.filled 255).value) := by
  have low : inetPton (spelled [48] pattern.text) = some (pattern.filled 0).value :=
    inetPton_spelled pattern 0
  have high : inetPton (spelled [50, 53, 53] pattern.text) = some (pattern.filled 255).value :=
    inetPton_spelled pattern 255
  rw [parseWildcard_eq, low, high, Option.bind_some, Option.map_some, ordered,
    if_neg (UInt32.not_lt.mpr pattern.filled_le)]

theorem pattern_of_parseWildcard {buf : Bytes} {ends : UInt32 × UInt32}
    (taken : parseWildcard buf = some ends) : ∃ pattern : Pattern, buf = pattern.text := by
  rw [parseWildcard_eq] at taken
  obtain ⟨low, _, rest⟩ := Option.bind_eq_some_iff.mp taken
  obtain ⟨high, read, _⟩ := Option.map_eq_some_iff.mp rest
  obtain ⟨quad, text, _⟩ := inetPton_eq_some.mp read
  have pieces := congrArg (splitOn dot) text
  rw [splitOn_spelled (by decide), splitOn_text, Quad.octets] at pieces
  obtain ⟨a, others, parts, first, rest⟩ := List.map_eq_cons_iff.mp pieces
  obtain ⟨b, others, rfl, second, rest⟩ := List.map_eq_cons_iff.mp rest
  obtain ⟨c, others, rfl, third, rest⟩ := List.map_eq_cons_iff.mp rest
  obtain ⟨d, others, rfl, fourth, rest⟩ := List.map_eq_cons_iff.mp rest
  rw [List.map_eq_nil_iff.mp rest] at parts
  obtain ⟨one, rfl⟩ := octetText_of_spelled first
  obtain ⟨two, rfl⟩ := octetText_of_spelled second
  obtain ⟨three, rfl⟩ := octetText_of_spelled third
  obtain ⟨four, rfl⟩ := octetText_of_spelled fourth
  refine ⟨⟨one, two, three, four⟩, ?_⟩
  rw [← joinWith_splitOn dot buf, parts]
  rfl

/-! ### What a pattern spans -/

theorem succ_ne (octet : Fin 256) : (octet + 1).val ≠ octet.val := by
  have bound := octet.isLt
  rw [Fin.val_add]
  change (octet.val + 1) % 256 ≠ octet.val
  omega

theorem Pattern.matches_between {pattern : Pattern}
    (span : ∀ address, (pattern.filled 0).value ≤ address ∧
      address ≤ (pattern.filled 255).value ↔ pattern.Matches address) (quad : Quad)
    (low : (pattern.filled 0).number ≤ quad.number)
    (high : quad.number ≤ (pattern.filled 255).number) : pattern.Matches quad.value := by
  refine (span quad.value).mp ⟨?_, ?_⟩
  · rw [UInt32.le_iff_toNat_le, Quad.toNat_value, Quad.toNat_value]
    exact low
  · rw [UInt32.le_iff_toNat_le, Quad.toNat_value, Quad.toNat_value]
    exact high

/-- Where the ends span the addresses of a pattern, a star has stars behind it: an address with 1
for the star may have any octet behind it. -/
theorem Pattern.starsLast_of_span {pattern : Pattern}
    (span : ∀ address, (pattern.filled 0).value ≤ address ∧
      address ≤ (pattern.filled 255).value ↔ pattern.Matches address) : pattern.StarsLast := by
  obtain ⟨first, second, third, fourth⟩ := pattern
  have bound (octet : Option (Fin 256)) := (octet.getD 0).isLt
  have grows (octet : Option (Fin 256)) : (octet.getD 0).val ≤ (octet.getD 255).val := by
    cases octet with
    | none => decide
    | some octet => exact Nat.le_refl _
  have most : (255 : Fin 256).val = 255 := rfl
  constructor
  · intro here
    cases second with
    | none => rfl
    | some octet =>
        cases here
        have inside := Pattern.matches_between span ⟨1, octet + 1, 0, 0⟩
        simp only [Pattern.filled, Quad.number, Option.getD_none, Option.getD_some,
          Fin.val_zero, Fin.val_one, most] at inside
        have thirdBound := bound third
        have fourthBound := bound fourth
        have matched := inside (by omega) (by omega)
        have same := matched.second octet rfl
        rw [(Quad.octets_of_value _).2.1] at same
        exact absurd same (succ_ne octet)
  · intro here
    cases third with
    | none => rfl
    | some octet =>
        cases here
        have inside := Pattern.matches_between span ⟨first.getD 0, 1, octet + 1, 0⟩
        simp only [Pattern.filled, Quad.number, Option.getD_none, Option.getD_some,
          Fin.val_zero, Fin.val_one, most] at inside
        have firstGrows := grows first
        have fourthBound := bound fourth
        have matched := inside (by omega) (by omega)
        have same := matched.third octet rfl
        rw [(Quad.octets_of_value _).2.2.1] at same
        exact absurd same (succ_ne octet)
  · intro here
    cases fourth with
    | none => rfl
    | some octet =>
        cases here
        have inside := Pattern.matches_between span ⟨first.getD 0, second.getD 0, 1, octet + 1⟩
        simp only [Pattern.filled, Quad.number, Option.getD_none, Option.getD_some,
          Fin.val_zero, Fin.val_one, most] at inside
        have firstGrows := grows first
        have secondGrows := grows second
        have matched := inside (by omega) (by omega)
        have same := matched.fourth octet rfl
        rw [(Quad.octets_of_value _).2.2.2] at same
        exact absurd same (succ_ne octet)

theorem Pattern.matches_iff (pattern : Pattern) (address : UInt32) :
    pattern.Matches address ↔
      (∀ octet ∈ pattern.first, address.toNat / 2 ^ 24 = octet) ∧
        (∀ octet ∈ pattern.second, address.toNat / 2 ^ 16 % 256 = octet) ∧
        (∀ octet ∈ pattern.third, address.toNat / 2 ^ 8 % 256 = octet) ∧
        ∀ octet ∈ pattern.fourth, address.toNat % 256 = octet :=
  ⟨fun same => ⟨same.first, same.second, same.third, same.fourth⟩,
    fun all => ⟨all.1, all.2.1, all.2.2.1, all.2.2.2⟩⟩

/-- The range from all stars 0 to all stars 255 is the pattern's exactly when no star comes before
an octet. -/
theorem Pattern.span_iff (pattern : Pattern) :
    (∀ address, (pattern.filled 0).value ≤ address ∧ address ≤ (pattern.filled 255).value ↔
      pattern.Matches address) ↔ pattern.StarsLast := by
  refine ⟨Pattern.starsLast_of_span, fun last address => ?_⟩
  have below := address.toNat_lt
  rw [pattern.matches_iff, UInt32.le_iff_toNat_le, UInt32.le_iff_toNat_le, Quad.toNat_value,
    Quad.toNat_value, Quad.number, Quad.number]
  obtain ⟨first, second, third, fourth⟩ := pattern
  obtain ⟨afterFirst, afterSecond, afterThird⟩ := last
  have most : (255 : Fin 256).val = 255 := rfl
  simp only [Pattern.filled]
  cases first with
  | none =>
      cases afterFirst rfl
      cases afterSecond rfl
      cases afterThird rfl
      simp only [Option.getD_none, Fin.val_zero, most, reduceCtorEq, Option.mem_def,
        false_imp_iff, implies_true, and_true, iff_true]
      omega
  | some a =>
      have aBound := a.isLt
      cases second with
      | none =>
          cases afterSecond rfl
          cases afterThird rfl
          simp only [Option.getD_none, Option.getD_some, Fin.val_zero, most, reduceCtorEq,
            Option.mem_def, false_imp_iff, implies_true, and_true, Option.some.injEq, forall_eq']
          omega
      | some b =>
          have bBound := b.isLt
          cases third with
          | none =>
              cases afterThird rfl
              simp only [Option.getD_none, Option.getD_some, Fin.val_zero, most,
                reduceCtorEq, Option.mem_def, false_imp_iff, implies_true, and_true,
                Option.some.injEq, forall_eq']
              omega
          | some c =>
              have cBound := c.isLt
              cases fourth with
              | none =>
                  simp only [Option.getD_none, Option.getD_some, Fin.val_zero, most,
                    reduceCtorEq, Option.mem_def, false_imp_iff, implies_true, and_true,
                    Option.some.injEq, forall_eq']
                  omega
              | some d =>
                  have dBound := d.isLt
                  simp only [Option.getD_some, Option.mem_def, Option.some.injEq, forall_eq']
                  omega

end Pttbbs.Common.BanIp
