/-
Which tokens of the ban list come out right.

The forms are told apart by their special bytes, all within the part of a token that is read.  Of
each form it is settled which texts are taken and which addresses come out.
-/

import Pttbbs.Common.BanTokens

namespace Pttbbs.Common.BanIp

open Pttbbs.Lib Pttbbs.Lib.Ipv4

/-! ### The forms apart -/

theorem not_mem_text {byte : UInt8} (other : byte ≠ dot) (noDigit : isDigitByte byte = false)
    (quad : Quad) : byte ∉ quad.text := by
  intro member
  rcases quad.of_mem_text member with same | digit
  · exact other same
  · rw [noDigit] at digit
    cases digit

theorem slash_not_mem_text (quad : Quad) : slash ∉ quad.text :=
  not_mem_text (by decide) (by decide) quad

theorem dash_not_mem_text (quad : Quad) : dash ∉ quad.text :=
  not_mem_text (by decide) (by decide) quad

theorem star_not_mem_text (quad : Quad) : star ∉ quad.text :=
  not_mem_text (by decide) (by decide) quad

theorem not_mem_digits {byte : UInt8} (noDigit : isDigitByte byte = false) {digits : Bytes}
    {value : Nat} (number : parseNat? digits = some value) : byte ∉ digits := by
  intro member
  rw [parseNat?] at number
  split at number
  · rename_i both
    have digit := List.all_eq_true.mp both.2 byte member
    rw [noDigit] at digit
    cases digit
  · cases number

theorem Pattern.text_eq (pattern : Pattern) :
    pattern.text = octetText pattern.first ++ dot :: (octetText pattern.second ++
      dot :: (octetText pattern.third ++ dot :: octetText pattern.fourth)) := by
  simp only [Pattern.text, Pattern.octets, List.map_cons, List.map_nil, joinWith,
    List.append_assoc, List.singleton_append]

theorem octetText_length_le (octet : Option (Fin 256)) : (octetText octet).length ≤ 3 := by
  cases octet with
  | none => decide
  | some octet => exact formatNat_length_le octet

theorem Pattern.text_length_le (pattern : Pattern) : pattern.text.length ≤ 15 := by
  have first := octetText_length_le pattern.first
  have second := octetText_length_le pattern.second
  have third := octetText_length_le pattern.third
  have fourth := octetText_length_le pattern.fourth
  rw [pattern.text_eq]
  simp only [List.length_append, List.length_cons]
  omega

theorem Pattern.of_mem_text {pattern : Pattern} {byte : UInt8} (member : byte ∈ pattern.text) :
    byte = dot ∨ byte = star ∨ isDigitByte byte = true := by
  rcases mem_joinWith member with separator | ⟨piece, inside, here⟩
  · exact Or.inl (List.mem_singleton.mp separator)
  · obtain ⟨octet, _, rfl⟩ := List.mem_map.mp inside
    cases octet with
    | none => exact Or.inr (Or.inl (List.mem_singleton.mp here))
    | some octet => exact Or.inr (Or.inr (formatNat_digits _ byte here))

theorem mem_joinWith_of_mem {separator piece : Bytes} {pieces : List Bytes} {byte : UInt8}
    (member : piece ∈ pieces) (inside : byte ∈ piece) : byte ∈ joinWith separator pieces := by
  induction pieces with
  | nil => cases member
  | cons first rest ih =>
      cases rest with
      | nil =>
          rw [List.mem_singleton.mp member] at inside
          exact inside
      | cons next others =>
          rw [joinWith]
          rcases List.mem_cons.mp member with rfl | later
          · exact List.mem_append_left _ (List.mem_append_left _ inside)
          · exact List.mem_append_right _ (ih later)

theorem Pattern.star_mem_text {pattern : Pattern} (some : none ∈ pattern.octets) :
    star ∈ pattern.text :=
  mem_joinWith_of_mem (List.mem_map.mpr ⟨none, some, rfl⟩) (List.mem_singleton.mpr rfl)

theorem Pattern.none_mem_octets {pattern : Pattern} (member : star ∈ pattern.text) :
    none ∈ pattern.octets := by
  rcases mem_joinWith member with separator | ⟨piece, inside, here⟩
  · exact absurd (List.mem_singleton.mp separator) (by decide)
  · obtain ⟨octet, given, rfl⟩ := List.mem_map.mp inside
    cases octet with
    | none => exact given
    | some octet => exact absurd here (star_not_mem_formatNat octet)

theorem mem_take_of_front {byte : UInt8} {left right : Bytes} {count : Nat}
    (room : left.length < count) : byte ∈ (left ++ byte :: right).take count := by
  obtain ⟨rest, more⟩ := Nat.exists_eq_add_of_lt room
  rw [List.take_append, show count - left.length = rest + 1 by omega, List.take_succ_cons]
  exact List.mem_append_right _ List.mem_cons_self

section

variable {text : Bytes} {denoted : UInt32 → Prop} (denotes : Denotes text denoted)

include denotes

theorem denotes_slash (member : slash ∈ text) :
    ∃ (quad : Quad) (digits : Bytes) (length : Nat), parseNat? digits = some length ∧
      length ≤ 32 ∧ text = quad.text ++ slash :: digits ∧
      denoted = fun address =>
        address.toNat / 2 ^ (32 - length) = quad.value.toNat / 2 ^ (32 - length) := by
  have dashed {quad : Quad} {rest : Bytes} (absent : slash ∉ rest)
      (inside : slash ∈ quad.text ++ dash :: rest) : False := by
    rcases List.mem_append.mp inside with before | after
    · exact slash_not_mem_text quad before
    · exact absent ((List.mem_cons.mp after).resolve_left (by decide))
  cases denotes with
  | single quad => exact absurd member (slash_not_mem_text quad)
  | cidr quad number bound => exact ⟨quad, _, _, number, bound, rfl, rfl⟩
  | range left right => exact (dashed (slash_not_mem_text right) member).elim
  | lastOctet quad number => exact (dashed (not_mem_digits (by decide) number) member).elim
  | wildcard pattern some =>
      rcases pattern.of_mem_text member with other | other | digit
      · exact absurd other (by decide)
      · exact absurd other (by decide)
      · exact absurd digit (by decide)

theorem denotes_dash (absent : slash ∉ text) (member : dash ∈ text) :
    (∃ left right : Quad, text = left.text ++ dash :: right.text ∧
        denoted = Between left.value right.value) ∨
      ∃ (quad : Quad) (digits : Bytes) (octet : Fin 256), parseNat? digits = some octet.val ∧
        text = quad.text ++ dash :: digits ∧
        denoted = Between quad.value { quad with fourth := octet }.value := by
  cases denotes with
  | single quad => exact absurd member (dash_not_mem_text quad)
  | cidr quad number bound =>
      exact absurd (List.mem_append_right _ List.mem_cons_self) absent
  | range left right => exact Or.inl ⟨left, right, rfl, rfl⟩
  | lastOctet quad number => exact Or.inr ⟨quad, _, _, number, rfl, rfl⟩
  | wildcard pattern some =>
      rcases pattern.of_mem_text member with other | other | digit
      · exact absurd other (by decide)
      · exact absurd other (by decide)
      · exact absurd digit (by decide)

theorem denotes_plain (noSlash : slash ∉ text) (noDash : dash ∉ text) :
    (∃ quad : Quad, text = quad.text ∧ denoted = fun address => address = quad.value) ∨
      ∃ pattern : Pattern, none ∈ pattern.octets ∧ text = pattern.text ∧
        denoted = pattern.Matches := by
  cases denotes with
  | single quad => exact Or.inl ⟨quad, rfl, rfl⟩
  | cidr quad number bound =>
      exact absurd (List.mem_append_right _ List.mem_cons_self) noSlash
  | range left right => exact absurd (List.mem_append_right _ List.mem_cons_self) noDash
  | lastOctet quad number => exact absurd (List.mem_append_right _ List.mem_cons_self) noDash
  | wildcard pattern some => exact Or.inr ⟨pattern, some, rfl, rfl⟩

theorem mem_take_of_denotes {byte : UInt8} (special : byte = slash ∨ byte = dash)
    (member : byte ∈ text) : byte ∈ text.take 127 := by
  have cut {quad : Quad} {rest : Bytes} {separator : UInt8} (noRest : byte ∉ rest)
      (inside : byte ∈ quad.text ++ separator :: rest) (noText : byte ∉ quad.text) :
      byte ∈ (quad.text ++ separator :: rest).take 127 := by
    have short := quad.text_length_le
    rcases List.mem_append.mp inside with before | after
    · exact absurd before noText
    · rw [(List.mem_cons.mp after).resolve_right noRest]
      exact mem_take_of_front (by omega)
  have noText (quad : Quad) : byte ∉ quad.text := by
    rcases special with rfl | rfl
    · exact slash_not_mem_text quad
    · exact dash_not_mem_text quad
  have noDigit : isDigitByte byte = false := by
    rcases special with rfl | rfl <;> decide
  cases denotes with
  | single quad => exact absurd member (noText quad)
  | cidr quad number bound => exact cut (not_mem_digits noDigit number) member (noText quad)
  | range left right => exact cut (noText right) member (noText left)
  | lastOctet quad number => exact cut (not_mem_digits noDigit number) member (noText quad)
  | wildcard pattern some =>
      rw [List.take_of_length_le (by have short := pattern.text_length_le; omega)]
      exact member

end

/-! ### Ranges -/

theorem ordered_iff (left right address : UInt32) :
    (ordered left right).1 ≤ address ∧ address ≤ (ordered left right).2 ↔
      Between left right address := by
  rw [ordered, Between]
  simp only [UInt32.lt_iff_toNat_lt, UInt32.le_iff_toNat_le]
  split
  · dsimp only
    omega
  · dsimp only
    omega

theorem between_inj {left right other : UInt32}
    (same : ∀ address, Between left right address ↔ Between left other address) :
    right = other := by
  have first := (same right).mp
  have second := (same other).mpr
  simp only [Between, UInt32.le_iff_toNat_le] at first second
  rw [← UInt32.toNat_inj]
  omega

theorem subnet_larger (ip : UInt32) {shorter longer : Nat} (less : shorter < longer)
    (bound : longer ≤ 32) :
    ∃ address : UInt32,
      address.toNat / 2 ^ (32 - shorter) = ip.toNat / 2 ^ (32 - shorter) ∧
        address.toNat / 2 ^ (32 - longer) ≠ ip.toNat / 2 ^ (32 - longer) := by
  have large : 2 ^ (32 - shorter) * 2 ^ shorter = 2 ^ 32 := by
    rw [← Nat.pow_add, Nat.sub_add_cancel (by omega)]
  have double : 2 * 2 ^ (32 - longer) ≤ 2 ^ (32 - shorter) := by
    rw [← Nat.pow_succ']
    exact Nat.pow_le_pow_right (by decide) (by omega)
  have positive : 0 < 2 ^ (32 - longer) := Nat.two_pow_pos _
  have inside := ip.toNat_lt
  generalize 2 ^ (32 - longer) = small at double positive ⊢
  generalize 2 ^ (32 - shorter) = block at large double ⊢
  have room : (ip.toNat / block + 1) * block ≤ 2 ^ 32 := by
    have less : ip.toNat / block < 2 ^ shorter :=
      Nat.div_lt_of_lt_mul (by rw [large]; exact inside)
    rw [← large, Nat.mul_comm block]
    exact Nat.mul_le_mul_right block less
  rw [Nat.add_mul, Nat.one_mul] at room
  have lowValue : (UInt32.ofNat (ip.toNat / block * block)).toNat = ip.toNat / block * block :=
    UInt32.toNat_ofNat_of_lt' (by change _ < 2 ^ 32; omega)
  have highValue : (UInt32.ofNat (ip.toNat / block * block + (block - 1))).toNat =
      ip.toNat / block * block + (block - 1) :=
    UInt32.toNat_ofNat_of_lt' (by change _ < 2 ^ 32; omega)
  by_cases apart : ip.toNat / block * block / small = ip.toNat / small
  · refine ⟨UInt32.ofNat (ip.toNat / block * block + (block - 1)), ?_, ?_⟩
    · rw [highValue, Nat.mul_comm, Nat.mul_add_div (by omega),
        Nat.div_eq_of_lt (show block - 1 < block by omega), Nat.add_zero]
    · rw [highValue, ← apart]
      have step := Nat.div_le_div_right (c := small)
        (show ip.toNat / block * block + small ≤ ip.toNat / block * block + (block - 1) by omega)
      rw [Nat.add_div_right _ positive] at step
      omega
  · refine ⟨UInt32.ofNat (ip.toNat / block * block), ?_, ?_⟩
    · rw [lowValue, Nat.mul_div_cancel _ (by omega)]
    · rw [lowValue]
      exact apart

theorem subnet_inj {ip : UInt32} {one other : Nat} (oneBound : one ≤ 32) (otherBound : other ≤ 32)
    (same : ∀ address : UInt32,
      address.toNat / 2 ^ (32 - one) = ip.toNat / 2 ^ (32 - one) ↔
        address.toNat / 2 ^ (32 - other) = ip.toNat / 2 ^ (32 - other)) : one = other := by
  rcases Nat.lt_trichotomy one other with less | equal | more
  · obtain ⟨address, inOne, notOther⟩ := subnet_larger ip less otherBound
    exact absurd ((same address).mp inOne) notOther
  · exact equal
  · obtain ⟨address, inOther, notOne⟩ := subnet_larger ip more oneBound
    exact absurd ((same address).mpr inOther) notOne

/-! ### When a token comes out right -/

section Tokens

variable {s : CStr}

theorem parseCidr_eq_some {buf : Bytes} {ends : UInt32 × UInt32} :
    parseCidr buf = some ends ↔
      (0 ≤ atoi (back slash buf) ∧ atoi (back slash buf) ≤ 32) ∧
        ∃ ip, inetPton (front slash buf) = some ip ∧
          ends = (ip &&& mask (atoi (back slash buf)).toNat,
            (ip &&& mask (atoi (back slash buf)).toNat) |||
              ~~~mask (atoi (back slash buf)).toNat) := by
  rw [parseCidr]
  dsimp only
  by_cases outside : atoi (back slash buf) < 0 ∨ 32 < atoi (back slash buf)
  · rw [if_pos outside]
    refine iff_of_false (by simp) fun both => ?_
    omega
  · rw [if_neg outside, Option.map_eq_some_iff]
    constructor
    · rintro ⟨ip, read, rfl⟩
      exact ⟨by omega, ip, read, rfl⟩
    · rintro ⟨_, ip, read, rfl⟩
      exact ⟨ip, read, rfl⟩

theorem meansIt_slash (here : slash ∈ s.bytes.take 127) :
    MeansIt s ↔
      ((∃ ip, inetPton (front slash (s.bytes.take 127)) = some ip) →
        ReadsDecimal 32 (back slash (s.bytes.take 127)) (back slash s.bytes)) := by
  have member := List.mem_of_mem_take here
  have whole := front_back member
  obtain ⟨frontCut, backCut⟩ := take_cut here
  have parses : parseIpOrRange s = parseCidr (s.bytes.take 127) := if_pos here
  constructor
  · rintro means ⟨ip, read⟩ low high
    have taken : parseIpOrRange s = some _ :=
      parses.trans (parseCidr_eq_some.mpr ⟨⟨low, high⟩, ip, read, rfl⟩)
    obtain ⟨denoted, denotes⟩ := means.taken.mp ⟨_, taken⟩
    obtain ⟨quad, digits, length, number, bound, text, rfl⟩ := denotes_slash denotes member
    have absent := slash_not_mem_text quad
    have quadRead := inetPton_text quad
    rw [frontCut, text, front_append absent, quadRead] at read
    cases read
    have same := means.addresses _ _ taken denotes
    have equal : (atoi (back slash (s.bytes.take 127))).toNat = length := by
      refine @subnet_inj quad.value _ _ (by omega) bound fun address => ?_
      rw [← same address, ← subnet_iff _ _ (by omega)]
    rw [equal, text, back_append absent]
    exact number
  · intro plain
    constructor
    · constructor
      · rintro ⟨ends, taken⟩
        obtain ⟨⟨low, high⟩, ip, read, _⟩ := parseCidr_eq_some.mp (parses.symm.trans taken)
        have number := plain ⟨ip, read⟩ low high
        obtain ⟨quad, text, _⟩ := inetPton_eq_some.mp read
        rw [frontCut] at text
        rw [whole, text]
        exact ⟨_, .cidr quad number (by omega)⟩
      · rintro ⟨denoted, denotes⟩
        obtain ⟨quad, digits, length, number, bound, text, _⟩ := denotes_slash denotes member
        have absent := slash_not_mem_text quad
        rw [text, front_append absent] at frontCut
        rw [text, back_append absent, front_append absent] at backCut
        have reads := atoi_take number (by omega) (127 - quad.text.length - 1)
        rw [parses]
        refine ⟨_, parseCidr_eq_some.mpr ⟨?_, quad.value, ?_, rfl⟩⟩
        · rw [text, backCut]
          omega
        · rw [text, frontCut, inetPton_text]
    · intro ends denoted taken denotes address
      obtain ⟨⟨low, high⟩, ip, read, rfl⟩ := parseCidr_eq_some.mp (parses.symm.trans taken)
      obtain ⟨quad, digits, length, number, bound, text, rfl⟩ := denotes_slash denotes member
      have absent := slash_not_mem_text quad
      have equal := plain ⟨ip, read⟩ low high
      have quadRead := inetPton_text quad
      rw [frontCut, text, front_append absent, quadRead] at read
      cases read
      have split : back slash s.bytes = digits := by rw [text, back_append absent]
      rw [split, number] at equal
      rw [← Option.some.inj equal]
      exact subnet_iff _ _ bound

theorem replace_fourth (quad : Quad) (octet : Fin 256) :
    (quad.value &&& 0xFFFFFF00) ||| UInt32.ofNat octet.val =
      { quad with fourth := octet }.value := by
  have octetBound := octet.isLt
  have fourthBound := quad.fourth.isLt
  have octetValue : (UInt32.ofNat octet.val).toNat = octet.val :=
    UInt32.toNat_ofNat_of_lt' (by change _ < 2 ^ 32; omega)
  have high : (quad.value &&& 0xFFFFFF00).toNat = (quad.number / 2 ^ 8) <<< 8 := by
    have masked := and_high quad.value.toNat_lt (show 24 ≤ 32 by decide)
    rw [quad.toNat_value, Nat.shiftRight_eq_div_pow] at masked
    rw [UInt32.toNat_and, quad.toNat_value]
    exact masked
  rw [← UInt32.toNat_inj, UInt32.toNat_or, high, octetValue, Quad.toNat_value,
    ← Nat.shiftLeft_add_eq_or_of_lt (by omega), Nat.shiftLeft_eq]
  simp only [Quad.number]
  omega

theorem parseRange_eq_some {buf : Bytes} {ends : UInt32 × UInt32} :
    parseRange buf = some ends ↔
      ∃ ip1, inetPton (front dash buf) = some ip1 ∧
        ((dot ∈ back dash buf ∧ ∃ ip2, inetPton (back dash buf) = some ip2 ∧
            ends = ordered ip1 ip2) ∨
          (dot ∉ back dash buf ∧
            (0 ≤ atoi (back dash buf) ∧ atoi (back dash buf) ≤ 255) ∧
            ends = ordered ip1
              ((ip1 &&& 0xFFFFFF00) ||| UInt32.ofNat (atoi (back dash buf)).toNat))) := by
  rw [parseRange, Option.bind_eq_some_iff]
  refine exists_congr fun ip1 => and_congr_right fun _ => ?_
  dsimp only
  by_cases dotted : dot ∈ back dash buf
  · rw [if_pos dotted, Option.map_eq_some_iff]
    constructor
    · rintro ⟨ip2, read, rfl⟩
      exact Or.inl ⟨dotted, ip2, read, rfl⟩
    · rintro (⟨_, ip2, read, rfl⟩ | ⟨undotted, _⟩)
      · exact ⟨ip2, read, rfl⟩
      · exact absurd dotted undotted
  · rw [if_neg dotted]
    by_cases outside : atoi (back dash buf) < 0 ∨ 255 < atoi (back dash buf)
    · rw [if_pos outside]
      refine iff_of_false (by simp) ?_
      rintro (⟨here, _⟩ | ⟨_, inside, _⟩)
      · exact dotted here
      · omega
    · rw [if_neg outside, Option.some.injEq]
      constructor
      · rintro rfl
        exact Or.inr ⟨dotted, by omega, rfl⟩
      · rintro (⟨here, _⟩ | ⟨_, _, rfl⟩)
        · exact absurd here dotted
        · rfl

theorem back_range {left right : Quad} (text : s.bytes = left.text ++ dash :: right.text)
    (here : dash ∈ s.bytes.take 127) : back dash (s.bytes.take 127) = right.text := by
  have absent := dash_not_mem_text left
  have leftShort := left.text_length_le
  have rightShort := right.text_length_le
  have backCut := (take_cut here).2
  rw [backCut, text, back_append absent, front_append absent,
    List.take_of_length_le (by omega)]

theorem back_lastOctet {quad : Quad} {digits : Bytes} {value : Nat}
    (number : parseNat? digits = some value) (text : s.bytes = quad.text ++ dash :: digits)
    (here : dash ∈ s.bytes.take 127) :
    back dash (s.bytes.take 127) = digits.take (127 - quad.text.length - 1) ∧
      dot ∉ back dash (s.bytes.take 127) := by
  have absent := dash_not_mem_text quad
  have backCut := (take_cut here).2
  rw [text, back_append absent, front_append absent, ← text] at backCut
  refine ⟨backCut, ?_⟩
  rw [backCut]
  exact fun member => not_mem_digits (by decide) number (List.mem_of_mem_take member)

theorem meansIt_dash (noSlash : slash ∉ s.bytes.take 127) (here : dash ∈ s.bytes.take 127) :
    MeansIt s ↔
      ((∃ ip, inetPton (front dash (s.bytes.take 127)) = some ip) →
        dot ∉ back dash (s.bytes.take 127) →
          ReadsDecimal 255 (back dash (s.bytes.take 127)) (back dash s.bytes)) := by
  have member := List.mem_of_mem_take here
  have whole := front_back member
  obtain ⟨frontCut, backCut⟩ := take_cut here
  have parses : parseIpOrRange s = parseRange (s.bytes.take 127) := by
    rw [parseIpOrRange, if_neg noSlash, if_pos here]
  have unslashed {denoted : UInt32 → Prop} (denotes : Denotes s.bytes denoted) :
      slash ∉ s.bytes := fun member => noSlash (mem_take_of_denotes denotes (.inl rfl) member)
  constructor
  · rintro means ⟨ip, read⟩ undotted low high
    have taken : parseIpOrRange s = some _ :=
      parses.trans (parseRange_eq_some.mpr ⟨ip, read, .inr ⟨undotted, ⟨low, high⟩, rfl⟩⟩)
    obtain ⟨denoted, denotes⟩ := means.taken.mp ⟨_, taken⟩
    rcases denotes_dash denotes (unslashed denotes) member with
      ⟨left, right, text, _⟩ | ⟨quad, digits, octet, number, text, rfl⟩
    · rw [back_range text here] at undotted
      exact absurd right.dot_mem_text undotted
    · have absent := dash_not_mem_text quad
      have quadRead := inetPton_text quad
      rw [frontCut, text, front_append absent, quadRead] at read
      cases read
      have same := means.addresses _ _ taken denotes
      obtain ⟨last, value⟩ : ∃ last : Fin 256,
          last.val = (atoi (back dash (s.bytes.take 127))).toNat :=
        ⟨⟨(atoi (back dash (s.bytes.take 127))).toNat, by omega⟩, rfl⟩
      simp only [← value, replace_fourth, ordered_iff] at same
      have equal := between_inj same
      have fourth := congrArg (fun value : UInt32 => value.toNat % 256) equal
      simp only [(Quad.octets_of_value _).2.2.2] at fourth
      have split : back dash s.bytes = digits := by rw [text, back_append absent]
      rw [split, number, ← fourth, value]
  · intro plain
    constructor
    · constructor
      · rintro ⟨ends, taken⟩
        obtain ⟨ip, read, rest⟩ := parseRange_eq_some.mp (parses.symm.trans taken)
        obtain ⟨left, text, _⟩ := inetPton_eq_some.mp read
        rcases rest with ⟨_, ip2, readBack, _⟩ | ⟨undotted, ⟨low, high⟩, _⟩
        · obtain ⟨right, textBack, _⟩ := inetPton_eq_some.mp readBack
          have joined := front_back here
          have leftShort := left.text_length_le
          have rightShort := right.text_length_le
          rw [text, textBack] at joined
          have short := congrArg List.length joined
          rw [List.length_take, List.length_append, List.length_cons] at short
          rw [List.take_of_length_le (by omega)] at joined
          rw [joined]
          exact ⟨_, .range left right⟩
        · have number := plain ⟨ip, read⟩ undotted low high
          rw [frontCut] at text
          rw [whole, text]
          let last : Fin 256 := ⟨(atoi (back dash (s.bytes.take 127))).toNat, by omega⟩
          exact ⟨_, @Denotes.lastOctet left _ last number⟩
      · rintro ⟨denoted, denotes⟩
        rcases denotes_dash denotes (unslashed denotes) member with
          ⟨left, right, text, _⟩ | ⟨quad, digits, octet, number, text, _⟩
        · have backRead := back_range text here
          rw [text, front_append (dash_not_mem_text left), ← text] at frontCut
          refine ⟨_, parses.trans (parseRange_eq_some.mpr
            ⟨left.value, by rw [frontCut, inetPton_text], .inl ⟨?_, right.value, ?_, rfl⟩⟩)⟩
          · rw [backRead]
            exact right.dot_mem_text
          · rw [backRead, inetPton_text]
        · obtain ⟨backRead, undotted⟩ := back_lastOctet number text here
          have reads := atoi_take number (Nat.le_of_lt_succ octet.isLt)
            (127 - quad.text.length - 1)
          have bound := octet.isLt
          rw [text, front_append (dash_not_mem_text quad), ← text] at frontCut
          refine ⟨_, parses.trans (parseRange_eq_some.mpr
            ⟨quad.value, by rw [frontCut, inetPton_text], .inr ⟨undotted, ?_, rfl⟩⟩)⟩
          rw [backRead]
          omega
    · intro ends denoted taken denotes address
      obtain ⟨ip, read, rest⟩ := parseRange_eq_some.mp (parses.symm.trans taken)
      rcases denotes_dash denotes (unslashed denotes) member with
        ⟨left, right, text, rfl⟩ | ⟨quad, digits, octet, number, text, rfl⟩
      · have backRead := back_range text here
        have leftRead := read
        rw [frontCut, text, front_append (dash_not_mem_text left), inetPton_text] at leftRead
        cases leftRead
        rcases rest with ⟨_, ip2, readBack, rfl⟩ | ⟨undotted, _⟩
        · rw [backRead, inetPton_text] at readBack
          cases readBack
          exact ordered_iff _ _ _
        · rw [backRead] at undotted
          exact absurd right.dot_mem_text undotted
      · obtain ⟨backRead, undotted⟩ := back_lastOctet number text here
        have quadRead := read
        rw [frontCut, text, front_append (dash_not_mem_text quad), inetPton_text] at quadRead
        cases quadRead
        rcases rest with ⟨dotted, _⟩ | ⟨_, ⟨low, high⟩, rfl⟩
        · exact absurd dotted undotted
        · have equal := plain ⟨_, read⟩ undotted low high
          have split : back dash s.bytes = digits := by
            rw [text, back_append (dash_not_mem_text quad)]
          rw [split, number] at equal
          rw [← Option.some.inj equal, replace_fourth, ordered_iff]

theorem meansIt_plain (noSlash : slash ∉ s.bytes.take 127) (noDash : dash ∉ s.bytes.take 127) :
    MeansIt s ↔ ∀ pattern : Pattern, s.bytes = pattern.text → pattern.StarsLast := by
  have parses : parseIpOrRange s =
      if star ∈ s.bytes.take 127 then parseWildcard (s.bytes.take 127)
      else (inetPton (s.bytes.take 127)).map fun ip => (ip, ip) := by
    rw [parseIpOrRange, if_neg noSlash, if_neg noDash]
  have uncut {text : Bytes} (same : s.bytes.take 127 = text) (short : text.length ≤ 15) :
      s.bytes = text := by
    have length := congrArg List.length same
    rw [List.length_take] at length
    rw [← same, List.take_of_length_le (by omega)]
  have whole {text : Bytes} (same : s.bytes = text) (short : text.length ≤ 15) :
      s.bytes.take 127 = text := by
    rw [same, List.take_of_length_le (by omega)]
  have spans {pattern : Pattern} (text : s.bytes = pattern.text)
      (some' : star ∈ pattern.text) :
      parseIpOrRange s = some ((pattern.filled 0).value, (pattern.filled 255).value) := by
    rw [parses, whole text pattern.text_length_le, if_pos some', parseWildcard_text]
  constructor
  · intro means pattern text
    by_cases some' : star ∈ pattern.text
    · have denotes : Denotes s.bytes pattern.Matches := by
        rw [text]
        exact .wildcard pattern (Pattern.none_mem_octets some')
      exact pattern.span_iff.mp (means.addresses _ _ (spans text some') denotes)
    · have given (octet : Option (Fin 256)) (member : octet ∈ pattern.octets) : octet ≠ none :=
        fun missing => some' (Pattern.star_mem_text (missing ▸ member))
      refine ⟨fun none => ?_, fun none => ?_, fun none => ?_⟩
      · exact absurd none (given _ List.mem_cons_self)
      · exact absurd none (given _ (List.mem_cons_of_mem _ List.mem_cons_self))
      · exact absurd none (given _ (List.mem_cons_of_mem _ (List.mem_cons_of_mem _
          List.mem_cons_self)))
  · intro last
    have taken_iff (ends : UInt32 × UInt32) : parseIpOrRange s = some ends ↔
        (∃ quad : Quad, s.bytes = quad.text ∧ ends = (quad.value, quad.value)) ∨
          ∃ pattern : Pattern, none ∈ pattern.octets ∧ s.bytes = pattern.text ∧
            ends = ((pattern.filled 0).value, (pattern.filled 255).value) := by
      constructor
      · intro taken
        rw [parses] at taken
        by_cases starred : star ∈ s.bytes.take 127
        · rw [if_pos starred] at taken
          obtain ⟨pattern, text⟩ := pattern_of_parseWildcard taken
          rw [text, parseWildcard_text] at taken
          rw [text] at starred
          exact Or.inr ⟨pattern, Pattern.none_mem_octets starred,
            uncut text pattern.text_length_le, (Option.some.inj taken).symm⟩
        · rw [if_neg starred] at taken
          obtain ⟨ip, read, rfl⟩ := Option.map_eq_some_iff.mp taken
          obtain ⟨quad, text, rfl⟩ := inetPton_eq_some.mp read
          exact Or.inl ⟨quad, uncut text quad.text_length_le, rfl⟩
      · rintro (⟨quad, text, rfl⟩ | ⟨pattern, some', text, rfl⟩)
        · rw [parses, whole text quad.text_length_le, if_neg (star_not_mem_text quad),
            inetPton_text, Option.map_some]
        · exact spans text (Pattern.star_mem_text some')
    have forms {denoted : UInt32 → Prop} (denotes : Denotes s.bytes denoted) :=
      denotes_plain denotes
        (fun member => noSlash (mem_take_of_denotes denotes (.inl rfl) member))
        (fun member => noDash (mem_take_of_denotes denotes (.inr rfl) member))
    constructor
    · constructor
      · rintro ⟨ends, taken⟩
        rcases (taken_iff ends).mp taken with ⟨quad, text, _⟩ | ⟨pattern, some', text, _⟩
        · rw [text]
          exact ⟨_, .single quad⟩
        · rw [text]
          exact ⟨_, .wildcard pattern some'⟩
      · rintro ⟨denoted, denotes⟩
        rcases forms denotes with ⟨quad, text, _⟩ | ⟨pattern, some', text, _⟩
        · exact ⟨_, (taken_iff _).mpr (.inl ⟨quad, text, rfl⟩)⟩
        · exact ⟨_, (taken_iff _).mpr (.inr ⟨pattern, some', text, rfl⟩)⟩
    · intro ends denoted taken denotes address
      rcases forms denotes with ⟨quad, text, rfl⟩ | ⟨pattern, some', text, rfl⟩
      · have read := (taken_iff (quad.value, quad.value)).mpr (.inl ⟨quad, text, rfl⟩)
        rw [← Option.some.inj (read.symm.trans taken)]
        dsimp only
        rw [← UInt32.toNat_inj, UInt32.le_iff_toNat_le, UInt32.le_iff_toNat_le]
        omega
      · have read := (taken_iff _).mpr (.inr ⟨pattern, some', text, rfl⟩)
        rw [← Option.some.inj (read.symm.trans taken)]
        exact pattern.span_iff.mpr (last pattern text) address

end Tokens

/-- A token is taken exactly when it is in one of the forms, and for what it denotes, exactly when
it is plain. -/
theorem meansIt_iff (s : CStr) : MeansIt s ↔ Plain s := by
  unfold Plain
  dsimp only
  by_cases slashed : slash ∈ s.bytes.take 127
  · rw [if_pos slashed]
    exact meansIt_slash slashed
  · rw [if_neg slashed]
    by_cases dashed : dash ∈ s.bytes.take 127
    · rw [if_pos dashed]
      exact meansIt_dash slashed dashed
    · rw [if_neg dashed]
      exact meansIt_plain slashed dashed

def noLength : CStr := ⟨[49, 46, 50, 46, 51, 46, 52, 47], by decide⟩

/-- The token is taken for all addresses and is in none of the forms. -/
theorem not_meansIt_noLength : ¬ MeansIt noLength := by
  intro means
  have taken : parseIpOrRange noLength = some (0, 0xFFFFFFFF) := by decide +kernel
  obtain ⟨denoted, denotes⟩ := means.taken.mp ⟨_, taken⟩
  obtain ⟨quad, digits, length, number, _, text, _⟩ := denotes_slash denotes (by decide)
  have rest := congrArg (back slash) text
  rw [back_append (slash_not_mem_text quad)] at rest
  have empty : digits = [] := rest.symm.trans (by decide)
  rw [empty] at number
  cases number

end Pttbbs.Common.BanIp
