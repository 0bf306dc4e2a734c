/-
Byte-level text operations: splitting, cutting, trimming and decimal numbers.

The functions follow the documented behaviour of the standard library calls
they stand for.  Decimal parsing clamps out-of-range input and reads malformed
input as zero, which is what a caller that ignores the error sees.
-/

import Mathlib.Data.List.DropRight
import Mathlib.Data.List.Basic
import Pttbbs.Lib.Bytes

namespace Pttbbs.Lib

def newline : UInt8 := 10

def carriageReturn : UInt8 := 13

def blank : UInt8 := 32

/-! ### Splitting at a byte -/

def splitOn (separator : UInt8) : Bytes → List Bytes
  | [] => [[]]
  | byte :: rest =>
      if byte = separator then [] :: splitOn separator rest
      else
        match splitOn separator rest with
        | [] => [[byte]]
        | first :: others => (byte :: first) :: others

theorem splitOn_ne_nil (separator : UInt8) (text : Bytes) : splitOn separator text ≠ [] := by
  cases text with
  | nil => simp [splitOn]
  | cons byte rest =>
      unfold splitOn
      split
      · simp
      · split <;> simp

theorem splitOn_append_cons (separator : UInt8) (left right : Bytes) :
    splitOn separator (left ++ separator :: right) =
      splitOn separator left ++ splitOn separator right := by
  induction left with
  | nil => simp [splitOn]
  | cons byte rest ih =>
      rw [List.cons_append, splitOn, splitOn, ih]
      split
      · rfl
      · cases parts : splitOn separator rest with
        | nil => exact absurd parts (splitOn_ne_nil separator rest)
        | cons first others => rfl

theorem splitOn_of_not_mem (separator : UInt8) (text : Bytes) (absent : separator ∉ text) :
    splitOn separator text = [text] := by
  induction text with
  | nil => rfl
  | cons byte rest ih =>
      have different : byte ≠ separator := fun same =>
        absent (List.mem_cons.mpr (Or.inl same.symm))
      rw [splitOn, if_neg different, ih (fun member => absent (List.mem_cons_of_mem _ member))]

theorem splitOn_append_of_not_mem {separator : UInt8} {left right first : Bytes}
    {others : List Bytes} (absent : separator ∉ left)
    (parts : splitOn separator right = first :: others) :
    splitOn separator (left ++ right) = (left ++ first) :: others := by
  induction left with
  | nil => exact parts
  | cons byte rest ih =>
      have different : byte ≠ separator := fun same =>
        absent (List.mem_cons.mpr (Or.inl same.symm))
      rw [List.cons_append, splitOn, if_neg different,
        ih (fun member => absent (List.mem_cons_of_mem _ member))]
      rfl

theorem not_mem_of_mem_splitOn {separator : UInt8} {text piece : Bytes}
    (member : piece ∈ splitOn separator text) : separator ∉ piece := by
  induction text generalizing piece with
  | nil =>
      rw [splitOn, List.mem_singleton] at member
      simp [member]
  | cons byte rest ih =>
      rw [splitOn] at member
      split at member
      · rcases List.mem_cons.mp member with atHead | later
        · simp [atHead]
        · exact ih later
      · rename_i different
        split at member
        · rw [List.mem_singleton.mp member, List.mem_singleton]
          exact fun same => different same.symm
        · rename_i first others parts
          rcases List.mem_cons.mp member with atHead | later
          · rw [atHead, List.mem_cons]
            rintro (same | inFirst)
            · exact different same.symm
            · exact ih (by rw [parts]; exact List.mem_cons_self) inFirst
          · exact ih (by rw [parts]; exact List.mem_cons_of_mem _ later)

theorem mem_of_mem_splitOn {separator : UInt8} {text piece : Bytes} {byte : UInt8}
    (member : piece ∈ splitOn separator text) (inside : byte ∈ piece) : byte ∈ text := by
  induction text generalizing piece with
  | nil =>
      rw [splitOn, List.mem_singleton] at member
      rw [member] at inside
      exact inside
  | cons head rest ih =>
      rw [splitOn] at member
      split at member
      · rcases List.mem_cons.mp member with atHead | later
        · rw [atHead] at inside
          cases inside
        · exact List.mem_cons_of_mem _ (ih later inside)
      · split at member
        · rw [List.mem_singleton.mp member] at inside
          rw [List.mem_singleton.mp inside]
          exact List.mem_cons_self
        · rename_i first others parts
          rcases List.mem_cons.mp member with atHead | later
          · rw [atHead] at inside
            rcases List.mem_cons.mp inside with same | inFirst
            · rw [same]
              exact List.mem_cons_self
            · exact List.mem_cons_of_mem _ (ih (by rw [parts]; exact List.mem_cons_self) inFirst)
          · exact List.mem_cons_of_mem _
              (ih (by rw [parts]; exact List.mem_cons_of_mem _ later) inside)

def joinWith (separator : Bytes) : List Bytes → Bytes
  | [] => []
  | [piece] => piece
  | piece :: next :: rest => piece ++ separator ++ joinWith separator (next :: rest)

theorem mem_joinWith {separator : Bytes} {pieces : List Bytes} {byte : UInt8}
    (member : byte ∈ joinWith separator pieces) :
    byte ∈ separator ∨ ∃ piece ∈ pieces, byte ∈ piece := by
  induction pieces with
  | nil => cases member
  | cons piece rest ih =>
      cases rest with
      | nil => exact Or.inr ⟨piece, List.mem_singleton.mpr rfl, member⟩
      | cons next others =>
          rw [joinWith, List.mem_append, List.mem_append] at member
          rcases member with (inPiece | inSeparator) | later
          · exact Or.inr ⟨piece, List.mem_cons_self, inPiece⟩
          · exact Or.inl inSeparator
          · rcases ih later with inSeparator | ⟨other, present, inside⟩
            · exact Or.inl inSeparator
            · exact Or.inr ⟨other, List.mem_cons_of_mem _ present, inside⟩

theorem splitOn_joinWith {separator : UInt8} {pieces : List Bytes} (nonempty : pieces ≠ [])
    (absent : ∀ piece ∈ pieces, separator ∉ piece) :
    splitOn separator (joinWith [separator] pieces) = pieces := by
  induction pieces with
  | nil => exact absurd rfl nonempty
  | cons piece rest ih =>
      cases rest with
      | nil => exact splitOn_of_not_mem separator piece (absent piece List.mem_cons_self)
      | cons next others =>
          rw [joinWith, List.append_assoc, List.singleton_append, splitOn_append_cons,
            splitOn_of_not_mem separator piece (absent piece List.mem_cons_self),
            ih (by simp) (fun other member => absent other (List.mem_cons_of_mem _ member))]
          rfl

/-! ### Cutting at the first occurrence -/

def cut (separator : Bytes) : Bytes → Option (Bytes × Bytes)
  | [] => if separator = [] then some ([], []) else none
  | byte :: rest =>
      if separator.isPrefixOf (byte :: rest) then
        some ([], (byte :: rest).drop separator.length)
      else (cut separator rest).map (fun parts => (byte :: parts.1, parts.2))

/-- The first byte of a separator that does not occur in the left part keeps
the cut from happening early. -/
theorem cut_append (first : UInt8) (others left right : Bytes) (absent : first ∉ left) :
    cut (first :: others) (left ++ (first :: others) ++ right) = some (left, right) := by
  induction left with
  | nil =>
      change cut (first :: others) (first :: (others ++ right)) = _
      have starts : (first :: others).isPrefixOf (first :: (others ++ right)) = true := by
        rw [List.isPrefixOf_iff_prefix]
        exact ⟨right, rfl⟩
      rw [cut, if_pos starts]
      simp
  | cons byte rest ih =>
      have different : first ≠ byte := fun same =>
        absent (List.mem_cons.mpr (Or.inl same))
      have later : (first :: others).isPrefixOf
          (byte :: (rest ++ (first :: others) ++ right)) = false := by
        simp [List.isPrefixOf, different]
      change cut (first :: others) (byte :: (rest ++ (first :: others) ++ right)) = _
      rw [cut, if_neg (by rw [later]; simp),
        ih (fun member => absent (List.mem_cons_of_mem _ member))]
      rfl

theorem cut_double_of_single (byte : UInt8) (line rest : Bytes) (absent : byte ∉ line)
    (nonempty : rest.head? ≠ some byte) (parts : Bytes × Bytes)
    (later : cut [byte, byte] rest = some parts) :
    cut [byte, byte] (line ++ byte :: rest) = some (line ++ byte :: parts.1, parts.2) := by
  induction line with
  | nil =>
      have single : [byte, byte].isPrefixOf (byte :: rest) = false := by
        cases rest with
        | nil => simp [List.isPrefixOf]
        | cons next tail =>
            have different : byte ≠ next := fun same => nonempty (by rw [same]; rfl)
            simp [List.isPrefixOf, different]
      change cut [byte, byte] (byte :: rest) = _
      rw [cut, if_neg (by rw [single]; simp), later]
      rfl
  | cons first tail ih =>
      have different : byte ≠ first := fun same =>
        absent (List.mem_cons.mpr (Or.inl same))
      have single : [byte, byte].isPrefixOf (first :: (tail ++ byte :: rest)) = false := by
        simp [List.isPrefixOf, different]
      change cut [byte, byte] (first :: (tail ++ byte :: rest)) = _
      rw [cut, if_neg (by rw [single]; simp),
        ih (fun member => absent (List.mem_cons_of_mem _ member))]
      rfl

/-! ### Cutting at the last occurrence -/

def cutLast (separator : UInt8) : Bytes → Option (Bytes × Bytes)
  | [] => none
  | byte :: rest =>
      match cutLast separator rest with
      | some (left, right) => some (byte :: left, right)
      | none => if byte = separator then some ([], rest) else none

theorem cutLast_eq_none {separator : UInt8} {text : Bytes} :
    cutLast separator text = none ↔ separator ∉ text := by
  induction text with
  | nil => simp [cutLast]
  | cons byte rest ih =>
      rw [cutLast, List.mem_cons, not_or, ← ih]
      cases later : cutLast separator rest with
      | some parts => simp
      | none => simp [eq_comm]

theorem cutLast_append {separator : UInt8} {right : Bytes} (absent : separator ∉ right)
    (left : Bytes) : cutLast separator (left ++ separator :: right) = some (left, right) := by
  induction left with
  | nil =>
      rw [List.nil_append, cutLast, cutLast_eq_none.2 absent]
      exact if_pos rfl
  | cons byte rest ih => rw [List.cons_append, cutLast, ih]

theorem cutLast_eq_some {separator : UInt8} {text left right : Bytes}
    (found : cutLast separator text = some (left, right)) :
    text = left ++ separator :: right ∧ separator ∉ right := by
  induction text generalizing left with
  | nil => cases found
  | cons byte rest ih =>
      rw [cutLast] at found
      cases later : cutLast separator rest with
      | some parts =>
          rw [later] at found
          cases found
          obtain ⟨whole, free⟩ := ih later
          exact ⟨by rw [whole]; rfl, free⟩
      | none =>
          rw [later] at found
          simp only [Option.ite_none_right_eq_some, Option.some.injEq, Prod.mk.injEq] at found
          obtain ⟨rfl, rfl, rfl⟩ := found
          exact ⟨rfl, cutLast_eq_none.1 later⟩

/-! ### Trimming and replacing -/

/-- `strings.TrimRight` with a set of ASCII bytes. -/
def trimRight (cutset : Bytes) (text : Bytes) : Bytes :=
  text.rdropWhile (fun byte => byte ∈ cutset)

theorem trimRight_cons (cutset : Bytes) (first : UInt8) (rest : Bytes) :
    trimRight cutset (first :: rest) =
      if trimRight cutset rest = [] then trimRight cutset [first]
      else first :: trimRight cutset rest := by
  unfold trimRight List.rdropWhile
  rw [List.reverse_cons, List.dropWhile_append]
  simp only [List.isEmpty_iff, List.reverse_eq_nil_iff]
  split
  · rfl
  · rw [List.reverse_append]
    rfl

theorem trimRight_concat (cutset : Bytes) (text : Bytes) (last : UInt8) :
    trimRight cutset (text ++ [last]) =
      if last ∈ cutset then trimRight cutset text else text ++ [last] := by
  unfold trimRight
  rw [List.rdropWhile_concat]
  simp only [decide_eq_true_eq]

theorem mem_of_mem_trimRight {cutset text : Bytes} {byte : UInt8}
    (member : byte ∈ trimRight cutset text) : byte ∈ text :=
  (List.rdropWhile_prefix _ _).subset member

/-- `strings.ReplaceAll` of a non-empty pattern: occurrences are found from the
left and do not overlap.  The counter skips the rest of a match. -/
def replaceFrom (pattern replacement : Bytes) : Nat → Bytes → Bytes
  | _, [] => []
  | 0, byte :: rest =>
      if pattern.isPrefixOf (byte :: rest) then
        replacement ++ replaceFrom pattern replacement (pattern.length - 1) rest
      else byte :: replaceFrom pattern replacement 0 rest
  | skip + 1, _ :: rest => replaceFrom pattern replacement skip rest

def replaceAll (pattern replacement text : Bytes) : Bytes :=
  replaceFrom pattern replacement 0 text

private theorem mem_replaceFrom {pattern replacement : Bytes} {byte : UInt8}
    (nonempty : pattern ≠ []) (kept : byte ∉ pattern) (absent : byte ∉ replacement) (skip : Nat)
    (text : Bytes) : byte ∈ replaceFrom pattern replacement skip text ↔ byte ∈ text.drop skip := by
  induction text generalizing skip with
  | nil => simp [replaceFrom]
  | cons first rest ih =>
      cases skip with
      | succ skip => exact ih skip
      | zero =>
          rw [replaceFrom, List.drop_zero]
          split
          · rename_i occurs
            obtain ⟨behind, whole⟩ := List.isPrefixOf_iff_prefix.1 occurs
            obtain ⟨head, tail, rfl⟩ := List.exists_cons_of_ne_nil nonempty
            obtain ⟨rfl, rfl⟩ := List.cons.inj whole
            rw [List.mem_cons, not_or] at kept
            have skipped : (tail.append behind).drop tail.length = behind := List.drop_left
            rw [List.mem_append, ih, List.length_cons, Nat.add_sub_cancel, skipped]
            simp [absent, kept]
          · rw [List.mem_cons, List.mem_cons, ih, List.drop_zero]

theorem mem_replaceAll {pattern replacement : Bytes} {byte : UInt8} (nonempty : pattern ≠ [])
    (kept : byte ∉ pattern) (absent : byte ∉ replacement) (text : Bytes) :
    byte ∈ replaceAll pattern replacement text ↔ byte ∈ text :=
  mem_replaceFrom nonempty kept absent 0 text

theorem replaceAll_of_not_mem {first : UInt8} {others replacement text : Bytes}
    (absent : first ∉ text) : replaceAll (first :: others) replacement text = text := by
  induction text with
  | nil => rfl
  | cons byte rest ih =>
      rw [List.mem_cons, not_or] at absent
      have differs : (first :: others).isPrefixOf (byte :: rest) = false := by
        rw [List.isPrefixOf_cons_cons, beq_false_of_ne absent.1, Bool.false_and]
      rw [replaceAll, replaceFrom, differs, if_neg Bool.false_ne_true]
      exact congrArg _ (ih absent.2)

/-- The encodings of the characters `unicode.IsSpace` accepts. -/
def spaceEncodings : List Bytes :=
  [[9], [10], [11], [12], [13], [32], [0xc2, 0x85], [0xc2, 0xa0], [0xe1, 0x9a, 0x80],
    [0xe2, 0x80, 0x80], [0xe2, 0x80, 0x81], [0xe2, 0x80, 0x82], [0xe2, 0x80, 0x83],
    [0xe2, 0x80, 0x84], [0xe2, 0x80, 0x85], [0xe2, 0x80, 0x86], [0xe2, 0x80, 0x87],
    [0xe2, 0x80, 0x88], [0xe2, 0x80, 0x89], [0xe2, 0x80, 0x8a], [0xe2, 0x80, 0xa8],
    [0xe2, 0x80, 0xa9], [0xe2, 0x80, 0xaf], [0xe2, 0x81, 0x9f], [0xe3, 0x80, 0x80]]

/-- Drop leading occurrences of the patterns; each round drops at least a byte. -/
def dropLeading (patterns : List Bytes) : Nat → Bytes → Bytes
  | 0, text => text
  | rounds + 1, text =>
      match patterns.find? (fun pattern => pattern.isPrefixOf text) with
      | some pattern => dropLeading patterns rounds (text.drop pattern.length)
      | none => text

def trimSpace (text : Bytes) : Bytes :=
  let front := dropLeading spaceEncodings text.length text
  (dropLeading (spaceEncodings.map List.reverse) front.length front.reverse).reverse

theorem dropLeading_split {patterns : List Bytes} (nonempty : ∀ pattern ∈ patterns, pattern ≠ [])
    {rounds : Nat} {text : Bytes} (enough : text.length ≤ rounds) :
    ∃ pieces : List Bytes, (∀ piece ∈ pieces, piece ∈ patterns) ∧
      text = pieces.flatten ++ dropLeading patterns rounds text ∧
      ∀ pattern ∈ patterns, pattern.isPrefixOf (dropLeading patterns rounds text) = false := by
  induction rounds generalizing text with
  | zero =>
      have none : text = [] := List.eq_nil_of_length_eq_zero (Nat.le_zero.mp enough)
      refine ⟨[], nofun, rfl, fun pattern member => ?_⟩
      rw [dropLeading, none]
      cases pattern with
      | nil => exact absurd rfl (nonempty [] member)
      | cons byte rest => rfl
  | succ rounds ih =>
      rw [dropLeading]
      cases found : patterns.find? (fun pattern => pattern.isPrefixOf text) with
      | none =>
          refine ⟨[], nofun, rfl, fun pattern member => ?_⟩
          exact Bool.eq_false_iff.mpr (List.find?_eq_none.mp found pattern member)
      | some pattern =>
          have member := List.mem_of_find?_eq_some found
          have starts := List.find?_some found
          obtain ⟨rest, whole⟩ := List.isPrefixOf_iff_prefix.mp starts
          have positive := List.length_pos_iff.mpr (nonempty pattern member)
          have short : (text.drop pattern.length).length ≤ rounds := by
            rw [List.length_drop]
            omega
          obtain ⟨pieces, allowed, split, stops⟩ := ih short
          refine ⟨pattern :: pieces, ?_, ?_, stops⟩
          · intro piece inside
            rcases List.mem_cons.mp inside with here | later
            · rw [here]
              exact member
            · exact allowed piece later
          · rw [List.flatten_cons, List.append_assoc, ← split, ← whole, List.drop_left]

theorem spaceEncodings_ne_nil : ∀ pattern ∈ spaceEncodings, pattern ≠ [] := by
  decide

theorem spaceEncodings_free : ∀ left ∈ spaceEncodings, ∀ right ∈ spaceEncodings,
    left.isPrefixOf right = true → left = right := by
  decide

theorem spaceEncodings_cancel {front pieces : List Bytes} {remaining : Bytes}
    (frontInside : ∀ piece ∈ front, piece ∈ spaceEncodings)
    (inside : ∀ piece ∈ pieces, piece ∈ spaceEncodings)
    (same : pieces.flatten = front.flatten ++ remaining) :
    ∃ rest : List Bytes, (∀ piece ∈ rest, piece ∈ spaceEncodings) ∧
      remaining = rest.flatten := by
  induction front generalizing pieces with
  | nil => exact ⟨pieces, inside, same.symm⟩
  | cons first others ih =>
      have firstInside := frontInside first List.mem_cons_self
      cases pieces with
      | nil =>
          have nil := congrArg List.length same
          have positive := List.length_pos_iff.mpr (spaceEncodings_ne_nil first firstInside)
          simp only [List.flatten_nil, List.length_nil, List.flatten_cons,
            List.length_append] at nil
          omega
      | cons piece rest =>
          have pieceInside := inside piece List.mem_cons_self
          rw [List.flatten_cons, List.flatten_cons, List.append_assoc] at same
          have equal : first = piece := by
            rcases List.prefix_or_prefix_of_prefix
              (List.prefix_append first (others.flatten ++ remaining))
              (same ▸ List.prefix_append piece rest.flatten) with left | right
            · exact spaceEncodings_free _ firstInside _ pieceInside
                (List.isPrefixOf_iff_prefix.mpr left)
            · exact (spaceEncodings_free _ pieceInside _ firstInside
                (List.isPrefixOf_iff_prefix.mpr right)).symm
          subst equal
          apply ih
          · intro piece member
            exact frontInside piece (List.mem_cons_of_mem _ member)
          · intro piece member
            exact inside piece (List.mem_cons_of_mem _ member)
          · exact List.append_cancel_left same

theorem trimSpace_eq_nil_iff (text : Bytes) :
    trimSpace text = [] ↔
      ∃ pieces : List Bytes, (∀ piece ∈ pieces, piece ∈ spaceEncodings) ∧
        text = pieces.flatten := by
  obtain ⟨front, allowed, split, stops⟩ :=
    dropLeading_split spaceEncodings_ne_nil (Nat.le_refl text.length)
  constructor
  · intro trimmed
    have reversed : ∀ pattern ∈ spaceEncodings.map List.reverse, pattern ≠ [] := by
      intro pattern member
      obtain ⟨encoding, inside, same⟩ := List.mem_map.mp member
      rw [← same]
      exact fun nil => spaceEncodings_ne_nil encoding inside (List.reverse_eq_nil_iff.mp nil)
    have long : (dropLeading spaceEncodings text.length text).reverse.length ≤
        (dropLeading spaceEncodings text.length text).length := by
      rw [List.length_reverse]
    obtain ⟨back, backAllowed, backSplit, _backStops⟩ := dropLeading_split reversed long
    have none : dropLeading (spaceEncodings.map List.reverse)
        (dropLeading spaceEncodings text.length text).length
        (dropLeading spaceEncodings text.length text).reverse = [] := by
      simpa [trimSpace] using trimmed
    rw [none, List.append_nil] at backSplit
    -- What is left begins with an encoding unless it is empty.
    have nil : dropLeading spaceEncodings text.length text = [] := by
      cases last : back.getLast? with
      | none =>
          rw [List.getLast?_eq_none_iff] at last
          rw [last] at backSplit
          exact List.reverse_eq_nil_iff.mp backSplit
      | some pattern =>
          obtain ⟨others, shape⟩ := List.getLast?_eq_some_iff.mp last
          have member : pattern ∈ back := by
            rw [shape]
            exact List.mem_append_right _ List.mem_cons_self
          obtain ⟨encoding, inside, same⟩ := List.mem_map.mp (backAllowed pattern member)
          have whole : dropLeading spaceEncodings text.length text =
              encoding ++ others.flatten.reverse := by
            rw [← List.reverse_reverse (dropLeading spaceEncodings text.length text), backSplit,
              shape, List.flatten_append, List.reverse_append, ← same]
            simp
          have starts := stops encoding inside
          rw [whole, List.isPrefixOf_iff_prefix.mpr (List.prefix_append _ _)] at starts
          cases starts
    rw [nil, List.append_nil] at split
    exact ⟨front, allowed, split⟩
  · rintro ⟨pieces, inside, whole⟩
    have nothing : dropLeading spaceEncodings text.length text = [] := by
      obtain ⟨rest, restInside, same⟩ :=
        spaceEncodings_cancel allowed inside (whole.symm.trans split)
      cases rest with
      | nil => exact same
      | cons first others =>
          have starts := stops first (restInside first List.mem_cons_self)
          rw [same, List.flatten_cons,
            List.isPrefixOf_iff_prefix.mpr (List.prefix_append _ _)] at starts
          cases starts
    unfold trimSpace
    simp [nothing, dropLeading]

theorem spaceEncodings_newline : ∀ piece ∈ spaceEncodings, piece ≠ [newline] →
    newline ∉ piece := by
  decide

theorem trimSpace_line_eq_nil {text line : Bytes} (empty : trimSpace text = [])
    (member : line ∈ splitOn newline text) : trimSpace line = [] := by
  obtain ⟨pieces, spaces, whole⟩ := (trimSpace_eq_nil_iff text).mp empty
  rw [trimSpace_eq_nil_iff]
  subst whole
  induction pieces generalizing line with
  | nil => exact ⟨[], spaces, List.mem_singleton.mp member⟩
  | cons piece rest ih =>
      have encoded := spaces piece List.mem_cons_self
      have others : ∀ other ∈ rest, other ∈ spaceEncodings := fun other inside =>
        spaces other (List.mem_cons_of_mem _ inside)
      have blankRest := (trimSpace_eq_nil_iff rest.flatten).mpr ⟨rest, others, rfl⟩
      rw [List.flatten_cons] at member
      by_cases breaks : piece = [newline]
      · rw [breaks] at member
        rcases List.mem_cons.mp member with first | later
        · exact ⟨[], nofun, first⟩
        · exact ih others blankRest later
      · cases parts : splitOn newline rest.flatten with
        | nil => exact absurd parts (splitOn_ne_nil newline _)
        | cons first lines =>
            rw [splitOn_append_of_not_mem (spaceEncodings_newline piece encoded breaks) parts]
              at member
            rw [parts] at ih
            rcases List.mem_cons.mp member with here | later
            · obtain ⟨row, inside, same⟩ := ih others blankRest List.mem_cons_self
              refine ⟨piece :: row, List.forall_mem_cons.mpr ⟨encoded, inside⟩, ?_⟩
              rw [here, same, List.flatten_cons]
            · exact ih others blankRest (List.mem_cons_of_mem _ later)

/-! ### Decimal numbers -/

def digitByte (digit : Char) : UInt8 := UInt8.ofNat digit.toNat

def formatNat (value : Nat) : Bytes := (Nat.toDigits 10 value).map digitByte

def isDigitByte (byte : UInt8) : Bool := 48 ≤ byte && byte ≤ 57

def digitsValue (digits : Bytes) : Nat :=
  digits.foldl (fun total byte => 10 * total + (byte.toNat - 48)) 0

def parseNat? (digits : Bytes) : Option Nat :=
  if digits ≠ [] ∧ digits.all isDigitByte then some (digitsValue digits) else none

private theorem digitByte_spec {digit : Char} (isDigit : digit.isDigit = true) :
    (digitByte digit).toNat = digit.toNat ∧ isDigitByte (digitByte digit) = true := by
  have bounds : 48 ≤ digit.toNat ∧ digit.toNat ≤ 57 := by
    simp only [Char.isDigit, Bool.and_eq_true, decide_eq_true_eq] at isDigit
    exact ⟨isDigit.1, isDigit.2⟩
  have value : (digitByte digit).toNat = digit.toNat := by
    unfold digitByte
    rw [UInt8.toNat_ofNat']
    omega
  refine ⟨value, ?_⟩
  simp only [isDigitByte, Bool.and_eq_true, decide_eq_true_eq, UInt8.le_iff_toNat_le, value]
  exact bounds

theorem formatNat_digits (value : Nat) : ∀ byte ∈ formatNat value, isDigitByte byte = true := by
  intro byte member
  obtain ⟨digit, inDigits, same⟩ := List.mem_map.mp member
  rw [← same]
  exact (digitByte_spec (Nat.isDigit_of_mem_toDigits (by omega) (by omega) inDigits)).2

theorem formatNat_ne_nil (value : Nat) : formatNat value ≠ [] := by
  intro nil
  exact Nat.toDigits_ne_nil (List.map_eq_nil_iff.mp nil)

private theorem digitsValue_map (digits : List Char) (start : Nat)
    (all : ∀ digit ∈ digits, digit.isDigit = true) :
    (digits.map digitByte).foldl (fun total byte => 10 * total + (byte.toNat - 48)) start =
      Nat.ofDigitChars 10 digits start := by
  induction digits generalizing start with
  | nil => rfl
  | cons digit rest ih =>
      have spec := (digitByte_spec (all digit List.mem_cons_self)).1
      rw [List.map_cons, List.foldl_cons, spec,
        ih _ (fun other member => all other (List.mem_cons_of_mem _ member)),
        Nat.ofDigitChars_cons]
      rfl

theorem digitsValue_formatNat (value : Nat) : digitsValue (formatNat value) = value := by
  unfold digitsValue formatNat
  rw [digitsValue_map _ 0 (fun digit member =>
    Nat.isDigit_of_mem_toDigits (by omega) (by omega) member)]
  exact Nat.ofDigitChars_ten_toDigits

@[simp] theorem parseNat?_formatNat (value : Nat) : parseNat? (formatNat value) = some value := by
  have wellFormed : formatNat value ≠ [] ∧ (formatNat value).all isDigitByte = true :=
    ⟨formatNat_ne_nil value, List.all_eq_true.mpr (formatNat_digits value)⟩
  rw [parseNat?, if_pos wellFormed, digitsValue_formatNat]

/-- `strconv.ParseUint` in base ten with its error ignored. -/
def parseUint (bits : Nat) (text : Bytes) : Nat :=
  match parseNat? text with
  | none => 0
  | some value => if value < 2 ^ bits then value else 2 ^ bits - 1

theorem parseUint_formatNat (bits value : Nat) (fits : value < 2 ^ bits) :
    parseUint bits (formatNat value) = value := by
  simp [parseUint, fits]

def formatInt64 (value : Int64) : Bytes :=
  if value < 0 then 45 :: formatNat value.toInt.natAbs else formatNat value.toInt.natAbs

/-- The sign byte `strconv.ParseInt` accepts, and the digits after it. -/
def signOf : Bytes → Bool × Bytes
  | [] => (false, [])
  | byte :: rest =>
      if byte = 45 then (true, rest)
      else if byte = 43 then (false, rest)
      else (false, byte :: rest)

/-- `strconv.ParseInt` in base ten and 64 bits with its error ignored. -/
def parseInt64 (text : Bytes) : Int64 :=
  let parts := signOf text
  match parseNat? parts.2 with
  | none => 0
  | some value =>
      if parts.1 then Int64.ofInt (-(min value (2 ^ 63) : Nat))
      else Int64.ofInt (min value (2 ^ 63 - 1) : Nat)

theorem signOf_formatNat (value : Nat) : signOf (formatNat value) = (false, formatNat value) := by
  cases digits : formatNat value with
  | nil => rfl
  | cons byte rest =>
      have isDigit := formatNat_digits value byte (by rw [digits]; exact List.mem_cons_self)
      have notMinus : byte ≠ 45 := by
        rintro rfl
        exact absurd isDigit (by decide)
      have notPlus : byte ≠ 43 := by
        rintro rfl
        exact absurd isDigit (by decide)
      simp [signOf, notMinus, notPlus]

@[simp] theorem parseInt64_formatInt64 (value : Int64) : parseInt64 (formatInt64 value) = value := by
  have upper := value.toInt_lt
  have lower := value.le_toInt
  unfold formatInt64
  split
  · rename_i negative
    have below : value.toInt < 0 := by
      have less := Int64.lt_iff_toInt_lt.mp negative
      exact less
    have small : min value.toInt.natAbs (2 ^ 63) = value.toInt.natAbs := by omega
    simp only [parseInt64, signOf, if_true, parseNat?_formatNat, small]
    rw [show -((value.toInt.natAbs : Nat) : Int) = value.toInt by omega]
    exact Int64.ofInt_toInt value
  · rename_i notNegative
    have above : 0 ≤ value.toInt := by
      have notLess := (not_congr Int64.lt_iff_toInt_lt).mp notNegative
      exact not_lt.mp notLess
    have small : min value.toInt.natAbs (2 ^ 63 - 1) = value.toInt.natAbs := by omega
    simp only [parseInt64, signOf_formatNat, parseNat?_formatNat, small, Bool.false_eq_true,
      if_false]
    rw [show ((value.toInt.natAbs : Nat) : Int) = value.toInt by omega]
    exact Int64.ofInt_toInt value

@[simp] theorem parseInt64_nil : parseInt64 [] = 0 := rfl

@[simp] theorem parseUint_nil (bits : Nat) : parseUint bits [] = 0 := rfl

theorem newline_not_mem_formatNat (value : Nat) : newline ∉ formatNat value := by
  intro member
  exact absurd (formatNat_digits value _ member) (by decide)

theorem newline_not_mem_formatInt64 (value : Int64) : newline ∉ formatInt64 value := by
  unfold formatInt64
  split
  · rw [List.mem_cons]
    rintro (impossible | member)
    · exact absurd impossible (by decide)
    · exact newline_not_mem_formatNat _ member
  · exact newline_not_mem_formatNat _

end Pttbbs.Lib
