/-
Texts filtered character by character.

A grammar says which bytes begin a character that needs more of them, and which make a whole one.
The filter keeps the printable bytes and the whole characters of several bytes.  It holds what a
character has begun with; where the next byte does not fit, what it holds goes and the byte is
taken again by itself.
-/

import Mathlib.Data.List.Induction
import Pttbbs.Lib.Bytes

namespace Pttbbs.Lib

structure CharGrammar where
  isOpen : Bytes → Bool
  formed : Bytes → Bool
  single : ∀ byte, formed [byte] = true ↔ byte < 0x80
  closed : ∀ bytes, formed bytes = true → isOpen bytes = false
  openFront : ∀ held byte, held ≠ [] → isOpen (held ++ [byte]) = true → isOpen held = true
  formedFront : ∀ held byte, held ≠ [] → formed (held ++ [byte]) = true → isOpen held = true

def printable (byte : UInt8) : Bool := 32 ≤ byte && byte < 127

theorem printable_ascii {byte : UInt8} (shown : printable byte = true) : byte < 0x80 := by
  rw [printable, Bool.and_eq_true, decide_eq_true_eq, decide_eq_true_eq] at shown
  rw [UInt8.lt_iff_toNat_lt] at shown ⊢
  exact lt_trans shown.2 (by decide)

namespace CharGrammar

variable (grammar : CharGrammar)

def Good (char : Bytes) : Prop :=
  (∃ byte, char = [byte] ∧ printable byte = true) ∨ 2 ≤ char.length ∧ grammar.formed char = true

/-- What the filter makes of a byte while it holds nothing: characters and what it holds then. -/
def alone (byte : UInt8) : List Bytes × Bytes :=
  if grammar.isOpen [byte] then ([], [byte])
  else if printable byte then ([[byte]], [])
  else ([], [])

def cleanByte (held : Bytes) (byte : UInt8) : List Bytes × Bytes :=
  if grammar.isOpen (held ++ [byte]) then ([], held ++ [byte])
  else if held ≠ [] ∧ grammar.formed (held ++ [byte]) = true then ([held ++ [byte]], [])
  else grammar.alone byte

/-- The characters that the filter keeps of a text behind what it holds. -/
def cleanFrom (held : Bytes) : Bytes → List Bytes
  | [] => []
  | byte :: rest =>
      (grammar.cleanByte held byte).1 ++ cleanFrom (grammar.cleanByte held byte).2 rest

variable {grammar}

/-! ### One byte -/

theorem not_isOpen_of_printable {byte : UInt8} (shown : printable byte = true) :
    grammar.isOpen [byte] = false :=
  grammar.closed _ ((grammar.single byte).mpr (printable_ascii shown))

theorem alone_printable {byte : UInt8} (shown : printable byte = true) :
    grammar.alone byte = ([[byte]], []) := by
  rw [alone, not_isOpen_of_printable shown, if_neg Bool.false_ne_true, if_pos shown]

theorem alone_open {byte : UInt8} (opens : grammar.isOpen [byte] = true) :
    grammar.alone byte = ([], [byte]) := by
  rw [alone, if_pos opens]

theorem alone_other {byte : UInt8} (closed : grammar.isOpen [byte] = false)
    (hidden : ¬ printable byte = true) : grammar.alone byte = ([], []) := by
  rw [alone, closed, if_neg Bool.false_ne_true, if_neg hidden]

theorem cleanByte_open {held : Bytes} {byte : UInt8}
    (opens : grammar.isOpen (held ++ [byte]) = true) :
    grammar.cleanByte held byte = ([], held ++ [byte]) := by
  rw [cleanByte, if_pos opens]

theorem cleanByte_formed {held : Bytes} {byte : UInt8} (some : held ≠ [])
    (formed : grammar.formed (held ++ [byte]) = true) :
    grammar.cleanByte held byte = ([held ++ [byte]], []) := by
  rw [cleanByte, grammar.closed _ formed, if_neg Bool.false_ne_true, if_pos ⟨some, formed⟩]

theorem cleanByte_wrong {held : Bytes} {byte : UInt8}
    (closed : grammar.isOpen (held ++ [byte]) = false)
    (illFormed : grammar.formed (held ++ [byte]) = false) :
    grammar.cleanByte held byte = grammar.alone byte := by
  rw [cleanByte, closed, illFormed, if_neg Bool.false_ne_true,
    if_neg fun both => Bool.false_ne_true both.2]

theorem cleanByte_nil (byte : UInt8) : grammar.cleanByte [] byte = grammar.alone byte := by
  rw [cleanByte, List.nil_append]
  by_cases opens : grammar.isOpen [byte] = true
  · rw [if_pos opens, alone_open opens]
  · rw [if_neg opens, if_neg fun both => both.1 rfl]

theorem alone_sublist (byte : UInt8) :
    ((grammar.alone byte).1.flatten ++ (grammar.alone byte).2).Sublist [byte] := by
  unfold alone
  split
  · exact List.Sublist.refl _
  · split
    · exact List.Sublist.refl _
    · exact List.nil_sublist _

theorem cleanByte_sublist (held : Bytes) (byte : UInt8) :
    ((grammar.cleanByte held byte).1.flatten ++ (grammar.cleanByte held byte).2).Sublist
      (held ++ [byte]) := by
  unfold cleanByte
  split
  · exact List.Sublist.refl _
  · split
    · rw [List.flatten_singleton, List.append_nil]
    · exact (alone_sublist byte).trans (List.sublist_append_right _ _)

theorem alone_good {byte : UInt8} {char : Bytes} (member : char ∈ (grammar.alone byte).1) :
    grammar.Good char := by
  unfold alone at member
  split at member
  · cases member
  · split at member
    · rename_i shown
      exact Or.inl ⟨byte, List.mem_singleton.mp member, shown⟩
    · cases member

theorem cleanByte_good {held : Bytes} {byte : UInt8} {char : Bytes}
    (member : char ∈ (grammar.cleanByte held byte).1) : grammar.Good char := by
  unfold cleanByte at member
  split at member
  · cases member
  · split at member
    · rename_i both
      obtain ⟨some, formed⟩ := both
      rw [List.mem_singleton.mp member]
      have long := List.length_pos_iff.mpr some
      exact Or.inr ⟨by rw [List.length_append, List.length_singleton]; omega, formed⟩
    · exact alone_good member

/-! ### A text -/

theorem cleanFrom_sublist (held text : Bytes) :
    (grammar.cleanFrom held text).flatten.Sublist (held ++ text) := by
  induction text generalizing held with
  | nil => exact List.nil_sublist _
  | cons byte rest ih =>
      rw [cleanFrom, List.flatten_append, List.append_cons]
      exact ((ih _).append_left _).trans
        (by rw [← List.append_assoc]; exact (cleanByte_sublist held byte).append_right rest)

theorem cleanFrom_good {held text : Bytes} {char : Bytes}
    (member : char ∈ grammar.cleanFrom held text) : grammar.Good char := by
  induction text generalizing held with
  | nil => cases member
  | cons byte rest ih =>
      rcases List.mem_append.mp member with now | later
      · exact cleanByte_good now
      · exact ih later

theorem open_of_open {front back : Bytes} (some : front ≠ [])
    (opens : grammar.isOpen (front ++ back) = true) : grammar.isOpen front = true := by
  induction back using List.reverseRecOn with
  | nil =>
      rw [List.append_nil] at opens
      exact opens
  | append_singleton back byte ih =>
      rw [← List.append_assoc] at opens
      exact ih (grammar.openFront _ byte (List.append_ne_nil_of_left_ne_nil some _) opens)

theorem open_of_formed {front back : Bytes} (some : front ≠ []) (more : back ≠ [])
    (formed : grammar.formed (front ++ back) = true) : grammar.isOpen front = true := by
  obtain ⟨begun, byte, rfl⟩ := (List.eq_nil_or_concat back).resolve_left more
  rw [List.concat_eq_append, ← List.append_assoc] at formed
  have opens := grammar.formedFront _ byte (List.append_ne_nil_of_left_ne_nil some _) formed
  exact open_of_open some opens

theorem cleanFrom_rest {held more rest : Bytes} (some : held ≠ []) (left : more ≠ [])
    (formed : grammar.formed (held ++ more) = true) :
    grammar.cleanFrom held (more ++ rest) = (held ++ more) :: grammar.cleanFrom [] rest := by
  induction more generalizing held with
  | nil => contradiction
  | cons byte more ih =>
      rw [List.cons_append, cleanFrom]
      by_cases last : more = []
      · subst last
        rw [cleanByte_formed some formed, List.nil_append, List.singleton_append]
      · rw [List.append_cons] at formed
        have begun := List.append_ne_nil_of_left_ne_nil some [byte]
        rw [cleanByte_open (open_of_formed begun last formed), List.nil_append,
          ih begun last formed, ← List.append_cons]

theorem cleanFrom_char {char : Bytes} (good : grammar.Good char) (rest : Bytes) :
    grammar.cleanFrom [] (char ++ rest) = char :: grammar.cleanFrom [] rest := by
  rcases good with ⟨byte, rfl, shown⟩ | ⟨long, formed⟩
  · rw [List.singleton_append, cleanFrom, cleanByte_nil, alone_printable shown,
      List.singleton_append]
  · cases char with
    | nil => cases long
    | cons byte more =>
        have left : more ≠ [] := by
          intro empty
          subst empty
          exact absurd long (Nat.not_succ_le_self 1)
        have opens : grammar.isOpen ([] ++ [byte]) = true :=
          open_of_formed (List.cons_ne_nil _ _) left formed
        rw [List.cons_append, cleanFrom, cleanByte_open opens, List.nil_append, List.nil_append,
          cleanFrom_rest (List.cons_ne_nil _ _) left formed, List.singleton_append]

theorem cleanFrom_flatten {chars : List Bytes} (good : ∀ char ∈ chars, grammar.Good char) :
    grammar.cleanFrom [] chars.flatten = chars := by
  induction chars with
  | nil => rfl
  | cons char chars ih =>
      rw [List.flatten_cons, cleanFrom_char (good char List.mem_cons_self),
        ih fun other member => good other (List.mem_cons_of_mem _ member)]

end CharGrammar

end Pttbbs.Lib
