/-
Decoding of UTF-8 text rune by rune.

An ill-formed byte is read as the replacement rune of size one, so every text
is read to its end.  An ASCII byte is never part of a longer rune, so text cut
at one is read as its two halves.
-/

import Pttbbs.Lib.Text

namespace Pttbbs.Lib

def runeError : Nat := 0xfffd

def inRange (low high : Nat) (byte : UInt8) : Bool := low ≤ byte.toNat && byte.toNat ≤ high

/-- `utf8.DecodeRune`: the rune and the number of bytes it takes. -/
def decodeRune : Bytes → Nat × Nat
  | [] => (runeError, 0)
  | first :: rest =>
      let lead := first.toNat
      if lead < 0x80 then (lead, 1)
      else if lead < 0xc2 then (runeError, 1)
      else if lead < 0xe0 then
        match rest with
        | second :: _ =>
            if inRange 0x80 0xbf second then
              ((lead - 0xc0) * 64 + (second.toNat - 0x80), 2)
            else (runeError, 1)
        | [] => (runeError, 1)
      else if lead < 0xf0 then
        match rest with
        | second :: third :: _ =>
            if inRange (if lead = 0xe0 then 0xa0 else 0x80) (if lead = 0xed then 0x9f else 0xbf)
                second && inRange 0x80 0xbf third then
              ((lead - 0xe0) * 4096 + (second.toNat - 0x80) * 64 + (third.toNat - 0x80), 3)
            else (runeError, 1)
        | _ => (runeError, 1)
      else if lead < 0xf5 then
        match rest with
        | second :: third :: fourth :: _ =>
            if inRange (if lead = 0xf0 then 0x90 else 0x80) (if lead = 0xf4 then 0x8f else 0xbf)
                second && inRange 0x80 0xbf third && inRange 0x80 0xbf fourth then
              ((lead - 0xf0) * 262144 + (second.toNat - 0x80) * 4096 +
                (third.toNat - 0x80) * 64 + (fourth.toNat - 0x80), 4)
            else (runeError, 1)
        | _ => (runeError, 1)
      else (runeError, 1)

/-- The runes of a text with their sizes.  The counter skips the bytes that
belong to the rune read last. -/
def runesFrom : Nat → Bytes → List (Nat × Nat)
  | _, [] => []
  | 0, byte :: rest =>
      decodeRune (byte :: rest) :: runesFrom ((decodeRune (byte :: rest)).2 - 1) rest
  | skip + 1, _ :: rest => runesFrom skip rest

def runes (text : Bytes) : List (Nat × Nat) := runesFrom 0 text

def runeCount (text : Bytes) : Nat := (runes text).length

/-- `utf8.Valid`. -/
def validUtf8 (text : Bytes) : Bool :=
  (runes text).all (fun rune => !(rune.1 = runeError && rune.2 = 1))

private theorem ascii_not_continuation {byte : UInt8} (ascii : byte.toNat < 0x80) (low high : Nat)
    (above : 0x80 ≤ low) : inRange low high byte = false := by
  unfold inRange
  simp only [Bool.and_eq_false_iff, decide_eq_false_iff_not, not_le]
  omega

theorem decodeRune_size (first : UInt8) (rest : Bytes) :
    1 ≤ (decodeRune (first :: rest)).2 ∧
      (decodeRune (first :: rest)).2 ≤ (first :: rest).length := by
  rcases rest with _ | ⟨second, _ | ⟨third, _ | ⟨fourth, others⟩⟩⟩
  all_goals
    simp only [decodeRune, List.length_cons, List.length_nil]
    split_ifs <;> simp

theorem decodeRune_append_ascii {byte : UInt8} (ascii : byte.toNat < 0x80) (first : UInt8)
    (line rest : Bytes) :
    decodeRune (first :: (line ++ byte :: rest)) = decodeRune (first :: line) := by
  have stopTwo : inRange 0x80 0xbf byte = false :=
    ascii_not_continuation ascii _ _ (le_refl _)
  have stopThree : ∀ lead high,
      inRange (if lead = 0xe0 then 0xa0 else 0x80) high byte = false := fun lead high =>
    ascii_not_continuation ascii _ _ (by split <;> omega)
  have stopFour : ∀ lead high,
      inRange (if lead = 0xf0 then 0x90 else 0x80) high byte = false := fun lead high =>
    ascii_not_continuation ascii _ _ (by split <;> omega)
  match line with
  | [] =>
      simp only [decodeRune, List.nil_append, stopTwo]
      rcases rest with _ | ⟨second, _ | ⟨third, tail⟩⟩
      · simp
      · simp [stopThree]
      · simp [stopThree, stopFour]
  | [second] =>
      simp only [decodeRune, List.cons_append, List.nil_append, stopTwo]
      cases rest with
      | nil => simp
      | cons third tail => simp [stopTwo]
  | [second, third] => simp [decodeRune, stopTwo]
  | second :: third :: fourth :: tail => rfl

theorem runesFrom_drop (skip : Nat) (text : Bytes) :
    runesFrom skip text = runes (text.drop skip) := by
  induction skip generalizing text with
  | zero => rfl
  | succ skip ih =>
      cases text with
      | nil => cases skip <;> rfl
      | cons byte rest => exact ih rest

private theorem runesFrom_append_ascii {byte : UInt8} (ascii : byte.toNat < 0x80) (skip : Nat)
    (line rest : Bytes) (within : skip ≤ line.length) :
    runesFrom skip (line ++ byte :: rest) = runesFrom skip line ++ (byte.toNat, 1) :: runes rest := by
  induction line generalizing skip with
  | nil =>
      have zero : skip = 0 := by simpa using within
      have read : decodeRune (byte :: rest) = (byte.toNat, 1) := by
        simp only [decodeRune, if_pos ascii]
      subst zero
      change decodeRune (byte :: rest) :: runesFrom ((decodeRune (byte :: rest)).2 - 1) rest = _
      rw [read]
      rfl
  | cons first tail ih =>
      rw [List.length_cons] at within
      cases skip with
      | zero =>
          have size := decodeRune_size first tail
          rw [List.length_cons] at size
          rw [List.cons_append, runesFrom, decodeRune_append_ascii ascii, ih _ (by omega)]
          rfl
      | succ skip => exact ih skip (by omega)

theorem runes_append_ascii {byte : UInt8} (ascii : byte.toNat < 0x80) (line rest : Bytes) :
    runes (line ++ byte :: rest) = runes line ++ (byte.toNat, 1) :: runes rest :=
  runesFrom_append_ascii ascii 0 line rest (Nat.zero_le _)

end Pttbbs.Lib
