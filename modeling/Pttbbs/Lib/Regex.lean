/-
Regular expressions over bytes.

A match is found as a backtracking matcher finds it: the leftmost start wins, and from
one start the alternatives are tried in the order in which they are written, a repetition
first with as many rounds as it can.  The candidates are listed in that order.
-/

import Pttbbs.Lib.Text

namespace Pttbbs.Lib

inductive Regex where
  | empty
  | byte (accept : UInt8 → Bool)
  | seq (first second : Regex)
  | alt (first second : Regex)
  | star (body : Regex)
  | group (index : Nat) (body : Regex)
  | ending

namespace Regex

structure Cursor where
  position : Nat
  rest : Bytes
  groups : List (Nat × Nat × Nat)

/-- As many rounds as there are, then fewer.  A round that consumes nothing is not made. -/
def rounds (step : Cursor → List Cursor) : Nat → Cursor → List Cursor
  | 0, cursor => [cursor]
  | bound + 1, cursor =>
      ((step cursor).filter fun next => cursor.position < next.position).flatMap
        (rounds step bound) ++ [cursor]

def candidates : Regex → Cursor → List Cursor
  | empty, cursor => [cursor]
  | byte accept, cursor =>
      match cursor.rest with
      | [] => []
      | first :: rest => if accept first then [⟨cursor.position + 1, rest, cursor.groups⟩] else []
  | seq first second, cursor => (first.candidates cursor).flatMap second.candidates
  | alt first second, cursor => first.candidates cursor ++ second.candidates cursor
  | star body, cursor => rounds body.candidates cursor.rest.length cursor
  | group index body, cursor =>
      (body.candidates cursor).map fun next =>
        { next with groups := (index, cursor.position, next.position) :: next.groups }
  | ending, cursor => if cursor.rest = [] then [cursor] else []

structure Match where
  start : Nat
  stop : Nat
  groups : List (Nat × Nat × Nat)

def matchAt (pattern : Regex) (text : Bytes) (start : Nat) : Option Match :=
  ((pattern.candidates ⟨start, text.drop start, []⟩).head?).map fun cursor =>
    ⟨start, cursor.position, cursor.groups⟩

def find? (pattern : Regex) (text : Bytes) : Option Match :=
  (List.range (text.length + 1)).findSome? (pattern.matchAt text)

/-- A match of a pattern that begins with `^`. -/
def findStart? (pattern : Regex) (text : Bytes) : Option Match := pattern.matchAt text 0

def Match.range? (found : Match) (index : Nat) : Option (Nat × Nat) :=
  (found.groups.find? fun entry => entry.1 = index).map Prod.snd

def Match.text (found : Match) (source : Bytes) (index : Nat) : Bytes :=
  match found.range? index with
  | some (start, stop) => (source.drop start).take (stop - start)
  | none => []

/-! ### Ways to write patterns -/

def literal (text : Bytes) : Regex :=
  text.foldr (fun first rest => seq (byte (· = first)) rest) empty

def optional (body : Regex) : Regex := alt body empty

def plus (body : Regex) : Regex := seq body (star body)

def chain (parts : List Regex) : Regex := parts.foldr seq empty

def choice (first : Regex) (others : List Regex) : Regex :=
  others.foldl alt first

/-- `r{1,n}`, greedily. -/
def upTo (body : Regex) : Nat → Regex
  | 0 => empty
  | 1 => body
  | count + 1 => seq body (optional (upTo body count))

def space : Regex := byte fun value => value ∈ [9, 10, 12, 13, 32]

def digit : Regex := byte isDigitByte

/-- `[A-Za-z0-9_]` and some more bytes. -/
def word (more : Bytes) : Regex := byte fun value =>
  (65 ≤ value && value ≤ 90) || (97 ≤ value && value ≤ 122) || isDigitByte value ||
    value = 95 || value ∈ more

def hexDigit : Regex := byte fun value =>
  isDigitByte value || (97 ≤ value && value ≤ 102) || (65 ≤ value && value ≤ 70)

/-- `.`: anything but a line break. -/
def any : Regex := byte (· ≠ newline)

end Regex

end Pttbbs.Lib
