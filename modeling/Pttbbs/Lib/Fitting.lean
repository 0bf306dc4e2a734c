/-
Rows of units cut to a size.

Units are taken from the front while they fit.  What they join to is the longest prefix
of the whole, among those that end between two units, within the size.
-/

import Mathlib.Data.List.Basic
import Mathlib.Data.List.Flatten

namespace Pttbbs.Lib

variable {Item Symbol : Type} (unit : Item → List Symbol)

def fitting : Nat → List Item → List Item
  | _, [] => []
  | room, item :: rest =>
      if (unit item).length ≤ room then item :: fitting (room - (unit item).length) rest else []

def fit (room : Nat) (items : List Item) : List Symbol := (fitting unit room items).flatMap unit

/-- A prefix of the units of these items that is cut between two units, and none that fits
into the room is longer. -/
def LongestCut (items : List Item) (room : Nat) (symbols : List Symbol) : Prop :=
  (∃ count, symbols = (items.take count).flatMap unit) ∧ symbols.length ≤ room ∧
    ∀ count, ((items.take count).flatMap unit).length ≤ room →
      ((items.take count).flatMap unit).length ≤ symbols.length

theorem fit_cons_of_le {item : Item} {room : Nat} (rest : List Item)
    (fits : (unit item).length ≤ room) :
    fit unit room (item :: rest) = unit item ++ fit unit (room - (unit item).length) rest := by
  rw [fit, fitting, if_pos fits, List.flatMap_cons]
  rfl

theorem fit_cons_of_lt {item : Item} {room : Nat} (rest : List Item)
    (large : room < (unit item).length) : fit unit room (item :: rest) = [] := by
  rw [fit, fitting, if_neg (by omega), List.flatMap_nil]

theorem fit_zero (items : List Item) : fit unit 0 items = [] := by
  induction items with
  | nil => rfl
  | cons item rest ih =>
      by_cases empty : (unit item).length ≤ 0
      · rw [fit_cons_of_le unit rest empty, List.eq_nil_of_length_eq_zero (Nat.le_zero.mp empty)]
        exact ih
      · exact fit_cons_of_lt unit rest (by omega)

theorem fit_length_le (room : Nat) (items : List Item) : (fit unit room items).length ≤ room := by
  induction items generalizing room with
  | nil => exact Nat.zero_le _
  | cons item rest ih =>
      by_cases fits : (unit item).length ≤ room
      · have behind := ih (room - (unit item).length)
        rw [fit_cons_of_le unit rest fits, List.length_append]
        omega
      · rw [fit_cons_of_lt unit rest (by omega)]
        exact Nat.zero_le _

theorem fitting_eq_take (room : Nat) (items : List Item) :
    fitting unit room items = items.take (fitting unit room items).length := by
  induction items generalizing room with
  | nil => rfl
  | cons item rest ih =>
      by_cases fits : (unit item).length ≤ room
      · rw [fitting, if_pos fits, List.length_cons, List.take_succ_cons, ← ih]
      · rw [fitting, if_neg fits]
        rfl

theorem fit_longest (room : Nat) (items : List Item) (count : Nat)
    (fits : ((items.take count).flatMap unit).length ≤ room) :
    ((items.take count).flatMap unit).length ≤ (fit unit room items).length := by
  induction items generalizing room count with
  | nil => rw [List.take_nil]; exact Nat.zero_le _
  | cons item rest ih =>
      cases count with
      | zero => exact Nat.zero_le _
      | succ count =>
          rw [List.take_succ_cons, List.flatMap_cons, List.length_append] at fits ⊢
          have behind := ih (room - (unit item).length) count (by omega)
          rw [fit_cons_of_le unit rest (by omega), List.length_append]
          omega

theorem fitting_next (room : Nat) (items : List Item) :
    ∀ next ∈ items[(fitting unit room items).length]?,
      room < (fit unit room items).length + (unit next).length := by
  induction items generalizing room with
  | nil => simp
  | cons item rest ih =>
      intro next member
      by_cases fits : (unit item).length ≤ room
      · rw [fitting, if_pos fits, List.length_cons, List.getElem?_cons_succ] at member
        have behind := ih (room - (unit item).length) next member
        rw [fit_cons_of_le unit rest fits, List.length_append]
        omega
      · rw [fitting, if_neg fits, List.length_nil, List.getElem?_cons_zero] at member
        rw [fit_cons_of_lt unit rest (by omega), ← Option.some.inj member, List.length_nil]
        omega

theorem longestCut_iff (items : List Item) (room : Nat) (symbols : List Symbol) :
    LongestCut unit items room symbols ↔ symbols = fit unit room items := by
  have cut : fit unit room items =
      (items.take (fitting unit room items).length).flatMap unit := by
    rw [← fitting_eq_take]
    rfl
  constructor
  · rintro ⟨⟨count, rfl⟩, inside, longest⟩
    have short := fit_longest unit room items count inside
    have long := longest (fitting unit room items).length (by
      rw [← cut]
      exact fit_length_le unit _ items)
    rw [← cut] at long
    have prefixes : ∀ count, (items.take count).flatMap unit <+: items.flatMap unit := by
      intro count
      refine ⟨(items.drop count).flatMap unit, ?_⟩
      rw [← List.flatMap_append, List.take_append_drop]
    have cutPrefix := prefixes (fitting unit room items).length
    rw [← cut] at cutPrefix
    exact (List.prefix_of_prefix_length_le (prefixes count) cutPrefix short).eq_of_length
      (Nat.le_antisymm short long)
  · rintro rfl
    exact ⟨⟨_, cut⟩, fit_length_le unit room items, fun count => fit_longest unit room items count⟩

theorem fitting_of_length_le {room : Nat} {items : List Item}
    (fits : (items.flatMap unit).length ≤ room) : fitting unit room items = items := by
  induction items generalizing room with
  | nil => rfl
  | cons item rest ih =>
      rw [List.flatMap_cons, List.length_append] at fits
      rw [fitting, if_pos (by omega), ih (by omega)]

theorem fit_of_length_le {room : Nat} {items : List Item}
    (fits : (items.flatMap unit).length ≤ room) : fit unit room items = items.flatMap unit := by
  rw [fit, fitting_of_length_le unit fits]

theorem fitting_front {written items : List Item} (front : written <+: items) (room : Nat) :
    fitting unit room written = (fitting unit room items).take written.length := by
  induction written generalizing items room with
  | nil => rfl
  | cons item rest ih =>
      obtain ⟨behind, rfl⟩ := front
      rw [List.cons_append, fitting, fitting]
      split
      · rw [ih (List.prefix_append rest behind), List.length_cons, List.take_succ_cons]
      · rfl

theorem fit_front {written items : List Item} (front : written <+: items) (room : Nat) :
    fit unit room items = fit unit room written ++
      ((fitting unit room items).drop written.length).flatMap unit := by
  rw [fit, fit, fitting_front unit front, ← List.flatMap_append, List.take_append_drop]

end Pttbbs.Lib
