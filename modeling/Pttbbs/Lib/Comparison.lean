/-
Comparisons as `qsort` takes them.

The standard promises nothing of `qsort` when the comparison is inconsistent on the array, so what
it leaves is a relation: an order of the items by the comparison where that is consistent, and
anything at all where it is not.
-/

import Mathlib.Data.List.Pairwise
import Mathlib.Order.Fin.Basic
import Mathlib.Data.Prod.Lex

namespace Pttbbs.Lib.Comparison

variable {Item : Type} {cmp : Item → Item → Int} {items result : List Item}

/-- The results for the two orders of a pair of items have opposite signs or are both zero. -/
def Opposite (there back : Int) : Prop :=
  (there < 0 ∧ 0 < back) ∨ (0 < there ∧ back < 0) ∨ (there = 0 ∧ back = 0)

theorem not_opposite_self {result : Int} (nonzero : result ≠ 0) : ¬ Opposite result result := by
  unfold Opposite
  omega

/-- The comparison orders the items at the different places of a list. -/
structure ConsistentOn (cmp : Item → Item → Int) (items : List Item) : Prop where
  opposite : ∀ i j : Fin items.length, i ≠ j →
    Opposite (cmp (items.get i) (items.get j)) (cmp (items.get j) (items.get i))
  transitive : ∀ i j k : Fin items.length, i ≠ j → j ≠ k → i ≠ k →
    cmp (items.get i) (items.get j) ≤ 0 → cmp (items.get j) (items.get k) ≤ 0 →
      cmp (items.get i) (items.get k) ≤ 0

def QsortLeaves (cmp : Item → Item → Int) (items result : List Item) : Prop :=
  ConsistentOn cmp items →
    result.Perm items ∧ result.Pairwise fun left right => cmp left right ≤ 0

def AtMostOne (kind : Item → Prop) (items : List Item) : Prop :=
  items.Pairwise fun left right => ¬ (kind left ∧ kind right)

theorem AtMostOne.apart {kind : Item → Prop} (single : AtMostOne kind items)
    {i j : Fin items.length} (differ : i ≠ j) : ¬ (kind (items.get i) ∧ kind (items.get j)) := by
  have ordered := List.pairwise_iff_get.mp single
  rcases lt_or_gt_of_ne differ with before | after
  · exact ordered i j before
  · exact fun both => ordered j i after both.symm

theorem AtMostOne.of_apart {kind : Item → Prop}
    (apart : ∀ i j : Fin items.length, i ≠ j → ¬ (kind (items.get i) ∧ kind (items.get j))) :
    AtMostOne kind items :=
  List.pairwise_iff_get.mpr fun i j before => apart i j (ne_of_lt before)

theorem AtMostOne.filter {kind : Item → Prop} (single : AtMostOne kind items)
    (kept : Item → Bool) : AtMostOne kind (items.filter kept) :=
  List.Pairwise.filter kept single

theorem AtMostOne.perm {kind : Item → Prop} (single : AtMostOne kind items)
    (same : result.Perm items) : AtMostOne kind result :=
  (List.Perm.pairwise_iff (fun apart both => apart both.symm) same).mpr single

section Keys

variable {Key : Type} [LinearOrder Key]

structure SignOf (key : Item → Key) (left right : Item) (result : Int) : Prop where
  neg : result < 0 ↔ key left < key right
  zero : result = 0 ↔ key left = key right

theorem SignOf.le_zero {key : Item → Key} {left right : Item} {result : Int}
    (sign : SignOf key left right result) : result ≤ 0 ↔ key left ≤ key right := by
  rw [le_iff_lt_or_eq, le_iff_lt_or_eq, sign.neg, sign.zero]

theorem SignOf.pos {key : Item → Key} {left right : Item} {result : Int}
    (sign : SignOf key left right result) : 0 < result ↔ key right < key left := by
  rw [← not_le, ← not_le, sign.le_zero]

theorem SignOf.of_lt {key : Item → Key} {left right : Item} (less : key left < key right) :
    SignOf key left right (-1) := by
  constructor
  · exact iff_of_true (by decide) less
  · exact iff_of_false (by decide) less.ne

theorem SignOf.of_gt {key : Item → Key} {left right : Item} (more : key right < key left) :
    SignOf key left right 1 := by
  constructor
  · exact iff_of_false (by decide) more.asymm
  · exact iff_of_false (by decide) more.ne'

theorem SignOf.lex {Second : Type} [LinearOrder Second] {key : Item → Key} {second : Item → Second}
    {left right : Item} {result other : Int} (first : SignOf key left right result)
    (next : SignOf second left right other) :
    SignOf (fun item => toLex (key item, second item)) left right
      (if result ≠ 0 then result else other) := by
  by_cases differ : result ≠ 0
  · have apart : key left ≠ key right := fun same => differ (first.zero.mpr same)
    rw [if_pos differ]
    constructor
    · rw [first.neg, Prod.Lex.toLex_lt_toLex]
      exact ⟨Or.inl, fun less => less.resolve_right fun both => apart both.1⟩
    · refine iff_of_false differ fun same => apart ?_
      exact congrArg (fun pair => (ofLex pair).1) same
  · have same := first.zero.mp (not_ne_iff.mp differ)
    rw [if_neg differ]
    constructor
    · rw [next.neg, Prod.Lex.toLex_lt_toLex]
      exact ⟨fun less => Or.inr ⟨same, less⟩, fun less =>
        (less.resolve_left (same ▸ lt_irrefl _)).2⟩
    · rw [next.zero]
      constructor
      · intro equal
        rw [same, equal]
      · intro both
        exact congrArg (fun pair => (ofLex pair).2) both

theorem consistentOn_of_sign {key : Item → Key}
    (sign : ∀ i j : Fin items.length, i ≠ j →
      SignOf key (items.get i) (items.get j) (cmp (items.get i) (items.get j))) :
    ConsistentOn cmp items := by
  constructor
  · intro i j differ
    have there := sign i j differ
    have back := sign j i differ.symm
    rcases lt_trichotomy (key (items.get i)) (key (items.get j)) with less | same | more
    · exact Or.inl ⟨there.neg.mpr less, back.pos.mpr less⟩
    · exact Or.inr (Or.inr ⟨there.zero.mpr same, back.zero.mpr same.symm⟩)
    · exact Or.inr (Or.inl ⟨there.pos.mpr more, back.neg.mpr more⟩)
  · intro i j k first second outer below above
    have low := (sign i j first).le_zero.mp below
    have high := (sign j k second).le_zero.mp above
    exact (sign i k outer).le_zero.mpr (low.trans high)

end Keys

end Pttbbs.Lib.Comparison
