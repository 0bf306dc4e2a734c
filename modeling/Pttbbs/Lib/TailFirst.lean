/-
Lists that are reduced from their end.

A list that takes too much room is reduced element by element, the last one first, and no
further than it has to be.
-/

import Mathlib.Data.List.Basic

namespace Pttbbs.Lib

variable {α : Type} (cut : α → α)

def tailCut (kept : Nat) (list : List α) : List α := list.take kept ++ (list.drop kept).map cut

/-- No fewer elements have been reduced than had to be. -/
structure LeastCut (fits : List α → Prop) (list : List α) (kept : Nat) : Prop where
  bound : kept ≤ list.length
  least : kept = list.length ∨ ¬ fits (tailCut cut (kept + 1) list)
  enough : fits (tailCut cut kept list) ∨ kept = 0

section TailCut

variable {cut} {before after list : List α} {element : α} {kept : Nat}

theorem length_tailCut : (tailCut cut kept list).length = list.length := by
  unfold tailCut
  rw [List.length_append, List.length_map, List.length_take, List.length_drop]
  omega

theorem tailCut_length : tailCut cut list.length list = list := by
  unfold tailCut
  rw [List.take_length, List.drop_length, List.map_nil, List.append_nil]

theorem tailCut_zero : tailCut cut 0 list = list.map cut := rfl

theorem tailCut_append_of_le (inside : kept ≤ before.length) :
    tailCut cut kept (before ++ list) = tailCut cut kept before ++ list.map cut := by
  unfold tailCut
  rw [List.take_append_of_le_length inside, List.drop_append_of_le_length inside, List.map_append,
    List.append_assoc]

theorem tailCut_append_of_ge (past : before.length ≤ kept) :
    tailCut cut kept (before ++ list) = before ++ tailCut cut (kept - before.length) list := by
  unfold tailCut
  rw [List.take_append, List.drop_append, List.take_of_length_le past,
    List.drop_eq_nil_of_le past, List.nil_append, List.append_assoc]

theorem map_cut_of_fixed (fixed : ∀ other ∈ list, cut other = other) : list.map cut = list :=
  (List.map_congr_left fixed).trans (List.map_id list)

theorem tailCut_of_fixed (fixed : ∀ other ∈ list, cut other = other) :
    tailCut cut kept list = list := by
  unfold tailCut
  rw [map_cut_of_fixed fun other member => fixed other (List.mem_of_mem_drop member),
    List.take_append_drop]

theorem tailCut_behind (fixed : ∀ other ∈ after, cut other = other)
    (past : before.length < kept) :
    tailCut cut kept (before ++ element :: after) = before ++ element :: after := by
  rw [tailCut_append_of_ge (Nat.le_of_lt past)]
  obtain ⟨more, rest⟩ : ∃ more, kept - before.length = more + 1 := ⟨kept - before.length - 1, by omega⟩
  rw [rest]
  unfold tailCut
  rw [List.take_succ_cons, List.drop_succ_cons,
    map_cut_of_fixed fun other member => fixed other (List.mem_of_mem_drop member),
    List.cons_append, List.take_append_drop]

theorem LeastCut.step {fits : List α → Prop} (again : ∀ other, cut (cut other) = cut other)
    (fixed : ∀ other ∈ after, cut other = other) (full : ¬ fits (before ++ element :: after))
    (least : LeastCut cut fits (before ++ cut element :: after) kept) :
    ∃ kept', tailCut cut kept' (before ++ element :: after) =
        tailCut cut kept (before ++ cut element :: after) ∧
      LeastCut cut fits (before ++ element :: after) kept' := by
  have whole : tailCut cut (before.length + 1) (before ++ element :: after) =
      before ++ element :: after := tailCut_behind fixed (Nat.lt_succ_self _)
  have here : tailCut cut before.length (before ++ element :: after) =
      before ++ cut element :: after := by
    rw [tailCut_append_of_le (Nat.le_refl _), tailCut_length, List.map_cons,
      map_cut_of_fixed fixed]
  have length : before.length ≤ (before ++ element :: after).length := by
    rw [List.length_append]
    exact Nat.le_add_right _ _
  by_cases past : before.length < kept
  · -- One reduction was enough.
    have same : tailCut cut kept (before ++ cut element :: after) = before ++ cut element :: after :=
      tailCut_behind fixed past
    refine ⟨before.length, here.trans same.symm, length, Or.inr (by rw [whole]; exact full),
      Or.inl ?_⟩
    rw [here, ← same]
    exact least.enough.resolve_right (by omega)
  · have inside : kept ≤ before.length := Nat.le_of_not_lt past
    have same : ∀ {count}, count ≤ before.length →
        tailCut cut count (before ++ element :: after) =
          tailCut cut count (before ++ cut element :: after) := by
      intro count bound
      rw [tailCut_append_of_le bound, tailCut_append_of_le bound, List.map_cons, List.map_cons,
        again]
    refine ⟨kept, same inside, Nat.le_trans inside length, Or.inr ?_, ?_⟩
    · by_cases last : kept = before.length
      · rw [last, whole]
        exact full
      · rw [same (by omega)]
        apply least.least.resolve_left
        rw [List.length_append, List.length_cons]
        omega
    · rw [same inside]
      exact least.enough

theorem LeastCut.of_fixed {fits : List α → Prop} (fixed : ∀ other ∈ list, cut other = other)
    (full : ¬ fits list) : LeastCut cut fits list 0 := by
  refine ⟨Nat.zero_le _, Or.inr ?_, Or.inr rfl⟩
  rw [tailCut_of_fixed fixed]
  exact full

theorem LeastCut.of_fits {fits : List α → Prop} (fine : fits list) :
    LeastCut cut fits list list.length :=
  ⟨Nat.le_refl _, Or.inl rfl, Or.inl (by rw [tailCut_length]; exact fine)⟩

end TailCut

/-! ### Dropping -/

/-- No more elements have been dropped from the end than had to be. -/
structure LeastDrop (fits : List α → Prop) (list : List α) (kept : Nat) : Prop where
  bound : kept ≤ list.length
  least : kept = list.length ∨ ¬ fits (list.take (kept + 1))
  enough : fits (list.take kept)

theorem LeastDrop.step {fits : List α → Prop} {before : List α} {element : α} {kept : Nat}
    (full : ¬ fits (before ++ [element])) (least : LeastDrop fits before kept) :
    LeastDrop fits (before ++ [element]) kept := by
  have bound := least.bound
  have same : (before ++ [element]).take kept = before.take kept :=
    List.take_append_of_le_length bound
  refine ⟨?_, Or.inr ?_, same ▸ least.enough⟩
  · rw [List.length_append]
    exact Nat.le_trans bound (Nat.le_add_right _ _)
  · by_cases last : kept = before.length
    · have all : (before ++ [element]).take (kept + 1) = before ++ [element] := by
        apply List.take_of_length_le
        rw [List.length_append, last]
        exact Nat.le_refl _
      rw [all]
      exact full
    · rw [List.take_append_of_le_length (by omega)]
      exact least.least.resolve_left last

end Pttbbs.Lib
