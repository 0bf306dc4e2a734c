/-
Writers whose lines stand in documents.

Every writer that has written has a place: a document and an offset at which its
lines stand, and no two writers share a line.  Appending to a document gives a
writer its place; keeping a copy of a document before it is overwritten moves
the writers in it to the copy.
-/

import Mathlib.Logic.Function.Basic

namespace Pttbbs.Lib

structure Place (Doc : Type) where
  doc : Doc
  offset : Nat
deriving DecidableEq

variable {Writer Doc Line : Type}

structure Placed (text : Doc → Option (List Line)) (lines : Writer → List Line)
    (wrote : Writer → Prop) (place : Writer → Place Doc) : Prop where
  found : ∀ writer, wrote writer → ∃ before after,
    text (place writer).doc = some (before ++ lines writer ++ after) ∧
      before.length = (place writer).offset
  apart : ∀ writer other, wrote writer → wrote other → writer ≠ other →
    (place writer).doc = (place other).doc →
      (place writer).offset + (lines writer).length ≤ (place other).offset ∨
        (place other).offset + (lines other).length ≤ (place writer).offset

namespace Placed

variable {text changed : Doc → Option (List Line)} {lines : Writer → List Line}
  {wrote : Writer → Prop} {place : Writer → Place Doc}

theorem nobody (text : Doc → Option (List Line)) (lines : Writer → List Line)
    (place : Writer → Place Doc) : Placed text lines (fun _ => False) place :=
  ⟨fun _ none => none.elim, fun _ _ none => none.elim⟩

theorem congr (placed : Placed text lines wrote place)
    (same : ∀ doc, (text doc).isSome → changed doc = text doc) :
    Placed changed lines wrote place := by
  refine ⟨fun writer written => ?_, placed.apart⟩
  obtain ⟨before, after, here, length⟩ := placed.found writer written
  exact ⟨before, after, (same _ (by rw [here]; rfl)).trans here, length⟩

theorem isSome (placed : Placed text lines wrote place) {writer : Writer}
    (written : wrote writer) : (text (place writer).doc).isSome := by
  obtain ⟨before, after, here, _length⟩ := placed.found writer written
  rw [here]
  rfl

theorem append [DecidableEq Writer] (placed : Placed text lines wrote place)
    (writer : Writer) (doc : Doc) (old : List Line)
    (before : text doc = some old ∨ text doc = none ∧ old = [])
    (here : changed doc = some (old ++ lines writer))
    (others : ∀ other, other ≠ doc → changed other = text other) (fresh : ¬ wrote writer) :
    Placed changed lines (fun other => wrote other ∨ other = writer)
      (Function.update place writer ⟨doc, old.length⟩) := by
  -- Whoever stood in the document stands in its old part.
  have stands : ∀ other, wrote other → (place other).doc = doc → ∃ front back,
      old = front ++ lines other ++ back ∧ front.length = (place other).offset := by
    intro other written inside
    obtain ⟨front, back, found, length⟩ := placed.found other written
    rw [inside] at found
    rcases before with whole | ⟨missing, _nil⟩
    · exact ⟨front, back, Option.some.inj (whole.symm.trans found), length⟩
    · rw [missing] at found
      cases found
  have early : ∀ other, wrote other → (place other).doc = doc →
      (place other).offset + (lines other).length ≤ old.length := by
    intro other written inside
    obtain ⟨front, back, split, length⟩ := stands other written inside
    have total := congrArg List.length split
    simp only [List.length_append] at total
    omega
  have still : ∀ {other}, wrote other → other ≠ writer := by
    intro other written same
    exact fresh (same ▸ written)
  constructor
  · rintro other (written | rfl)
    · rw [Function.update_of_ne (still written)]
      by_cases inside : (place other).doc = doc
      · obtain ⟨front, back, split, length⟩ := stands other written inside
        refine ⟨front, back ++ lines writer, ?_, length⟩
        rw [inside, here, split]
        simp only [List.append_assoc]
      · rw [others _ inside]
        exact placed.found other written
    · rw [Function.update_self]
      exact ⟨old, [], by rw [List.append_nil]; exact here, rfl⟩
  · rintro left right (leftWrote | rfl) (rightWrote | rfl) different
    · rw [Function.update_of_ne (still leftWrote), Function.update_of_ne (still rightWrote)]
      exact placed.apart left right leftWrote rightWrote different
    · rw [Function.update_of_ne (still leftWrote), Function.update_self]
      intro inside
      exact Or.inl (early left leftWrote inside)
    · rw [Function.update_of_ne (still rightWrote), Function.update_self]
      intro inside
      exact Or.inr (early right rightWrote inside.symm)
    · exact absurd rfl different

theorem move [DecidableEq Doc] (placed : Placed text lines wrote place) (doc copy : Doc)
    (kept : changed copy = text doc) (others : ∀ other, other ≠ doc → changed other = text other)
    (empty : ∀ writer, wrote writer → (place writer).doc ≠ copy) :
    Placed changed lines wrote (fun writer =>
      if (place writer).doc = doc then ⟨copy, (place writer).offset⟩ else place writer) := by
  constructor
  · intro writer written
    obtain ⟨before, after, found, length⟩ := placed.found writer written
    by_cases inside : (place writer).doc = doc
    · rw [if_pos inside]
      exact ⟨before, after, by rw [kept, ← inside]; exact found, length⟩
    · rw [if_neg inside]
      exact ⟨before, after, by rw [others _ inside]; exact found, length⟩
  · intro left right leftWrote rightWrote different
    by_cases leftInside : (place left).doc = doc
    · by_cases rightInside : (place right).doc = doc
      · rw [if_pos leftInside, if_pos rightInside]
        intro _same
        exact placed.apart left right leftWrote rightWrote different
          (leftInside.trans rightInside.symm)
      · rw [if_pos leftInside, if_neg rightInside]
        intro same
        exact absurd same.symm (empty right rightWrote)
    · by_cases rightInside : (place right).doc = doc
      · rw [if_neg leftInside, if_pos rightInside]
        intro same
        exact absurd same (empty left leftWrote)
      · rw [if_neg leftInside, if_neg rightInside]
        exact placed.apart left right leftWrote rightWrote different

theorem mono (placed : Placed text lines wrote place) {fewer : Writer → Prop}
    (sub : ∀ writer, fewer writer → wrote writer) : Placed text lines fewer place :=
  ⟨fun writer written => placed.found writer (sub writer written),
    fun left right leftWrote rightWrote =>
      placed.apart left right (sub left leftWrote) (sub right rightWrote)⟩

end Placed

end Pttbbs.Lib
