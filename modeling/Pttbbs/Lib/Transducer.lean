/-
Transducers that are called with a part of their input and a bounded room for their output.

A transducer writes something for each character.  It stops where the room is short, or where
more input is needed to tell what the next character is, and is called again from there.
-/

import Mathlib.Data.List.Basic

namespace Pttbbs.Lib

variable {Symbol Out : Type}

inductive Shortage where
  | dst
  | src
deriving DecidableEq, Repr

/-- What a call has written, how much of its source it has taken, and why it has stopped. -/
structure Transformed (Out : Type) where
  written : List Out
  nSrc : Nat
  err : Option Shortage
deriving DecidableEq, Repr

def Transformed.stop (err : Option Shortage) : Transformed Out := { written := [], nSrc := 0, err }

def Transformed.after (written : List Out) (size : Nat) (behind : Transformed Out) :
    Transformed Out :=
  { behind with written := written ++ behind.written, nSrc := size + behind.nSrc }

/-- A call, with whether the source ends the input, and the room. -/
abbrev Transform (Symbol Out : Type) := Bool → Nat → List Symbol → Transformed Out

/-- Calls until the input has ended, each with a chunk of what is left and some room. -/
inductive Feeds (transform : Transform Symbol Out) (least : Nat) : List Symbol → List Out → Prop
  where
  | last {input : List Symbol} {room : Nat} (roomy : least ≤ room)
      (ends : (transform true room input).err = none) :
      Feeds transform least input (transform true room input).written
  | call {input chunk : List Symbol} {out : List Out} {atEOF : Bool} {room : Nat}
      (roomy : least ≤ room) (front : chunk <+: input) (all : atEOF = true → chunk = input)
      (more : Feeds transform least (input.drop (transform atEOF room chunk).nSrc) out) :
      Feeds transform least input ((transform atEOF room chunk).written ++ out)

/-- Whatever the chunks and the rooms are, the calls write what one function makes of the input,
and a call with enough room takes something or asks for more than a few symbols. -/
structure Streams (transform : Transform Symbol Out) (least lookahead : Nat)
    (convert : List Symbol → List Out) : Prop where
  runs : ∀ input out, Feeds transform least input out ↔ out = convert input
  progress : ∀ atEOF room source, least ≤ room → source ≠ [] →
    (transform atEOF room source).nSrc = 0 → atEOF = false ∧ source.length < lookahead

/-- What is written for the first character of a source, and how many symbols it has. -/
structure Transducer (Symbol Out : Type) where
  first : List Symbol → List Out × Nat
  /-- The first character is the same whatever follows the source. -/
  whole : List Symbol → Bool
  longest : Nat
  lookahead : Nat
  size : ∀ source, source ≠ [] → 0 < (first source).2 ∧ (first source).2 ≤ source.length
  stays : ∀ source behind, source ≠ [] → whole source = true →
    first (source ++ behind) = first source
  bound : ∀ source, source ≠ [] → (first source).1.length ≤ longest
  enough : ∀ source, lookahead ≤ source.length → whole source = true

namespace Transducer

variable (transducer : Transducer Symbol Out)

def all : List Symbol → List Out
  | [] => []
  | symbol :: rest =>
      let first := transducer.first (symbol :: rest)
      first.1 ++ all (rest.drop (first.2 - 1))
termination_by input => input.length
decreasing_by
  rw [List.length_drop, List.length_cons]
  omega

def transform (atEOF : Bool) (room : Nat) : List Symbol → Transformed Out
  | [] => .stop none
  | symbol :: rest =>
      if atEOF = false ∧ transducer.whole (symbol :: rest) = false then .stop (some .src)
      else
        let first := transducer.first (symbol :: rest)
        if room < first.1.length then .stop (some .dst)
        else
          .after first.1 first.2
            (transform atEOF (room - first.1.length) (rest.drop (first.2 - 1)))
termination_by source => source.length
decreasing_by
  rw [List.length_drop, List.length_cons]
  omega

theorem drop_first (symbol : Symbol) (rest : List Symbol) :
    (symbol :: rest).drop (transducer.first (symbol :: rest)).2 =
      rest.drop ((transducer.first (symbol :: rest)).2 - 1) := by
  have size := (transducer.size (symbol :: rest) (List.cons_ne_nil symbol rest)).1
  obtain ⟨before, same⟩ := Nat.exists_eq_succ_of_ne_zero (Nat.ne_of_gt size)
  rw [same, List.drop_succ_cons, Nat.succ_sub_one]

theorem all_cons (symbol : Symbol) (rest : List Symbol) :
    transducer.all (symbol :: rest) =
      (transducer.first (symbol :: rest)).1 ++
        transducer.all ((symbol :: rest).drop (transducer.first (symbol :: rest)).2) := by
  rw [all, drop_first]

variable {transducer}

/-- What one call does, for a source with some input behind it. -/
structure Advances (atEOF : Bool) (source : List Symbol) (result : Transformed Out) : Prop where
  within : result.nSrc ≤ source.length
  finished : result.err = none → result.nSrc = source.length
  written : ∀ behind, (atEOF = true → behind = []) →
    transducer.all (source ++ behind) =
      result.written ++ transducer.all ((source ++ behind).drop result.nSrc)

theorem advances_stop (atEOF : Bool) (source : List Symbol) {err : Option Shortage}
    (unfinished : err = none → source = []) :
    @Advances Symbol Out transducer atEOF source (.stop err) where
  within := Nat.zero_le _
  finished none := by rw [unfinished none]; rfl
  written _ _ := rfl

theorem first_append {atEOF : Bool} {symbol : Symbol} {rest behind : List Symbol}
    (known : ¬ (atEOF = false ∧ transducer.whole (symbol :: rest) = false))
    (ends : atEOF = true → behind = []) :
    transducer.first (symbol :: rest ++ behind) = transducer.first (symbol :: rest) := by
  cases atEOF with
  | true => rw [ends rfl, List.append_nil]
  | false =>
      refine transducer.stays _ _ (List.cons_ne_nil symbol rest) ?_
      simpa using known

theorem transform_advances (atEOF : Bool) (room : Nat) (source : List Symbol) :
    @Advances Symbol Out transducer atEOF source (transducer.transform atEOF room source) := by
  induction room, source using transform.induct transducer atEOF with
  | case1 room =>
      rw [transform]
      exact advances_stop atEOF [] (fun _ => rfl)
  | case2 room symbol rest unknown =>
      rw [transform, if_pos unknown]
      exact advances_stop atEOF _ (fun none => by cases none)
  | case3 room symbol rest known first short =>
      rw [transform, if_neg known]
      dsimp only
      rw [if_pos short]
      exact advances_stop atEOF _ (fun none => by cases none)
  | case4 room symbol rest known first fits ih =>
      have isFirst : transducer.first (symbol :: rest) = first := rfl
      have dropped := transducer.drop_first symbol rest
      obtain ⟨_, size⟩ := transducer.size (symbol :: rest) (List.cons_ne_nil symbol rest)
      have same := fun behind =>
        @first_append Symbol Out transducer atEOF symbol rest behind known
      have split := fun behind => transducer.all_cons symbol (rest ++ behind)
      rw [transform, if_neg known]
      dsimp only
      simp only [isFirst] at dropped size same ⊢
      rw [if_neg fits]
      have lengths : (rest.drop (first.2 - 1)).length + first.2 = (symbol :: rest).length := by
        rw [← dropped, List.length_drop]
        exact Nat.sub_add_cancel size
      have within := ih.within
      clear_value first
      constructor
      · change first.2 + _ ≤ _
        omega
      · intro none
        have finished := ih.finished none
        change first.2 + _ = _
        omega
      · intro behind ends
        have rest_drop : (symbol :: (rest ++ behind)).drop first.2 =
            rest.drop (first.2 - 1) ++ behind := by
          rw [← List.cons_append, List.drop_append_of_le_length size, dropped]
        have front := same behind ends
        rw [List.cons_append] at front ⊢
        rw [split, front, rest_drop, ih.written behind ends]
        change _ = first.1 ++ _ ++ transducer.all
          ((symbol :: (rest ++ behind)).drop (first.2 + _))
        rw [← List.drop_drop, rest_drop, List.append_assoc]

theorem feeds_all {least : Nat} {input : List Symbol} {out : List Out}
    (feeds : Feeds transducer.transform least input out) : out = transducer.all input := by
  induction feeds with
  | @last input room roomy ends =>
      have advances := @transform_advances Symbol Out transducer true room input
      have written := advances.written [] (fun _ => rfl)
      rw [List.append_nil, advances.finished ends, List.drop_length, all, List.append_nil] at written
      exact written.symm
  | @call input chunk out atEOF room roomy front whole more ih =>
      obtain ⟨behind, rfl⟩ := front
      have advances := @transform_advances Symbol Out transducer atEOF room chunk
      have ends : atEOF = true → behind = [] := fun eof => by
        simpa using (whole eof).symm
      rw [advances.written behind ends, ih]

theorem transform_all (input : List Symbol) {room : Nat}
    (roomy : transducer.longest * input.length ≤ room) :
    transducer.transform true room input =
      { written := transducer.all input, nSrc := input.length, err := none } := by
  have ends : (transducer.transform true room input).err = none := by
    induction room, input using transform.induct transducer true with
    | case1 room =>
        rw [transform]
        rfl
    | case2 room symbol rest unknown => cases unknown.1
    | case3 room symbol rest known first short =>
        have bound : first.1.length ≤ transducer.longest :=
          transducer.bound (symbol :: rest) (List.cons_ne_nil symbol rest)
        have least := Nat.le_mul_of_pos_right transducer.longest (Nat.succ_pos rest.length)
        rw [List.length_cons] at roomy
        exact absurd short (Nat.not_lt.2 (Nat.le_trans bound (Nat.le_trans least roomy)))
    | case4 room symbol rest known first fits ih =>
        have bound : first.1.length ≤ transducer.longest :=
          transducer.bound (symbol :: rest) (List.cons_ne_nil symbol rest)
        have fewer : (rest.drop (first.2 - 1)).length ≤ rest.length := by
          rw [List.length_drop]
          omega
        have less := Nat.mul_le_mul_left transducer.longest fewer
        rw [List.length_cons, Nat.mul_succ] at roomy
        rw [transform, if_neg known]
        dsimp only
        rw [if_neg fits]
        exact ih (by omega)
  have advances := @transform_advances Symbol Out transducer true room input
  have written := advances.written [] (fun _ => rfl)
  rw [List.append_nil, advances.finished ends, List.drop_length, all, List.append_nil] at written
  rw [written, ← ends, ← advances.finished ends]

theorem transform_progress {atEOF : Bool} {room : Nat} {source : List Symbol}
    (roomy : transducer.longest ≤ room) (some : source ≠ [])
    (none : (transducer.transform atEOF room source).nSrc = 0) :
    atEOF = false ∧ source.length < transducer.lookahead := by
  cases source with
  | nil => exact absurd rfl some
  | cons symbol rest =>
      rw [transform] at none
      by_cases unknown : atEOF = false ∧ transducer.whole (symbol :: rest) = false
      · refine ⟨unknown.1, Nat.lt_of_not_le fun much => ?_⟩
        rw [transducer.enough _ much] at unknown
        cases unknown.2
      · have bound := transducer.bound (symbol :: rest) some
        have size := (transducer.size (symbol :: rest) some).1
        rw [if_neg unknown] at none
        dsimp only at none
        rw [if_neg (by omega)] at none
        change _ + _ = 0 at none
        omega

theorem streams :
    Streams transducer.transform transducer.longest transducer.lookahead transducer.all where
  runs input out := by
    refine ⟨feeds_all, ?_⟩
    rintro rfl
    have whole := @transform_all Symbol Out transducer input
      (transducer.longest * input.length + transducer.longest) (Nat.le_add_right _ _)
    have feeds := @Feeds.last Symbol Out transducer.transform transducer.longest input
      (transducer.longest * input.length + transducer.longest)
      (Nat.le_add_left transducer.longest _) (by rw [whole])
    rwa [whole] at feeds
  progress _ _ _ roomy some none := transform_progress roomy some none

end Transducer

end Pttbbs.Lib
