/-
The rules of Chinese chess in mbbsd.

A square of the board holds a piece with its owner or nothing.  The cursor never
leaves the board, so squares are the ones of the board.
-/

import Mathlib.Algebra.GroupWithZero.Nat
import Mathlib.Data.List.FinRange
import Mathlib.Tactic.Common

namespace Pttbbs.Mbbsd.Chc

/-! ### The board -/

inductive Turn where
  | blk
  | red
deriving DecidableEq

inductive Kind where
  | k
  | a
  | e
  | r
  | h
  | c
  | p
deriving DecidableEq

structure Piece where
  kind : Kind
  owner : Turn
deriving DecidableEq

instance neZeroRows : NeZero 10 := ⟨by decide⟩

instance neZeroColumns : NeZero 9 := ⟨by decide⟩

structure Square where
  r : Fin 10
  c : Fin 9
deriving DecidableEq

abbrev Board := Square → Option Piece

def Turn.other : Turn → Turn
  | .blk => .red
  | .red => .blk

/-- `CHE_O`, by which an empty square is black. -/
def cheO : Option Piece → Turn
  | some piece => piece.owner
  | none => .blk

def cheP : Option Piece → Option Kind := Option.map Piece.kind

def backRow (c : Fin 9) : Kind :=
  match c with
  | 0 | 8 => .r
  | 1 | 7 => .h
  | 2 | 6 => .e
  | 3 | 5 => .a
  | 4 => .k

def initBoard : Board := fun square =>
  match square.r with
  | 0 => some ⟨backRow square.c, .blk⟩
  | 2 => if square.c = 1 ∨ square.c = 7 then some ⟨.c, .blk⟩ else none
  | 3 => if square.c.val % 2 = 0 then some ⟨.p, .blk⟩ else none
  | 6 => if square.c.val % 2 = 0 then some ⟨.p, .red⟩ else none
  | 7 => if square.c = 1 ∨ square.c = 7 then some ⟨.c, .red⟩ else none
  | 9 => some ⟨backRow square.c, .red⟩
  | _ => none

structure Step where
  source : Square
  target : Square
deriving DecidableEq

def moved (board : Board) (step : Step) : Board := fun square =>
  if square = step.source then none
  else if square = step.target then board step.source
  else board square

/-- `chc_movechess` reports a win when it takes a king. -/
def takesKing (board : Board) (step : Step) : Bool := cheP (board step.target) = some .k

/-! ### Moves -/

def rowDist (source target : Square) : Nat := (source.r.val - target.r.val) +
  (target.r.val - source.r.val)

def colDist (source target : Square) : Nat := (source.c.val - target.c.val) +
  (target.c.val - source.c.val)

def betweenInRow (board : Board) (source target : Square) : Nat :=
  (List.finRange 9).countP (fun c => min source.c target.c < c ∧ c < max source.c target.c ∧
    (board ⟨target.r, c⟩).isSome)

def betweenInCol (board : Board) (source target : Square) : Nat :=
  (List.finRange 10).countP (fun r => min source.r target.r < r ∧ r < max source.r target.r ∧
    (board ⟨r, target.c⟩).isSome)

def between (board : Board) (source target : Square) (inRow : Bool) : Nat :=
  if inRow then betweenInRow board source target else betweenInCol board source target

def rowCenter (source target : Square) : Fin 10 := ⟨(source.r.val + target.r.val) / 2, by omega⟩

def colCenter (source target : Square) : Fin 9 := ⟨(source.c.val + target.c.val) / 2, by omega⟩

/-- The palace of a side, as the checks for king and adviser have it. -/
def inPalace (turn : Turn) (square : Square) : Bool :=
  !((turn = .blk && 2 < square.r.val) || (turn = .red && square.r.val < 7) ||
    square.c.val < 3 || 5 < square.c.val)

def onOwnSide (turn : Turn) (square : Square) : Bool :=
  !((turn = .blk && 4 < square.r.val) || (turn = .red && square.r.val < 5))

/-- The check for each kind.  Nothing is checked for an empty square. -/
def individualCheck (board : Board) (source target : Square) : Bool :=
  let rd := rowDist source target
  let cd := colDist source target
  let turn := cheO (board source)
  let oneStep := (rd = 1 && cd = 0) || (rd = 0 && cd = 1)
  let straight := (0 < rd && cd = 0) || (rd = 0 && 0 < cd)
  match cheP (board source) with
  | some .k => oneStep && inPalace turn target
  | some .a => rd = 1 && cd = 1 && inPalace turn target
  | some .e =>
      rd = 2 && cd = 2 && onOwnSide turn target &&
        (board ⟨rowCenter source target, colCenter source target⟩).isNone
  | some .r => straight && between board source target (rd = 0) = 0
  | some .h =>
      ((rd = 2 && cd = 1) || (rd = 1 && cd = 2)) &&
        if rd = 2 then (board ⟨rowCenter source target, source.c⟩).isNone
        else (board ⟨source.r, colCenter source target⟩).isNone
  | some .c =>
      straight &&
        let count := between board source target (rd = 0)
        !(1 < count || (count = 1 && (board target).isNone) ||
          (count = 0 && (board target).isSome))
  | some .p =>
      oneStep &&
        !(((turn = .blk && target.r.val < 5) || (turn = .red && 4 < target.r.val)) && cd ≠ 0) &&
        !((turn = .blk && target.r < source.r) || (turn = .red && source.r < target.r))
  | none => true

def canmove (board : Board) (source target : Square) : Bool :=
  !((board target).isSome && cheO (board target) = cheO (board source)) &&
    individualCheck board source target

/-- The squares `findking` looks at, in its order. -/
def palace : Turn → List Square
  | .blk => [⟨0, 3⟩, ⟨0, 4⟩, ⟨0, 5⟩, ⟨1, 3⟩, ⟨1, 4⟩, ⟨1, 5⟩, ⟨2, 3⟩, ⟨2, 4⟩, ⟨2, 5⟩]
  | .red => [⟨7, 3⟩, ⟨7, 4⟩, ⟨7, 5⟩, ⟨8, 3⟩, ⟨8, 4⟩, ⟨8, 5⟩, ⟨9, 3⟩, ⟨9, 4⟩, ⟨9, 5⟩]

def findking (board : Board) (turn : Turn) : Option Square :=
  (palace turn).find? (fun square => board square = some ⟨.k, turn⟩)

def iskfk (board : Board) : Bool :=
  match findking board .blk, findking board .red with
  | some target, some source =>
      source.c = target.c && between board source target false = 0
  | _, _ => false

/-- `chc_select` at a square of the board: the tag afterwards, and the step if one
is made. -/
def select (board : Board) (turn : Turn) (tag : Option Square) (loc : Square) :
    Option Square × Option Step :=
  match tag with
  | none =>
      if (board loc).isSome ∧ cheO (board loc) = turn then (some loc, none) else (none, none)
  | some picked =>
      if picked = loc then (none, none)
      else if canmove board picked loc then
        if takesKing board ⟨picked, loc⟩ || !iskfk (moved board ⟨picked, loc⟩) then
          (none, some ⟨picked, loc⟩)
        else (some picked, none)
      else (some picked, none)

/-- Screen to board: the black player sees the board from the other end. -/
def location (redDown : Bool) (screen : Square) : Square :=
  if redDown then screen
  else ⟨⟨9 - screen.r.val, by omega⟩, ⟨8 - screen.c.val, by omega⟩⟩

/-! ### What the rules keep -/

theorem mem_palace_iff (turn : Turn) (square : Square) :
    square ∈ palace turn ↔ inPalace turn square = true := by
  obtain ⟨r, c⟩ := square
  revert r c
  cases turn with
  | blk => decide
  | red => decide

section Moves

variable {board : Board} {source target : Square} {turn : Turn}

theorem individualCheck_of_canmove (may : canmove board source target = true) :
    individualCheck board source target = true :=
  (Bool.and_eq_true_iff.mp may).2

theorem king_inPalace (may : canmove board source target = true)
    (king : board source = some ⟨.k, turn⟩) : inPalace turn target = true := by
  have checked := individualCheck_of_canmove may
  unfold individualCheck at checked
  rw [king] at checked
  exact (Bool.and_eq_true_iff.mp checked).2

theorem adviser_inPalace (may : canmove board source target = true)
    (adviser : board source = some ⟨.a, turn⟩) : inPalace turn target = true := by
  have checked := individualCheck_of_canmove may
  unfold individualCheck at checked
  rw [adviser] at checked
  exact (Bool.and_eq_true_iff.mp checked).2

theorem elephant_onOwnSide (may : canmove board source target = true)
    (elephant : board source = some ⟨.e, turn⟩) : onOwnSide turn target = true := by
  have checked := individualCheck_of_canmove may
  unfold individualCheck at checked
  rw [elephant] at checked
  exact (Bool.and_eq_true_iff.mp (Bool.and_eq_true_iff.mp checked).1).2

theorem moved_eq_some {step : Step} {square : Square} {piece : Piece}
    (present : moved board step square = some piece) :
    square ≠ step.source ∧
      (square = step.target ∧ board step.source = some piece ∨
        square ≠ step.target ∧ board square = some piece) := by
  unfold moved at present
  split at present
  · cases present
  · rename_i different
    split at present
    · rename_i same
      exact ⟨different, .inl ⟨same, present⟩⟩
    · rename_i other
      exact ⟨different, .inr ⟨other, present⟩⟩

end Moves

theorem select_eq_step {board : Board} {turn : Turn} {tag left : Option Square} {loc : Square}
    {step : Step} (made : select board turn tag loc = (left, some step)) :
    left = none ∧ tag = some step.source ∧ step.target = loc ∧ step.source ≠ loc ∧
      canmove board step.source step.target = true ∧
      (takesKing board step || !iskfk (moved board step)) = true := by
  unfold select at made
  cases tag with
  | none =>
      dsimp only at made
      split at made
      · cases made
      · cases made
  | some picked =>
      dsimp only at made
      split at made
      · cases made
      · rename_i elsewhere
        split at made
        · rename_i allowed
          split at made
          · rename_i apart
            cases made
            exact ⟨rfl, rfl, rfl, elsewhere, allowed, apart⟩
          · cases made
        · cases made

theorem select_eq_tag {board : Board} {turn : Turn} {tag left : Option Square} {loc : Square}
    {picked : Square} (none : select board turn tag loc = (left, none)) (held : left = some picked) :
    tag = some picked ∨
      tag = Option.none ∧ (board picked).map Piece.owner = some turn := by
  subst held
  unfold select at none
  cases tag with
  | none =>
      dsimp only at none
      split at none
      · rename_i own
        cases none
        obtain ⟨piece, present⟩ := Option.isSome_iff_exists.mp own.1
        have owner := own.2
        rw [present] at owner ⊢
        exact .inr ⟨rfl, congrArg some owner⟩
      · cases none
  | some other =>
      dsimp only at none
      split at none
      · cases none
      · split at none
        · split at none
          · cases none
          · cases none
            exact .inl rfl
        · cases none
          exact .inl rfl

/-- What no single check states. -/
structure LegalBoard (board : Board) : Prop where
  oneKing : ∀ turn square other, board square = some ⟨.k, turn⟩ →
    board other = some ⟨.k, turn⟩ → square = other
  king : ∀ turn square, board square = some ⟨.k, turn⟩ → inPalace turn square = true
  adviser : ∀ turn square, board square = some ⟨.a, turn⟩ → inPalace turn square = true
  elephant : ∀ turn square, board square = some ⟨.e, turn⟩ → onOwnSide turn square = true

namespace LegalBoard

variable {board : Board}

def kingHome : Turn → Square
  | .blk => ⟨0, 4⟩
  | .red => ⟨9, 4⟩

theorem init_place (turn : Turn) (square : Square) (king : initBoard square = some ⟨.k, turn⟩) :
    square = kingHome turn := by
  obtain ⟨r, c⟩ := square
  revert r c
  cases turn with
  | blk => decide
  | red => decide

theorem init_kept (turn : Turn) (square : Square) :
    (initBoard square = some ⟨.k, turn⟩ → inPalace turn square = true) ∧
      (initBoard square = some ⟨.a, turn⟩ → inPalace turn square = true) ∧
      (initBoard square = some ⟨.e, turn⟩ → onOwnSide turn square = true) := by
  obtain ⟨r, c⟩ := square
  revert r c
  cases turn with
  | blk => decide
  | red => decide

theorem init : LegalBoard initBoard where
  oneKing := by
    intro turn square other first second
    exact (init_place turn square first).trans (init_place turn other second).symm
  king := fun turn square => (init_kept turn square).1
  adviser := fun turn square => (init_kept turn square).2.1
  elephant := fun turn square => (init_kept turn square).2.2

theorem findking_eq (legal : LegalBoard board) {turn : Turn} {square : Square}
    (king : board square = some ⟨.k, turn⟩) : findking board turn = some square := by
  have listed : square ∈ palace turn := (mem_palace_iff turn square).mpr (legal.king turn square king)
  unfold findking
  cases found : (palace turn).find? (fun square => board square = some ⟨.k, turn⟩) with
  | none =>
      have missing := List.find?_eq_none.mp found square listed
      exact absurd king (by simpa using missing)
  | some other =>
      have also : board other = some ⟨.k, turn⟩ := by simpa using List.find?_some found
      rw [legal.oneKing turn other square also king]

theorem moved (legal : LegalBoard board) {step : Step}
    (may : canmove board step.source step.target = true) : LegalBoard (moved board step) where
  oneKing := by
    intro turn square other first second
    obtain ⟨_fromHere, first⟩ := moved_eq_some first
    obtain ⟨_fromThere, second⟩ := moved_eq_some second
    rcases first with ⟨atTarget, wasSource⟩ | ⟨_away, stayed⟩
    · rcases second with ⟨alsoTarget, _same⟩ | ⟨_apart, still⟩
      · exact atTarget.trans alsoTarget.symm
      · exact absurd (legal.oneKing turn other step.source still wasSource) _fromThere
    · rcases second with ⟨_atTarget, wasSource⟩ | ⟨_apart, still⟩
      · exact absurd (legal.oneKing turn square step.source stayed wasSource) _fromHere
      · exact legal.oneKing turn square other stayed still
  king := by
    intro turn square present
    rcases (moved_eq_some present).2 with ⟨atTarget, wasSource⟩ | ⟨_away, stayed⟩
    · rw [atTarget]
      exact king_inPalace may wasSource
    · exact legal.king turn square stayed
  adviser := by
    intro turn square present
    rcases (moved_eq_some present).2 with ⟨atTarget, wasSource⟩ | ⟨_away, stayed⟩
    · rw [atTarget]
      exact adviser_inPalace may wasSource
    · exact legal.adviser turn square stayed
  elephant := by
    intro turn square present
    rcases (moved_eq_some present).2 with ⟨atTarget, wasSource⟩ | ⟨_away, stayed⟩
    · rw [atTarget]
      exact elephant_onOwnSide may wasSource
    · exact legal.elephant turn square stayed

end LegalBoard

end Pttbbs.Mbbsd.Chc
