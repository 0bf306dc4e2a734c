/-
A game of Chinese chess, as the two players make it.

A player picks up a piece with one `chc_select` and puts it down with another.
The square it was picked up from is remembered in a tag, and an accepted undo,
which puts the board back by one step and passes the turn, does not touch the tag.
-/

import Mathlib.Data.List.Induction
import Pttbbs.Lib.Runs
import Pttbbs.Mbbsd.ChcRules

namespace Pttbbs.Mbbsd.Chc

open Pttbbs.Lib

/-! ### Steps of the game -/

/-- With a player on each side there are two tags, alone there is one. -/
inductive Mode where
  | versus
  | personal
deriving DecidableEq

structure Game where
  board : Board := initBoard
  history : List Step := []
  turn : Turn := .red
  tags : Turn → Option Square := fun _ => none
  /-- The result of the last turn was a win. -/
  won : Bool := false

/-- A square is given as on the screen of the player. -/
inductive Action where
  | select (screen : Square)
  | undo

def replay (steps : List Step) : Board := steps.foldl moved initBoard

namespace Game

def tagOwner (mode : Mode) (game : Game) : Turn :=
  match mode with
  | .versus => game.turn
  | .personal => .red

def tag (mode : Mode) (game : Game) : Option Square := game.tags (game.tagOwner mode)

def setTag (mode : Mode) (game : Game) (tag : Option Square) : Game :=
  { game with tags := Function.update game.tags (game.tagOwner mode) tag }

def makeStep (mode : Mode) (game : Game) (step : Step) : Game :=
  { (game.setTag mode none) with
    board := moved game.board step
    history := game.history ++ [step]
    turn := game.turn.other
    won := takesKing game.board step }

def location (mode : Mode) (game : Game) (screen : Square) : Square :=
  Chc.location (game.tagOwner mode = .red) screen

/-- `chc_select`, and the end of the turn if it makes a step. -/
def select (mode : Mode) (game : Game) (screen : Square) : Game :=
  match Chc.select game.board game.turn (game.tag mode) (game.location mode screen) with
  | (tag, none) => game.setTag mode tag
  | (_, some step) => game.makeStep mode step

/-- An accepted undo: the board is set up again and all but the last step are
replayed. -/
def undo (game : Game) : Game :=
  if game.history = [] then game
  else
    { game with
      board := replay game.history.dropLast
      history := game.history.dropLast
      turn := game.turn.other }

def step (mode : Mode) (game : Game) : Action → Game
  | .select screen => if game.won then game else game.select mode screen
  | .undo => if game.won then game else game.undo

end Game

/-! ### Legal games -/

def mover (count : Nat) : Turn := if count % 2 = 0 then .red else .blk

structure LegalStep (before : List Step) (step : Step) : Prop where
  owned : ∃ kind, replay before step.source = some ⟨kind, mover before.length⟩
  allowed : canmove (replay before) step.source step.target = true
  effect : ∀ square, replay (before ++ [step]) square =
    if square = step.source then none
    else if square = step.target then replay before step.source
    else replay before square
  apart : takesKing (replay before) step = false → iskfk (replay (before ++ [step])) = false

structure Legal (game : Game) : Prop where
  steps : ∀ before step after, game.history = before ++ step :: after → LegalStep before step
  board : game.board = replay game.history
  turn : game.turn = mover game.history.length
  position : LegalBoard game.board
  kings : ∀ turn square, game.board square = some ⟨.k, turn⟩ →
    findking game.board turn = some square
  won : game.won = true →
    ∃ before step, game.history = before ++ [step] ∧ takesKing (replay before) step = true
  finished : ∀ before step after, game.history = before ++ step :: after →
    takesKing (replay before) step = true → after = [] ∧ game.won = true

/-- The condition: the piece that is put down belongs to the player. -/
def Game.Holds (mode : Mode) (game : Game) : Action → Prop
  | .select screen =>
      match game.tag mode with
      | none => True
      | some picked => picked = game.location mode screen ∨
          (game.board picked).map Piece.owner = some game.turn
  | .undo => True

theorem replay_append (steps : List Step) (step : Step) :
    replay (steps ++ [step]) = moved (replay steps) step := by
  unfold replay
  rw [List.foldl_append]
  rfl

theorem mover_succ (count : Nat) : mover (count + 1) = (mover count).other := by
  unfold mover
  rcases Nat.mod_two_eq_zero_or_one count with even | odd
  · have next : (count + 1) % 2 = 1 := by omega
    rw [even, next]
    rfl
  · have next : (count + 1) % 2 = 0 := by omega
    rw [odd, next]
    rfl

theorem Turn.other_other (turn : Turn) : turn.other.other = turn := by
  cases turn with
  | blk => rfl
  | red => rfl

theorem legalBoard_replay (steps : List Step)
    (legal : ∀ before step after, steps = before ++ step :: after → LegalStep before step) :
    LegalBoard (replay steps) := by
  induction steps using List.reverseRecOn with
  | nil => exact LegalBoard.init
  | append_singleton steps step ih =>
      rw [replay_append]
      refine (ih ?_).moved (legal steps step [] rfl).allowed
      intro before earlier after split
      exact legal before earlier (after ++ [step]) (by rw [split]; simp)

namespace Legal

variable {game : Game}

theorem start : Legal {} where
  steps := by
    intro before step after split
    exact absurd split (by simp)
  board := rfl
  turn := rfl
  position := LegalBoard.init
  kings := fun _turn _square king => LegalBoard.init.findking_eq king
  won := nofun
  finished := by
    intro before step after split
    exact absurd split (by simp)

theorem setTag (legal : Legal game) (mode : Mode) (tag : Option Square) :
    Legal (game.setTag mode tag) :=
  ⟨legal.steps, legal.board, legal.turn, legal.position, legal.kings, legal.won, legal.finished⟩

theorem split_append {steps before after : List Step} {last step : Step}
    (split : steps ++ [last] = before ++ step :: after) :
    (after = [] ∧ before = steps ∧ step = last) ∨
      ∃ rest, after = rest ++ [last] ∧ steps = before ++ step :: rest := by
  rcases List.eq_nil_or_concat after with rfl | ⟨rest, final, rfl⟩
  · obtain ⟨same, ends⟩ := List.append_inj' split rfl
    exact .inl ⟨rfl, same.symm, (List.cons.inj ends).1.symm⟩
  · rw [List.concat_eq_append, ← List.cons_append, ← List.append_assoc] at split
    obtain ⟨same, ends⟩ := List.append_inj' split rfl
    rw [(List.cons.inj ends).1]
    exact .inr ⟨rest, List.concat_eq_append, same⟩

theorem makeStep (legal : Legal game) (mode : Mode) {step : Step}
    (owned : (game.board step.source).map Piece.owner = some game.turn)
    (allowed : canmove game.board step.source step.target = true)
    (apart : takesKing game.board step || !iskfk (moved game.board step))
    (going : game.won = false) :
    Legal (game.makeStep mode step) := by
  have after : moved game.board step = replay (game.history ++ [step]) := by
    rw [replay_append, legal.board]
  have position : LegalBoard (moved game.board step) := legal.position.moved allowed
  constructor
  · intro before earlier rest split
    rcases split_append split with ⟨rfl, rfl, rfl⟩ | ⟨rest', rfl, earlierSplit⟩
    · rw [legal.board, legal.turn] at owned
      rw [legal.board] at allowed apart
      obtain ⟨piece, present, owner⟩ := Option.map_eq_some_iff.mp owned
      refine ⟨⟨piece.kind, ?_⟩, allowed, ?_, ?_⟩
      · rw [present, ← owner]
      · intro square
        rw [replay_append]
        rfl
      · intro keeps
        rw [replay_append]
        rw [keeps] at apart
        simpa using apart
    · exact legal.steps before earlier rest' earlierSplit
  · exact after
  · change game.turn.other = mover (game.history ++ [step]).length
    rw [List.length_append, List.length_singleton, mover_succ, legal.turn]
  · exact position
  · exact fun _turn _square king => position.findking_eq king
  · intro takes
    exact ⟨game.history, step, rfl, legal.board ▸ takes⟩
  · intro before earlier rest split takes
    rcases split_append split with ⟨rfl, rfl, rfl⟩ | ⟨rest', rfl, earlierSplit⟩
    · refine ⟨rfl, ?_⟩
      change takesKing game.board earlier = true
      rw [legal.board]
      exact takes
    · have ended := (legal.finished before earlier rest' earlierSplit takes).2
      rw [going] at ended
      cases ended

theorem undo (legal : Legal game) (going : game.won = false) : Legal game.undo := by
  unfold Game.undo
  split
  · exact legal
  · rename_i some
    obtain ⟨steps, last, history⟩ := (List.eq_nil_or_concat game.history).resolve_left some
    rw [List.concat_eq_append] at history
    have earlier : ∀ before step after, steps = before ++ step :: after → LegalStep before step := by
      intro before step after split
      exact legal.steps before step (after ++ [last]) (by rw [history, split]; simp)
    have shorter : game.history.dropLast = steps := by
      rw [history, List.dropLast_concat]
    have position := legalBoard_replay steps earlier
    rw [shorter]
    constructor
    · exact earlier
    · rfl
    · dsimp only
      rw [legal.turn, history, List.length_append, List.length_singleton, mover_succ,
        Turn.other_other]
    · exact position
    · exact fun _turn _square king => position.findking_eq king
    · dsimp only
      rw [going]
      exact nofun
    · -- A step that takes a king ends the game, so there is none in the history.
      intro before step after split takes
      have ended := (legal.finished before step (after ++ [last])
        (by rw [history, show steps = before ++ step :: after from split]; simp) takes).2
      rw [going] at ended
      cases ended

theorem select (legal : Legal game) (mode : Mode) (screen : Square) (going : game.won = false)
    (holds : game.Holds mode (.select screen)) : Legal (game.select mode screen) := by
  unfold Game.Holds at holds
  unfold Game.select
  split
  · exact legal.setTag mode _
  · rename_i left step made
    obtain ⟨_left, tagged, _target, elsewhere, allowed, apart⟩ := select_eq_step made
    rw [tagged] at holds
    exact legal.makeStep mode (holds.resolve_left elsewhere) allowed apart going

theorem step (legal : Legal game) (mode : Mode) (action : Action)
    (holds : game.Holds mode action) : Legal (game.step mode action) := by
  cases action with
  | select screen =>
      unfold Game.step
      dsimp only
      split
      · exact legal
      · rename_i going
        exact legal.select mode screen (Bool.eq_false_iff.mpr going) holds
  | undo =>
      unfold Game.step
      dsimp only
      split
      · exact legal
      · rename_i going
        exact legal.undo (Bool.eq_false_iff.mpr going)

end Legal

/-- In every game in which a piece that is put down belongs to the player who does
so, the history and the board are legal. -/
theorem legal_run (mode : Mode) {actions : List Action}
    (holds : StepsMeet (Game.step mode) (Game.Holds mode) {} actions) :
    Legal (run (Game.step mode) {} actions) := by
  refine invariant_run ?_ Legal.start holds
  intro game action legal meets
  exact legal.step mode action meets

/-! ### When the condition holds -/

def Game.HandsFree (game : Game) (action : Action) : Prop :=
  action = .undo → ∀ player, game.tags player = none

def Game.InHand (mode : Mode) (game : Game) : Prop :=
  ∀ player picked, game.tags player = some picked →
    player = game.tagOwner mode ∧ (game.board picked).map Piece.owner = some game.turn

namespace Game

variable {game : Game}

theorem setTag_tags (mode : Mode) (tag : Option Square) (player : Turn) :
    (game.setTag mode tag).tags player =
      if player = game.tagOwner mode then tag else game.tags player := by
  unfold setTag
  dsimp only
  by_cases same : player = game.tagOwner mode
  · rw [same, Function.update_self, if_pos rfl]
  · rw [Function.update_of_ne same, if_neg same]

theorem setTag_none_tags (mode : Mode) (hand : game.InHand mode) (player : Turn) :
    (game.setTag mode none).tags player = none := by
  rw [setTag_tags]
  split
  · rfl
  · rename_i other
    cases tagged : game.tags player with
    | none => rfl
    | some picked => exact absurd (hand player picked tagged).1 other

theorem inHand_select (mode : Mode) (screen : Square) (hand : game.InHand mode) :
    (game.select mode screen).InHand mode := by
  unfold select
  split
  · rename_i left none
    intro player picked tagged
    rw [setTag_tags] at tagged
    split at tagged
    · rename_i same
      rcases select_eq_tag none tagged with before | ⟨_free, own⟩
      · exact ⟨same, (hand _ picked before).2⟩
      · exact ⟨same, own⟩
    · rename_i other
      exact absurd (hand player picked tagged).1 other
  · intro player picked tagged
    have none := setTag_none_tags mode hand player
    rw [show (game.setTag mode Option.none).tags player = some picked from tagged] at none
    cases none

theorem inHand_step (mode : Mode) (action : Action) (hand : game.InHand mode)
    (free : game.HandsFree action) : (game.step mode action).InHand mode := by
  unfold step
  cases action with
  | select screen =>
      dsimp only
      split
      · exact hand
      · exact inHand_select mode screen hand
  | undo =>
      dsimp only
      split
      · exact hand
      · unfold undo
        split
        · exact hand
        · intro player picked tagged
          have none := free rfl player
          rw [show game.tags player = some picked from tagged] at none
          cases none

end Game

/-- The condition can fail only after an undo that came while a piece was picked up. -/
theorem holds_of_handsFree (mode : Mode) {actions : List Action}
    (free : StepsMeet (Game.step mode) Game.HandsFree {} actions) :
    StepsMeet (Game.step mode) (Game.Holds mode) {} actions := by
  refine free.weaken (fun game action hand free => Game.inHand_step mode action hand free) ?_
    (fun _player _picked tagged => nomatch tagged)
  intro game action hand _free
  cases action with
  | undo => trivial
  | select screen =>
      unfold Game.Holds
      dsimp only
      split
      · trivial
      · rename_i picked tagged
        exact .inr (hand _ picked tagged).2

theorem holds_of_handsFree_undo :
    StepsMeet (Game.step .versus) (Game.Holds .versus) {}
      [.select ⟨6, 0⟩, .select ⟨5, 0⟩, .undo] :=
  holds_of_handsFree .versus
    ⟨by simp [Game.HandsFree], by simp [Game.HandsFree],
      fun _undo player => by cases player <;> decide, trivial⟩

instance decidableHolds (mode : Mode) (game : Game) :
    (action : Action) → Decidable (game.Holds mode action)
  | .undo => isTrue trivial
  | .select screen =>
      match tagged : game.tag mode with
      | none => isTrue (by unfold Game.Holds; rw [tagged]; trivial)
      | some picked =>
          decidable_of_iff (picked = game.location mode screen ∨
            (game.board picked).map Piece.owner = some game.turn)
            (by unfold Game.Holds; rw [tagged])

def oneUndo : List Action :=
  [.select ⟨6, 0⟩, .select ⟨5, 0⟩, .select ⟨6, 8⟩, .select ⟨5, 8⟩, .undo, .select ⟨7, 7⟩,
    .select ⟨0, 7⟩]

theorem legal_run_one_undo :
    Legal (run (Game.step .versus) {} oneUndo) ∧
      (run (Game.step .versus) {} oneUndo).history =
        [⟨⟨6, 0⟩, ⟨5, 0⟩⟩, ⟨⟨2, 1⟩, ⟨9, 1⟩⟩] :=
  ⟨legal_run .versus (by decide), by decide⟩

def heldOverUndo : List Action :=
  [.select ⟨6, 0⟩, .select ⟨5, 0⟩, .select ⟨6, 8⟩, .select ⟨5, 8⟩, .select ⟨9, 1⟩, .undo,
    .select ⟨7, 7⟩, .select ⟨0, 7⟩, .select ⟨8, 1⟩]

theorem cannon_stolen :
    (run (Game.step .versus) {} heldOverUndo).history =
        [⟨⟨6, 0⟩, ⟨5, 0⟩⟩, ⟨⟨2, 1⟩, ⟨9, 1⟩⟩, ⟨⟨9, 1⟩, ⟨8, 1⟩⟩] ∧
      mover 2 = .red ∧
      replay [⟨⟨6, 0⟩, ⟨5, 0⟩⟩, ⟨⟨2, 1⟩, ⟨9, 1⟩⟩] ⟨9, 1⟩ = some ⟨.c, .blk⟩ ∧
      ¬ Legal (run (Game.step .versus) {} heldOverUndo) := by
  have history : (run (Game.step .versus) {} heldOverUndo).history =
      [⟨⟨6, 0⟩, ⟨5, 0⟩⟩, ⟨⟨2, 1⟩, ⟨9, 1⟩⟩, ⟨⟨9, 1⟩, ⟨8, 1⟩⟩] := by decide
  have cannon : replay [⟨⟨6, 0⟩, ⟨5, 0⟩⟩, ⟨⟨2, 1⟩, ⟨9, 1⟩⟩] ⟨9, 1⟩ = some ⟨.c, .blk⟩ := by
    decide
  refine ⟨history, rfl, cannon, ?_⟩
  intro legal
  obtain ⟨kind, owned⟩ := (legal.steps [⟨⟨6, 0⟩, ⟨5, 0⟩⟩, ⟨⟨2, 1⟩, ⟨9, 1⟩⟩] _ [] history).owned
  rw [show (⟨⟨9, 1⟩, ⟨8, 1⟩⟩ : Step).source = ⟨9, 1⟩ from rfl, cannon] at owned
  cases owned

end Pttbbs.Mbbsd.Chc
