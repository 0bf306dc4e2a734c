/-
Two players of a board game in mbbsd.

Each player runs `ChessPlay`, which alternates `ChessPlayFuncMy` and
`ChessPlayFuncHis`; the steps go over a socket that keeps their order and that a
player who ends closes.  A player is asked a question while nothing is read, so
that a question and its answer are one step.  Clocks are left out: the time of a
player who is to move may run out at any moment.
-/

import Mathlib.Logic.Function.Basic
import Pttbbs.Lib.Runs

namespace Pttbbs.Mbbsd.ChessPlay

open Pttbbs.Lib

inductive GameResult where
  | cont
  | win
  | lost
  | tie
deriving DecidableEq

/-- What a game brings along: `init_board`, `apply_step`, `check_step` and
`select`.  A step that is made has the effect it has when it is received, and no
step ends in a tie. -/
structure Rules (Board Step Tag Loc : Type) where
  initBoard : Board
  initTag : Tag
  applyStep : Board → Step → Board × GameResult
  checkStep : Step → Bool
  select : Board → Bool → Tag → Loc → Tag × Option (Step × Board × GameResult)
  select_step : ∀ board turn tag loc step after result,
    (select board turn tag loc).2 = some (step, after, result) →
      applyStep board step = (after, result) ∧ checkStep step = true
  applyStep_ne_tie : ∀ board step, (applyStep board step).2 ≠ .tie

/-- `ChessStepType`, as far as the players send it. -/
inductive Message (Step : Type) where
  | normal (step : Step)
  | nop
  | tie
  | tieAcc
  | tieRej
  | undo
  | undoAcc
  | undoRej
deriving DecidableEq

/-- The state of one player; the game goes on while the result is `cont`. -/
structure Info (Board Step Tag : Type) where
  board : Board
  history : List Step := []
  turn : Bool := true
  tag : Tag
  result : GameResult := .cont

/-- A player is known by the turn that is his.  `inbox` is what he has not read. -/
structure Match (Board Step Tag : Type) where
  infos : Bool → Info Board Step Tag
  inbox : Bool → List (Message Step)

inductive Action (Loc : Type) where
  | select (player : Bool) (loc : Loc)
  | resign (player : Bool)
  | askTie (player : Bool)
  | askUndo (player : Bool)
  | timeout (player : Bool)
  | wake (player : Bool)
  | receive (player : Bool) (yes : Bool)

variable {Board Step Tag Loc : Type}

def Rules.replay (rules : Rules Board Step Tag Loc) (steps : List Step) : Board :=
  steps.foldl (fun board step => (rules.applyStep board step).1) rules.initBoard

namespace Info

def endTurn (info : Info Board Step Tag) (result : GameResult) : Info Board Step Tag :=
  { info with turn := !info.turn, result := result }

/-- An undo: the board is set up again and all but the last step are replayed. -/
def takeBack (rules : Rules Board Step Tag Loc) (info : Info Board Step Tag) :
    Info Board Step Tag :=
  { info with
    board := rules.replay info.history.dropLast
    history := info.history.dropLast
    turn := !info.turn }

def applied (rules : Rules Board Step Tag Loc) (info : Info Board Step Tag) (step : Step)
    (seen : GameResult → GameResult) : Info Board Step Tag :=
  { info with
    history := info.history ++ [step]
    board := (rules.applyStep info.board step).1 }.endTurn
      (seen (rules.applyStep info.board step).2)

end Info

def GameResult.seen : GameResult → GameResult
  | .lost => .win
  | .win => .lost
  | _ => .cont

def receiveMy (rules : Rules Board Step Tag Loc) (info : Info Board Step Tag)
    (yes : Bool) : Message Step → Info Board Step Tag × List (Message Step)
  | .tieAcc => (info.endTurn .tie, [])
  | .undo =>
      if info.history ≠ [] ∧ yes then (info.takeBack rules, [.undoAcc]) else (info, [.undoRej])
  | .normal step =>
      if rules.checkStep step then (info.applied rules step id, []) else (info.endTurn .win, [])
  | _ => (info, [])

def receiveHis (rules : Rules Board Step Tag Loc) (info : Info Board Step Tag)
    (yes : Bool) : Message Step → Info Board Step Tag × List (Message Step)
  | .tie => if yes then (info.endTurn .tie, [.tieAcc]) else (info, [.tieRej])
  | .normal step =>
      if rules.checkStep step then (info.applied rules step GameResult.seen, [])
      else (info.endTurn .win, [])
  | .undoAcc => if info.history ≠ [] then (info.takeBack rules, []) else (info, [])
  | _ => (info, [])

namespace Match

def start (rules : Rules Board Step Tag Loc) : Match Board Step Tag where
  infos := fun _ => { board := rules.initBoard, tag := rules.initTag }
  -- `ChessCheckAlive`
  inbox := fun _ => [.nop]

def my (game : Match Board Step Tag) (player : Bool) : Bool :=
  (game.infos player).turn = player

def running (game : Match Board Step Tag) (player : Bool) : Bool :=
  (game.infos player).result = .cont

def setInfo (game : Match Board Step Tag) (player : Bool) (info : Info Board Step Tag) :
    Match Board Step Tag :=
  { game with infos := Function.update game.infos player info }

def setInbox (game : Match Board Step Tag) (player : Bool) (messages : List (Message Step)) :
    Match Board Step Tag :=
  { game with inbox := Function.update game.inbox player messages }

def send (game : Match Board Step Tag) (player : Bool) (messages : List (Message Step)) :
    Match Board Step Tag :=
  game.setInbox (!player) (game.inbox (!player) ++ messages)

def choose (rules : Rules Board Step Tag Loc) (game : Match Board Step Tag) (player : Bool)
    (loc : Loc) : Match Board Step Tag :=
  let info := game.infos player
  match rules.select info.board info.turn info.tag loc with
  | (tag, none) => game.setInfo player { info with tag := tag }
  | (tag, some (step, after, result)) =>
      (game.setInfo player ({ info with
          board := after
          history := info.history ++ [step]
          tag := tag }.endTurn result)).send player [.normal step]

/-- The next step is read; at the end of a closed socket the game is won. -/
def receive (rules : Rules Board Step Tag Loc) (game : Match Board Step Tag) (player yes : Bool) :
    Match Board Step Tag :=
  let info := game.infos player
  match game.inbox player with
  | [] => if game.running (!player) then game else game.setInfo player (info.endTurn .win)
  | message :: rest =>
      let (info, answers) :=
        if game.my player then receiveMy rules info yes message
        else receiveHis rules info yes message
      ((game.setInbox player rest).setInfo player info).send player answers

def step (rules : Rules Board Step Tag Loc) (game : Match Board Step Tag) :
    Action Loc → Match Board Step Tag
  | .select player loc =>
      if game.running player && game.my player then game.choose rules player loc else game
  | .resign player =>
      if game.running player then game.setInfo player ((game.infos player).endTurn .lost) else game
  | .askTie player =>
      if game.running player && game.my player then game.send player [.tie] else game
  | .askUndo player =>
      if game.running player && !game.my player && (game.infos player).history ≠ [] then
        game.send player [.undo]
      else game
  | .timeout player =>
      if game.running player && game.my player then
        game.setInfo player ((game.infos player).endTurn .lost)
      else game
  | .wake player =>
      if game.running player && !game.my player then game.send player [.nop] else game
  | .receive player yes => if game.running player then game.receive rules player yes else game

end Match

end Pttbbs.Mbbsd.ChessPlay
