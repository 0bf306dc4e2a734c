/-
The lottery of a board: buying tickets, closing the sale and the draw.

A round lives in five files.  `ticket` stands while tickets are sold; closing
the sale renames it to `ticket.end`, and the draw renames that to
`ticket.end.lock`.  Every purchase appends a line to `ticket.user` and adds to
the numbers of `ticket.data`.  The draw loads the numbers, pays the lines and
removes the files.  Purchases, the closing and the draw are separate processes,
so each is a sequence of steps on the files and the balances.
-/

import Mathlib.Algebra.BigOperators.Group.Finset.Basic
import Pttbbs.Common.Money

namespace Pttbbs.Mbbsd.Lottery

open Pttbbs.Lib Pttbbs.Common.Money

def maxItem : Nat := 8

structure Items where
  price : Nat
  count : Nat
  price_low : 10 ≤ price
  price_high : price ≤ 10000
  count_low : 2 ≤ count
  count_high : count ≤ maxItem

/-- A purchase as the buyer entered it: at most four digits were read for `n`. -/
structure Purchase (User : Type) (items : Items) where
  userid : User
  ch : Nat
  n : Nat
  ch_lt : ch < items.count
  n_pos : 1 ≤ n
  n_le : n ≤ 9999

structure Line (User : Type) where
  userid : User
  mybet : Nat
  num : Nat
deriving DecidableEq

def Purchase.line {User : Type} {items : Items} (purchase : Purchase User items) : Line User :=
  { userid := purchase.userid, mybet := purchase.ch, num := purchase.n }

/-- How far a purchase has come.  A file is the one that was open under the name
`ticket.data`, not the name. -/
inductive Stage where
  | start
  | shown
  | affordable
  | paid
  /-- The sale was still on after the payment. -/
  | caught
  /-- `append_ticket_record` saw the sale on. -/
  | entering
  | listed
  /-- `dashf` did not find `ticket.data`. -/
  | missing
  | created
  | opened (file : Nat)
  | locked (file : Nat)
  | read (file : Nat) (ticket : Nat → Nat)
  | truncated (file : Nat) (ticket : Nat → Nat)
  | written (file : Nat)
  | done
  /-- `doesnt_catch_up`. -/
  | late
  | refunded
  | left

inductive Entry (Process User : Type) where
  | stake (process : Process) (amount : Int)
  | refund (process : Process) (amount : Int)
  | share (amount : Int)
  | fee (amount : Int)
  | prize (line : Line User) (amount : Int)

structure Board (Process User : Type) where
  ticket : Bool
  ended : Bool
  lock : Bool
  user : Option (List (Line User))
  record : Option Nat
  contents : Nat → List Nat
  holder : Nat → Option Process
  fresh : Nat
  /-- The copy of `ticket.user` that is posted before the file is removed. -/
  backup : Option (List (Line User))
  balance : User → Int
  log : List (Entry Process User)

/-- The winning item, or the cancellation of the round (99). -/
inductive Bet where
  | item (win : Nat)
  | cancel
deriving DecidableEq

structure Drawing where
  bet : Bet
  ticket : Nat → Nat
  total : Nat

inductive Phase where
  | loaded
  | charging
  | opening
  | paying (index : Nat)
  | posting
  | unlinkUser
  | unlinkRecord
  | unlinkLock
  | unlinkEnd
  | finished

inductive Draw where
  | idle
  | started (bet : Bet)
  | drawing (drawing : Drawing) (phase : Phase)

structure State (Process User : Type) where
  board : Board Process User
  stage : Process → Stage
  draw : Draw

section Steps

variable {Process User : Type} [DecidableEq Process] [DecidableEq User]

def Board.deumoney (board : Board Process User) (user : User) (money : Int) :
    Board Process User :=
  { board with
    balance := Function.update board.balance user (newBalance (board.balance user) money) }

def Board.enter (board : Board Process User) (entry : Entry Process User) :
    Board Process User :=
  { board with log := board.log ++ [entry] }

def Board.change (board : Board Process User) (user : User) (money : Int) : Int :=
  newBalance (board.balance user) money - board.balance user

def Board.setContents (board : Board Process User) (file : Nat) (contents : List Nat) :
    Board Process User :=
  { board with contents := Function.update board.contents file contents }

def Board.setHolder (board : Board Process User) (file : Nat) (holder : Option Process) :
    Board Process User :=
  { board with holder := Function.update board.holder file holder }

/-- `creat` on `ticket.data`: a file that is there by now is emptied. -/
def Board.creat (board : Board Process User) : Board Process User :=
  match board.record with
  | some file => board.setContents file []
  | none =>
      { board.setContents board.fresh [] with
        record := some board.fresh
        fresh := board.fresh + 1 }

def ticketOf (contents : List Nat) (item : Nat) : Nat := (contents.take maxItem).getD item 0

/-- One step of `ticket`, with `buy_ticket_ui` and `append_ticket_record`. -/
def ticketStep (items : Items) (process : Process) (purchase : Purchase User items)
    (board : Board Process User) : Stage → Board Process User × Stage
  | .start => (board, if board.ticket then .shown else .left)
  | .shown =>
      (board, if (board.balance purchase.userid).tdiv items.price < purchase.n then .left
        else .affordable)
  | .affordable =>
      let money : Int := -((items.price * purchase.n : Nat) : Int)
      ((board.deumoney purchase.userid money).enter
        (.stake process (-(board.change purchase.userid money))), .paid)
  | .paid => (board, if board.ticket then .caught else .late)
  | .caught => (board, if board.ticket then .entering else .late)
  | .entering => ({ board with user := some (board.user.getD [] ++ [purchase.line]) }, .listed)
  | .listed => (board, if board.record.isSome then .created else .missing)
  | .missing => (board.creat, .created)
  | .created =>
      match board.record with
      | some file => (board, .opened file)
      -- `fopen` failed: nothing is recorded and the caller is told that all went well.
      | none => (board, .done)
  | .opened file =>
      match board.holder file with
      | some _ => (board, .opened file)
      | none => (board.setHolder file (some process), .locked file)
  | .locked file => (board, .read file (ticketOf (board.contents file)))
  | .read file ticket =>
      (board.setContents file [],
        .truncated file (Function.update ticket purchase.ch (ticket purchase.ch + purchase.n)))
  | .truncated file ticket =>
      (board.setContents file ((List.range items.count).map ticket), .written file)
  | .written file => (board.setHolder file none, .done)
  | .late =>
      let money : Int := ((items.price * purchase.n : Nat) : Int)
      ((board.deumoney purchase.userid money).enter
        (.refund process (board.change purchase.userid money)), .refunded)
  | .done => (board, .done)
  | .refunded => (board, .refunded)
  | .left => (board, .left)

/-- A conversion of a floating-point number to `int`; out of range it gives the
smallest `int`. -/
def toInt (value : Nat) : Int := if (value : Int) ≤ intMax then value else intMin

def forBM (items : Items) (total : Nat) : Int :=
  min 500 (toInt (total * items.price * 5 / 10000))

def Drawing.money (items : Items) (drawing : Drawing) : Nat :=
  match drawing.bet with
  | .item win =>
      if drawing.ticket win = 0 then 9999999
      else drawing.total * items.price * 95 / (100 * drawing.ticket win)
  | .cancel => items.price

def Drawing.wins (items : Items) (drawing : Drawing) (line : Line User) : Bool :=
  match drawing.bet with
  | .item win => line.mybet = win
  | .cancel => line.mybet < items.count

/-- `win_idx == 98 || ticket[win_idx]`. -/
def Drawing.pays (drawing : Drawing) : Bool :=
  match drawing.bet with
  | .item win => drawing.ticket win ≠ 0
  | .cancel => true

def loadRecords (board : Board Process User) : Nat × (Nat → Nat) :=
  match board.record with
  | some file => (((board.contents file).take maxItem).sum, ticketOf (board.contents file))
  | none => (0, fun _ => 0)

def Drawing.credit (items : Items) (drawing : Drawing) (line : Line User) : Int :=
  ((drawing.money items * line.num : Nat) : Int)

def payLine (items : Items) (drawing : Drawing) (line : Line User)
    (board : Board Process User) : Board Process User :=
  let money := wrap (drawing.credit items line)
  (board.deumoney line.userid money).enter (.prize line (board.change line.userid money))

def drawStep (items : Items) (bm : User) (board : Board Process User) :
    Draw → Board Process User × Draw
  | .idle => (board, .idle)
  | .started bet =>
      let (total, ticket) := loadRecords board
      (board, .drawing { bet, ticket, total } .loaded)
  | .drawing drawing .loaded =>
      match drawing.bet with
      | .item _ =>
          if 0 < forBM items drawing.total then
            ((board.deumoney bm (forBM items drawing.total)).enter
              (.share (board.change bm (forBM items drawing.total))),
              .drawing drawing .opening)
          else (board, .drawing drawing .opening)
      | .cancel =>
          if board.balance bm < items.price * 10 then
            ({ board with ended := true, lock := false }, .idle)
          else (board, .drawing drawing .charging)
  | .drawing drawing .charging =>
      let money : Int := -((items.price * 10 : Nat) : Int)
      ((board.deumoney bm money).enter (.fee (-(board.change bm money))),
        .drawing drawing .opening)
  | .drawing drawing .opening =>
      (board, .drawing drawing
        (if drawing.pays && board.user.isSome then .paying 0 else .posting))
  | .drawing drawing (.paying index) =>
      match (board.user.getD [])[index]? with
      | some line =>
          (if drawing.wins items line then payLine items drawing line board else board,
            .drawing drawing (.paying (index + 1)))
      | none => (board, .drawing drawing .posting)
  | .drawing drawing .posting =>
      ({ board with backup := board.user }, .drawing drawing .unlinkUser)
  | .drawing drawing .unlinkUser =>
      ({ board with user := none }, .drawing drawing .unlinkRecord)
  | .drawing drawing .unlinkRecord =>
      ({ board with record := none }, .drawing drawing .unlinkLock)
  | .drawing drawing .unlinkLock =>
      ({ board with lock := false }, .drawing drawing .unlinkEnd)
  | .drawing drawing .unlinkEnd =>
      ({ board with ended := false }, .drawing drawing .finished)
  | .drawing drawing .finished => (board, .drawing drawing .finished)

/-- What may happen next.  `other` stands for everything else that changes a
balance. -/
inductive Act (Process User : Type) where
  | buy (process : Process)
  | stop
  | openticket (bet : Bet)
  | draw
  | other (user : User) (balance : Int)

def Bet.accepted (items : Items) (bm : User) (board : Board Process User) : Bet → Bool
  | .item win => win < items.count
  | .cancel => (items.price * 10 : Int) ≤ board.balance bm

def step (items : Items) (bm : User) (purchases : Process → Purchase User items)
    (state : State Process User) : Act Process User → State Process User
  | .buy process =>
      let after := ticketStep items process (purchases process) state.board (state.stage process)
      { state with board := after.1, stage := Function.update state.stage process after.2 }
  | .stop =>
      if state.board.ticket then
        { state with board := { state.board with ticket := false, ended := true } }
      else state
  | .openticket bet =>
      if bet.accepted items bm state.board && !state.board.lock && state.board.ended then
        { state with
          board := { state.board with ended := false, lock := true }
          draw := .started bet }
      else state
  | .draw =>
      let after := drawStep items bm state.board state.draw
      { state with board := after.1, draw := after.2 }
  | .other user balance =>
      { state with
        board := { state.board with
          balance := Function.update state.board.balance user balance } }

def State.start (balance : User → Int) : State Process User :=
  { board :=
      { ticket := true
        ended := false
        lock := false
        user := none
        record := none
        contents := fun _ => []
        holder := fun _ => none
        fresh := 0
        backup := none
        balance
        log := [] }
    stage := fun _ => .start
    draw := .idle }

end Steps

end Pttbbs.Mbbsd.Lottery
