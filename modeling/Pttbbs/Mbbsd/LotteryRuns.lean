/-
Runs of a lottery round.

The purchases whose numbers are written and the lines of the list belong together
as long as nobody removes or empties a file under them.  So what the draw needs is
that no purchase stands between its last look at `ticket` and its write when the
numbers are loaded.
-/

import Mathlib.Algebra.Order.BigOperators.Group.Finset
import Pttbbs.Mbbsd.Lottery

namespace Pttbbs.Mbbsd.Lottery

open Pttbbs.Lib Pttbbs.Common.Money

def Stage.charged : Stage → Bool
  | .start | .shown | .affordable | .left => false
  | _ => true

def Stage.isRefunded : Stage → Bool
  | .refunded => true
  | _ => false

def Stage.onList : Stage → Bool
  | .listed | .missing | .created | .opened _ | .locked _ | .read _ _ | .truncated _ _
  | .written _ | .done => true
  | _ => false

def Stage.counted : Stage → Bool
  | .written _ | .done => true
  | _ => false

def Stage.writing : Stage → Bool
  | .entering | .listed | .missing | .created | .opened _ | .locked _ | .read _ _
  | .truncated _ _ => true
  | _ => false

def Stage.rewriting : Stage → Bool
  | .read _ _ | .truncated _ _ => true
  | _ => false

/-- The payment was made and the sale may turn out to be over. -/
def Stage.undecided : Stage → Bool
  | .paid | .caught | .late => true
  | _ => false

def Stage.file? : Stage → Option Nat
  | .opened file | .locked file | .read file _ | .truncated file _ | .written file => some file
  | _ => none

def Stage.hasLock : Stage → Bool
  | .locked _ | .read _ _ | .truncated _ _ | .written _ => true
  | _ => false

def Draw.begun : Draw → Bool
  | .idle => false
  | _ => true

def Board.bets {Process User : Type} (board : Board Process User) : List (Line User) :=
  match board.backup with
  | some lines => lines
  | none => board.user.getD []

def Phase.paidOut : Phase → Bool
  | .loaded | .charging | .opening | .paying _ => false
  | _ => true

section Ledger

variable {Process User : Type}

def Entry.staked : Entry Process User → Int
  | .stake _ amount => amount
  | .refund _ amount => -amount
  | _ => 0

def Entry.credited : Entry Process User → Int
  | .share amount | .prize _ amount => amount
  | _ => 0

def Entry.prize? : Entry Process User → Option (Line User × Int)
  | .prize line amount => some (line, amount)
  | _ => none

def staked (log : List (Entry Process User)) : Int := (log.map Entry.staked).sum

def credited (log : List (Entry Process User)) : Int := (log.map Entry.credited).sum

def prizes (log : List (Entry Process User)) : List (Line User × Int) :=
  log.filterMap Entry.prize?

@[simp] theorem staked_append (log : List (Entry Process User)) (entry : Entry Process User) :
    staked (log ++ [entry]) = staked log + entry.staked := by
  simp [staked]

end Ledger

section Settled

variable {Process User : Type} [Fintype Process] [DecidableEq Process] [DecidableEq User]
  {items : Items}

/-- No stake is created or swallowed: every stake is in the numbers and in the list
of the round that is drawn or goes back, every winner gets what the tickets bring,
and no more is credited than was staked. -/
structure Settled (purchases : Process → Purchase User items) (state : State Process User) :
    Prop where
  stake : ∀ process amount, .stake process amount ∈ state.board.log →
    amount = ((items.price * (purchases process).n : Nat) : Int)
  refund : ∀ process amount, .refund process amount ∈ state.board.log →
    amount = ((items.price * (purchases process).n : Nat) : Int)
  entered : ∀ drawing phase, state.draw = .drawing drawing phase →
    ∃ entered : Finset Process,
      (∀ process, process ∈ entered ↔ (∃ amount, .stake process amount ∈ state.board.log) ∧
        (¬ ∃ amount, .refund process amount ∈ state.board.log) ∧
        (state.stage process).undecided = false) ∧
      (∀ line, state.board.bets.count line =
        (entered.filter fun process => (purchases process).line = line).card) ∧
      (∀ item, drawing.ticket item =
        ∑ process ∈ entered with (purchases process).ch = item, (purchases process).n) ∧
      drawing.total = ∑ process ∈ entered, (purchases process).n
  undecided : state.draw.begun = true → ∀ process, (state.stage process).undecided = true →
    ∃ next, (next = .late ∨ next = .refunded) ∧
      (ticketStep items process (purchases process) state.board (state.stage process)).2 = next
  prize : ∀ drawing phase, state.draw = .drawing drawing phase →
    ∀ line amount, .prize line amount ∈ state.board.log → amount = drawing.credit items line
  winners : ∀ drawing phase, state.draw = .drawing drawing phase → phase.paidOut = true →
    prizes state.board.log = (state.board.bets.filter (drawing.wins items)).map
      fun line => (line, drawing.credit items line)
  total : credited state.board.log ≤ staked state.board.log

def Takes (old money : Int) : Prop :=
  money ≤ intMax ∧ intMin ≤ old + money ∧ old + money ≤ intMax

instance (old money : Int) : Decidable (Takes old money) := inferInstanceAs (Decidable (_ ∧ _))

/-- The buyer still has the money when it is taken, nobody's numbers are emptied by
`creat`, the numbers are loaded while no purchase is being written, and every credit
fits an `int`. -/
def Orderly (bm : User) (purchases : Process → Purchase User items)
    (state : State Process User) : Act Process User → Prop
  | .buy process =>
      let money : Int := ((items.price * (purchases process).n : Nat) : Int)
      let old := state.board.balance (purchases process).userid
      match state.stage process with
      | .affordable => money ≤ old ∧ old - money ≤ intMax
      | .missing => ∀ file ∈ state.board.record,
          state.board.contents file = [] ∨ ∃ other, (state.stage other).rewriting = true
      | .late => Takes old money
      | _ => True
  | .draw =>
      match state.draw with
      | .started _ => ∀ process, (state.stage process).writing = false
      | .drawing drawing .loaded =>
          drawing.bet ≠ .cancel → 0 < forBM items drawing.total →
            Takes (state.board.balance bm) (forBM items drawing.total)
      | .drawing drawing (.paying index) =>
          ∀ line ∈ (state.board.user.getD [])[index]?, drawing.wins items line = true →
            Takes (state.board.balance line.userid) (drawing.credit items line)
      | _ => True
  | _ => True

section Amounts

omit [Fintype Process] [DecidableEq Process] [DecidableEq User] in
theorem stake_le (purchase : Purchase User items) :
    ((items.price * purchase.n : Nat) : Int) ≤ intMax := by
  have product : items.price * purchase.n ≤ 10000 * 9999 :=
    Nat.mul_le_mul items.price_high purchase.n_le
  unfold intMax
  omega

theorem newBalance_pay {old money : Int} (nonneg : 0 ≤ money) (fits : money ≤ intMax)
    (covered : money ≤ old) (high : old - money ≤ intMax) :
    newBalance old (-money) = old - money := by
  have same : wrap (- -money) = money := by
    rw [neg_neg]
    exact wrap_of_fits (by unfold intMin; omega) fits
  unfold newBalance
  rw [same, if_neg (fun both => by omega), ← sub_eq_add_neg]
  exact wrap_of_fits (by unfold intMin; omega) high

theorem newBalance_take {old money : Int} (nonneg : 0 ≤ money) (takes : Takes old money) :
    newBalance old money = old + money := by
  unfold newBalance
  rw [if_neg (fun both => by omega)]
  exact wrap_of_fits takes.2.1 takes.2.2

omit [Fintype Process] [DecidableEq Process] [DecidableEq User] in
theorem change_take {board : Board Process User} {user : User} {money : Int}
    (nonneg : 0 ≤ money) (takes : Takes (board.balance user) money) :
    board.change user money = money := by
  unfold Board.change
  rw [newBalance_take nonneg takes]
  omega

end Amounts

section Sums

variable {Weight : Type} [AddCommMonoid Weight]

theorem sum_update (stage : Process → Stage) (process : Process) (next : Stage)
    (weight : Process → Stage → Weight) :
    (∑ other, weight other (Function.update stage process next other)) +
        weight process (stage process) =
      (∑ other, weight other (stage other)) + weight process next := by
  rw [← Finset.add_sum_erase Finset.univ _ (Finset.mem_univ process),
    ← Finset.add_sum_erase Finset.univ (fun other => weight other (stage other))
      (Finset.mem_univ process), Function.update_self]
  have rest : ∀ other ∈ Finset.univ.erase process,
      weight other (Function.update stage process next other) = weight other (stage other) := by
    intro other member
    rw [Function.update_of_ne (Finset.ne_of_mem_erase member)]
  rw [Finset.sum_congr rfl rest, add_right_comm, add_comm (weight process next), add_right_comm]

theorem sum_update_same (stage : Process → Stage) (process : Process) (next : Stage)
    (weight : Process → Stage → Weight) (same : weight process next = weight process (stage process)) :
    ∑ other, weight other (Function.update stage process next other) =
      ∑ other, weight other (stage other) := by
  refine Finset.sum_congr rfl fun other _member => ?_
  by_cases equal : other = process
  · rw [equal, Function.update_self, same]
  · rw [Function.update_of_ne equal]

end Sums

/-! ### The payments -/

section Books

variable {purchases : Process → Purchase User items} {state : State Process User}

def held (purchases : Process → Purchase User items) (process : Process) (stage : Stage) : Int :=
  if stage.charged && !stage.isRefunded then ((items.price * (purchases process).n : Nat) : Int)
  else 0

structure Books (purchases : Process → Purchase User items) (log : List (Entry Process User))
    (stage : Process → Stage) : Prop where
  charged : ∀ process, (∃ amount, .stake process amount ∈ log) ↔ (stage process).charged = true
  refunded : ∀ process, (∃ amount, .refund process amount ∈ log) ↔
    (stage process).isRefunded = true
  stakeAmount : ∀ process amount, .stake process amount ∈ log →
    amount = ((items.price * (purchases process).n : Nat) : Int)
  refundAmount : ∀ process amount, .refund process amount ∈ log →
    amount = ((items.price * (purchases process).n : Nat) : Int)
  held : staked log = ∑ process, held purchases process (stage process)

variable {log : List (Entry Process User)} {stage : Process → Stage}

omit [DecidableEq User] in
theorem Books.move (books : Books purchases log stage) {process : Process} {next : Stage}
    (charged : next.charged = (stage process).charged)
    (refunded : next.isRefunded = (stage process).isRefunded) :
    Books purchases log (Function.update stage process next) where
  charged other := by
    rw [books.charged]
    by_cases same : other = process
    · rw [same, Function.update_self, charged]
    · rw [Function.update_of_ne same]
  refunded other := by
    rw [books.refunded]
    by_cases same : other = process
    · rw [same, Function.update_self, refunded]
    · rw [Function.update_of_ne same]
  stakeAmount := books.stakeAmount
  refundAmount := books.refundAmount
  held := by
    rw [books.held, sum_update_same]
    unfold Lottery.held
    rw [charged, refunded]

omit [DecidableEq User] in
theorem Books.pay (books : Books purchases log stage) {process : Process}
    (before : stage process = .affordable) :
    Books purchases
      (log ++ [.stake process ((items.price * (purchases process).n : Nat) : Int)])
      (Function.update stage process .paid) where
  charged other := by
    by_cases same : other = process
    · subst same
      rw [Function.update_self]
      exact iff_of_true ⟨_, List.mem_append_right _ (List.mem_singleton_self _)⟩ rfl
    · rw [Function.update_of_ne same, ← books.charged]
      simp [same]
  refunded other := by
    have old := books.refunded other
    by_cases same : other = process
    · subst same
      rw [before] at old
      rw [Function.update_self]
      exact Iff.trans (by simp) old
    · rw [Function.update_of_ne same, ← old]
      simp
  stakeAmount other amount member := by
    rcases List.mem_append.mp member with old | new
    · exact books.stakeAmount other amount old
    · cases List.mem_singleton.mp new
      rfl
  refundAmount other amount member := by
    rcases List.mem_append.mp member with old | new
    · exact books.refundAmount other amount old
    · cases List.mem_singleton.mp new
  held := by
    have moved := sum_update stage process .paid (Lottery.held purchases)
    rw [before] at moved
    have none : Lottery.held purchases process .affordable = 0 := rfl
    have all : Lottery.held purchases process .paid =
      ((items.price * (purchases process).n : Nat) : Int) := rfl
    rw [staked_append, books.held]
    change _ + ((items.price * (purchases process).n : Nat) : Int) = _
    omega

omit [DecidableEq User] in
theorem Books.payBack (books : Books purchases log stage) {process : Process}
    (before : stage process = .late) :
    Books purchases
      (log ++ [.refund process ((items.price * (purchases process).n : Nat) : Int)])
      (Function.update stage process .refunded) where
  charged other := by
    have old := books.charged other
    by_cases same : other = process
    · subst same
      rw [before] at old
      rw [Function.update_self]
      exact Iff.trans (by simp) old
    · rw [Function.update_of_ne same, ← old]
      simp
  refunded other := by
    by_cases same : other = process
    · subst same
      rw [Function.update_self]
      exact iff_of_true ⟨_, List.mem_append_right _ (List.mem_singleton_self _)⟩ rfl
    · rw [Function.update_of_ne same, ← books.refunded]
      simp [same]
  stakeAmount other amount member := by
    rcases List.mem_append.mp member with old | new
    · exact books.stakeAmount other amount old
    · cases List.mem_singleton.mp new
  refundAmount other amount member := by
    rcases List.mem_append.mp member with old | new
    · exact books.refundAmount other amount old
    · cases List.mem_singleton.mp new
      rfl
  held := by
    have moved := sum_update stage process .refunded (Lottery.held purchases)
    rw [before] at moved
    have none : Lottery.held purchases process .refunded = 0 := rfl
    have all : Lottery.held purchases process .late =
      ((items.price * (purchases process).n : Nat) : Int) := rfl
    rw [staked_append, books.held]
    change _ + -((items.price * (purchases process).n : Nat) : Int) = _
    omega

omit [DecidableEq Process] [DecidableEq User] in
theorem Books.enter (books : Books purchases log stage) {entry : Entry Process User}
    (stake : ∀ process amount, entry ≠ .stake process amount)
    (refund : ∀ process amount, entry ≠ .refund process amount) :
    Books purchases (log ++ [entry]) stage where
  charged process := by
    rw [← books.charged]
    refine exists_congr fun amount => ?_
    rw [List.mem_append, List.mem_singleton]
    exact or_iff_left fun same => stake process amount same.symm
  refunded process := by
    rw [← books.refunded]
    refine exists_congr fun amount => ?_
    rw [List.mem_append, List.mem_singleton]
    exact or_iff_left fun same => refund process amount same.symm
  stakeAmount process amount member := by
    rcases List.mem_append.mp member with old | new
    · exact books.stakeAmount process amount old
    · exact absurd (List.mem_singleton.mp new).symm (stake process amount)
  refundAmount process amount member := by
    rcases List.mem_append.mp member with old | new
    · exact books.refundAmount process amount old
    · exact absurd (List.mem_singleton.mp new).symm (refund process amount)
  held := by
    rw [staked_append, books.held]
    cases entry with
    | stake process amount => exact absurd rfl (stake process amount)
    | refund process amount => exact absurd rfl (refund process amount)
    | share amount => exact Int.add_zero _
    | fee amount => exact Int.add_zero _
    | prize line amount => exact Int.add_zero _

end Books

section BooksSteps

variable {purchases : Process → Purchase User items} {state : State Process User} {bm : User}

omit [Fintype Process] in
theorem ticketStep_free {process : Process} {purchase : Purchase User items}
    {board : Board Process User} {stage : Stage} (pays : stage ≠ .affordable)
    (refunds : stage ≠ .late) :
    (ticketStep items process purchase board stage).1.log = board.log ∧
      (ticketStep items process purchase board stage).2.charged = stage.charged ∧
      (ticketStep items process purchase board stage).2.isRefunded = stage.isRefunded := by
  cases stage with
  | affordable => exact absurd rfl pays
  | late => exact absurd rfl refunds
  | start => cases on : board.ticket <;> simp [ticketStep, on, Stage.charged, Stage.isRefunded]
  | paid => cases on : board.ticket <;> simp [ticketStep, on, Stage.charged, Stage.isRefunded]
  | caught => cases on : board.ticket <;> simp [ticketStep, on, Stage.charged, Stage.isRefunded]
  | shown =>
      by_cases poor : (board.balance purchase.userid).tdiv items.price < purchase.n <;>
        simp [ticketStep, poor, Stage.charged, Stage.isRefunded]
  | listed =>
      cases there : board.record <;> simp [ticketStep, there, Stage.charged, Stage.isRefunded]
  | missing =>
      cases there : board.record <;>
        exact ⟨by simp [ticketStep, Board.creat, there, Board.setContents], rfl, rfl⟩
  | created =>
      cases there : board.record <;> simp [ticketStep, there, Stage.charged, Stage.isRefunded]
  | opened file =>
      cases free : board.holder file <;>
        simp [ticketStep, free, Stage.charged, Stage.isRefunded, Board.setHolder]
  | entering => exact ⟨rfl, rfl, rfl⟩
  | locked file => exact ⟨rfl, rfl, rfl⟩
  | read file ticket => exact ⟨rfl, rfl, rfl⟩
  | truncated file ticket => exact ⟨rfl, rfl, rfl⟩
  | written file => exact ⟨rfl, rfl, rfl⟩
  | done => exact ⟨rfl, rfl, rfl⟩
  | refunded => exact ⟨rfl, rfl, rfl⟩
  | left => exact ⟨rfl, rfl, rfl⟩

omit [Fintype Process] [DecidableEq Process] in
theorem drawStep_log (board : Board Process User) (draw : Draw) :
    (drawStep items bm board draw).1.log = board.log ∨
      ∃ entry, (drawStep items bm board draw).1.log = board.log ++ [entry] ∧
        (∀ process amount, entry ≠ .stake process amount) ∧
        (∀ process amount, entry ≠ .refund process amount) := by
  cases draw with
  | idle => exact .inl rfl
  | started bet => exact .inl rfl
  | drawing drawing phase =>
      cases phase with
      | loaded =>
          obtain ⟨bet, ticket, total⟩ := drawing
          cases bet with
          | item win =>
              by_cases positive : 0 < forBM items total
              · simp only [drawStep, positive, if_true]
                exact .inr ⟨_, rfl, fun _ _ => nofun, fun _ _ => nofun⟩
              · exact .inl (by simp only [drawStep, positive, if_false])
          | cancel =>
              by_cases poor : board.balance bm < items.price * 10
              · exact .inl (by simp only [drawStep, poor, if_true])
              · exact .inl (by simp only [drawStep, poor, if_false])
      | charging => exact .inr ⟨_, rfl, fun _ _ => nofun, fun _ _ => nofun⟩
      | paying index =>
          cases here : (board.user.getD [])[index]? with
          | none =>
              exact .inl (by simp only [drawStep, here])
          | some line =>
              by_cases wins : drawing.wins items line = true
              · simp only [drawStep, here, wins, if_true]
                exact .inr ⟨_, rfl, fun _ _ => nofun, fun _ _ => nofun⟩
              · exact .inl (by simp only [drawStep, here, if_neg wins])
      | opening => exact .inl rfl
      | posting => exact .inl rfl
      | unlinkUser => exact .inl rfl
      | unlinkRecord => exact .inl rfl
      | unlinkLock => exact .inl rfl
      | unlinkEnd => exact .inl rfl
      | finished => exact .inl rfl

theorem books_step {act : Act Process User} (books : Books purchases state.board.log state.stage)
    (orderly : Orderly bm purchases state act) :
    Books purchases (step items bm purchases state act).board.log
      (step items bm purchases state act).stage := by
  cases act with
  | buy process =>
      change Books purchases (ticketStep items process (purchases process) state.board
        (state.stage process)).1.log (Function.update state.stage process _)
      by_cases pays : state.stage process = .affordable
      · simp only [Orderly, pays] at orderly
        have exact' : state.board.change (purchases process).userid
            (-((items.price * (purchases process).n : Nat) : Int)) =
            -((items.price * (purchases process).n : Nat) : Int) := by
          unfold Board.change
          rw [newBalance_pay (Int.natCast_nonneg _) (stake_le _) orderly.1 orderly.2]
          omega
        have paid := books.pay pays
        rw [pays]
        simp only [ticketStep, exact', neg_neg]
        exact paid
      · by_cases refunds : state.stage process = .late
        · simp only [Orderly, refunds] at orderly
          have paidBack := books.payBack refunds
          rw [refunds]
          simp only [ticketStep, change_take (Int.natCast_nonneg _) orderly]
          exact paidBack
        · obtain ⟨log, charged, refunded⟩ := @ticketStep_free Process User _ _ items process
            (purchases process) state.board (state.stage process) pays refunds
          rw [log]
          exact books.move charged refunded
  | stop =>
      simp only [step]
      split <;> exact books
  | openticket bet =>
      simp only [step]
      split <;> exact books
  | draw =>
      change Books purchases (drawStep items bm state.board state.draw).1.log state.stage
      rcases @drawStep_log Process User _ items bm state.board state.draw with
        same | ⟨entry, log, stake, refund⟩
      · rw [same]
        exact books
      · rw [log]
        exact books.enter stake refund
  | other user balance => exact books

end BooksSteps

/-! ### The end of the sale -/

section Closed

variable {purchases : Process → Purchase User items} {state : State Process User} {bm : User}

structure Closed (state : State Process User) : Prop where
  ticket : state.board.ended = true ∨ state.board.lock = true ∨ state.draw.begun = true →
    state.board.ticket = false
  quiet : ∀ drawing phase, state.draw = .drawing drawing phase →
    ∀ process, (state.stage process).writing = false

omit [Fintype Process] in
theorem ticketStep_flags (process : Process) (purchase : Purchase User items)
    (board : Board Process User) (stage : Stage) :
    (ticketStep items process purchase board stage).1.ticket = board.ticket ∧
      (ticketStep items process purchase board stage).1.ended = board.ended ∧
      (ticketStep items process purchase board stage).1.lock = board.lock ∧
      (ticketStep items process purchase board stage).1.backup = board.backup := by
  cases stage with
  | missing =>
      cases there : board.record <;>
        simp [ticketStep, Board.creat, there, Board.setContents]
  | created => cases there : board.record <;> simp [ticketStep, there]
  | opened file => cases free : board.holder file <;> simp [ticketStep, free, Board.setHolder]
  | _ => exact ⟨rfl, rfl, rfl, rfl⟩

omit [Fintype Process] in
theorem ticketStep_quiet {process : Process} {purchase : Purchase User items}
    {board : Board Process User} {stage : Stage} (off : board.ticket = false)
    (quiet : stage.writing = false) :
    (ticketStep items process purchase board stage).2.writing = false ∧
      (ticketStep items process purchase board stage).2.counted = stage.counted ∧
      (ticketStep items process purchase board stage).2.onList = stage.onList ∧
      (ticketStep items process purchase board stage).1.user = board.user ∧
      (ticketStep items process purchase board stage).1.record = board.record ∧
      (ticketStep items process purchase board stage).1.contents = board.contents := by
  cases stage with
  | start =>
      have next : ticketStep items process purchase board .start = (board, .left) := by
        simp [ticketStep, off]
      rw [next]
      exact ⟨rfl, rfl, rfl, rfl, rfl, rfl⟩
  | paid =>
      have next : ticketStep items process purchase board .paid = (board, .late) := by
        simp [ticketStep, off]
      rw [next]
      exact ⟨rfl, rfl, rfl, rfl, rfl, rfl⟩
  | caught =>
      have next : ticketStep items process purchase board .caught = (board, .late) := by
        simp [ticketStep, off]
      rw [next]
      exact ⟨rfl, rfl, rfl, rfl, rfl, rfl⟩
  | shown =>
      have next : ticketStep items process purchase board .shown = (board, .left) ∨
          ticketStep items process purchase board .shown = (board, .affordable) := by
        by_cases poor : (board.balance purchase.userid).tdiv items.price < purchase.n <;>
          simp [ticketStep, poor]
      rcases next with next | next <;> rw [next] <;> exact ⟨rfl, rfl, rfl, rfl, rfl, rfl⟩
  | entering | listed | missing | created | opened _ | locked _ | read _ _ | truncated _ _ =>
      exact absurd quiet nofun
  | _ => exact ⟨rfl, rfl, rfl, rfl, rfl, rfl⟩

omit [Fintype Process] in
theorem closed_step {act : Act Process User} (closed : Closed state)
    (orderly : Orderly bm purchases state act) :
    Closed (step items bm purchases state act) := by
  cases act with
  | buy process =>
      obtain ⟨ticket, ended, lock, _backup⟩ :=
        ticketStep_flags process (purchases process) state.board (state.stage process)
      refine ⟨fun begun => ?_, fun drawing phase draw other => ?_⟩
      · simp only [step, ticket, ended, lock] at begun ⊢
        exact closed.ticket begun
      · have off := closed.ticket (.inr (.inr (by rw [show state.draw = _ from draw]; rfl)))
        have quiet := closed.quiet drawing phase draw
        change (Function.update state.stage process _ other).writing = false
        by_cases same : other = process
        · rw [same, Function.update_self]
          exact (ticketStep_quiet off (quiet process)).1
        · rw [Function.update_of_ne same]
          exact quiet other
  | stop =>
      simp only [step]
      split
      · exact ⟨fun _begun => rfl, closed.quiet⟩
      · exact closed
  | openticket bet =>
      simp only [step]
      split
      · next accepted =>
          rw [Bool.and_eq_true] at accepted
          exact ⟨fun _begun => closed.ticket (.inl accepted.2), nofun⟩
      · exact closed
  | draw =>
      cases at' : state.draw with
      | idle =>
          simp only [step, drawStep, at']
          refine ⟨fun begun => ?_, fun drawing phase draw => nomatch draw⟩
          rcases begun with ended | lock | begun
          · exact closed.ticket (.inl ended)
          · exact closed.ticket (.inr (.inl lock))
          · cases begun
      | started bet =>
          have off := closed.ticket (.inr (.inr (by rw [at']; rfl)))
          simp only [Orderly, at'] at orderly
          simp only [step, drawStep, at']
          exact ⟨fun _begun => off, fun _ _ _ => orderly⟩
      | drawing drawing phase =>
          have off := closed.ticket (.inr (.inr (by rw [at']; rfl)))
          have quiet := closed.quiet drawing phase at'
          have flags : (drawStep items bm state.board (.drawing drawing phase)).1.ticket =
              state.board.ticket := by
            obtain ⟨bet, ticket, total⟩ := drawing
            cases phase with
            | loaded =>
                cases bet with
                | item win =>
                    simp only [drawStep]
                    split <;> rfl
                | cancel =>
                    simp only [drawStep]
                    split <;> rfl
            | paying index =>
                simp only [drawStep]
                split
                · split <;> rfl
                · rfl
            | _ => rfl
          refine ⟨fun _begun => ?_, fun _ _ _ => quiet⟩
          simp only [step, at']
          rw [flags, off]
  | other user balance => exact ⟨closed.ticket, closed.quiet⟩

end Closed

/-! ### The numbers -/

section Recording

variable {purchases : Process → Purchase User items} {board : Board Process User}
  {stage : Process → Stage} {process : Process} {next : Stage}

def tally (purchases : Process → Purchase User items) (stage : Process → Stage) (item : Nat) :
    Nat :=
  ∑ process, if (stage process).counted ∧ (purchases process).ch = item then
    (purchases process).n else 0

/-- As long as `ticket.data` is not removed: the purchases at work have the same file
open, one of them holds the lock, and the numbers are the tally except while they
are rewritten. -/
structure Recording (purchases : Process → Purchase User items) (board : Board Process User)
    (stage : Process → Stage) : Prop where
  file : ∀ process file, (stage process).file? = some file → board.record = some file
  created : ∀ process, stage process = .created → board.record.isSome
  absent : board.record = none → ∀ process, (stage process).counted = false
  holder : ∀ file, board.record = some file → ∀ process,
    board.holder file = some process ↔ (stage process).hasLock = true
  free : board.record = none → board.holder board.fresh = none
  read : ∀ process file ticket, stage process = .read file ticket →
    ticket = tally purchases stage
  truncated : ∀ process file ticket, stage process = .truncated file ticket →
    ticket = Function.update (tally purchases stage) (purchases process).ch
      (tally purchases stage (purchases process).ch + (purchases process).n)
  contents : ∀ file, board.record = some file → (∀ process, (stage process).rewriting = false) →
    ticketOf (board.contents file) = tally purchases stage

omit [DecidableEq User] in
theorem tally_update_same (same : next.counted = (stage process).counted) :
    tally purchases (Function.update stage process next) = tally purchases stage := by
  funext item
  exact sum_update_same stage process next
    (fun other stage => if stage.counted ∧ (purchases other).ch = item then
      (purchases other).n else 0) (by rw [same])

omit [DecidableEq User] in
theorem tally_update_counted (before : (stage process).counted = false)
    (after : next.counted = true) :
    tally purchases (Function.update stage process next) =
      Function.update (tally purchases stage) (purchases process).ch
        (tally purchases stage (purchases process).ch + (purchases process).n) := by
  funext item
  have moved := sum_update stage process next
    (fun other stage => if stage.counted ∧ (purchases other).ch = item then
      (purchases other).n else 0)
  simp only [before, after, Bool.false_eq_true, false_and, if_false, Nat.add_zero,
    true_and] at moved
  by_cases same : item = (purchases process).ch
  · subst same
    rw [Function.update_self]
    simpa [tally] using moved
  · rw [Function.update_of_ne same]
    simpa [tally, Ne.symm same] using moved

omit [DecidableEq Process] [DecidableEq User] in
theorem tally_beyond {item : Nat} (beyond : items.count ≤ item) :
    tally purchases stage item = 0 := by
  refine Finset.sum_eq_zero fun other _member => if_neg fun both => ?_
  have below := (purchases other).ch_lt
  omega

theorem ticketOf_written {ticket : Nat → Nat}
    (beyond : ∀ item, items.count ≤ item → ticket item = 0) :
    ticketOf ((List.range items.count).map ticket) = ticket := by
  funext item
  have high := items.count_high
  unfold ticketOf
  rw [List.take_of_length_le (by rw [List.length_map, List.length_range]; exact high)]
  by_cases inside : item < items.count
  · simp [List.getD, inside]
  · rw [beyond item (by omega)]
    simp [List.getD, inside]

omit [DecidableEq User] in
theorem Recording.alone (recording : Recording purchases board stage) {file : Nat}
    (record : board.record = some file) {other : Process}
    (mine : (stage process).hasLock = true) (theirs : (stage other).hasLock = true) :
    other = process := by
  have left := (recording.holder file record process).mpr mine
  have right := (recording.holder file record other).mpr theirs
  rw [left] at right
  exact (Option.some.inj right).symm

omit [Fintype Process] [DecidableEq Process] in
theorem hasLock_of_rewriting {stage : Stage} (rewriting : stage.rewriting = true) :
    stage.hasLock = true := by
  cases stage <;> first | rfl | cases rewriting

theorem Recording.move (recording : Recording purchases board stage)
    {after : Board Process User} (record : after.record = board.record)
    (contents : after.contents = board.contents) (holder : after.holder = board.holder)
    (fresh : after.fresh = board.fresh) (before : (stage process).file? = none)
    (file : next.file? = none) (created : next = .created → board.record.isSome)
    (counted : next.counted = (stage process).counted) :
    Recording purchases after (Function.update stage process next) := by
  have noLock : ∀ stage : Stage, stage.file? = none → stage.hasLock = false := by
    intro stage absent
    cases stage <;> first | rfl | cases absent
  have noRewriting : ∀ stage : Stage, stage.file? = none → stage.rewriting = false := by
    intro stage absent
    cases stage <;> first | rfl | cases absent
  refine ⟨?_, ?_, ?_, ?_, ?_, ?_, ?_, ?_⟩
  · rw [record]
    intro other there
    by_cases same : other = process
    · rw [same, Function.update_self, file]
      nofun
    · rw [Function.update_of_ne same]
      exact recording.file other there
  · rw [record]
    intro other
    by_cases same : other = process
    · rw [same, Function.update_self]
      exact created
    · rw [Function.update_of_ne same]
      exact recording.created other
  · rw [record]
    intro absent other
    by_cases same : other = process
    · rw [same, Function.update_self, counted]
      exact recording.absent absent process
    · rw [Function.update_of_ne same]
      exact recording.absent absent other
  · rw [record, holder]
    intro there present other
    rw [recording.holder there present other]
    by_cases same : other = process
    · rw [same, Function.update_self, noLock _ before, noLock _ file]
    · rw [Function.update_of_ne same]
  · rw [record, holder, fresh]
    exact recording.free
  · rw [tally_update_same counted]
    intro other there ticket
    by_cases same : other = process
    · rw [same, Function.update_self]
      intro reading
      rw [reading] at file
      cases file
    · rw [Function.update_of_ne same]
      exact recording.read other there ticket
  · rw [tally_update_same counted]
    intro other there ticket
    by_cases same : other = process
    · rw [same, Function.update_self]
      intro reading
      rw [reading] at file
      cases file
    · rw [Function.update_of_ne same]
      exact recording.truncated other there ticket
  · rw [record, contents, tally_update_same counted]
    intro there present none
    refine recording.contents there present fun other => ?_
    by_cases same : other = process
    · rw [same]
      exact noRewriting _ before
    · have old := none other
      rw [Function.update_of_ne same] at old
      exact old

end Recording

section RecordingSteps

variable {purchases : Process → Purchase User items} {board : Board Process User}
  {stage : Process → Stage} {process : Process}

section

variable (recording : Recording purchases board stage)

include recording

theorem Recording.creat (before : stage process = .missing)
    (kept : ∀ file ∈ board.record,
      board.contents file = [] ∨ ∃ other, (stage other).rewriting = true) :
    Recording purchases board.creat (Function.update stage process .created) := by
  cases there : board.record with
  | some file =>
      have same : Recording purchases board (Function.update stage process .created) :=
        recording.move rfl rfl rfl rfl (by rw [before]; rfl) rfl (by rw [there]; exact fun _ => rfl)
          (by rw [before]; rfl)
      unfold Board.creat
      rw [there]
      refine ⟨same.file, same.created, same.absent, same.holder, same.free, same.read,
        same.truncated, fun other present quiet => ?_⟩
      have equal : other = file := Option.some.inj (present.symm.trans there)
      subst equal
      rcases kept other there with empty | ⟨writer, rewriting⟩
      · have old := same.contents other there quiet
        rw [empty] at old
        simpa [Board.setContents] using old
      · have calm := quiet writer
        have different : writer ≠ process := by
          intro equal
          rw [equal, before] at rewriting
          cases rewriting
        rw [Function.update_of_ne different, rewriting] at calm
        cases calm
  | none =>
      have counted := recording.absent there
      have noFile : ∀ other file, (stage other).file? ≠ some file := by
        intro other file present
        have record := recording.file other file present
        rw [there] at record
        cases record
      have noTally : tally purchases stage = fun _ => 0 := by
        funext item
        refine Finset.sum_eq_zero fun other _member => if_neg fun both => ?_
        rw [counted other] at both
        cases both.1
      have tallySame : tally purchases (Function.update stage process .created) =
          tally purchases stage := tally_update_same (by rw [before]; rfl)
      unfold Board.creat
      rw [there]
      refine ⟨?_, fun _ _ => rfl, nofun, ?_, nofun, ?_, ?_, ?_⟩
      · intro other file
        by_cases same : other = process
        · rw [same, Function.update_self]
          nofun
        · rw [Function.update_of_ne same]
          exact fun present => absurd present (noFile other file)
      · intro file present other
        cases present
        change board.holder board.fresh = some other ↔ _
        rw [recording.free there]
        refine iff_of_false nofun ?_
        by_cases same : other = process
        · rw [same, Function.update_self]
          nofun
        · rw [Function.update_of_ne same]
          intro hasLock
          cases at' : stage other with
          | locked file => exact noFile other file (by rw [at']; rfl)
          | read file ticket => exact noFile other file (by rw [at']; rfl)
          | truncated file ticket => exact noFile other file (by rw [at']; rfl)
          | written file => exact noFile other file (by rw [at']; rfl)
          | _ => rw [at'] at hasLock; cases hasLock
      · intro other file ticket reading
        by_cases same : other = process
        · rw [same, Function.update_self] at reading
          cases reading
        · rw [Function.update_of_ne same] at reading
          exact absurd (by rw [reading]; rfl) (noFile other file)
      · intro other file ticket reading
        by_cases same : other = process
        · rw [same, Function.update_self] at reading
          cases reading
        · rw [Function.update_of_ne same] at reading
          exact absurd (by rw [reading]; rfl) (noFile other file)
      · intro file present _quiet
        cases present
        rw [tallySame, noTally]
        funext item
        simp [Board.setContents, ticketOf]

theorem Recording.advance {after : Board Process User} {next : Stage} {file : Nat}
    (before : board.record = some file) (record : after.record = some file)
    (theirs : ∀ other ≠ process, after.holder file = some other ↔ board.holder file = some other)
    (mine : after.holder file = some process ↔ next.hasLock = true)
    (files : ∀ there, next.file? = some there → there = file)
    (read : ∀ there ticket, next = .read there ticket →
      ticket = tally purchases (Function.update stage process next))
    (truncated : ∀ there ticket, next = .truncated there ticket →
      ticket = Function.update (tally purchases (Function.update stage process next))
        (purchases process).ch (tally purchases (Function.update stage process next)
          (purchases process).ch + (purchases process).n))
    (others : tally purchases (Function.update stage process next) = tally purchases stage ∨
      ∀ other ≠ process, (stage other).rewriting = false)
    (contents : (∀ other, (Function.update stage process next other).rewriting = false) →
      ticketOf (after.contents file) = tally purchases (Function.update stage process next)) :
    Recording purchases after (Function.update stage process next) := by
  refine ⟨?_, ?_, ?_, ?_, ?_, ?_, ?_, ?_⟩
  · intro other there present
    rw [record]
    by_cases same : other = process
    · rw [same, Function.update_self] at present
      rw [files there present]
    · rw [Function.update_of_ne same] at present
      rw [← before]
      exact recording.file other there present
  · intro _ _
    rw [record]
    rfl
  · rw [record]
    nofun
  · intro there present other
    cases record.symm.trans present
    by_cases same : other = process
    · rw [same, Function.update_self]
      exact mine
    · rw [Function.update_of_ne same, theirs other same]
      exact recording.holder file before other
  · rw [record]
    nofun
  · intro other there ticket reading
    by_cases same : other = process
    · rw [same, Function.update_self] at reading
      exact read there ticket reading
    · rw [Function.update_of_ne same] at reading
      rcases others with unchanged | calm
      · rw [unchanged]
        exact recording.read other there ticket reading
      · have quiet := calm other same
        rw [reading] at quiet
        cases quiet
  · intro other there ticket writing
    by_cases same : other = process
    · subst same
      rw [Function.update_self] at writing
      exact truncated there ticket writing
    · rw [Function.update_of_ne same] at writing
      rcases others with unchanged | calm
      · rw [unchanged]
        exact recording.truncated other there ticket writing
      · have quiet := calm other same
        rw [writing] at quiet
        cases quiet
  · intro there present quiet
    cases record.symm.trans present
    exact contents quiet

theorem Recording.fopen (before : stage process = .created) {file : Nat}
    (record : board.record = some file) :
    Recording purchases board (Function.update stage process (.opened file)) := by
  have unchanged := @tally_update_same Process User _ _ items purchases stage process
    (.opened file) (by rw [before]; rfl)
  refine recording.advance record record (fun _ _ => Iff.rfl) ?_ ?_ nofun nofun
    (.inl unchanged) ?_
  · rw [recording.holder file record process, before]
    rfl
  · intro there present
    cases present
    rfl
  · intro quiet
    rw [unchanged]
    refine recording.contents file record fun other => ?_
    by_cases same : other = process
    · rw [same, before]
      rfl
    · have old := quiet other
      rw [Function.update_of_ne same] at old
      exact old

theorem Recording.calm {file : Nat}
    (record : board.record = some file) (mine : (stage process).hasLock = true)
    {other : Process} (different : other ≠ process) : (stage other).rewriting = false := by
  cases rewriting : (stage other).rewriting with
  | false => rfl
  | true => exact absurd (recording.alone record mine (hasLock_of_rewriting rewriting)) different

theorem Recording.flock {file : Nat}
    (before : stage process = .opened file) (free : board.holder file = none) :
    Recording purchases (board.setHolder file (some process))
      (Function.update stage process (.locked file)) := by
  have record := recording.file process file (by rw [before]; rfl)
  have unchanged := @tally_update_same Process User _ _ items purchases stage process
    (.locked file) (by rw [before]; rfl)
  refine recording.advance record record ?_ ?_ ?_ nofun nofun (.inl unchanged) ?_
  · intro other different
    simp [Board.setHolder, free, Ne.symm different]
  · simp [Board.setHolder, Stage.hasLock]
  · intro there present
    cases present
    rfl
  · intro quiet
    rw [unchanged]
    refine recording.contents file record fun other => ?_
    by_cases same : other = process
    · rw [same, before]
      rfl
    · have old := quiet other
      rw [Function.update_of_ne same] at old
      exact old

theorem Recording.readNumbers {file : Nat}
    (before : stage process = .locked file) :
    Recording purchases board
      (Function.update stage process (.read file (ticketOf (board.contents file)))) := by
  have record := recording.file process file (by rw [before]; rfl)
  have mine : (stage process).hasLock = true := by rw [before]; rfl
  have unchanged := @tally_update_same Process User _ _ items purchases stage process
    (.read file (ticketOf (board.contents file))) (by rw [before]; rfl)
  have quiet : ∀ other, (stage other).rewriting = false := by
    intro other
    by_cases same : other = process
    · rw [same, before]
      rfl
    · exact recording.calm record mine same
  refine recording.advance record record (fun _ _ => Iff.rfl) ?_ ?_ ?_ nofun
    (.inl unchanged) ?_
  · rw [recording.holder file record process, before]
    rfl
  · intro there present
    cases present
    rfl
  · intro there ticket reading
    cases reading
    rw [unchanged]
    exact recording.contents file record quiet
  · intro quiet
    have busy := quiet process
    rw [Function.update_self] at busy
    cases busy

theorem Recording.truncate {file : Nat}
    {ticket : Nat → Nat} (before : stage process = .read file ticket) :
    Recording purchases (board.setContents file [])
      (Function.update stage process (.truncated file (Function.update ticket
        (purchases process).ch (ticket (purchases process).ch + (purchases process).n)))) := by
  have record := recording.file process file (by rw [before]; rfl)
  have numbers := recording.read process file ticket before
  have unchanged := @tally_update_same Process User _ _ items purchases stage process
    (.truncated file (Function.update ticket (purchases process).ch
      (ticket (purchases process).ch + (purchases process).n))) (by rw [before]; rfl)
  refine recording.advance record record (fun _ _ => Iff.rfl) ?_ ?_ nofun ?_
    (.inl unchanged) ?_
  · change board.holder file = _ ↔ _
    rw [recording.holder file record process, before]
    rfl
  · intro there present
    cases present
    rfl
  · intro there new writing
    cases writing
    rw [unchanged, numbers]
  · intro quiet
    have busy := quiet process
    rw [Function.update_self] at busy
    cases busy

theorem Recording.write {file : Nat}
    {ticket : Nat → Nat} (before : stage process = .truncated file ticket) :
    Recording purchases
      (board.setContents file ((List.range items.count).map ticket))
      (Function.update stage process (.written file)) := by
  have record := recording.file process file (by rw [before]; rfl)
  have mine : (stage process).hasLock = true := by rw [before]; rfl
  have changed := @tally_update_counted Process User _ _ items purchases stage process
    (.written file) (by rw [before]; rfl) rfl
  have numbers : tally purchases (Function.update stage process (.written file)) = ticket := by
    rw [changed]
    exact (recording.truncated process file ticket before).symm
  refine recording.advance record record (fun _ _ => Iff.rfl) ?_ ?_ nofun nofun
    (.inr fun other different => recording.calm record mine different) ?_
  · change board.holder file = _ ↔ _
    rw [recording.holder file record process, before]
    rfl
  · intro there present
    cases present
    rfl
  · intro _quiet
    rw [numbers]
    simp only [Board.setContents, Function.update_self]
    refine ticketOf_written fun item beyond => ?_
    rw [← numbers]
    exact tally_beyond beyond

theorem Recording.unlock {file : Nat}
    (before : stage process = .written file) :
    Recording purchases (board.setHolder file none) (Function.update stage process .done) := by
  have record := recording.file process file (by rw [before]; rfl)
  have mine : (stage process).hasLock = true := by rw [before]; rfl
  have unchanged := @tally_update_same Process User _ _ items purchases stage process .done
    (by rw [before]; rfl)
  refine recording.advance record record ?_ ?_ nofun nofun nofun (.inl unchanged) ?_
  · intro other different
    have held := (recording.holder file record process).mpr mine
    simp [Board.setHolder, held, Ne.symm different]
  · simp [Board.setHolder, Stage.hasLock]
  · intro quiet
    rw [unchanged]
    refine recording.contents file record fun other => ?_
    by_cases same : other = process
    · rw [same, before]
      rfl
    · exact recording.calm record mine same

end

end RecordingSteps

section Files

variable {purchases : Process → Purchase User items} {state : State Process User} {bm : User}

theorem recording_ticketStep {board : Board Process User} {stage : Process → Stage}
    {process : Process} (recording : Recording purchases board stage)
    (kept : stage process = .missing → ∀ file ∈ board.record,
      board.contents file = [] ∨ ∃ other, (stage other).rewriting = true) :
    Recording purchases
      (ticketStep items process (purchases process) board (stage process)).1
      (Function.update stage process
        (ticketStep items process (purchases process) board (stage process)).2) := by
  cases at' : stage process with
  | missing => exact recording.creat at' (kept at')
  | created =>
      obtain ⟨file, record⟩ := Option.isSome_iff_exists.mp (recording.created process at')
      have opened := recording.fopen at' record
      simp only [ticketStep, record]
      exact opened
  | opened file =>
      cases holder : board.holder file with
      | some other =>
          simp only [ticketStep, holder]
          rw [← at', Function.update_eq_self]
          exact recording
      | none =>
          simp only [ticketStep, holder]
          exact recording.flock at' holder
  | locked file => exact recording.readNumbers at'
  | read file ticket => exact recording.truncate at'
  | truncated file ticket => exact recording.write at'
  | written file => exact recording.unlock at'
  | listed =>
      cases there : board.record with
      | none =>
          simp only [ticketStep, there]
          exact recording.move rfl rfl rfl rfl (by rw [at']; rfl) rfl nofun (by rw [at']; rfl)
      | some file =>
          simp only [ticketStep, there]
          exact recording.move rfl rfl rfl rfl (by rw [at']; rfl) rfl
            (fun _ => by rw [there]; rfl) (by rw [at']; rfl)
  | start =>
      simp only [ticketStep]
      split <;>
        exact recording.move rfl rfl rfl rfl (by rw [at']; rfl) rfl nofun (by rw [at']; rfl)
  | shown =>
      simp only [ticketStep]
      split <;>
        exact recording.move rfl rfl rfl rfl (by rw [at']; rfl) rfl nofun (by rw [at']; rfl)
  | paid =>
      simp only [ticketStep]
      split <;>
        exact recording.move rfl rfl rfl rfl (by rw [at']; rfl) rfl nofun (by rw [at']; rfl)
  | caught =>
      simp only [ticketStep]
      split <;>
        exact recording.move rfl rfl rfl rfl (by rw [at']; rfl) rfl nofun (by rw [at']; rfl)
  | affordable | entering | done | late | refunded | left =>
      exact recording.move rfl rfl rfl rfl (by rw [at']; rfl) rfl nofun (by rw [at']; rfl)

def Draw.unlinked : Draw → Bool
  | .drawing _ .unlinkLock | .drawing _ .unlinkEnd | .drawing _ .finished => true
  | _ => false

def Draw.posted : Draw → Bool
  | .drawing _ .unlinkUser | .drawing _ .unlinkRecord => true
  | draw => draw.unlinked

structure Files (purchases : Process → Purchase User items) (state : State Process User) :
    Prop where
  bets : ∀ weight : Line User → Nat, (state.board.bets.map weight).sum =
    ∑ process, if (state.stage process).onList then weight (purchases process).line else 0
  backup : state.draw.posted = false → state.board.backup = none
  posted : ∀ drawing, state.draw = .drawing drawing .unlinkUser →
    state.board.backup = state.board.user
  recording : state.draw.unlinked = false → Recording purchases state.board state.stage

theorem ticketStep_user (process : Process) (purchase : Purchase User items)
    (board : Board Process User) (stage : Stage) :
    (stage = .entering ∧ (ticketStep items process purchase board stage).1.user =
        some (board.user.getD [] ++ [purchase.line]) ∧
      (ticketStep items process purchase board stage).2 = .listed) ∨
    ((ticketStep items process purchase board stage).1.user = board.user ∧
      ((ticketStep items process purchase board stage).2.onList = stage.onList)) := by
  cases stage with
  | entering => exact .inl ⟨rfl, rfl, rfl⟩
  | start => exact .inr ⟨rfl, by cases on : board.ticket <;> simp [ticketStep, on, Stage.onList]⟩
  | paid => exact .inr ⟨rfl, by cases on : board.ticket <;> simp [ticketStep, on, Stage.onList]⟩
  | caught =>
      exact .inr ⟨rfl, by cases on : board.ticket <;> simp [ticketStep, on, Stage.onList]⟩
  | shown =>
      refine .inr ⟨rfl, ?_⟩
      by_cases poor : (board.balance purchase.userid).tdiv items.price < purchase.n <;>
        simp [ticketStep, poor, Stage.onList]
  | listed =>
      exact .inr ⟨rfl, by cases there : board.record <;> simp [ticketStep, there, Stage.onList]⟩
  | missing =>
      right
      cases there : board.record <;>
        exact ⟨by simp [ticketStep, Board.creat, there, Board.setContents], rfl⟩
  | created =>
      right
      cases there : board.record <;> simp [ticketStep, there, Stage.onList]
  | opened file =>
      right
      cases free : board.holder file <;> simp [ticketStep, free, Stage.onList, Board.setHolder]
  | _ => exact .inr ⟨rfl, rfl⟩

theorem files_buy {process : Process} (files : Files purchases state) (closed : Closed state)
    (orderly : Orderly bm purchases state (.buy process)) :
    Files purchases (step items bm purchases state (.buy process)) := by
  obtain ⟨_ticket, _ended, _lock, backup⟩ :=
    ticketStep_flags process (purchases process) state.board (state.stage process)
  refine ⟨fun weight => ?_, fun unposted => ?_, fun drawing posted => ?_, fun linked => ?_⟩
  · have old := files.bets weight
    rcases ticketStep_user process (purchases process) state.board (state.stage process) with
      ⟨entering, user, next⟩ | ⟨user, onList⟩
    · have unposted : state.draw.posted = false := by
        cases at' : state.draw with
        | drawing drawing phase =>
            have quiet := closed.quiet drawing phase at' process
            rw [entering] at quiet
            cases quiet
        | _ => rfl
      have none := files.backup unposted
      have moved := sum_update state.stage process .listed
        (fun other stage => if stage.onList then weight (purchases other).line else 0)
      rw [entering] at moved
      simp only [step, Board.bets, backup, none, user, next, Option.getD_some] at old ⊢
      rw [List.map_append, List.sum_append, old]
      simpa [Stage.onList] using moved.symm
    · have same := sum_update_same state.stage process
        (ticketStep items process (purchases process) state.board (state.stage process)).2
        (fun other stage => if stage.onList then weight (purchases other).line else 0)
        (by rw [onList])
      simp only [step, Board.bets, backup, user] at old ⊢
      exact old.trans same.symm
  · simp only [step, backup]
    exact files.backup unposted
  · have quiet := closed.quiet drawing .unlinkUser posted process
    have off := closed.ticket (.inr (.inr (by rw [show state.draw = _ from posted]; rfl)))
    obtain ⟨_writing, _counted, _onList, user, _record, _contents⟩ :=
      @ticketStep_quiet Process User _ _ items process (purchases process) state.board
        (state.stage process) off quiet
    simp only [step, backup, user]
    exact files.posted drawing posted
  · refine recording_ticketStep (files.recording linked) fun missing => ?_
    simp only [Orderly, missing] at orderly
    exact orderly

end Files

end Settled

end Pttbbs.Mbbsd.Lottery
