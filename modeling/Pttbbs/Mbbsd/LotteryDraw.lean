/-
The draw of a lottery round, and whole runs of a round.

From the load on the list and the numbers stay as they are, so the lines that are
paid are those whose numbers were loaded.  What the winners get together is then at
most the share of the stakes that the prize was computed from.
-/

import Mathlib.Algebra.BigOperators.Group.Finset.Piecewise
import Mathlib.Algebra.BigOperators.Ring.Finset
import Pttbbs.Mbbsd.LotteryRuns

namespace Pttbbs.Mbbsd.Lottery

open Pttbbs.Lib Pttbbs.Common.Money

section Draw

variable {Process User : Type} [Fintype Process] [DecidableEq Process] [DecidableEq User]
  {items : Items} {purchases : Process → Purchase User items} {state : State Process User}
  {bm : User}

/-! ### The files -/

structure SameFiles (before after : Board Process User) : Prop where
  user : after.user = before.user
  record : after.record = before.record
  contents : after.contents = before.contents
  holder : after.holder = before.holder
  fresh : after.fresh = before.fresh
  backup : after.backup = before.backup

omit [Fintype Process] [DecidableEq Process] [DecidableEq User] in
theorem SameFiles.refl (board : Board Process User) : SameFiles board board :=
  ⟨rfl, rfl, rfl, rfl, rfl, rfl⟩

omit [Fintype Process] [DecidableEq Process] [DecidableEq User] in
theorem SameFiles.bets {before after : Board Process User} (same : SameFiles before after) :
    after.bets = before.bets := by
  unfold Board.bets
  rw [same.backup, same.user]

theorem Files.keep (files : Files purchases state) {board : Board Process User} {draw : Draw}
    (same : SameFiles state.board board) (posted : draw.posted = state.draw.posted)
    (unlinked : draw.unlinked = state.draw.unlinked)
    (list : ∀ drawing, draw ≠ .drawing drawing .unlinkUser) :
    Files purchases { state with board := board, draw := draw } where
  bets weight := by
    change (board.bets.map weight).sum = _
    rw [same.bets]
    exact files.bets weight
  backup unposted := by
    change board.backup = none
    rw [same.backup]
    exact files.backup (posted.symm.trans unposted)
  posted drawing here := absurd here (list drawing)
  recording linked := by
    have old := files.recording (unlinked.symm.trans linked)
    refine ⟨?_, ?_, ?_, ?_, ?_, old.read, old.truncated, ?_⟩
    · intro process file
      rw [same.record]
      exact old.file process file
    · intro process
      rw [same.record]
      exact old.created process
    · rw [same.record]
      exact old.absent
    · intro file
      rw [same.record, same.holder]
      exact old.holder file
    · rw [same.record, same.holder, same.fresh]
      exact old.free
    · intro file
      rw [same.record, same.contents]
      exact old.contents file

theorem Files.unlinked (files : Files purchases state) {board : Board Process User} {draw : Draw}
    (bets : board.bets = state.board.bets) (posted : draw.posted = true)
    (unlinked : draw.unlinked = true) (list : ∀ drawing, draw ≠ .drawing drawing .unlinkUser) :
    Files purchases { state with board := board, draw := draw } where
  bets weight := by
    change (board.bets.map weight).sum = _
    rw [bets]
    exact files.bets weight
  backup unposted := absurd (posted.symm.trans unposted) (by simp)
  posted drawing here := absurd here (list drawing)
  recording linked := absurd (unlinked.symm.trans linked) (by simp)

omit [Fintype Process] [DecidableEq Process] in
theorem sameFiles_paying (board : Board Process User) (drawing : Drawing) (index : Nat) :
    SameFiles board (drawStep items bm board (.drawing drawing (.paying index))).1 ∧
      ((drawStep items bm board (.drawing drawing (.paying index))).2 =
          .drawing drawing (.paying (index + 1)) ∨
        (drawStep items bm board (.drawing drawing (.paying index))).2 =
          .drawing drawing .posting) := by
  cases here : (board.user.getD [])[index]? with
  | none =>
      simp only [drawStep, here]
      exact ⟨.refl board, by simp⟩
  | some line =>
      by_cases wins : drawing.wins items line = true
      · simp only [drawStep, here, wins, if_true]
        exact ⟨⟨rfl, rfl, rfl, rfl, rfl, rfl⟩, by simp⟩
      · simp only [drawStep, here, if_neg wins]
        exact ⟨.refl board, by simp⟩

omit [Fintype Process] in
theorem step_draw :
    step items bm purchases state .draw =
      { state with
        board := (drawStep items bm state.board state.draw).1
        draw := (drawStep items bm state.board state.draw).2 } := rfl

theorem files_draw (files : Files purchases state) :
    Files purchases (step items bm purchases state .draw) := by
  rw [step_draw]
  cases at' : state.draw with
  | idle =>
      exact files.keep (.refl _) (by rw [at']; rfl) (by rw [at']; rfl) (by simp [drawStep])
  | started bet =>
      exact files.keep (.refl _) (by rw [at']; rfl) (by rw [at']; rfl) (by simp [drawStep])
  | drawing drawing phase =>
      cases phase with
      | loaded =>
          obtain ⟨bet, ticket, total⟩ := drawing
          cases bet with
          | item win =>
              simp only [drawStep]
              split <;>
                exact files.keep ⟨rfl, rfl, rfl, rfl, rfl, rfl⟩ (by rw [at']; rfl)
                  (by rw [at']; rfl) (by simp)
          | cancel =>
              simp only [drawStep]
              split <;>
                exact files.keep ⟨rfl, rfl, rfl, rfl, rfl, rfl⟩ (by rw [at']; rfl)
                  (by rw [at']; rfl) (by simp)
      | charging =>
          exact files.keep ⟨rfl, rfl, rfl, rfl, rfl, rfl⟩ (by rw [at']; rfl) (by rw [at']; rfl)
            (fun _ => by simp [drawStep])
      | opening =>
          simp only [drawStep]
          split <;> exact files.keep (.refl _) (by rw [at']; rfl) (by rw [at']; rfl) (by simp)
      | paying index =>
          obtain ⟨same, next⟩ := @sameFiles_paying Process User _ items bm state.board drawing index
          rcases next with next | next <;> rw [next] <;>
            exact files.keep same (by rw [at']; rfl) (by rw [at']; rfl) (by simp)
      | posting =>
          have none := files.backup (by rw [at']; rfl)
          simp only [drawStep]
          refine ⟨fun weight => ?_, by simp [Draw.posted], fun _ _ => rfl, fun _ => ?_⟩
          · have old := files.bets weight
            rw [Board.bets, none] at old
            cases user : state.board.user with
            | none =>
                rw [user] at old
                simpa [Board.bets] using old
            | some lines =>
                rw [user] at old
                simpa [Board.bets] using old
          · have old := files.recording (by rw [at']; rfl)
            exact ⟨old.file, old.created, old.absent, old.holder, old.free, old.read,
              old.truncated, old.contents⟩
      | unlinkUser =>
          have posted := files.posted drawing at'
          simp only [drawStep]
          refine ⟨fun weight => ?_, by simp [Draw.posted], by simp, fun _ => ?_⟩
          · have old := files.bets weight
            rw [Board.bets, posted] at old
            cases user : state.board.user with
            | none =>
                rw [user] at old
                simpa [Board.bets, posted, user] using old
            | some lines =>
                rw [user] at old
                simpa [Board.bets, posted, user] using old
          · have old := files.recording (by rw [at']; rfl)
            exact ⟨old.file, old.created, old.absent, old.holder, old.free, old.read,
              old.truncated, old.contents⟩
      | unlinkRecord =>
          exact files.unlinked rfl rfl rfl (fun _ => by simp [drawStep])
      | unlinkLock =>
          exact files.unlinked rfl rfl rfl (fun _ => by simp [drawStep])
      | unlinkEnd =>
          exact files.unlinked rfl rfl rfl (fun _ => by simp [drawStep])
      | finished =>
          exact files.unlinked rfl rfl rfl (fun _ => by simp [drawStep])

def Waiting (state : State Process User) : Prop := state.board.ended = true → state.draw = .idle

omit [Fintype Process] in
theorem waiting_step {act : Act Process User} (closed : Closed state) (waiting : Waiting state) :
    Waiting (step items bm purchases state act) := by
  cases act with
  | buy process =>
      obtain ⟨_ticket, ended, _lock, _backup⟩ :=
        ticketStep_flags process (purchases process) state.board (state.stage process)
      intro over'
      simp only [step, ended] at over' ⊢
      exact waiting over'
  | stop =>
      simp only [step]
      split
      · next on =>
          intro _ended
          cases at' : state.draw with
          | idle => rfl
          | _ =>
              have off := closed.ticket (.inr (.inr (by rw [at']; rfl)))
              rw [on] at off
              cases off
      · exact waiting
  | openticket bet =>
      simp only [step]
      split
      · intro over'
        cases over'
      · exact waiting
  | draw =>
      rw [step_draw]
      intro ended
      cases at' : state.draw with
      | idle => rfl
      | started bet =>
          rw [at'] at ended
          rw [waiting ended] at at'
          cases at'
      | drawing drawing phase =>
          have notEnded : state.board.ended ≠ true := by
            intro over'
            rw [waiting over'] at at'
            cases at'
          rw [at'] at ended
          cases phase with
          | loaded =>
              obtain ⟨bet, ticket, total⟩ := drawing
              cases bet with
              | item win =>
                  simp only [drawStep] at ended
                  split at ended <;> exact absurd ended notEnded
              | cancel =>
                  by_cases poor : state.board.balance bm < items.price * 10
                  · simp only [drawStep, poor, if_true]
                  · simp only [drawStep, poor, if_false] at ended
                    exact absurd ended notEnded
          | paying index =>
              simp only [drawStep] at ended
              split at ended
              · split at ended <;> exact absurd ended notEnded
              · exact absurd ended notEnded
          | unlinkEnd => cases ended
          | _ => exact absurd ended notEnded
  | other user balance => exact waiting

theorem files_step {act : Act Process User} (files : Files purchases state)
    (closed : Closed state) (waiting : Waiting state)
    (orderly : Orderly bm purchases state act) :
    Files purchases (step items bm purchases state act) := by
  cases act with
  | buy process => exact files_buy files closed orderly
  | stop =>
      simp only [step]
      split
      · exact ⟨files.bets, files.backup, files.posted, fun linked =>
          have old := files.recording linked
          ⟨old.file, old.created, old.absent, old.holder, old.free, old.read, old.truncated,
            old.contents⟩⟩
      · exact files
  | openticket bet =>
      simp only [step]
      split
      · next accepted =>
          rw [Bool.and_eq_true] at accepted
          have idle := waiting accepted.2
          exact files.keep ⟨rfl, rfl, rfl, rfl, rfl, rfl⟩ (by rw [idle]; rfl) (by rw [idle]; rfl)
            (by simp)
      · exact files
  | draw => exact files_draw files
  | other user balance =>
      exact ⟨files.bets, files.backup, files.posted, fun linked =>
        have old := files.recording linked
        ⟨old.file, old.created, old.absent, old.holder, old.free, old.read, old.truncated,
          old.contents⟩⟩

/-! ### The numbers that were loaded -/

theorem sum_eq_range {numbers : List Nat} {bound : Nat} (short : numbers.length ≤ bound) :
    numbers.sum = ∑ index ∈ Finset.range bound, numbers.getD index 0 := by
  induction numbers generalizing bound with
  | nil => simp
  | cons first rest ih =>
      cases bound with
      | zero => simp at short
      | succ bound =>
          rw [Finset.sum_range_succ', List.sum_cons,
            ih (Nat.le_of_succ_le_succ (by simpa using short))]
          simp [Nat.add_comm]

def tallyAll (purchases : Process → Purchase User items) (stage : Process → Stage) : Nat :=
  ∑ process, if (stage process).counted then (purchases process).n else 0

omit [DecidableEq Process] [DecidableEq User] in
theorem sum_tally (purchases : Process → Purchase User items) (stage : Process → Stage) :
    ∑ item ∈ Finset.range maxItem, tally purchases stage item = tallyAll purchases stage := by
  unfold tally tallyAll
  rw [Finset.sum_comm]
  refine Finset.sum_congr rfl fun process _member => ?_
  have below : (purchases process).ch ∈ Finset.range maxItem :=
    Finset.mem_range.mpr (Nat.lt_of_lt_of_le (purchases process).ch_lt items.count_high)
  cases counted : (stage process).counted with
  | false => simp
  | true => simp [Finset.sum_ite_eq, below]

theorem loadRecords_eq {board : Board Process User} {stage : Process → Stage}
    (recording : Recording purchases board stage)
    (quiet : ∀ process, (stage process).writing = false) :
    loadRecords board = (tallyAll purchases stage, tally purchases stage) := by
  have calm : ∀ process, (stage process).rewriting = false := by
    intro process
    have still := quiet process
    cases at' : stage process with
    | read file ticket => rw [at'] at still; cases still
    | truncated file ticket => rw [at'] at still; cases still
    | _ => rfl
  unfold loadRecords
  cases record : board.record with
  | none =>
      have none := recording.absent record
      have zero : tally purchases stage = fun _ => 0 := by
        funext item
        exact Finset.sum_eq_zero fun process _member => by simp [none process]
      have total : tallyAll purchases stage = 0 :=
        Finset.sum_eq_zero fun process _member => by simp [none process]
      rw [zero, total]
  | some file =>
      have numbers := recording.contents file record calm
      have total : ((board.contents file).take maxItem).sum = tallyAll purchases stage := by
        rw [sum_eq_range (List.length_take_le _ _), ← sum_tally, ← numbers]
        rfl
      simp only [numbers, total]

def Drawn (purchases : Process → Purchase User items) (state : State Process User) : Prop :=
  ∀ drawing phase, state.draw = .drawing drawing phase →
    drawing.ticket = tally purchases state.stage ∧
      drawing.total = tallyAll purchases state.stage

theorem drawn_step {act : Act Process User} (drawn : Drawn purchases state)
    (files : Files purchases state) (closed : Closed state)
    (orderly : Orderly bm purchases state act) :
    Drawn purchases (step items bm purchases state act) := by
  cases act with
  | buy process =>
      intro drawing phase draw
      have off := closed.ticket (.inr (.inr (by rw [show state.draw = _ from draw]; rfl)))
      have quiet := closed.quiet drawing phase draw process
      obtain ⟨_writing, counted, _onList, _user, _record, _contents⟩ :=
        @ticketStep_quiet Process User _ _ items process (purchases process) state.board
          (state.stage process) off quiet
      obtain ⟨ticket, total⟩ := drawn drawing phase draw
      refine ⟨?_, ?_⟩
      · exact ticket.trans (tally_update_same counted).symm
      · exact total.trans (sum_update_same state.stage process _
          (fun other stage => if stage.counted then (purchases other).n else 0)
          (by rw [counted])).symm
  | stop =>
      simp only [step]
      split <;> exact drawn
  | openticket bet =>
      simp only [step]
      split
      · intro drawing phase draw
        cases draw
      · exact drawn
  | draw =>
      rw [step_draw]
      intro after phase draw
      cases at' : state.draw with
      | idle =>
          rw [at'] at draw
          cases draw
      | started bet =>
          simp only [Orderly, at'] at orderly
          have loaded := loadRecords_eq (files.recording (by rw [at']; rfl)) orderly
          simp only [drawStep, at', loaded] at draw
          cases draw
          exact ⟨rfl, rfl⟩
      | drawing drawing before =>
          have old := drawn drawing before at'
          have same : after = drawing := by
            obtain ⟨bet, ticket, total⟩ := drawing
            rw [at'] at draw
            cases before with
            | loaded =>
                cases bet with
                | item win =>
                    simp only [drawStep] at draw
                    split at draw <;> cases draw <;> rfl
                | cancel =>
                    simp only [drawStep] at draw
                    split at draw <;> cases draw
                    rfl
            | paying index =>
                rcases (@sameFiles_paying Process User _ items bm state.board
                  ⟨bet, ticket, total⟩ index).2 with next | next
                · exact (Draw.drawing.inj (next.symm.trans draw)).1.symm
                · exact (Draw.drawing.inj (next.symm.trans draw)).1.symm
            | _ => exact (Draw.drawing.inj draw).1.symm
          rw [same]
          exact old
  | other user balance => exact drawn

/-! ### The payments of the draw -/

def Entry.shared : Entry Process User → Int
  | .share amount => amount
  | _ => 0

def shares (log : List (Entry Process User)) : Int := (log.map Entry.shared).sum

omit [Fintype Process] [DecidableEq Process] [DecidableEq User] in
theorem credited_eq (log : List (Entry Process User)) :
    credited log = shares log + ((prizes log).map Prod.snd).sum := by
  induction log with
  | nil => rfl
  | cons entry rest ih =>
      unfold credited shares prizes at *
      cases entry with
      | share amount =>
          simp only [List.map_cons, List.sum_cons, Entry.credited, Entry.shared, ih,
            List.filterMap_cons, Entry.prize?]
          omega
      | prize line amount =>
          simp only [List.map_cons, List.sum_cons, Entry.credited, Entry.shared, ih,
            List.filterMap_cons, Entry.prize?]
          omega
      | _ =>
          simp only [List.map_cons, List.sum_cons, Entry.credited, Entry.shared, ih,
            List.filterMap_cons, Entry.prize?]
          omega

def Phase.gone (phase : Phase) (bets : List (Line User)) : List (Line User) :=
  match phase with
  | .loaded | .charging | .opening => []
  | .paying index => bets.take index
  | _ => bets

def Drawing.prizesOf (items : Items) (drawing : Drawing) (lines : List (Line User)) :
    List (Line User × Int) :=
  (lines.filter (drawing.wins items)).map fun line => (line, drawing.credit items line)

def Drawing.shareBound (items : Items) (drawing : Drawing) : Int :=
  match drawing.bet with
  | .item _ => ((drawing.total * items.price * 5 / 10000 : Nat) : Int)
  | .cancel => 0

structure Paid (items : Items) (state : State Process User) : Prop where
  before : (∀ drawing phase, state.draw ≠ .drawing drawing phase) →
    prizes state.board.log = [] ∧ shares state.board.log = 0
  prizes : ∀ drawing phase, state.draw = .drawing drawing phase →
    prizes state.board.log = drawing.prizesOf items (phase.gone state.board.bets)
  loaded : ∀ drawing, state.draw = .drawing drawing .loaded → shares state.board.log = 0
  charging : ∀ drawing, state.draw = .drawing drawing .charging → drawing.bet = .cancel
  shares : ∀ drawing phase, state.draw = .drawing drawing phase →
    shares state.board.log ≤ drawing.shareBound items

omit [Fintype Process] [DecidableEq Process] [DecidableEq User] in
theorem forBM_le (total : Nat) : forBM items total ≤ ((total * items.price * 5 / 10000 : Nat) : Int) := by
  refine le_trans (min_le_right _ _) ?_
  unfold toInt
  split
  · exact Int.le_refl _
  · unfold intMin
    omega

omit [Fintype Process] in
theorem ticketStep_log (process : Process) (purchase : Purchase User items)
    (board : Board Process User) (stage : Stage) :
    prizes (ticketStep items process purchase board stage).1.log = prizes board.log ∧
      shares (ticketStep items process purchase board stage).1.log = shares board.log := by
  by_cases pays : stage = .affordable
  · subst pays
    simp [ticketStep, Board.enter, Board.deumoney, prizes, shares, Entry.prize?, Entry.shared]
  · by_cases refunds : stage = .late
    · subst refunds
      simp [ticketStep, Board.enter, Board.deumoney, prizes, shares, Entry.prize?, Entry.shared]
    · rw [(ticketStep_free pays refunds).1]
      exact ⟨rfl, rfl⟩

omit [Fintype Process] [DecidableEq Process] [DecidableEq User] in
theorem Paid.keep (paid : Paid items state) (next : Phase) {board : Board Process User}
    {draw : Draw}
    (prizesSame : Lottery.prizes board.log = Lottery.prizes state.board.log)
    (sharesSame : Lottery.shares board.log = Lottery.shares state.board.log)
    (bets : board.bets = state.board.bets) {stage : Process → Stage}
    {drawing : Drawing} {phase : Phase} (at' : state.draw = .drawing drawing phase)
    (draw_eq : draw = .drawing drawing next) (notLoaded : next ≠ .loaded)
    (charging : next = .charging → drawing.bet = .cancel)
    (gone : drawing.prizesOf items (next.gone state.board.bets) =
      drawing.prizesOf items (phase.gone state.board.bets)) :
    Paid items { board := board, stage := stage, draw := draw } := by
  subst draw_eq
  refine ⟨fun none => absurd rfl (none drawing next), ?_, ?_, ?_, ?_⟩
  · intro after other same
    cases same
    rw [prizesSame, paid.prizes drawing phase at', bets, gone]
  · intro after same
    cases same
    exact absurd rfl notLoaded
  · intro after same
    cases same
    exact charging rfl
  · intro after other same
    cases same
    rw [sharesSame]
    exact paid.shares drawing phase at'

omit [Fintype Process] [DecidableEq Process] [DecidableEq User] in
theorem Paid.waiting {board : Board Process User} {stage : Process → Stage} {draw : Draw}
    (none : Lottery.prizes board.log = []) (zero : Lottery.shares board.log = 0)
    (away : ∀ drawing phase, draw ≠ .drawing drawing phase) :
    Paid items { board := board, stage := stage, draw := draw } :=
  ⟨fun _ => ⟨none, zero⟩, fun drawing phase here => absurd here (away drawing phase),
    fun drawing here => absurd here (away drawing _),
    fun drawing here => absurd here (away drawing _),
    fun drawing phase here => absurd here (away drawing phase)⟩

end Draw

section Payout

variable {Process User : Type} [Fintype Process] [DecidableEq Process] [DecidableEq User]
  {items : Items} {purchases : Process → Purchase User items} {state : State Process User}
  {bm : User}

theorem bets_weigh (files : Files purchases state) (closed : Closed state) {drawing : Drawing}
    {phase : Phase} (at' : state.draw = .drawing drawing phase) (weight : Line User → Nat) :
    (state.board.bets.map weight).sum =
      ∑ process, if (state.stage process).counted then weight (purchases process).line else 0 := by
  rw [files.bets weight]
  refine Finset.sum_congr rfl fun process _member => ?_
  have still := closed.quiet drawing phase at' process
  have same : (state.stage process).onList = (state.stage process).counted := by
    cases here : state.stage process with
    | written file => rfl
    | done => rfl
    | listed | missing | created | opened _ | locked _ | read _ _ | truncated _ _ =>
        rw [here] at still
        cases still
    | _ => rfl
  rw [same]

theorem no_winner (files : Files purchases state) (closed : Closed state)
    (drawn : Drawn purchases state) {drawing : Drawing} {phase : Phase}
    (at' : state.draw = .drawing drawing phase) (pays : drawing.pays = false) :
    state.board.bets.filter (drawing.wins items) = [] := by
  obtain ⟨bet, ticket, total⟩ := drawing
  cases bet with
  | cancel => cases pays
  | item win =>
      have zero : ticket win = 0 := by simpa [Drawing.pays] using pays
      have weigh := bets_weigh files closed at' fun line =>
        if line.mybet = win then line.num else 0
      have tallied : tally purchases state.stage win = 0 := by
        rw [← (drawn _ _ at').1]
        exact zero
      have nobody : ∀ line ∈ state.board.bets, line.mybet = win → line.num = 0 := by
        have sum : (state.board.bets.map fun line =>
            if line.mybet = win then line.num else 0).sum = 0 := by
          refine weigh.trans (Eq.trans ?_ tallied)
          unfold tally
          refine Finset.sum_congr rfl fun process _member => ?_
          by_cases same : (purchases process).ch = win <;>
            cases (state.stage process).counted <;> simp [Purchase.line, same]
        intro line member same
        have each := List.sum_eq_zero_iff.mp sum _ (List.mem_map_of_mem member)
        simpa [same] using each
      have positive : ∀ line ∈ state.board.bets, 1 ≤ line.num := by
        have sum : (state.board.bets.map fun line => if line.num = 0 then 1 else 0).sum = 0 := by
          rw [bets_weigh files closed at' fun line => if line.num = 0 then 1 else 0]
          refine Finset.sum_eq_zero fun process _member => ?_
          have sold := (purchases process).n_pos
          cases (state.stage process).counted with
          | false => rfl
          | true =>
              rw [if_pos rfl, if_neg]
              change (purchases process).n ≠ 0
              omega
        intro line member
        have each := List.sum_eq_zero_iff.mp sum _ (List.mem_map_of_mem member)
        by_contra none
        have absent : line.num = 0 := by omega
        simp [absent] at each
      rw [List.filter_eq_nil_iff]
      intro line member wins
      have same : line.mybet = win := by simpa [Drawing.wins] using wins
      have none := nobody line member same
      have some := positive line member
      omega

end Payout

section PaidSteps

variable {Process User : Type} [Fintype Process] [DecidableEq Process] [DecidableEq User]
  {items : Items} {purchases : Process → Purchase User items} {state : State Process User}
  {bm : User}

theorem paid_buy {process : Process} (paid : Paid items state) (files : Files purchases state)
    (closed : Closed state) : Paid items (step items bm purchases state (.buy process)) := by
  obtain ⟨prizes, shares⟩ :=
    ticketStep_log process (purchases process) state.board (state.stage process)
  obtain ⟨_ticket, _ended, _lock, backup⟩ :=
    ticketStep_flags process (purchases process) state.board (state.stage process)
  refine ⟨fun waiting => ?_, fun drawing phase draw => ?_, fun drawing draw => ?_,
    paid.charging, fun drawing phase draw => ?_⟩
  · simp only [step, prizes, shares]
    exact paid.before waiting
  · have off := closed.ticket (.inr (.inr (by rw [show state.draw = _ from draw]; rfl)))
    have quiet := closed.quiet drawing phase draw process
    obtain ⟨_writing, _counted, _onList, user, _record, _contents⟩ :=
      @ticketStep_quiet Process User _ _ items process (purchases process) state.board
        (state.stage process) off quiet
    have old := paid.prizes drawing phase draw
    simp only [step, prizes, Board.bets, backup, user]
    exact old
  · simp only [step, shares]
    exact paid.loaded drawing draw
  · simp only [step, shares]
    exact paid.shares drawing phase draw

theorem paid_draw (paid : Paid items state) (files : Files purchases state)
    (closed : Closed state) (drawn : Drawn purchases state)
    (orderly : Orderly bm purchases state .draw) :
    Paid items (step items bm purchases state .draw) := by
  rw [step_draw]
  cases at' : state.draw with
  | idle =>
      obtain ⟨none, zero⟩ := paid.before (by simp [at'])
      exact .waiting none zero (by simp [drawStep])
  | started bet =>
      obtain ⟨none, zero⟩ := paid.before (by simp [at'])
      refine ⟨fun never => absurd rfl (never _ _), ?_, fun _ _ => zero, by simp [drawStep], ?_⟩
      · intro drawing phase draw
        cases draw
        exact none
      · intro drawing phase draw
        cases draw
        change Lottery.shares state.board.log ≤ _
        rw [zero]
        unfold Drawing.shareBound
        split
        · exact Int.natCast_nonneg _
        · exact Int.le_refl _
  | drawing drawing phase =>
      cases phase with
      | loaded =>
          have none := paid.prizes drawing .loaded at'
          have zero := paid.loaded drawing at'
          simp only [Orderly, at'] at orderly
          cases bet : drawing.bet with
          | item win =>
              by_cases positive : 0 < forBM items drawing.total
              · have takes := orderly (by simp [bet]) positive
                simp only [drawStep, bet, positive, if_true]
                refine ⟨fun never => absurd rfl (never _ _), ?_, by simp, by simp, ?_⟩
                · intro after phase draw
                  cases draw
                  change List.filterMap Entry.prize? (state.board.log ++ [_]) = _
                  rw [List.filterMap_append]
                  exact (List.append_nil _).trans none
                · intro after phase draw
                  cases draw
                  have bound := @forBM_le items drawing.total
                  rw [change_take (Int.le_of_lt positive) takes]
                  simp only [Board.enter, Board.deumoney, Lottery.shares, List.map_append,
                    List.sum_append] at zero ⊢
                  rw [zero]
                  simp only [Drawing.shareBound, bet]
                  simpa [Entry.shared] using bound
              · simp only [drawStep, bet, positive, if_false]
                exact paid.keep .opening rfl rfl rfl at' rfl (by simp) (by simp) rfl
          | cancel =>
              by_cases poor : state.board.balance bm < items.price * 10
              · simp only [drawStep, bet, poor, if_true]
                exact .waiting none zero (by simp)
              · simp only [drawStep, bet, poor, if_false]
                exact paid.keep .charging rfl rfl rfl at' rfl (by simp) (fun _ => bet) rfl
      | charging =>
          refine paid.keep .opening ?_ ?_ ?_ at' rfl (by simp) (by simp) ?_ <;> try rfl
          · simp [drawStep, Board.enter, Board.deumoney, Lottery.prizes, Entry.prize?]
          · simp [drawStep, Board.enter, Board.deumoney, Lottery.shares, Entry.shared]
      | opening =>
          by_cases pays : (drawing.pays && state.board.user.isSome) = true
          · simp only [drawStep, if_pos pays]
            exact paid.keep (.paying 0) rfl rfl rfl at' rfl (by simp) (by simp) (by simp [Phase.gone])
          · simp only [drawStep, if_neg pays]
            refine paid.keep .posting rfl rfl rfl at' rfl (by simp) (by simp) ?_
            have nobody : state.board.bets.filter (drawing.wins items) = [] := by
              rw [Bool.and_eq_true, not_and_or] at pays
              rcases pays with unpaid | absent
              · exact no_winner files closed drawn at' (Bool.not_eq_true _ ▸ unpaid)
              · have backup := files.backup (by rw [at']; rfl)
                have user : state.board.user = none := by simpa using absent
                simp [Board.bets, backup, user]
            simp only [Drawing.prizesOf, Phase.gone, nobody, List.filter_nil, List.map_nil]
      | paying index =>
          have backup := files.backup (by rw [at']; rfl)
          have bets : state.board.bets = state.board.user.getD [] := by
            simp only [Board.bets, backup]
          simp only [Orderly, at'] at orderly
          cases here : (state.board.user.getD [])[index]? with
          | none =>
              simp only [drawStep, here]
              refine paid.keep .posting rfl rfl rfl at' rfl (by simp) (by simp) ?_
              simp only [Phase.gone, bets]
              rw [List.take_of_length_le (List.getElem?_eq_none_iff.mp here)]
          | some line =>
              have taken : (state.board.user.getD []).take (index + 1) =
                  (state.board.user.getD []).take index ++ [line] := by
                rw [List.take_add_one, here]
                rfl
              by_cases wins : drawing.wins items line = true
              · have takes := orderly line here wins
                have nonneg : 0 ≤ drawing.credit items line := Int.natCast_nonneg _
                have whole : wrap (drawing.credit items line) = drawing.credit items line :=
                  wrap_of_fits (by unfold intMin; omega) takes.1
                simp only [drawStep, here, wins, if_true]
                refine ⟨fun never => absurd rfl (never _ _), ?_, by simp, by simp, ?_⟩
                · intro after phase draw
                  cases draw
                  have old := paid.prizes drawing _ at'
                  have same : (payLine items drawing line state.board).bets =
                      state.board.user.getD [] := bets
                  rw [same]
                  simp only [payLine, Board.enter, Lottery.prizes, List.filterMap_append,
                    whole, change_take nonneg takes] at old ⊢
                  change List.filterMap Entry.prize? state.board.log ++ _ = _
                  rw [old, bets]
                  simp [Phase.gone, taken, Drawing.prizesOf, wins, Entry.prize?]
                · intro after phase draw
                  cases draw
                  have old := paid.shares drawing _ at'
                  simpa [payLine, Board.enter, Board.deumoney, Lottery.shares, Entry.shared]
                    using old
              · simp only [drawStep, here, if_neg wins]
                refine paid.keep (.paying (index + 1)) rfl rfl rfl at' rfl (by simp) (by simp) ?_
                simp [Phase.gone, bets, taken, Drawing.prizesOf, wins]
      | posting =>
          have backup := files.backup (by rw [at']; rfl)
          simp only [drawStep]
          refine paid.keep .unlinkUser ?_ ?_ ?_ at' rfl (by simp) (by simp) ?_ <;> try rfl
          cases user : state.board.user <;> simp [Board.bets, backup, user]
      | unlinkUser =>
          have posted := files.posted drawing at'
          simp only [drawStep]
          refine paid.keep .unlinkRecord ?_ ?_ ?_ at' rfl (by simp) (by simp) ?_ <;> try rfl
          cases user : state.board.user <;> simp [Board.bets, posted, user]
      | unlinkRecord =>
          refine paid.keep .unlinkLock ?_ ?_ ?_ at' rfl (by simp) (by simp) ?_ <;> rfl
      | unlinkLock =>
          refine paid.keep .unlinkEnd ?_ ?_ ?_ at' rfl (by simp) (by simp) ?_ <;> rfl
      | unlinkEnd =>
          refine paid.keep .finished ?_ ?_ ?_ at' rfl (by simp) (by simp) ?_ <;> rfl
      | finished =>
          refine paid.keep .finished ?_ ?_ ?_ at' rfl (by simp) (by simp) ?_ <;> rfl

theorem paid_step {act : Act Process User} (paid : Paid items state)
    (files : Files purchases state) (closed : Closed state) (waiting : Waiting state)
    (drawn : Drawn purchases state) (orderly : Orderly bm purchases state act) :
    Paid items (step items bm purchases state act) := by
  cases act with
  | buy process => exact paid_buy paid files closed
  | stop =>
      simp only [step]
      split
      · exact ⟨paid.before, paid.prizes, paid.loaded, paid.charging, paid.shares⟩
      · exact paid
  | openticket bet =>
      simp only [step]
      split
      · next accepted =>
          rw [Bool.and_eq_true] at accepted
          have idle := waiting accepted.2
          exact ⟨fun _ => paid.before (by simp [idle]), by simp, by simp, by simp, by simp⟩
      · exact paid
  | draw => exact paid_draw paid files closed drawn orderly
  | other user balance =>
      exact ⟨paid.before, paid.prizes, paid.loaded, paid.charging, paid.shares⟩

end PaidSteps

/-! ### The sums -/

section Totals

variable {Process User : Type} [Fintype Process] [DecidableEq Process] [DecidableEq User]
  {items : Items} {purchases : Process → Purchase User items} {state : State Process User}
  {bm : User}

structure Kept (purchases : Process → Purchase User items) (state : State Process User) :
    Prop where
  books : Books purchases state.board.log state.stage
  closed : Closed state
  waiting : Waiting state
  files : Files purchases state
  drawn : Drawn purchases state
  paid : Paid items state

theorem kept_step (state : State Process User) (act : Act Process User)
    (kept : Kept purchases state) (orderly : Orderly bm purchases state act) :
    Kept purchases (step items bm purchases state act) where
  books := books_step kept.books orderly
  closed := closed_step kept.closed orderly
  waiting := waiting_step kept.closed kept.waiting
  files := files_step kept.files kept.closed kept.waiting orderly
  drawn := drawn_step kept.drawn kept.files kept.closed orderly
  paid := paid_step kept.paid kept.files kept.closed kept.waiting kept.drawn orderly

theorem kept_start (purchases : Process → Purchase User items) (balance : User → Int) :
    Kept purchases (State.start balance : State Process User) where
  books :=
    { charged := fun _ => iff_of_false (by simp [State.start]) nofun
      refunded := fun _ => iff_of_false (by simp [State.start]) nofun
      stakeAmount := nofun
      refundAmount := nofun
      held := by simp [State.start, staked, held, Stage.charged] }
  closed := ⟨fun begun => by simp [State.start, Draw.begun] at begun, nofun⟩
  waiting := nofun
  files :=
    { bets := fun weight => by simp [State.start, Board.bets, Stage.onList]
      backup := fun _ => rfl
      posted := nofun
      recording := fun _ =>
        { file := nofun
          created := nofun
          absent := fun _ _ => rfl
          holder := nofun
          free := fun _ => rfl
          read := nofun
          truncated := nofun
          contents := nofun } }
  drawn := nofun
  paid := ⟨fun _ => ⟨rfl, rfl⟩, nofun, nofun, nofun, nofun⟩

omit [DecidableEq Process] [DecidableEq User] in
theorem tallyAll_le_staked (books : Books purchases state.board.log state.stage) :
    ((tallyAll purchases state.stage * items.price : Nat) : Int) ≤ staked state.board.log := by
  rw [books.held, tallyAll, Finset.sum_mul, Nat.cast_sum]
  refine Finset.sum_le_sum fun process _member => ?_
  unfold held
  cases state.stage process with
  | written file => simp [Stage.counted, Stage.charged, Stage.isRefunded, Int.mul_comm]
  | done => simp [Stage.counted, Stage.charged, Stage.isRefunded, Int.mul_comm]
  | _ =>
      simp only [Stage.counted, Bool.false_eq_true, if_false, Nat.zero_mul]
      split
      · exact Int.natCast_nonneg _
      · exact Int.le_refl _

theorem payout_le (kept : Kept purchases state) {drawing : Drawing} {phase : Phase}
    (at' : state.draw = .drawing drawing phase) :
    drawing.shareBound items +
        (((state.board.bets.map fun line => if drawing.wins items line then
          drawing.money items * line.num else 0).sum : Nat) : Int) ≤
      ((drawing.total * items.price : Nat) : Int) := by
  obtain ⟨ticket, total⟩ := kept.drawn drawing phase at'
  have weigh := bets_weigh kept.files kept.closed at' fun line =>
    if drawing.wins items line then drawing.money items * line.num else 0
  rw [weigh]
  obtain ⟨bet, numbers, sum⟩ := drawing
  cases bet with
  | item win =>
      have winning : (∑ process, if (state.stage process).counted then
          (if Drawing.wins items ⟨.item win, numbers, sum⟩ (purchases process).line then
            Drawing.money items ⟨.item win, numbers, sum⟩ * (purchases process).line.num else 0)
          else 0) = Drawing.money items ⟨.item win, numbers, sum⟩ * numbers win := by
        rw [show numbers = _ from ticket, tally, Finset.mul_sum]
        refine Finset.sum_congr rfl fun process _member => ?_
        by_cases same : (purchases process).ch = win <;>
          cases (state.stage process).counted <;>
            simp [Drawing.wins, Purchase.line, same]
      rw [winning]
      simp only [Drawing.shareBound, Drawing.money]
      by_cases none : numbers win = 0
      · rw [none]
        simp only [Nat.mul_zero]
        omega
      · rw [if_neg none]
        have whole := Nat.div_mul_le_self (sum * items.price * 95) (100 * numbers win)
        generalize sum * items.price * 95 / (100 * numbers win) = each at whole ⊢
        have apart : each * (100 * numbers win) = 100 * (each * numbers win) := by
          rw [← Nat.mul_assoc, Nat.mul_comm each 100, Nat.mul_assoc]
        generalize each * numbers win = paid at apart ⊢
        generalize sum * items.price = staked at whole ⊢
        omega
  | cancel =>
      have all : (∑ process, if (state.stage process).counted then
          (if Drawing.wins items ⟨.cancel, numbers, sum⟩ (purchases process).line then
            Drawing.money items ⟨.cancel, numbers, sum⟩ * (purchases process).line.num else 0)
          else 0) = sum * items.price := by
        rw [show sum = _ from total, tallyAll, Finset.sum_mul]
        refine Finset.sum_congr rfl fun process _member => ?_
        have below := (purchases process).ch_lt
        cases (state.stage process).counted <;>
          simp [Drawing.wins, Drawing.money, Purchase.line, below, Nat.mul_comm]
      rw [all]
      simp [Drawing.shareBound]

omit [Fintype Process] [DecidableEq Process] [DecidableEq User] in
theorem prizesOf_sum (drawing : Drawing) (lines : List (Line User)) :
    ((drawing.prizesOf items lines).map Prod.snd).sum =
      (((lines.map fun line => if drawing.wins items line then
        drawing.money items * line.num else 0).sum : Nat) : Int) := by
  induction lines with
  | nil => rfl
  | cons line rest ih =>
      unfold Drawing.prizesOf at *
      by_cases wins : drawing.wins items line = true
      · rw [List.filter_cons_of_pos wins]
        simp only [List.map_cons, List.sum_cons, ih, wins, if_true]
        rw [Nat.cast_add]
        rfl
      · rw [List.filter_cons_of_neg wins, ih]
        simp [wins]

theorem credited_le_staked (kept : Kept purchases state) :
    credited state.board.log ≤ staked state.board.log := by
  have least := tallyAll_le_staked kept.books
  rw [credited_eq]
  by_cases drawing : ∃ drawing phase, state.draw = .drawing drawing phase
  · obtain ⟨drawing, phase, at'⟩ := drawing
    obtain ⟨_ticket, total⟩ := kept.drawn drawing phase at'
    have most := payout_le kept at'
    have gone : ∃ rest, state.board.bets = phase.gone state.board.bets ++ rest := by
      cases phase with
      | paying index => exact ⟨state.board.bets.drop index, (List.take_append_drop _ _).symm⟩
      | loaded | charging | opening => exact ⟨state.board.bets, rfl⟩
      | _ => exact ⟨[], (List.append_nil _).symm⟩
    obtain ⟨rest, split⟩ := gone
    have share := kept.paid.shares drawing phase at'
    rw [kept.paid.prizes drawing phase at', prizesOf_sum]
    rw [split, List.map_append, List.sum_append] at most
    rw [total, Nat.cast_add] at most
    linarith [Int.natCast_nonneg (rest.map fun line => if drawing.wins items line then
      drawing.money items * line.num else 0).sum]
  · obtain ⟨none, zero⟩ := kept.paid.before fun drawing' phase at' =>
      drawing ⟨drawing', phase, at'⟩
    rw [none, zero]
    exact le_trans (Int.natCast_nonneg _) least

theorem sum_indicator (lines : List (Line User)) (line : Line User) :
    (lines.map fun other => if other = line then 1 else 0).sum = lines.count line := by
  induction lines with
  | nil => rfl
  | cons first rest ih =>
      rw [List.map_cons, List.sum_cons, ih, List.count_cons]
      by_cases same : first = line <;> simp [same, Nat.add_comm]

theorem settled_of_kept (kept : Kept purchases state) : Settled purchases state where
  stake := kept.books.stakeAmount
  refund := kept.books.refundAmount
  entered drawing phase at' := by
    obtain ⟨ticket, total⟩ := kept.drawn drawing phase at'
    have quiet := kept.closed.quiet drawing phase at'
    refine ⟨Finset.univ.filter fun process => (state.stage process).counted = true, ?_, ?_, ?_, ?_⟩
    · intro process
      rw [kept.books.charged, kept.books.refunded, Finset.mem_filter]
      have still := quiet process
      cases here : state.stage process with
      | entering | listed | missing | created | opened _ | locked _ | read _ _ | truncated _ _ =>
          rw [here] at still
          cases still
      | _ => simp [here, Stage.counted, Stage.charged, Stage.isRefunded, Stage.undecided]
    · intro line
      have weigh := bets_weigh kept.files kept.closed at' fun other => if other = line then 1 else 0
      rw [sum_indicator] at weigh
      rw [weigh, Finset.card_filter, Finset.sum_filter]
    · intro item
      rw [ticket, Finset.filter_filter, Finset.sum_filter]
      rfl
    · rw [total, Finset.sum_filter]
      rfl
  undecided begun process waits := by
    have off := kept.closed.ticket (.inr (.inr begun))
    cases here : state.stage process with
    | paid => exact ⟨.late, .inl rfl, by simp [ticketStep, off]⟩
    | caught => exact ⟨.late, .inl rfl, by simp [ticketStep, off]⟩
    | late => exact ⟨.refunded, .inr rfl, rfl⟩
    | _ =>
        rw [here] at waits
        cases waits
  prize drawing phase at' line amount member := by
    have paid : (line, amount) ∈ prizes state.board.log :=
      List.mem_filterMap.mpr ⟨_, member, rfl⟩
    rw [kept.paid.prizes drawing phase at'] at paid
    obtain ⟨other, _wins, same⟩ := List.mem_map.mp paid
    cases same
    rfl
  winners drawing phase at' out := by
    rw [kept.paid.prizes drawing phase at']
    cases phase <;> first | rfl | cases out
  total := credited_le_staked kept

/-- In every orderly run no stake is created or swallowed. -/
theorem settled_run (purchases : Process → Purchase User items) (bm : User)
    (balance : User → Int) (acts : List (Act Process User))
    (orderly : StepsMeet (step items bm purchases) (Orderly bm purchases) (State.start balance)
      acts) :
    Settled purchases (run (step items bm purchases) (State.start balance) acts) :=
  settled_of_kept (invariant_run kept_step (kept_start purchases balance) orderly)

end Totals

section Examples

def coin : Items :=
  { price := 10, count := 2, price_low := by decide, price_high := by decide,
    count_low := by decide, count_high := by decide }

def oneTicket : Unit → Purchase Bool coin := fun _ =>
  { userid := false, ch := 0, n := 1, ch_lt := by decide, n_pos := Nat.one_pos, n_le := by decide }

def oneBuyer : State Unit Bool := State.start fun _ => 100

def lateActs : List (Act Unit Bool) :=
  List.replicate 5 (.buy ()) ++ [.stop, .openticket (.item 0), .draw] ++
    List.replicate 9 (.buy ()) ++ List.replicate 7 .draw

theorem late_stake_swallowed :
    ¬ Settled oneTicket (run (step coin true oneTicket) oneBuyer lateActs) := by
  intro settled
  obtain ⟨entered, member, _bets, tickets, _total⟩ := settled.entered _ .finished rfl
  have mine : () ∈ entered := by
    rw [member ()]
    refine ⟨⟨10, ?_⟩, ?_, rfl⟩
    · exact List.mem_cons_self
    · rintro ⟨amount, refund⟩
      cases List.mem_singleton.mp refund
  have none := tickets 0
  have all : entered.filter (fun process => (oneTicket process).ch = 0) = {()} := by
    ext process
    simp [mine, oneTicket]
  rw [all, Finset.sum_singleton] at none
  cases none

def earlyActs : List (Act Unit Bool) :=
  List.replicate 14 (.buy ()) ++ [.stop, .openticket (.item 0)] ++ List.replicate 10 .draw

instance {Process User : Type} [Fintype Process] {items : Items} (bm : User)
    (purchases : Process → Purchase User items) (state : State Process User)
    (act : Act Process User) : Decidable (Orderly bm purchases state act) := by
  unfold Orderly
  split
  · dsimp only
    split <;> infer_instance
  · split <;> infer_instance
  · infer_instance

theorem early_stake_settled :
    StepsMeet (step coin true oneTicket) (Orderly true oneTicket) oneBuyer earlyActs ∧
      Settled oneTicket (run (step coin true oneTicket) oneBuyer earlyActs) := by
  have orderly : StepsMeet (step coin true oneTicket) (Orderly true oneTicket) oneBuyer
      earlyActs := by
    decide
  exact ⟨orderly, settled_run oneTicket true (fun _ => 100) earlyActs orderly⟩

end Examples

end Pttbbs.Mbbsd.Lottery
