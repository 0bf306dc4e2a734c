/-
What the two players of a board game agree on.

A tie is the only result that needs a message to be read in one of the two loops:
the acceptance counts only for a player who is still to move.  If the player who
asked waits for the answer, both see the same game and the same outcome.
-/

import Pttbbs.Mbbsd.ChcRules
import Pttbbs.Mbbsd.ChessPlay

namespace Pttbbs.Mbbsd.ChessPlay

open Pttbbs.Lib

section

variable {Board Step Tag Loc : Type}

/-! ### Agreement -/

structure Agreed (game : Match Board Step Tag) : Prop where
  same : game.running true = true → game.running false = true →
    game.inbox true = [] → game.inbox false = [] →
      (game.infos true).board = (game.infos false).board ∧
        (game.infos true).history = (game.infos false).history ∧
        (game.infos true).turn = (game.infos false).turn
  outcome : game.running true = false → game.running false = false →
    ¬ ((game.infos true).result = .win ∧ (game.infos false).result = .win) ∧
      ((game.infos true).result = .tie ↔ (game.infos false).result = .tie)

/-- The condition: a tie is accepted while the player who asked is to move, and he
does not end his turn when the acceptance is on its way. -/
def Match.Patient (rules : Rules Board Step Tag Loc) (game : Match Board Step Tag) :
    Action Loc → Prop
  | .select player loc =>
      (rules.select (game.infos player).board (game.infos player).turn (game.infos player).tag
        loc).2.isNone = true ∨ Message.tieAcc ∉ game.inbox player
  | .resign player => Message.tieAcc ∉ game.inbox player
  | .timeout player => Message.tieAcc ∉ game.inbox player
  | .receive player yes =>
      (yes = true → game.my player = false → (game.inbox player).head? = some .tie →
        game.running (!player) = true ∧ game.my (!player) = true) ∧
      (yes = true → game.my player = true → (game.inbox player).head? = some .undo →
        Message.tieAcc ∉ game.inbox player)
  | _ => True

/-! ### The invariant -/

def Message.flips : Message Step → Bool
  | .normal _ => true
  | .undoAcc => true
  | _ => false

def Calm (messages : List (Message Step)) : Prop := ∀ message ∈ messages, message.flips = false

namespace Match

variable (rules : Rules Board Step Tag Loc) (game : Match Board Step Tag)

structure Level : Prop where
  turn : (game.infos true).turn = (game.infos false).turn
  history : (game.infos true).history = (game.infos false).history
  calm : ∀ player, Calm (game.inbox player)

/-- What the message that passes the turn does to the player who has not read it. -/
inductive Passes (player : Bool) (result : GameResult) : Message Step → Prop
  | normal (step : Step) (checked : rules.checkStep step = true)
      (history : (game.infos (!player)).history = (game.infos player).history ++ [step])
      (applied : (rules.applyStep (game.infos player).board step).2 = result) :
      Passes player result (.normal step)
  | undoAcc (some : (game.infos player).history ≠ []) (going : result = .cont)
      (history : (game.infos (!player)).history = (game.infos player).history.dropLast) :
      Passes player result .undoAcc

structure Behind (player : Bool) (result : GameResult) : Prop where
  turn : (game.infos player).turn = !player
  other : (game.infos (!player)).turn = player
  calm : Calm (game.inbox (!player))
  passed : ∃ early message late, game.inbox player = early ++ message :: late ∧
    Calm early ∧ Calm late ∧ Passes rules game player result message

structure Kept : Prop where
  boards : ∀ player, (game.infos player).board = rules.replay (game.infos player).history
  accepted : ∀ player, game.running player = true → Message.tieAcc ∈ game.inbox player →
    (game.infos (!player)).result = .tie ∧ game.my player = true ∧ Calm (game.inbox player)
  playing : game.running true = true → game.running false = true →
    game.Level ∨ ∃ player, Behind rules game player .cont
  owed : ∀ player, game.running player = true →
    ((game.infos (!player)).result = .win → Behind rules game player .win) ∧
      ((game.infos (!player)).result = .tie → Message.tieAcc ∈ game.inbox player)
  outcome : game.running true = false → game.running false = false →
    ¬ ((game.infos true).result = .win ∧ (game.infos false).result = .win) ∧
      ((game.infos true).result = .tie ↔ (game.infos false).result = .tie)

end Match

namespace Match

variable {rules : Rules Board Step Tag Loc} {game after : Match Board Step Tag}

@[simp] theorem setInfo_infos_self (player : Bool) (info : Info Board Step Tag) :
    (game.setInfo player info).infos player = info :=
  Function.update_self _ _ _

@[simp] theorem setInfo_infos_other (player : Bool) (info : Info Board Step Tag) :
    (game.setInfo player info).infos (!player) = game.infos (!player) :=
  Function.update_of_ne (by simp) _ _

@[simp] theorem setInfo_inbox (player : Bool) (info : Info Board Step Tag) :
    (game.setInfo player info).inbox = game.inbox :=
  rfl

section

variable (player : Bool) (messages : List (Message Step))

include player messages

@[simp] theorem setInbox_infos :
    (game.setInbox player messages).infos = game.infos :=
  rfl

@[simp] theorem setInbox_inbox_self :
    (game.setInbox player messages).inbox player = messages :=
  Function.update_self _ _ _

@[simp] theorem setInbox_inbox_other :
    (game.setInbox player messages).inbox (!player) = game.inbox (!player) :=
  Function.update_of_ne (by simp) _ _

@[simp] theorem send_infos :
    (game.send player messages).infos = game.infos :=
  rfl

@[simp] theorem send_inbox_self :
    (game.send player messages).inbox player = game.inbox player :=
  Function.update_of_ne (by simp) _ _

@[simp] theorem send_inbox_other :
    (game.send player messages).inbox (!player) = game.inbox (!player) ++ messages :=
  Function.update_self _ _ _

end

theorem either (player item : Bool) : item = player ∨ item = !player := by
  cases player <;> cases item <;> simp

theorem running_iff (player : Bool) :
    game.running player = true ↔ (game.infos player).result = .cont := by
  simp [running]

theorem my_iff (player : Bool) : game.my player = true ↔ (game.infos player).turn = player := by
  simp [my]

theorem Level.turn_eq (level : game.Level) (player : Bool) :
    (game.infos (!player)).turn = (game.infos player).turn := by
  cases player with
  | true => exact level.turn.symm
  | false => exact level.turn

theorem Level.history_eq (level : game.Level) (player : Bool) :
    (game.infos (!player)).history = (game.infos player).history := by
  cases player with
  | true => exact level.history.symm
  | false => exact level.history

theorem Level.of_player (player : Bool)
    (turn : (game.infos (!player)).turn = (game.infos player).turn)
    (history : (game.infos (!player)).history = (game.infos player).history)
    (calm : Calm (game.inbox player)) (calmToo : Calm (game.inbox (!player))) : game.Level := by
  cases player with
  | true =>
      refine ⟨turn.symm, history.symm, ?_⟩
      intro item
      cases item with
      | true => exact calm
      | false => exact calmToo
  | false =>
      refine ⟨turn, history, ?_⟩
      intro item
      cases item with
      | true => exact calmToo
      | false => exact calm

theorem Kept.of_player (player : Bool)
    (board : (after.infos player).board = rules.replay (after.infos player).history)
    (boardToo : (after.infos (!player)).board = rules.replay (after.infos (!player)).history)
    (accepted : (after.infos player).result = .cont → Message.tieAcc ∈ after.inbox player →
      (after.infos (!player)).result = .tie ∧ (after.infos player).turn = player ∧
        Calm (after.inbox player))
    (acceptedToo : (after.infos (!player)).result = .cont →
      Message.tieAcc ∈ after.inbox (!player) →
      (after.infos player).result = .tie ∧ (after.infos (!player)).turn = (!player) ∧
        Calm (after.inbox (!player)))
    (playing : (after.infos player).result = .cont → (after.infos (!player)).result = .cont →
      after.Level ∨ ∃ item, Behind rules after item .cont)
    (owed : (after.infos player).result = .cont →
      ((after.infos (!player)).result = .win → Behind rules after player .win) ∧
        ((after.infos (!player)).result = .tie → Message.tieAcc ∈ after.inbox player))
    (owedToo : (after.infos (!player)).result = .cont →
      ((after.infos player).result = .win → Behind rules after (!player) .win) ∧
        ((after.infos player).result = .tie → Message.tieAcc ∈ after.inbox (!player)))
    (outcome : (after.infos player).result ≠ .cont → (after.infos (!player)).result ≠ .cont →
      ¬ ((after.infos player).result = .win ∧ (after.infos (!player)).result = .win) ∧
        ((after.infos player).result = .tie ↔ (after.infos (!player)).result = .tie)) :
    Kept rules after := by
  constructor
  · intro item
    rcases either player item with rfl | rfl
    · exact board
    · exact boardToo
  · intro item
    rw [running_iff, my_iff]
    rcases either player item with rfl | rfl
    · exact accepted
    · rw [Bool.not_not]
      exact acceptedToo
  · intro one two
    rw [running_iff] at one two
    cases player with
    | true => exact playing one two
    | false => exact playing two one
  · intro item going
    rw [running_iff] at going
    rcases either player item with rfl | rfl
    · exact owed going
    · rw [Bool.not_not]
      exact owedToo going
  · intro one two
    have first : (after.infos true).result ≠ .cont := by simpa [running] using one
    have second : (after.infos false).result ≠ .cont := by simpa [running] using two
    cases player with
    | true => exact outcome first second
    | false =>
        obtain ⟨notBoth, ties⟩ := outcome second first
        exact ⟨fun both => notBoth ⟨both.2, both.1⟩, ties.symm⟩

end Match

namespace Match.Kept

variable {rules : Rules Board Step Tag Loc} {game after : Match Board Step Tag}

theorem start : Kept rules (Match.start rules) where
  boards := fun _player => rfl
  accepted := by
    intro player _going listed
    exact absurd (List.mem_singleton.mp listed) nofun
  playing := by
    intro _one _two
    refine .inl ⟨rfl, rfl, ?_⟩
    intro player message listed
    rw [List.mem_singleton.mp listed]
    rfl
  owed := fun _player _going => ⟨nofun, nofun⟩
  outcome := nofun

theorem agreed (kept : Kept rules game) : Agreed game where
  same := by
    intro one two emptyOne emptyTwo
    rcases kept.playing one two with level | ⟨player, behind⟩
    · refine ⟨?_, level.history, level.turn⟩
      rw [kept.boards, kept.boards, level.history]
    · obtain ⟨early, message, late, split, _rest⟩ := behind.passed
      cases player with
      | true =>
          rw [emptyOne] at split
          simp at split
      | false =>
          rw [emptyTwo] at split
          simp at split
  outcome := kept.outcome

/-! ### One step -/

section

variable (kept : Kept rules game) {player : Bool} (here : (game.infos player).result = .cont)

include kept here

theorem level_of_my (there : (game.infos (!player)).result = .cont)
    (my : (game.infos player).turn = player) : game.Level := by
  have both : ∀ item, game.running item = true := by
    intro item
    rw [running_iff]
    rcases either player item with rfl | rfl
    · exact here
    · exact there
  rcases kept.playing (both true) (both false) with level | ⟨item, behind⟩
  · exact level
  · rcases either player item with rfl | rfl
    · have impossible := behind.turn
      rw [my] at impossible
      simp at impossible
    · have impossible := behind.other
      rw [Bool.not_not, my] at impossible
      simp at impossible

/-- A player who is to move, and is not to be told of a tie, plays against nobody
but one who has lost. -/
theorem lost_of_my (there : (game.infos (!player)).result ≠ .cont)
    (my : (game.infos player).turn = player) (waiting : Message.tieAcc ∉ game.inbox player) :
    (game.infos (!player)).result = .lost := by
  obtain ⟨won, tied⟩ := kept.owed player ((running_iff player).mpr here)
  cases result : (game.infos (!player)).result with
  | cont => exact absurd result there
  | lost => rfl
  | tie => exact absurd (tied result) waiting
  | win =>
      have impossible := (won result).turn
      rw [my] at impossible
      simp at impossible

theorem not_accepted_other (there : (game.infos (!player)).result = .cont) :
    Message.tieAcc ∉ game.inbox (!player) := by
  intro listed
  have tied := (kept.accepted (!player) ((running_iff _).mpr there) listed).1
  rw [Bool.not_not, here] at tied
  cases tied

theorem passTurn (my : (game.infos player).turn = player)
    (waiting : Message.tieAcc ∉ game.inbox player) {info : Info Board Step Tag}
    {message : Message Step} {rest : List (Message Step)}
    (fewer : ∀ item ∈ rest, item ∈ game.inbox player)
    (board : info.board = rules.replay info.history) (turn : info.turn = !player)
    (notTie : info.result ≠ .tie) (neutral : message ≠ .tieAcc)
    (passes : game.Level → Passes rules
      ((game.setInbox player rest).setInfo player info) (!player) info.result message) :
    Kept rules (((game.setInbox player rest).setInfo player info).send player [message]) := by
  have notThere := kept.not_accepted_other here
  have notHere : Message.tieAcc ∉ rest := fun listed => waiting (fewer _ listed)
  have notSent : (game.infos (!player)).result = .cont →
      Message.tieAcc ∉ game.inbox (!player) ++ [message] := by
    intro there
    rw [List.mem_append, List.mem_singleton]
    exact not_or.mpr ⟨notThere there, fun same => neutral same.symm⟩
  have behind : (game.infos (!player)).result = .cont →
      Behind rules (((game.setInbox player rest).setInfo player info).send player [message])
        (!player) info.result := by
    intro there
    have level := kept.level_of_my here there my
    refine ⟨?_, ?_, ?_, game.inbox (!player), message, [], ?_, level.calm _, nofun, ?_⟩
    · simp only [send_infos, setInfo_infos_other, setInbox_infos]
      rw [level.turn_eq, my, Bool.not_not]
    · rw [Bool.not_not]
      simp only [send_infos, setInfo_infos_self]
      exact turn
    · rw [Bool.not_not]
      simp only [send_inbox_self, setInfo_inbox, setInbox_inbox_self]
      exact fun item listed => level.calm player item (fewer item listed)
    · simp only [send_inbox_other, setInfo_inbox, setInbox_inbox_other]
    · cases passes level with
      | normal step checked history applied => exact .normal step checked history applied
      | undoAcc some going history => exact .undoAcc some going history
  refine Kept.of_player player ?_ ?_ ?_ ?_ ?_ ?_ ?_ ?_
  · simp only [send_infos, setInfo_infos_self]
    exact board
  · simp only [send_infos, setInfo_infos_other, setInbox_infos]
    exact kept.boards (!player)
  · simp only [send_inbox_self, setInfo_inbox, setInbox_inbox_self]
    exact fun _going listed => absurd listed notHere
  · simp only [send_inbox_other, setInfo_inbox, setInbox_inbox_other, send_infos,
      setInfo_infos_other, setInbox_infos]
    exact fun there listed => absurd listed (notSent there)
  · simp only [send_infos, setInfo_infos_self, setInfo_infos_other, setInbox_infos]
    intro going there
    exact .inr ⟨!player, going ▸ behind there⟩
  · simp only [send_infos, setInfo_infos_self, setInfo_infos_other, setInbox_infos]
    intro _going
    constructor
    · intro won
      rw [kept.lost_of_my here (by rw [won]; exact nofun) my waiting] at won
      cases won
    · intro tied
      rw [kept.lost_of_my here (by rw [tied]; exact nofun) my waiting] at tied
      cases tied
  · simp only [send_infos, setInfo_infos_self, setInfo_infos_other, setInbox_infos]
    intro there
    exact ⟨fun won => won ▸ behind there, fun tied => absurd tied notTie⟩
  · simp only [send_infos, setInfo_infos_self, setInfo_infos_other, setInbox_infos]
    intro _ended there
    rw [kept.lost_of_my here there my waiting]
    exact ⟨nofun, fun tied => absurd tied notTie, nofun⟩

theorem giveUp (waiting : Message.tieAcc ∉ game.inbox player) :
    Kept rules (game.setInfo player ((game.infos player).endTurn .lost)) := by
  have notThere := kept.not_accepted_other here
  refine Kept.of_player player ?_ ?_ ?_ ?_ ?_ ?_ ?_ ?_
  · rw [setInfo_infos_self]
    exact kept.boards player
  · rw [setInfo_infos_other]
    exact kept.boards (!player)
  · exact fun _going listed => absurd listed waiting
  · rw [setInfo_infos_other]
    exact fun there listed => absurd listed (notThere there)
  · rw [setInfo_infos_self]
    exact nofun
  · rw [setInfo_infos_self]
    exact nofun
  · rw [setInfo_infos_self]
    exact fun _there => ⟨nofun, nofun⟩
  · rw [setInfo_infos_self, setInfo_infos_other]
    intro _ended _there
    refine ⟨nofun, nofun, ?_⟩
    intro tied
    exact absurd ((kept.owed player ((running_iff player).mpr here)).2 tied) waiting

end

theorem congr (kept : Kept rules game)
    (infos : ∀ player, (after.infos player).board = (game.infos player).board ∧
      (after.infos player).history = (game.infos player).history ∧
      (after.infos player).turn = (game.infos player).turn ∧
      (after.infos player).result = (game.infos player).result)
    (accepts : ∀ player, Message.tieAcc ∈ after.inbox player ↔
      Message.tieAcc ∈ game.inbox player)
    (calm : ∀ player, Calm (game.inbox player) → Calm (after.inbox player))
    (passed : ∀ player early message late, game.inbox player = early ++ message :: late →
      Calm early → Calm late → message.flips = true →
        ∃ early late, after.inbox player = early ++ message :: late ∧ Calm early ∧ Calm late) :
    Kept rules after := by
  have running : ∀ player, after.running player = game.running player := by
    intro player
    unfold Match.running
    rw [(infos player).2.2.2]
  have behind : ∀ player result, Behind rules game player result →
      Behind rules after player result := by
    intro player result behind
    obtain ⟨early, message, late, split, calmEarly, calmLate, passes⟩ := behind.passed
    have flips : message.flips = true := by
      cases passes with
      | normal => rfl
      | undoAcc => rfl
    obtain ⟨early, late, splitAfter, calmEarly, calmLate⟩ :=
      passed player early message late split calmEarly calmLate flips
    refine ⟨(infos player).2.2.1.trans behind.turn, (infos _).2.2.1.trans behind.other,
      calm _ behind.calm, early, message, late, splitAfter, calmEarly, calmLate, ?_⟩
    cases passes with
    | normal step checked history applied =>
        refine .normal step checked ?_ ?_
        · rw [(infos _).2.1, (infos player).2.1]
          exact history
        · rw [(infos player).1]
          exact applied
    | undoAcc some going history =>
        refine .undoAcc ?_ going ?_
        · rw [(infos player).2.1]
          exact some
        · rw [(infos _).2.1, (infos player).2.1]
          exact history
  constructor
  · intro player
    rw [(infos player).1, (infos player).2.1]
    exact kept.boards player
  · intro player going listed
    rw [running] at going
    obtain ⟨tied, my, calmHere⟩ := kept.accepted player going ((accepts player).mp listed)
    refine ⟨(infos _).2.2.2.trans tied, ?_, calm player calmHere⟩
    rw [my_iff, (infos player).2.2.1, ← my_iff]
    exact my
  · intro one two
    rw [running] at one two
    rcases kept.playing one two with level | ⟨player, waits⟩
    · refine .inl ⟨?_, ?_, fun player => calm player (level.calm player)⟩
      · rw [(infos true).2.2.1, (infos false).2.2.1]
        exact level.turn
      · rw [(infos true).2.1, (infos false).2.1]
        exact level.history
    · exact .inr ⟨player, behind player _ waits⟩
  · intro player going
    rw [running] at going
    rw [(infos (!player)).2.2.2, accepts]
    obtain ⟨won, tied⟩ := kept.owed player going
    exact ⟨fun win => behind player _ (won win), tied⟩
  · intro one two
    rw [running] at one two
    rw [(infos true).2.2.2, (infos false).2.2.2]
    exact kept.outcome one two

theorem retag (kept : Kept rules game) (player : Bool) (tag : Tag) :
    Kept rules (game.setInfo player { game.infos player with tag := tag }) := by
  refine kept.congr ?_ (fun _ => Iff.rfl) (fun _ calm => calm) ?_
  · intro item
    rcases either player item with rfl | rfl
    · rw [setInfo_infos_self]
      exact ⟨rfl, rfl, rfl, rfl⟩
    · rw [setInfo_infos_other]
      exact ⟨rfl, rfl, rfl, rfl⟩
  · intro item early message late split calmEarly calmLate _flips
    exact ⟨early, late, split, calmEarly, calmLate⟩

def Neutral (message : Message Step) : Prop := message.flips = false ∧ message ≠ .tieAcc

theorem calm_append {first second : List (Message Step)} (one : Calm first) (two : Calm second) :
    Calm (first ++ second) := by
  intro message listed
  rcases List.mem_append.mp listed with early | late
  · exact one message early
  · exact two message late

theorem calm_singleton {message : Message Step} (neutral : Neutral message) : Calm [message] := by
  intro item listed
  rw [List.mem_singleton.mp listed]
  exact neutral.1

theorem sendNeutral (kept : Kept rules game) (player : Bool) {message : Message Step}
    (neutral : Neutral message) : Kept rules (game.send player [message]) := by
  refine kept.congr (fun _ => ⟨rfl, rfl, rfl, rfl⟩) ?_ ?_ ?_
  · intro item
    rcases either player item with rfl | rfl
    · rw [send_inbox_self]
    · rw [send_inbox_other, List.mem_append, List.mem_singleton]
      exact or_iff_left (fun same => neutral.2 same.symm)
  · intro item calm
    rcases either player item with rfl | rfl
    · rw [send_inbox_self]
      exact calm
    · rw [send_inbox_other]
      exact calm_append calm (calm_singleton neutral)
  · intro item early passing late split calmEarly calmLate _flips
    rcases either player item with rfl | rfl
    · rw [send_inbox_self]
      exact ⟨early, late, split, calmEarly, calmLate⟩
    · rw [send_inbox_other]
      refine ⟨early, late ++ [message], ?_, calmEarly,
        calm_append calmLate (calm_singleton neutral)⟩
      rw [split]
      simp

theorem popNeutral (kept : Kept rules game) {player : Bool} {message : Message Step}
    {rest : List (Message Step)} (inbox : game.inbox player = message :: rest)
    (neutral : Neutral message) : Kept rules (game.setInbox player rest) := by
  refine kept.congr (fun _ => ⟨rfl, rfl, rfl, rfl⟩) ?_ ?_ ?_
  · intro item
    rcases either player item with rfl | rfl
    · rw [setInbox_inbox_self, inbox, List.mem_cons]
      exact (or_iff_right (fun same => neutral.2 same.symm)).symm
    · rw [setInbox_inbox_other]
  · intro item calm
    rcases either player item with rfl | rfl
    · rw [setInbox_inbox_self]
      rw [inbox] at calm
      exact fun other listed => calm other (List.mem_cons_of_mem _ listed)
    · rw [setInbox_inbox_other]
      exact calm
  · intro item early passing late split calmEarly calmLate flips
    rcases either player item with rfl | rfl
    · rw [setInbox_inbox_self]
      rw [inbox] at split
      cases early with
      | nil =>
          have same := (List.cons.inj split).1
          rw [← same, neutral.1] at flips
          cases flips
      | cons first others =>
          refine ⟨others, late, (List.cons.inj split).2, ?_, calmLate⟩
          exact fun other listed => calmEarly other (List.mem_cons_of_mem _ listed)
    · rw [setInbox_inbox_other]
      exact ⟨early, late, split, calmEarly, calmLate⟩

theorem setInbox_self (player : Bool) : game.setInbox player (game.inbox player) = game := by
  unfold setInbox
  rw [Function.update_eq_self]

theorem setInfo_self (player : Bool) : game.setInfo player (game.infos player) = game := by
  unfold setInfo
  rw [Function.update_eq_self]

theorem send_nil (player : Bool) : game.send player [] = game := by
  unfold send
  rw [List.append_nil, setInbox_self]

section

variable (kept : Kept rules game)

include kept

theorem choose {player : Bool} {loc : Loc}
    (here : (game.infos player).result = .cont) (my : (game.infos player).turn = player)
    (patient : game.Patient rules (.select player loc)) :
    Kept rules (game.choose rules player loc) := by
  unfold Match.choose
  dsimp only
  split
  · exact kept.retag player _
  · rename_i tag step board result made
    have waiting : Message.tieAcc ∉ game.inbox player := by
      rcases patient with none | waiting
      · rw [made] at none
        cases none
      · exact waiting
    obtain ⟨applied, checked⟩ := rules.select_step _ _ _ _ step board result
      (congrArg Prod.snd made)
    have notTie : result ≠ .tie := by
      have never := rules.applyStep_ne_tie (game.infos player).board step
      rw [applied] at never
      exact never
    have passed := @passTurn _ _ _ _ rules game kept player here my waiting
      ({ game.infos player with
        board := board
        history := (game.infos player).history ++ [step]
        tag := tag }.endTurn result) (.normal step) (game.inbox player) (fun _ listed => listed)
      ?_ ?_ notTie nofun ?_
    · rw [setInbox_self] at passed
      exact passed
    · change board = rules.replay ((game.infos player).history ++ [step])
      unfold Rules.replay
      rw [List.foldl_append]
      change board = (rules.applyStep (rules.replay (game.infos player).history) step).1
      rw [← kept.boards player, applied]
    · change (!(game.infos player).turn) = !player
      rw [my]
    · intro level
      refine .normal step checked ?_ ?_
      · rw [Bool.not_not]
        simp only [setInfo_infos_self, setInfo_infos_other, setInbox_infos, Info.endTurn]
        rw [level.history_eq]
      · simp only [setInfo_infos_other, setInbox_infos]
        rw [kept.boards (!player), level.history_eq, ← kept.boards player, applied]
        rfl

theorem afterLost {player : Bool}
    (here : (game.infos player).result = .cont)
    (lost : (game.infos (!player)).result = .lost) {info : Info Board Step Tag}
    {rest : List (Message Step)} (fewer : ∀ item ∈ rest, item ∈ game.inbox player)
    (board : info.board = rules.replay info.history) (notTie : info.result ≠ .tie) :
    Kept rules ((game.setInbox player rest).setInfo player info) := by
  have notThere := kept.not_accepted_other here
  have notHere : Message.tieAcc ∉ rest := by
    intro listed
    have tied := (kept.accepted player ((running_iff player).mpr here) (fewer _ listed)).1
    rw [lost] at tied
    cases tied
  refine Kept.of_player player ?_ ?_ ?_ ?_ ?_ ?_ ?_ ?_
  · rw [setInfo_infos_self]
    exact board
  · rw [setInfo_infos_other]
    exact kept.boards (!player)
  · simp only [setInfo_inbox, setInbox_inbox_self]
    exact fun _going listed => absurd listed notHere
  · simp only [setInfo_inbox, setInbox_inbox_other, setInfo_infos_other, setInbox_infos]
    exact fun there listed => absurd listed (notThere there)
  · simp only [setInfo_infos_other, setInbox_infos, lost]
    exact nofun
  · simp only [setInfo_infos_other, setInbox_infos, lost]
    exact fun _going => ⟨nofun, nofun⟩
  · simp only [setInfo_infos_other, setInbox_infos, lost]
    exact nofun
  · simp only [setInfo_infos_self, setInfo_infos_other, setInbox_infos, lost]
    intro _ended _there
    exact ⟨nofun, fun tied => absurd tied notTie, nofun⟩

theorem flip_cases {player : Bool} {message : Message Step}
    {rest : List (Message Step)} (here : (game.infos player).result = .cont)
    (inbox : game.inbox player = message :: rest) (flips : message.flips = true) :
    ((game.infos (!player)).result = .lost) ∨
      ∃ result, (game.infos (!player)).result = result ∧ (result = .cont ∨ result = .win) ∧
        Behind rules game player result ∧ Calm rest ∧ Passes rules game player result message := by
  have notCalm : ¬ Calm (game.inbox player) := by
    intro calm
    have quiet := calm message (by rw [inbox]; exact List.mem_cons_self)
    rw [flips] at quiet
    cases quiet
  have head : ∀ result, Behind rules game player result →
      Calm rest ∧ Passes rules game player result message := by
    intro result behind
    obtain ⟨early, passing, late, split, calmEarly, calmLate, passes⟩ := behind.passed
    rw [inbox] at split
    cases early with
    | nil =>
        obtain ⟨same, tail⟩ := List.cons.inj split
        rw [same, tail]
        exact ⟨calmLate, passes⟩
    | cons first others =>
        have quiet := calmEarly first List.mem_cons_self
        rw [← (List.cons.inj split).1, flips] at quiet
        cases quiet
  obtain ⟨won, tied⟩ := kept.owed player ((running_iff player).mpr here)
  cases result : (game.infos (!player)).result with
  | lost => exact .inl rfl
  | tie =>
      exact absurd (kept.accepted player ((running_iff player).mpr here) (tied result)).2.2 notCalm
  | win =>
      have behind := won result
      exact .inr ⟨.win, rfl, .inr rfl, behind, head _ behind⟩
  | cont =>
      right
      have both : ∀ item, game.running item = true := by
        intro item
        rw [running_iff]
        rcases either player item with rfl | rfl
        · exact here
        · exact result
      rcases kept.playing (both true) (both false) with level | ⟨item, behind⟩
      · exact absurd (level.calm player) notCalm
      · rcases either player item with rfl | rfl
        · exact ⟨.cont, rfl, .inl rfl, behind, head _ behind⟩
        · have calm := behind.calm
          rw [Bool.not_not] at calm
          exact absurd calm notCalm

theorem catchUp {player : Bool} {rest : List (Message Step)}
    (here : (game.infos player).result = .cont)
    (there : (game.infos (!player)).result = .cont) (behind : Behind rules game player .cont)
    (calm : Calm rest) (fewer : ∀ item ∈ rest, item ∈ game.inbox player)
    {info : Info Board Step Tag} (board : info.board = rules.replay info.history)
    (history : (game.infos (!player)).history = info.history) (turn : info.turn = player)
    (going : info.result = .cont) :
    Kept rules ((game.setInbox player rest).setInfo player info) := by
  have notThere := kept.not_accepted_other here
  have notHere : Message.tieAcc ∉ rest := by
    intro listed
    have tied := (kept.accepted player ((running_iff player).mpr here) (fewer _ listed)).1
    rw [there] at tied
    cases tied
  refine Kept.of_player player ?_ ?_ ?_ ?_ ?_ ?_ ?_ ?_
  · rw [setInfo_infos_self]
    exact board
  · rw [setInfo_infos_other]
    exact kept.boards (!player)
  · simp only [setInfo_inbox, setInbox_inbox_self]
    exact fun _going listed => absurd listed notHere
  · simp only [setInfo_inbox, setInbox_inbox_other, setInfo_infos_other, setInbox_infos]
    exact fun there listed => absurd listed (notThere there)
  · intro _here _there
    refine .inl (Level.of_player player ?_ ?_ ?_ ?_)
    · simp only [setInfo_infos_self, setInfo_infos_other, setInbox_infos]
      rw [behind.other, turn]
    · simp only [setInfo_infos_self, setInfo_infos_other, setInbox_infos]
      exact history
    · simp only [setInfo_inbox, setInbox_inbox_self]
      exact calm
    · simp only [setInfo_inbox, setInbox_inbox_other]
      exact behind.calm
  · simp only [setInfo_infos_other, setInbox_infos, there]
    exact fun _going => ⟨nofun, nofun⟩
  · simp only [setInfo_infos_self, going]
    exact fun _there => ⟨nofun, nofun⟩
  · simp only [setInfo_infos_self, going]
    exact fun ended => absurd rfl ended

theorem settle {player : Bool} {rest : List (Message Step)}
    (here : (game.infos player).result = .cont)
    (there : (game.infos (!player)).result ≠ .cont) {info : Info Board Step Tag}
    (board : info.board = rules.replay info.history) (ended : info.result ≠ .cont)
    (fits : ¬ (info.result = .win ∧ (game.infos (!player)).result = .win) ∧
      (info.result = .tie ↔ (game.infos (!player)).result = .tie)) :
    Kept rules ((game.setInbox player rest).setInfo player info) := by
  have notThere := kept.not_accepted_other here
  refine Kept.of_player player ?_ ?_ ?_ ?_ ?_ ?_ ?_ ?_
  · rw [setInfo_infos_self]
    exact board
  · rw [setInfo_infos_other]
    exact kept.boards (!player)
  · simp only [setInfo_infos_self]
    exact fun going => absurd going ended
  · simp only [setInfo_inbox, setInbox_inbox_other, setInfo_infos_other, setInbox_infos]
    exact fun there listed => absurd listed (notThere there)
  · simp only [setInfo_infos_self]
    exact fun going => absurd going ended
  · simp only [setInfo_infos_self]
    exact fun going => absurd going ended
  · simp only [setInfo_infos_other, setInbox_infos]
    exact fun going => absurd going there
  · simp only [setInfo_infos_self, setInfo_infos_other, setInbox_infos]
    exact fun _ended _there => fits

theorem hangUp {player : Bool}
    (here : (game.infos player).result = .cont) (there : (game.infos (!player)).result ≠ .cont)
    (empty : game.inbox player = []) :
    Kept rules (game.setInfo player ((game.infos player).endTurn .win)) := by
  obtain ⟨won, tied⟩ := kept.owed player ((running_iff player).mpr here)
  have notWon : (game.infos (!player)).result ≠ .win := by
    intro win
    obtain ⟨early, message, late, split, _rest⟩ := (won win).passed
    rw [empty] at split
    simp at split
  have notTied : (game.infos (!player)).result ≠ .tie := by
    intro tie
    have listed := tied tie
    rw [empty] at listed
    cases listed
  have settled := @settle _ _ _ _ rules game kept player (game.inbox player) here there
    ((game.infos player).endTurn .win) (kept.boards player) nofun
    ⟨fun both => notWon both.2, nofun, fun tie => absurd tie notTied⟩
  rw [setInbox_self] at settled
  exact settled

theorem applied_board (player : Bool) (step : Step)
    (seen : GameResult → GameResult) :
    ((game.infos player).applied rules step seen).board =
      rules.replay ((game.infos player).applied rules step seen).history := by
  change (rules.applyStep (game.infos player).board step).1 =
    rules.replay ((game.infos player).history ++ [step])
  unfold Rules.replay
  rw [List.foldl_append]
  change _ = (rules.applyStep (rules.replay (game.infos player).history) step).1
  rw [← kept.boards player]

theorem receiveMy {player yes : Bool} {message : Message Step}
    {rest : List (Message Step)} (here : (game.infos player).result = .cont)
    (my : (game.infos player).turn = player) (inbox : game.inbox player = message :: rest)
    (patient : yes = true → message = .undo → Message.tieAcc ∉ game.inbox player) :
    Kept rules (((game.setInbox player rest).setInfo player
      (ChessPlay.receiveMy rules (game.infos player) yes message).1).send player
        (ChessPlay.receiveMy rules (game.infos player) yes message).2) := by
  have fewer : ∀ item ∈ rest, item ∈ game.inbox player := by
    intro item listed
    rw [inbox]
    exact List.mem_cons_of_mem _ listed
  -- A message that passes the turn can only come from one who has lost.
  have lost : message.flips = true → (game.infos (!player)).result = .lost := by
    intro flips
    rcases kept.flip_cases here inbox flips with lost | ⟨result, _same, _kind, behind, _rest⟩
    · exact lost
    · have impossible := behind.turn
      rw [my] at impossible
      simp at impossible
  have ignored : Neutral message →
      Kept rules (((game.setInbox player rest).setInfo player (game.infos player)).send player
        []) := by
    intro neutral
    rw [send_nil, show game.infos player = (game.setInbox player rest).infos player from rfl,
      setInfo_self]
    exact kept.popNeutral inbox neutral
  cases message with
  | nop => exact ignored ⟨rfl, nofun⟩
  | tie => exact ignored ⟨rfl, nofun⟩
  | tieRej => exact ignored ⟨rfl, nofun⟩
  | undoRej => exact ignored ⟨rfl, nofun⟩
  | undoAcc =>
      change Kept rules (((game.setInbox player rest).setInfo player (game.infos player)).send
        player [])
      rw [send_nil]
      exact kept.afterLost here (lost rfl) fewer (kept.boards player) (by rw [here]; exact nofun)
  | tieAcc =>
      change Kept rules (((game.setInbox player rest).setInfo player
        ((game.infos player).endTurn .tie)).send player [])
      rw [send_nil]
      have tied := (kept.accepted player ((running_iff player).mpr here)
        (by rw [inbox]; exact List.mem_cons_self)).1
      refine kept.settle here (by rw [tied]; exact nofun) (kept.boards player) nofun ?_
      rw [tied]
      exact ⟨nofun, fun _ => rfl, fun _ => rfl⟩
  | normal step =>
      unfold ChessPlay.receiveMy
      dsimp only
      split
      · rw [send_nil]
        exact kept.afterLost here (lost rfl) fewer (kept.applied_board player step id)
          (rules.applyStep_ne_tie _ _)
      · rw [send_nil]
        exact kept.afterLost here (lost rfl) fewer (kept.boards player) nofun
  | undo =>
      unfold ChessPlay.receiveMy
      dsimp only
      split
      · rename_i accepted
        refine @passTurn _ _ _ _ rules game kept player here my (patient accepted.2 rfl) _ _ _
          fewer rfl ?_ (by change (game.infos player).result ≠ _; rw [here]; exact nofun) nofun ?_
        · change (!(game.infos player).turn) = !player
          rw [my]
        · intro level
          refine .undoAcc ?_ here ?_
          · simp only [setInfo_infos_other, setInbox_infos]
            rw [level.history_eq]
            exact accepted.1
          · rw [Bool.not_not]
            simp only [setInfo_infos_self, setInfo_infos_other, setInbox_infos]
            rw [level.history_eq]
            rfl
      · have popped := kept.popNeutral inbox ⟨rfl, nofun⟩
        rw [show game.infos player = (game.setInbox player rest).infos player from rfl,
          setInfo_self]
        exact popped.sendNeutral player ⟨rfl, nofun⟩

theorem receiveHis {player yes : Bool} {message : Message Step}
    {rest : List (Message Step)} (here : (game.infos player).result = .cont)
    (his : (game.infos player).turn ≠ player) (inbox : game.inbox player = message :: rest)
    (patient : yes = true → message = .tie → (game.infos (!player)).result = .cont ∧
      (game.infos (!player)).turn = !player) :
    Kept rules (((game.setInbox player rest).setInfo player
      (ChessPlay.receiveHis rules (game.infos player) yes message).1).send player
        (ChessPlay.receiveHis rules (game.infos player) yes message).2) := by
  have fewer : ∀ item ∈ rest, item ∈ game.inbox player := by
    intro item listed
    rw [inbox]
    exact List.mem_cons_of_mem _ listed
  have unaccepted : Message.tieAcc ∉ game.inbox player := by
    intro listed
    exact his ((my_iff player).mp
      (kept.accepted player ((running_iff player).mpr here) listed).2.1)
  have ignored : Neutral message →
      Kept rules (((game.setInbox player rest).setInfo player (game.infos player)).send player
        []) := by
    intro neutral
    rw [send_nil, show game.infos player = (game.setInbox player rest).infos player from rfl,
      setInfo_self]
    exact kept.popNeutral inbox neutral
  have toMove : (!(game.infos player).turn) = player := by
    cases turn : (game.infos player).turn <;> cases player <;> simp_all
  cases message with
  | nop => exact ignored ⟨rfl, nofun⟩
  | tieAcc => exact absurd (by rw [inbox]; exact List.mem_cons_self) unaccepted
  | tieRej => exact ignored ⟨rfl, nofun⟩
  | undo => exact ignored ⟨rfl, nofun⟩
  | undoRej => exact ignored ⟨rfl, nofun⟩
  | undoAcc =>
      unfold ChessPlay.receiveHis
      dsimp only
      rcases kept.flip_cases here inbox rfl with lost | ⟨result, there, _kind, behind, calm, passes⟩
      · split
        · rw [send_nil]
          exact kept.afterLost here lost fewer rfl (by
            change (game.infos player).result ≠ _
            rw [here]
            exact nofun)
        · rw [send_nil]
          exact kept.afterLost here lost fewer (kept.boards player) (by rw [here]; exact nofun)
      · cases passes with
        | undoAcc some going history =>
            subst going
            rw [if_pos some, send_nil]
            exact kept.catchUp here there behind calm fewer rfl history toMove here
  | normal step =>
      unfold ChessPlay.receiveHis
      dsimp only
      rcases kept.flip_cases here inbox rfl with lost | ⟨result, there, kind, behind, calm, passes⟩
      · have notTie : (rules.applyStep (game.infos player).board step).2.seen ≠ .tie := by
          cases (rules.applyStep (game.infos player).board step).2 <;> exact nofun
        split
        · rw [send_nil]
          exact kept.afterLost here lost fewer (kept.applied_board player step _) notTie
        · rw [send_nil]
          exact kept.afterLost here lost fewer (kept.boards player) nofun
      · cases passes with
        | normal step checked history applied =>
            rw [if_pos checked, send_nil]
            rcases kind with rfl | rfl
            · refine kept.catchUp here there behind calm fewer (kept.applied_board player step _)
                history toMove ?_
              change GameResult.seen (rules.applyStep (game.infos player).board step).2 = .cont
              rw [applied]
              rfl
            · have result : ((game.infos player).applied rules step GameResult.seen).result =
                  .lost := by
                change GameResult.seen (rules.applyStep (game.infos player).board step).2 = .lost
                rw [applied]
                rfl
              refine kept.settle here (by rw [there]; exact nofun)
                (kept.applied_board player step _) (by rw [result]; exact nofun) ?_
              rw [result, there]
              exact ⟨nofun, nofun, nofun⟩
  | tie =>
      unfold ChessPlay.receiveHis
      dsimp only
      split
      · rename_i accepted
        obtain ⟨there, myOther⟩ := patient accepted rfl
        have level : game.Level :=
          @level_of_my _ _ _ _ rules game kept (!player) there (by rw [Bool.not_not]; exact here)
            myOther
        refine Kept.of_player player ?_ ?_ ?_ ?_ ?_ ?_ ?_ ?_
        · simp only [send_infos, setInfo_infos_self]
          exact kept.boards player
        · simp only [send_infos, setInfo_infos_other, setInbox_infos]
          exact kept.boards (!player)
        · simp only [send_infos, setInfo_infos_self]
          exact nofun
        · simp only [send_infos, setInfo_infos_self, setInfo_infos_other, setInbox_infos,
            send_inbox_other, setInfo_inbox, setInbox_inbox_other]
          refine fun _there _listed => ⟨rfl, myOther, calm_append (level.calm _) ?_⟩
          intro message listed
          rw [List.mem_singleton.mp listed]
          rfl
        · simp only [send_infos, setInfo_infos_self]
          exact nofun
        · simp only [send_infos, setInfo_infos_self]
          exact nofun
        · simp only [send_infos, setInfo_infos_self, send_inbox_other]
          exact fun _there => ⟨nofun, fun _tied => List.mem_append_right _ List.mem_cons_self⟩
        · simp only [send_infos, setInfo_infos_other, setInbox_infos]
          exact fun _ended ended => absurd there ended
      · have popped := kept.popNeutral inbox ⟨rfl, nofun⟩
        rw [show game.infos player = (game.setInbox player rest).infos player from rfl,
          setInfo_self]
        exact popped.sendNeutral player ⟨rfl, nofun⟩

theorem receive {player yes : Bool}
    (here : (game.infos player).result = .cont)
    (patient : game.Patient rules (.receive player yes)) :
    Kept rules (game.receive rules player yes) := by
  obtain ⟨ties, undos⟩ := patient
  unfold Match.receive
  dsimp only
  cases inbox : game.inbox player with
  | nil =>
      dsimp only
      split
      · exact kept
      · rename_i ended
        rw [running_iff] at ended
        exact kept.hangUp here ended inbox
  | cons message rest =>
      dsimp only
      rw [inbox] at ties
      by_cases my : game.my player = true
      · rw [if_pos my]
        refine kept.receiveMy here ((my_iff player).mp my) inbox ?_
        rintro accepted rfl
        exact undos accepted my (by rw [inbox]; rfl)
      · rw [if_neg my]
        refine kept.receiveHis here (fun turn => my ((my_iff player).mpr turn)) inbox ?_
        rintro accepted rfl
        obtain ⟨there, myOther⟩ := ties accepted (Bool.eq_false_iff.mpr my) rfl
        exact ⟨(running_iff _).mp there, (my_iff _).mp myOther⟩

theorem step (action : Action Loc) (patient : game.Patient rules action) :
    Kept rules (game.step rules action) := by
  unfold Match.step
  cases action with
  | select player loc =>
      dsimp only
      split
      · rename_i may
        rw [Bool.and_eq_true, running_iff, my_iff] at may
        exact kept.choose may.1 may.2 patient
      · exact kept
  | resign player =>
      dsimp only
      split
      · rename_i here
        exact kept.giveUp ((running_iff player).mp here) patient
      · exact kept
  | askTie player =>
      dsimp only
      split
      · exact kept.sendNeutral player ⟨rfl, nofun⟩
      · exact kept
  | askUndo player =>
      dsimp only
      split
      · exact kept.sendNeutral player ⟨rfl, nofun⟩
      · exact kept
  | timeout player =>
      dsimp only
      split
      · rename_i may
        rw [Bool.and_eq_true, running_iff] at may
        exact kept.giveUp may.1 patient
      · exact kept
  | wake player =>
      dsimp only
      split
      · exact kept.sendNeutral player ⟨rfl, nofun⟩
      · exact kept
  | receive player yes =>
      dsimp only
      split
      · rename_i here
        exact kept.receive ((running_iff player).mp here) patient
      · exact kept

end

end Match.Kept

/-- In every run in which who asks for a tie waits for the answer, the players see
the same game and the same outcome. -/
theorem agreed_run (rules : Rules Board Step Tag Loc) {actions : List (Action Loc)}
    (patient : StepsMeet (Match.step rules) (Match.Patient rules) (Match.start rules) actions) :
    Agreed (run (Match.step rules) (Match.start rules) actions) := by
  have kept : Match.Kept rules (run (Match.step rules) (Match.start rules) actions) := by
    refine invariant_run ?_ Match.Kept.start patient
    intro game action kept meets
    exact kept.step action meets
  exact kept.agreed

end

/-! ### The two games -/

def chcTurn (turn : Bool) : Chc.Turn := if turn then .red else .blk

def chcResult (board : Chc.Board) (step : Chc.Step) : GameResult :=
  if Chc.takesKing board step then .win else .cont

/-- Chinese chess; who is to move sees his own side of the board. -/
def chc : Rules Chc.Board Chc.Step (Option Chc.Square) Chc.Square where
  initBoard := Chc.initBoard
  initTag := none
  applyStep board step := (Chc.moved board step, chcResult board step)
  checkStep _ := true
  select board turn tag screen :=
    match Chc.select board (chcTurn turn) tag (Chc.location turn screen) with
    | (left, none) => (left, none)
    | (left, some step) => (left, some (step, Chc.moved board step, chcResult board step))
  select_step := by
    intro board turn tag screen step after result made
    split at made
    · cases made
    · cases made
      exact ⟨rfl, rfl⟩
  applyStep_ne_tie := by
    intro board step
    unfold chcResult
    split
    · exact nofun
    · exact nofun

namespace Gomo

structure Square where
  r : Fin 15
  c : Fin 15
deriving DecidableEq

abbrev Board := Square → Option Bool

structure Step where
  color : Bool
  loc : Square
deriving DecidableEq

/-- `chkwin`; black, who has forbidden moves, is limited. -/
def chkwin (style : Nat) (limit : Bool) : GameResult :=
  if style = 0x0c then .win
  else if limit = false then
    if style = 0x0b then .win else .cont
  else if style < 0x0c ∧ 0x07 < style then .lost
  else .cont

def applyStep (getstyle : Board → Square → Bool → Nat) (board : Board) (step : Step) :
    Board × GameResult :=
  (Function.update board step.loc (some step.color),
    chkwin (getstyle board step.loc step.color) step.color)

end Gomo

/-- Gomoku, whatever the pattern tables say of a move: `getstyle` looks at the
board, the place and the colour, and both sides use it. -/
def gomo (getstyle : Gomo.Board → Gomo.Square → Bool → Nat) :
    Rules Gomo.Board Gomo.Step Unit Gomo.Square where
  initBoard := fun _ => none
  initTag := ()
  applyStep := Gomo.applyStep getstyle
  checkStep _ := true
  select board turn tag loc :=
    if board loc ≠ none then (tag, none)
    else
      (tag, some (⟨turn, loc⟩, Function.update board loc (some turn),
        Gomo.chkwin (getstyle board loc turn) turn))
  select_step := by
    intro board turn tag loc step after result made
    split at made
    · cases made
    · cases made
      exact ⟨rfl, rfl⟩
  applyStep_ne_tie := by
    intro board step
    unfold Gomo.applyStep Gomo.chkwin
    dsimp only
    split
    · exact nofun
    · split
      · split
        · exact nofun
        · exact nofun
      · split
        · exact nofun
        · exact nofun

/-! ### Two runs -/

instance Match.decidablePatient {Board Step Tag Loc : Type} [DecidableEq Step]
    (rules : Rules Board Step Tag Loc) (game : Match Board Step Tag) :
    (action : Action Loc) → Decidable (game.Patient rules action)
  | .select _ _ => inferInstanceAs (Decidable (_ ∨ _))
  | .resign _ => inferInstanceAs (Decidable (_ ∉ _))
  | .timeout _ => inferInstanceAs (Decidable (_ ∉ _))
  | .receive _ _ => @instDecidableAnd _ _ inferInstance inferInstance
  | .askTie _ => inferInstanceAs (Decidable True)
  | .askUndo _ => inferInstanceAs (Decidable True)
  | .wake _ => inferInstanceAs (Decidable True)

def tieAgreed : List (Action Chc.Square) :=
  [.select true ⟨6, 0⟩, .select true ⟨5, 0⟩, .askUndo true, .receive false true,
    .receive false true, .receive false true, .receive true true, .receive true true,
    .askTie true, .receive false true, .receive true true]

theorem agreed_run_tie :
    Agreed (run (Match.step chc) (Match.start chc) tieAgreed) ∧
      ((run (Match.step chc) (Match.start chc) tieAgreed).infos true).result = .tie ∧
      ((run (Match.step chc) (Match.start chc) tieAgreed).infos false).result = .tie :=
  ⟨agreed_run chc (by decide), by decide, by decide⟩

def tieMissed : List (Action Chc.Square) :=
  [.askTie true, .select true ⟨6, 0⟩, .select true ⟨5, 0⟩, .receive false true,
    .receive false true, .receive true true, .receive true true, .receive true true]

theorem tie_missed :
    ((run (Match.step chc) (Match.start chc) tieMissed).infos true).result = .win ∧
      ((run (Match.step chc) (Match.start chc) tieMissed).infos false).result = .tie ∧
      ¬ Agreed (run (Match.step chc) (Match.start chc) tieMissed) := by
  have red : ((run (Match.step chc) (Match.start chc) tieMissed).infos true).result = .win := by
    decide
  have black : ((run (Match.step chc) (Match.start chc) tieMissed).infos false).result = .tie := by
    decide
  refine ⟨red, black, ?_⟩
  intro agreed
  have ended := agreed.outcome (by decide) (by decide)
  have tied := ended.2.mpr black
  rw [red] at tied
  cases tied

end Pttbbs.Mbbsd.ChessPlay
