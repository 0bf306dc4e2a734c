/-
Several sessions of one user.

Every session reads the record of the user, changes its copy and writes the copy
back whole.  While the file still holds the record a session has read, its write
is the operation applied to the file, and the operations have run one after the
other.
-/

import Pttbbs.Lib.Runs
import Pttbbs.Mbbsd.Userec

namespace Pttbbs.Mbbsd

open Pttbbs.Lib

inductive PwcuStage where
  | start
  | read (disk : Userec)
  | done
deriving DecidableEq

def PwcuStage.isDone : PwcuStage → Bool
  | .done => true
  | _ => false

/-- The file is the record of the user; a session reads it, then writes it if it has
changed something. -/
def pwcuStep (config : PwcuConfig) (op : PwcuOp) (disk : Userec) :
    PwcuStage → Userec × PwcuStage
  | .start => (disk, if (pwcuChanged config op disk).isSome then .read disk else .done)
  | .read read => (pwcuEnd config op read disk, .done)
  | .done => (disk, .done)

section Sessions

variable {Session : Type} [DecidableEq Session]

abbrev Sessions (Session : Type) := Threads Session Userec PwcuStage

def Sessions.start (Session : Type) (disk : Userec) : Sessions Session :=
  { shared := disk, stages := fun _ => .start }

def pwcuServe (config : PwcuConfig) (ops : Session → PwcuOp) :
    Sessions Session → Session → Sessions Session :=
  serve fun session => pwcuStep config (ops session)

def FindsRead (state : Sessions Session) (session : Session) : Prop :=
  match state.stages session with
  | .read read => read = state.shared
  | .start | .done => True

instance (state : Sessions Session) (session : Session) : Decidable (FindsRead state session) := by
  unfold FindsRead
  split <;> infer_instance

variable {config : PwcuConfig} {ops : Session → PwcuOp}

def RanInTurn (config : PwcuConfig) (ops : Session → PwcuOp) (disk : Userec)
    (state : Sessions Session) : Prop :=
  ∃ order : List Session, SerialOrder id PwcuStage.isDone
    (fun session => (ops session).alone config) disk state order

theorem ranInTurn_serve {disk : Userec} {state : Sessions Session} {session : Session}
    (ran : RanInTurn config ops disk state) (finds : FindsRead state session) :
    RanInTurn config ops disk (pwcuServe config ops state session) := by
  obtain ⟨order, serial⟩ := ran
  cases stage : state.stages session with
  | start =>
      by_cases changed : (pwcuChanged config (ops session) state.shared).isSome = true
      · refine ⟨order, serial.idle ?_ ?_⟩
        · rw [stage, pwcuStep, if_pos changed]
          rfl
        · rw [stage]
          rfl
      · -- Nothing is written, then or later.
        refine ⟨order ++ [session], serial.commit ?_ ?_ ?_⟩
        · rw [stage]
          rfl
        · rw [stage, pwcuStep, if_neg changed]
          rfl
        · have nothing : pwcuChanged config (ops session) state.shared = none := by
            simpa using changed
          rw [stage]
          change state.shared = pwcuEnd config (ops session) state.shared state.shared
          rw [pwcuEnd, nothing]
  | read read =>
      -- The file holds what was read, so the write is the operation on the file.
      rw [FindsRead, stage] at finds
      refine ⟨order ++ [session], serial.commit ?_ ?_ ?_⟩
      · rw [stage]
        rfl
      · rw [stage]
        rfl
      · rw [stage, finds]
        rfl
  | done =>
      refine ⟨order, serial.idle ?_ ?_⟩
      · rw [stage]
        rfl
      · rw [stage]
        rfl

/-- Where every session that writes finds the record it has read, the record is what
the operations of the finished sessions make of it one after the other. -/
theorem sessions_run (config : PwcuConfig) (ops : Session → PwcuOp) (disk : Userec)
    (schedule : List Session)
    (finds : StepsMeet (pwcuServe config ops) FindsRead (Sessions.start Session disk) schedule) :
    let final := run (pwcuServe config ops) (Sessions.start Session disk) schedule
    ∃ order : List Session, order.Nodup ∧
      (∀ session, session ∈ order ↔ final.stages session = .done) ∧
      final.shared = order.foldl (fun disk session => (ops session).alone config disk) disk := by
  have start : RanInTurn config ops disk (Sessions.start Session disk) := by
    refine ⟨[], List.nodup_nil, fun session => ?_, rfl⟩
    constructor
    · intro member
      cases member
    · intro isDone
      cases isDone
  have kept : ∀ state session, RanInTurn config ops disk state → FindsRead state session →
      RanInTurn config ops disk (pwcuServe config ops state session) :=
    fun _state _session ran finds => ranInTurn_serve ran finds
  have ran : RanInTurn config ops disk
      (run (pwcuServe config ops) (Sessions.start Session disk) schedule) :=
    invariant_run kept start finds
  obtain ⟨order, serial⟩ := ran
  refine ⟨order, serial.nodup, fun session => ?_, serial.value⟩
  rw [serial.mem]
  generalize (run (pwcuServe config ops) (Sessions.start Session disk) schedule).stages session =
    stage
  cases stage <;> simp [PwcuStage.isDone]

end Sessions

def postAndFine (session : Bool) : PwcuOp := if session then .violateLaw 100 else .incNumPost

/-- Both in turn. -/
theorem sessions_run_in_turn :
    ∃ order : List Bool, order.Nodup ∧
      (run (pwcuServe {} postAndFine) (Sessions.start Bool {}) [false, false, true, true]).shared =
        order.foldl (fun disk session => (postAndFine session).alone {} disk) {} ∧
      (run (pwcuServe {} postAndFine) (Sessions.start Bool {})
        [false, false, true, true]).shared.vlCount = 1 := by
  obtain ⟨order, nodup, _members, value⟩ :=
    sessions_run {} postAndFine {} [false, false, true, true] (by decide)
  exact ⟨order, nodup, value, by decide⟩

/-- The post is counted on a record read before the fine: the fine is gone, as in no
order of the two. -/
theorem fine_erased :
    let final := run (pwcuServe {} postAndFine) (Sessions.start Bool {}) [false, true, true, false]
    (∀ session, final.stages session = .done) ∧ final.shared.vlCount = 0 ∧
      final.shared.userlevel &&& permViolateLaw = 0 ∧
      final.shared ≠ (postAndFine true).alone {} ((postAndFine false).alone {} {}) ∧
      final.shared ≠ (postAndFine false).alone {} ((postAndFine true).alone {} {}) := by
  decide

end Pttbbs.Mbbsd
