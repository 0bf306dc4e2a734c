/-
Edits of one post at the same time.

An `UpdatePost` call reads the post, checks the time of modification it
expects, looks for the next revision, archives the old version, writes the
record, writes the row and renders.  Each of these is a step of its own.  Of
several calls with the same expectation exactly one gets through if and only if
the others read the post after that one has written its row.
-/

import Pttbbs.Lib.Runs
import Pttbbs.PostSvc.History

namespace Pttbbs.PostSvc

open Pttbbs.Lib

structure EditCall where
  edit : PostEdit
  now : Int64 := 0
deriving DecidableEq

inductive EditStage where
  | start
  | read (post : Post)
  | checked (post : Post)
  | numbered (post : Post) (revision : UInt32)
  | archived (post : Post) (revision : UInt32)
  | recorded (post : Post) (revision : UInt32)
  | written (post : Post) (revision : UInt32)
  | done (result : Except EngineError (UInt32 × Int64))
deriving DecidableEq

def editStep (cfg : Config) (call : EditCall) (engine : Engine) :
    EditStage → Engine × EditStage
  | .start =>
      match engine.getPost cfg call.edit.postID with
      | (engine, .error failure) => (engine, .done (.error failure))
      | (engine, .ok post) => (engine, .read post)
  | .read post =>
      (engine,
        match call.edit.check post with
        | .conflict => .done (.error (.conflict post.modified))
        | .unchanged => .done (.ok (0, post.modified))
        | .changed => .checked post)
  | .checked post => (engine, .numbered post (engine.nextPostRevision call.edit.postID))
  | .numbered post revision =>
      (engine.setPostRevision (call.edit.archived post revision call.now),
        .archived post revision)
  | .archived post revision =>
      (engine.setPostRecord (call.edit.apply post call.now), .recorded post revision)
  | .recorded post revision =>
      (engine.setRowTitle (call.edit.apply post call.now), .written post revision)
  | .written post revision =>
      let edited := call.edit.apply post call.now
      (engine.renderAndSave cfg edited, .done (.ok (revision, edited.modified)))
  | .done result => (engine, .done result)

abbrev Editing (Caller : Type) := Threads Caller Engine EditStage

def Editing.start (Caller : Type) (engine : Engine) : Editing Caller :=
  { shared := engine, stages := fun _ => .start }

theorem updatePost_eq_steps (cfg : Config) (engine : Engine) (call : EditCall) :
    let final := run (serve (fun _ => editStep cfg call)) (Editing.start Unit engine)
      (List.replicate 7 ())
    let outcome := engine.updatePost cfg call.now call.edit
    final.shared = outcome.1 ∧ final.stages () = .done outcome.2 := by
  simp only [Editing.start, run_serve_unit, Engine.updatePost]
  cases read : engine.getPost cfg call.edit.postID with
  | mk after result =>
      cases result with
      | error failure =>
          have first : editStep cfg call engine .start = (after, .done (.error failure)) := by
            simp only [editStep, read]
          rw [Function.iterate_succ_apply, first]
          exact ⟨rfl, rfl⟩
      | ok post =>
          have first : editStep cfg call engine .start = (after, .read post) := by
            simp only [editStep, read]
          cases checked : call.edit.check post with
          | conflict =>
              have second : editStep cfg call after (.read post) =
                  (after, .done (.error (.conflict post.modified))) := by
                simp only [editStep, checked]
              rw [Function.iterate_succ_apply, first, Function.iterate_succ_apply, second]
              dsimp only
              rw [checked]
              exact ⟨rfl, rfl⟩
          | unchanged =>
              have second : editStep cfg call after (.read post) =
                  (after, .done (.ok (0, post.modified))) := by
                simp only [editStep, checked]
              rw [Function.iterate_succ_apply, first, Function.iterate_succ_apply, second]
              dsimp only
              rw [checked]
              exact ⟨rfl, rfl⟩
          | changed =>
              have second : editStep cfg call after (.read post) = (after, .checked post) := by
                simp only [editStep, checked]
              rw [Function.iterate_succ_apply, first, Function.iterate_succ_apply, second]
              dsimp only
              rw [checked]
              exact ⟨rfl, rfl⟩

section Competing

variable {Caller : Type} [DecidableEq Caller] (cfg : Config) (calls : Caller → EditCall)

def editingRun (engine : Engine) (schedule : List Caller) : Editing Caller :=
  run (serve (fun caller => editStep cfg (calls caller))) (Editing.start Caller engine) schedule

def EditStage.Won (stage : EditStage) : Prop :=
  ∃ revision modified, revision ≠ 0 ∧ stage = .done (.ok (revision, modified))

def EditStage.Refused (stage : EditStage) : Prop :=
  ∃ latest, stage = .done (.error (.conflict latest))

def EditStage.isArchived : EditStage → Bool
  | .archived _ _ => true
  | _ => false

def EditStage.isDone : EditStage → Bool
  | .done _ => true
  | _ => false

theorem EditStage.eq_done_of_isDone {stage : EditStage} (done : stage.isDone = true) :
    ∃ result, stage = .done result := by
  cases stage with
  | done result => exact ⟨result, rfl⟩
  | start => cases done
  | read post => cases done
  | checked post => cases done
  | numbered post revision => cases done
  | archived post revision => cases done
  | recorded post revision => cases done
  | written post revision => cases done

def EditStage.rowWritten : EditStage → Bool
  | .written _ _ => true
  | .done (.ok _) => true
  | _ => false

namespace Engine

def InHistory (engine : Engine) (postID : UInt64) (content : Bytes) : Prop :=
  ∃ revision archived, engine.getPostHistory postID revision = some archived ∧
    archived.content = content

end Engine

/-- At most one call gets through, all others are refused, and every content
that a call wrote over is in the history at the end. -/
structure OneEditWins (postID : UInt64) (engine : Engine) (schedule : List Caller) : Prop where
  settled : ∀ caller, ((editingRun cfg calls engine schedule).stages caller).Won ∨
    ((editingRun cfg calls engine schedule).stages caller).Refused
  unique : ∀ caller other, ((editingRun cfg calls engine schedule).stages caller).Won →
    ((editingRun cfg calls engine schedule).stages other).Won → caller = other
  kept : ∀ before caller after, schedule = before ++ caller :: after →
    ((editingRun cfg calls engine before).stages caller).isArchived = true →
    ∀ content ∈ (editingRun cfg calls engine before).shared.recordContent postID,
      (editingRun cfg calls engine schedule).shared.InHistory postID content

/-- A call other than the winner reads the post only after the winner has
written its row. -/
def ReadsAfter (winner : Caller) (state : Editing Caller) (caller : Caller) : Prop :=
  state.stages caller = .start → caller = winner ∨ (state.stages winner).rowWritten = true

instance (winner : Caller) (state : Editing Caller) (caller : Caller) :
    Decidable (ReadsAfter winner state caller) :=
  inferInstanceAs (Decidable (_ → _ ∨ _))

/-- All calls expect the time of modification that a read finds at the start. -/
structure Contest (postID : UInt64) (engine : Engine) (post : Post) : Prop where
  read : ∃ after, engine.getPost cfg postID = (after, .ok post)
  positive : 0 < post.modified
  same : ∀ caller, (calls caller).edit.postID = postID
  expected : ∀ caller, (calls caller).edit.expectedModified = post.modified

/-! ### One call -/

theorem getPost_error {cfg : Config} {engine after : Engine} {postID : UInt64}
    {failure : EngineError} (read : engine.getPost cfg postID = (after, .error failure))
    (latest : Int64) : failure ≠ .conflict latest := by
  unfold Engine.getPost at read
  split at read
  · cases read
    simp
  · dsimp only at read
    split at read
    · cases read
    · split at read
      · cases read
        simp
      · cases read

theorem inHistory_setPostRevision (engine : Engine) (revision : PostRevision) :
    (engine.setPostRevision revision).InHistory revision.postID revision.content := by
  refine ⟨revision.revision, storedPostRevision revision, ?_, rfl⟩
  unfold Engine.getPostHistory Engine.setPostRevision
  rw [OrderedMap.get?_set_self, Option.bind_some,
    decodeRFC822PostRevision_encodeRFC822PostRevision]

theorem InHistory_of_same {before after : Engine} {postID : UInt64} {content : Bytes}
    (same : after.historyDB = before.historyDB) (held : before.InHistory postID content) :
    after.InHistory postID content := by
  obtain ⟨revision, archived, found, contentEq⟩ := held
  refine ⟨revision, archived, ?_, contentEq⟩
  unfold Engine.getPostHistory
  rw [same]
  exact found

def EditStage.AfterRead (call : EditCall) (post : Post) : EditStage → Prop
  | .start => False
  | .read found => found = post
  | .checked found => call.edit.check post = .changed ∧ found = post
  | .numbered found revision | .archived found revision | .recorded found revision
  | .written found revision => call.edit.check post = .changed ∧ found = post ∧ revision ≠ 0
  | .done (.ok (revision, time)) =>
      (call.edit.check post = .changed ∧ revision ≠ 0 ∧
        time = editTime call.now post.modified) ∨
      (call.edit.check post = .unchanged ∧ revision = 0)
  | .done (.error failure) =>
      call.edit.check post = .conflict ∧ failure = .conflict post.modified

theorem afterRead_editStep (call : EditCall) (post : Post) (engine : Engine) (stage : EditStage)
    (reached : stage.AfterRead call post) :
    (editStep cfg call engine stage).2.AfterRead call post := by
  cases stage with
  | start => exact reached.elim
  | read found =>
      cases reached
      cases checked : call.edit.check post with
      | conflict => simp [editStep, checked, EditStage.AfterRead]
      | unchanged => simp [editStep, checked, EditStage.AfterRead]
      | changed => simp [editStep, checked, EditStage.AfterRead]
  | checked found =>
      obtain ⟨checked, rfl⟩ := reached
      exact ⟨checked, rfl, engine.nextPostRevision_ne_zero _⟩
  | numbered found revision => exact reached
  | archived found revision => exact reached
  | recorded found revision => exact reached
  | written found revision =>
      obtain ⟨checked, rfl, nonzero⟩ := reached
      exact Or.inl ⟨checked, nonzero, rfl⟩
  | done result => exact reached

theorem EditStage.AfterRead.settled {call : EditCall} {post : Post} {stage : EditStage}
    (reached : stage.AfterRead call post) (decided : stage.Won ∨ stage.Refused) :
    (call.edit.check post = .changed ∧ stage.Won) ∨ call.edit.check post = .conflict := by
  rcases decided with ⟨revision, time, nonzero, rfl⟩ | ⟨latest, rfl⟩
  · rcases reached with ⟨checked, _nonzero, _time⟩ | ⟨_unchanged, zero⟩
    · exact Or.inl ⟨checked, revision, time, nonzero, rfl⟩
    · exact absurd zero nonzero
  · exact Or.inr reached.1

def EditStage.writtenTime (call : EditCall) : EditStage → Option Int64
  | .written post _ => some (editTime call.now post.modified)
  | .done (.ok (revision, time)) => if revision = 0 then none else some time
  | _ => none

def EditStage.isRecorded : EditStage → Bool
  | .recorded _ _ => true
  | _ => false

theorem metaDB_editStep (call : EditCall) (engine : Engine) {stage : EditStage}
    (other : stage.isRecorded = false) :
    (editStep cfg call engine stage).1.metaDB = engine.metaDB := by
  cases stage with
  | start =>
      have frame := Engine.getPost_frame cfg engine call.edit.postID
      simp only [editStep]
      split <;> (rename_i read; rw [read] at frame; exact frame.metaDB)
  | written post revision => exact (Engine.renderAndSave_frame cfg engine _).metaDB
  | recorded post revision => cases other
  | read post => rfl
  | checked post => rfl
  | numbered post revision => rfl
  | archived post revision => rfl
  | done result => rfl

theorem writtenTime_editStep (call : EditCall) (engine : Engine) {post : Post}
    {stage : EditStage} {time : Int64} (reached : stage.AfterRead call post)
    (wrote : stage.writtenTime call = some time) :
    (editStep cfg call engine stage).2.writtenTime call = some time := by
  cases stage with
  | written found revision =>
      obtain ⟨_checked, rfl, nonzero⟩ := reached
      simp only [EditStage.writtenTime] at wrote
      simp [editStep, EditStage.writtenTime, nonzero, PostEdit.apply, wrote]
  | done result => exact wrote
  | start => cases wrote
  | read found => cases wrote
  | checked found => cases wrote
  | numbered found revision => cases wrote
  | archived found revision => cases wrote
  | recorded found revision => cases wrote

/-- How far a call can have come: not started, failed to read, or going on with
a post it read. -/
def EditStage.Sound (call : EditCall) (postID : UInt64) (stage : EditStage) : Prop :=
  stage = .start ∨ (∃ failure, stage = .done (.error failure)) ∨
    ∃ post, post.id = postID ∧ stage.AfterRead call post

theorem sound_editStep {call : EditCall} {postID : UInt64} (engine : Engine) {stage : EditStage}
    (same : call.edit.postID = postID) (sound : stage.Sound call postID) :
    (editStep cfg call engine stage).2.Sound call postID := by
  rcases sound with rfl | ⟨failure, rfl⟩ | ⟨post, sameID, reached⟩
  · cases read : engine.getPost cfg call.edit.postID with
    | mk after result =>
        cases result with
        | error failure =>
            refine Or.inr (Or.inl ⟨failure, ?_⟩)
            simp only [editStep, read]
        | ok post =>
            refine Or.inr (Or.inr ⟨post, ?_, ?_⟩)
            · rw [Engine.getPost_id read, same]
            · simp only [editStep, read, EditStage.AfterRead]
  · exact Or.inr (Or.inl ⟨failure, rfl⟩)
  · exact Or.inr (Or.inr ⟨post, sameID, afterRead_editStep cfg call post engine stage reached⟩)

/-! ### The row -/

structure RowFollows (postID : UInt64) (engine : Engine) (state : Editing Caller) : Prop where
  present : (state.shared.metaDB.posts.get? postID).isSome = true
  sound : ∀ caller, (state.stages caller).Sound (calls caller) postID
  row : state.shared.metaDB = engine.metaDB ∨
    ∃ caller time row, (state.stages caller).writtenTime (calls caller) = some time ∧
      state.shared.metaDB.posts.get? postID = some row ∧ row.modified = time

omit [DecidableEq Caller] in
theorem rowFollows_start {postID : UInt64} {engine : Engine} {post : Post}
    (contest : Contest cfg calls postID engine post) :
    RowFollows calls postID engine (Editing.start Caller engine) := by
  obtain ⟨after, read⟩ := contest.read
  obtain ⟨row, found, _rest⟩ := Engine.getPost_ok read
  exact
    { present := by
        change (engine.metaDB.posts.get? postID).isSome = true
        rw [found]
        rfl
      sound := fun _ => Or.inl rfl
      row := Or.inl rfl }

theorem rowFollows_serve {postID : UInt64} {engine : Engine}
    (same : ∀ caller, (calls caller).edit.postID = postID) (state : Editing Caller)
    (caller : Caller) (follows : RowFollows calls postID engine state) :
    RowFollows calls postID engine
      (serve (fun caller => editStep cfg (calls caller)) state caller) := by
  have sound : ∀ other, ((serve (fun caller => editStep cfg (calls caller)) state
      caller).stages other).Sound (calls other) postID := by
    intro other
    rw [serve_stages]
    split
    · rename_i served
      subst served
      exact sound_editStep cfg state.shared (same other) (follows.sound other)
    · exact follows.sound other
  cases recording : (state.stages caller).isRecorded with
  | false =>
      have unchanged := metaDB_editStep cfg (calls caller) state.shared recording
      refine ⟨?_, sound, ?_⟩
      · rw [serve_shared, unchanged]
        exact follows.present
      · rw [serve_shared, unchanged]
        rcases follows.row with untouched | ⟨writer, time, row, wrote, found, timeEq⟩
        · exact Or.inl untouched
        · refine Or.inr ⟨writer, time, row, ?_, found, timeEq⟩
          rw [serve_stages]
          split
          · rename_i served
            subst served
            rcases follows.sound writer with begun | ⟨failure, failed⟩ | ⟨post, _id, reached⟩
            · rw [begun] at wrote
              cases wrote
            · rw [failed] at wrote
              cases wrote
            · exact writtenTime_editStep cfg (calls writer) state.shared reached wrote
          · exact wrote
  | true =>
      cases stage : state.stages caller with
      | recorded post revision =>
          obtain ⟨row, found⟩ := Option.isSome_iff_exists.mp follows.present
          have sameID : post.id = postID := by
            rcases follows.sound caller with begun | ⟨failure, failed⟩ | ⟨read, readID, reached⟩
            · rw [stage] at begun
              cases begun
            · rw [stage] at failed
              cases failed
            · rw [stage] at reached
              rw [reached.2.1]
              exact readID
          have rewritten : (serve (fun caller => editStep cfg (calls caller)) state
              caller).shared.metaDB.posts.get? postID = some { row with
                title := ((calls caller).edit.apply post (calls caller).now).title
                modified := editTime (calls caller).now post.modified } := by
            rw [serve_shared, stage]
            simp only [editStep, Engine.setRowTitle, MetaDB.updatePost, PostEdit.apply, sameID,
              OrderedMap.get?_modify_self, found, Option.map_some]
          refine ⟨?_, sound, Or.inr ⟨caller, _, _, ?_, rewritten, rfl⟩⟩
          · rw [rewritten]
            rfl
          · rw [serve_stages_self, stage]
            rfl
      | start => simp [stage, EditStage.isRecorded] at recording
      | read post => simp [stage, EditStage.isRecorded] at recording
      | checked post => simp [stage, EditStage.isRecorded] at recording
      | numbered post revision => simp [stage, EditStage.isRecorded] at recording
      | archived post revision => simp [stage, EditStage.isRecorded] at recording
      | written post revision => simp [stage, EditStage.isRecorded] at recording
      | done result => simp [stage, EditStage.isRecorded] at recording

theorem rowFollows_run {postID : UInt64} {engine : Engine} {post : Post}
    (contest : Contest cfg calls postID engine post) (schedule : List Caller) :
    RowFollows calls postID engine (editingRun cfg calls engine schedule) :=
  invariant_run_of_step (fun state caller => rowFollows_serve cfg calls contest.same state caller)
    (rowFollows_start cfg calls contest) schedule

/-! ### One winner means late readers -/

theorem check_ne_conflict {edit : PostEdit} {post : Post}
    (same : post.modified = edit.expectedModified) : edit.check post ≠ .conflict := by
  have current : ¬ (0 < edit.expectedModified && 0 < post.modified &&
      post.modified ≠ edit.expectedModified) = true := by
    simp [same]
  unfold PostEdit.check
  rw [if_neg current]
  split <;> simp

theorem check_eq_conflict {edit : PostEdit} {post : Post} (conflict : edit.check post = .conflict) :
    0 < post.modified ∧ post.modified ≠ edit.expectedModified := by
  unfold PostEdit.check at conflict
  split at conflict
  · rename_i stale
    simp only [Bool.and_eq_true, decide_eq_true_eq] at stale
    exact ⟨stale.1.2, stale.2⟩
  · split at conflict <;> cases conflict

theorem check_changed_iff {edit : PostEdit} {post : Post}
    (same : post.modified = edit.expectedModified) :
    edit.check post = .changed ↔ edit.changes post = true := by
  have current : ¬ (0 < edit.expectedModified && 0 < post.modified &&
      post.modified ≠ edit.expectedModified) = true := by
    simp [same]
  unfold PostEdit.check
  rw [if_neg current]
  split <;> simp_all

section Won

variable {cfg calls} {postID : UInt64} {engine : Engine} {post : Post} {schedule : List Caller}

theorem stage_of_split (caller : Caller) (Kept : EditStage → Prop)
    (kept : ∀ shared stage, Kept stage → Kept (editStep cfg (calls caller) shared stage).2)
    (before after : List Caller)
    (start : Kept ((editingRun cfg calls engine before).stages caller)) :
    Kept ((editingRun cfg calls engine (before ++ after)).stages caller) := by
  unfold editingRun at *
  rw [run_append]
  exact stage_run (fun caller => editStep cfg (calls caller)) caller Kept kept after start

theorem afterRead_of_split (before after : List Caller) {caller : Caller} {found : Post}
    (reached : ((editingRun cfg calls engine before).stages caller).AfterRead (calls caller)
      found) :
    ((editingRun cfg calls engine (before ++ after)).stages caller).AfterRead (calls caller)
      found :=
  stage_of_split caller (fun stage => stage.AfterRead (calls caller) found)
    (fun shared stage => afterRead_editStep cfg (calls caller) found shared stage) before after
    reached

theorem won_of_writtenTime (contest : Contest cfg calls postID engine post)
    (wins : OneEditWins cfg calls postID engine schedule) {before after : List Caller}
    (split : schedule = before ++ after) {writer : Caller} {time : Int64}
    (wrote : ((editingRun cfg calls engine before).stages writer).writtenTime (calls writer) =
      some time) :
    ((editingRun cfg calls engine schedule).stages writer).Won := by
  rcases (rowFollows_run cfg calls contest before).sound writer with
    begun | ⟨failure, failed⟩ | ⟨found, _id, reached⟩
  · rw [begun] at wrote
    cases wrote
  · rw [failed] at wrote
    cases wrote
  · have changed : (calls writer).edit.check found = .changed := by
      cases stage : (editingRun cfg calls engine before).stages writer with
      | written read revision =>
          rw [stage] at reached
          exact reached.1
      | done result =>
          rw [stage] at reached wrote
          cases result with
          | error failure => cases wrote
          | ok value =>
              rcases reached with ⟨changed, _nonzero, _time⟩ | ⟨_unchanged, zero⟩
              · exact changed
              · simp [EditStage.writtenTime, zero] at wrote
      | start => rw [stage] at wrote; cases wrote
      | read read => rw [stage] at wrote; cases wrote
      | checked read => rw [stage] at wrote; cases wrote
      | numbered read revision => rw [stage] at wrote; cases wrote
      | archived read revision => rw [stage] at wrote; cases wrote
      | recorded read revision => rw [stage] at wrote; cases wrote
    have final := afterRead_of_split before after reached
    rw [← split] at final
    rcases final.settled (wins.settled writer) with ⟨_changed, won⟩ | conflict
    · exact won
    · rw [changed] at conflict
      cases conflict

theorem conflict_of_not_won (contest : Contest cfg calls postID engine post)
    (wins : OneEditWins cfg calls postID engine schedule) {before after : List Caller}
    {caller : Caller} (split : schedule = before ++ caller :: after)
    (begun : (editingRun cfg calls engine before).stages caller = .start)
    (lost : ¬ ((editingRun cfg calls engine schedule).stages caller).Won) :
    ∃ reader found, (editingRun cfg calls engine before).shared.getPost cfg postID =
      (reader, .ok found) ∧ (calls caller).edit.check found = .conflict := by
  have refused := (wins.settled caller).resolve_left lost
  have splitServed : schedule = (before ++ [caller]) ++ after := by simp [split]
  have served : (editingRun cfg calls engine (before ++ [caller])).stages caller =
      (editStep cfg (calls caller) (editingRun cfg calls engine before).shared .start).2 := by
    unfold editingRun at *
    rw [run_append, run_cons, run_nil, serve_stages_self, begun]
  cases read : (editingRun cfg calls engine before).shared.getPost cfg postID with
  | mk reader result =>
      simp only [editStep, contest.same caller, read] at served
      cases result with
      | error failure =>
          have final : (editingRun cfg calls engine schedule).stages caller =
              .done (.error failure) := by
            rw [splitServed]
            refine stage_of_split caller (fun stage => stage = .done (.error failure)) ?_
              (before ++ [caller]) after served
            rintro shared stage rfl
            rfl
          obtain ⟨latest, refusal⟩ := refused
          rw [final] at refusal
          cases refusal
          exact absurd rfl (getPost_error read latest)
      | ok found =>
          have reached : ((editingRun cfg calls engine (before ++ [caller])).stages
              caller).AfterRead (calls caller) found := by
            rw [served]
            rfl
          have final := afterRead_of_split (before ++ [caller]) after reached
          rw [← splitServed] at final
          rcases final.settled (Or.inr refused) with ⟨_changed, won⟩ | conflict
          · exact absurd won lost
          · exact ⟨reader, found, rfl, conflict⟩

theorem rowWritten_of_writtenTime {call : EditCall} {stage : EditStage} {time : Int64}
    (wrote : stage.writtenTime call = some time) : stage.rowWritten = true := by
  cases stage with
  | written found revision => rfl
  | done result =>
      cases result with
      | error failure => cases wrote
      | ok value => rfl
  | start => cases wrote
  | read found => cases wrote
  | checked found => cases wrote
  | numbered found revision => cases wrote
  | archived found revision => cases wrote
  | recorded found revision => cases wrote

theorem writtenTime_eq {call : EditCall} {stage : EditStage} {found : Post} {time : Int64}
    (reached : stage.AfterRead call found) (wrote : stage.writtenTime call = some time) :
    time = editTime call.now found.modified := by
  cases stage with
  | written read revision =>
      obtain ⟨_changed, rfl, _nonzero⟩ := reached
      exact (Option.some.inj wrote).symm
  | done result =>
      cases result with
      | error failure => cases wrote
      | ok value =>
          rcases reached with ⟨_changed, nonzero, timeEq⟩ | ⟨_unchanged, zero⟩
          · simp only [EditStage.writtenTime, if_neg nonzero] at wrote
            rw [← Option.some.inj wrote]
            exact timeEq
          · simp [EditStage.writtenTime, zero] at wrote
  | start => cases wrote
  | read read => cases wrote
  | checked read => cases wrote
  | numbered read revision => cases wrote
  | archived read revision => cases wrote
  | recorded read revision => cases wrote

theorem editTime_maxValue (now : Int64) : editTime now Int64.maxValue = Int64.minValue := by
  unfold editTime
  rw [if_pos (Int64.le_maxValue now)]
  decide

/-- If at most one call gets through, it is the one that read first, the others
read after its row was written, and the time of modification can still grow. -/
theorem readsAfter_of_oneEditWins [Nontrivial Caller]
    (contest : Contest cfg calls postID engine post)
    (wins : OneEditWins cfg calls postID engine schedule) :
    post.modified ≠ Int64.maxValue ∧
      ∃ winner, (calls winner).edit.changes post = true ∧
        StepsMeet (serve (fun caller => editStep cfg (calls caller))) (ReadsAfter winner)
          (Editing.start Caller engine) schedule := by
  obtain ⟨some, _other, _different⟩ := exists_pair_ne Caller
  cases schedule with
  | nil =>
      rcases wins.settled some with ⟨_revision, _time, _nonzero, begun⟩ | ⟨_latest, begun⟩
      · cases begun
      · cases begun
  | cons first rest =>
      obtain ⟨reader, read⟩ := contest.read
      have firstRead : ((editingRun cfg calls engine [first]).stages first).AfterRead
          (calls first) post := by
        unfold editingRun
        rw [run_cons, run_nil, serve_stages_self]
        simp only [Editing.start, editStep, contest.same first, read, EditStage.AfterRead]
      have changedWon := (afterRead_of_split [first] rest firstRead).settled
        (wins.settled first)
      have current := contest.expected first
      obtain ⟨changed, won⟩ := changedWon.resolve_right (check_ne_conflict current.symm)
      -- A later reader finds the row the first caller wrote.
      have late : ∀ before caller after, first :: rest = before ++ caller :: after →
          (editingRun cfg calls engine before).stages caller = .start → caller ≠ first →
          ((editingRun cfg calls engine before).stages first).rowWritten = true ∧
            post.modified ≠ Int64.maxValue := by
        intro before caller after split begun different
        have lost : ¬ ((editingRun cfg calls engine (first :: rest)).stages caller).Won :=
          fun otherWon => different (wins.unique caller first otherWon won)
        obtain ⟨_reader, found, foundRead, conflict⟩ :=
          conflict_of_not_won contest wins split begun lost
        obtain ⟨positive, newer⟩ := check_eq_conflict conflict
        rw [contest.expected caller] at newer
        have follows := rowFollows_run cfg calls contest before
        rcases follows.row with untouched | ⟨writer, time, row, wrote, stored, timeEq⟩
        · obtain ⟨row, stored, _rest⟩ := Engine.getPost_ok read
          have same := Engine.getPost_modified read stored
          rw [← untouched] at stored
          rw [← Engine.getPost_modified foundRead stored] at same
          exact absurd same.symm newer
        · have writerWon := won_of_writtenTime contest wins split wrote
          have isFirst := wins.unique writer first writerWon won
          subst isFirst
          refine ⟨rowWritten_of_writtenTime wrote, ?_⟩
          intro isMax
          cases before with
          | nil =>
              cases split
              exact different rfl
          | cons head tail =>
              cases split
              have reached := afterRead_of_split [writer] tail firstRead
              have written := writtenTime_eq reached wrote
              rw [isMax, editTime_maxValue] at written
              have foundTime := Engine.getPost_modified foundRead stored
              rw [timeEq, written, if_neg (by decide)] at foundTime
              rw [foundTime] at positive
              exact absurd positive (by decide)
      constructor
      · obtain ⟨other, different⟩ := exists_ne first
        have left : (run (serve (fun caller => editStep cfg (calls caller)))
            (Editing.start Caller engine) (first :: rest)).stages other ≠
            (Editing.start Caller engine).stages other := by
          intro begun
          rcases wins.settled other with ⟨_revision, _time, _nonzero, ended⟩ | ⟨_latest, ended⟩
          · rw [editingRun, begun] at ended
            cases ended
          · rw [editingRun, begun] at ended
            cases ended
        obtain ⟨before, after, split, begun⟩ := exists_step_from _ left
        exact (late before other after split begun different).2
      · refine ⟨first, (check_changed_iff current.symm).mp changed, stepsMeet_iff.mpr ?_⟩
        intro before caller after split begun
        by_cases same : caller = first
        · exact Or.inl same
        · exact Or.inr (late before caller after split begun same).1

end Won

/-! ### Late readers mean one winner -/

def Underway (postID : UInt64) (post : Post) (engine : Engine) : EditStage → Prop
  | .read found | .checked found =>
      found = post ∧ engine.recordContent postID = some post.content
  | .numbered found revision =>
      found = post ∧ revision ≠ 0 ∧ engine.recordContent postID = some post.content
  | .archived found revision =>
      found = post ∧ revision ≠ 0 ∧ engine.recordContent postID = some post.content ∧
        engine.InHistory postID post.content
  | .recorded found revision =>
      found = post ∧ revision ≠ 0 ∧ (engine.recordContent postID).isSome = true ∧
        engine.InHistory postID post.content
  | _ => False

def Through (call : EditCall) (post : Post) : EditStage → Prop
  | .written found revision => found = post ∧ revision ≠ 0
  | .done (.ok (revision, time)) => revision ≠ 0 ∧ time = editTime call.now post.modified
  | _ => False

def Late (time : Int64) : EditStage → Prop
  | .start => True
  | .read found => found.modified = time
  | .done (.error failure) => failure = .conflict time
  | _ => False

/-- A run in which only the winner reads before its row is written. -/
inductive Phase (postID : UInt64) (engine : Engine) (post : Post) (winner : Caller)
    (state : Editing Caller) : Prop where
  | before (untouched : state.shared = engine) (waiting : ∀ caller, state.stages caller = .start)
  | during (waiting : ∀ caller, caller ≠ winner → state.stages caller = .start)
      (row : state.shared.metaDB = engine.metaDB)
      (underway : Underway postID post state.shared (state.stages winner))
  | after (row : ∃ row, state.shared.metaDB.posts.get? postID = some row ∧
        row.modified = editTime (calls winner).now post.modified)
      (record : (state.shared.recordContent postID).isSome = true)
      (kept : state.shared.InHistory postID post.content)
      (through : Through (calls winner) post (state.stages winner))
      (late : ∀ caller, caller ≠ winner →
        Late (editTime (calls winner).now post.modified) (state.stages caller))

section Phases

variable {cfg calls} {postID : UInt64} {engine : Engine} {post : Post} {winner : Caller}

omit [DecidableEq Caller] in
theorem check_of_late (contest : Contest cfg calls postID engine post)
    (notMax : post.modified ≠ Int64.maxValue) (caller : Caller) {found : Post} {now : Int64}
    (newer : found.modified = editTime now post.modified) :
    (calls caller).edit.check found = .conflict := by
  have later : post.modified < found.modified := by
    rw [newer]
    exact editTime_gt notMax
  unfold PostEdit.check
  rw [contest.expected caller, if_pos]
  simp only [Bool.and_eq_true, decide_eq_true_eq]
  exact ⟨⟨contest.positive, lt_trans contest.positive later⟩, ne_of_gt later⟩

theorem recordContent_isSome_of_frame {before after : Engine}
    (frame : RecordFrame postID before after)
    (record : (before.recordContent postID).isSome = true) :
    (after.recordContent postID).isSome = true := by
  unfold Engine.recordContent at *
  rw [Option.isSome_map] at *
  exact frame.kept record

omit [DecidableEq Caller] in
theorem not_rowWritten_of_underway {shared : Engine} {stage : EditStage}
    (underway : Underway postID post shared stage) : stage.rowWritten = false := by
  cases stage with
  | done result => exact underway.elim
  | written found revision => exact underway.elim
  | start => rfl
  | read found => rfl
  | checked found => rfl
  | numbered found revision => rfl
  | archived found revision => rfl
  | recorded found revision => rfl

theorem phase_serve_before (contest : Contest cfg calls postID engine post)
    {state : Editing Caller} (untouched : state.shared = engine)
    (waiting : ∀ caller, state.stages caller = .start) :
    Phase calls postID engine post winner
      (serve (fun caller => editStep cfg (calls caller)) state winner) := by
  obtain ⟨reader, read⟩ := contest.read
  have frame := Engine.getPost_frame cfg engine postID
  rw [read] at frame
  have stepped : editStep cfg (calls winner) state.shared (state.stages winner) =
      (reader, .read post) := by
    rw [waiting winner, untouched]
    simp only [editStep, contest.same winner, read]
  refine .during ?_ ?_ ?_
  · intro caller different
    rw [serve_stages_of_ne _ _ different]
    exact waiting caller
  · rw [serve_shared, stepped]
    exact frame.metaDB
  · rw [serve_shared, serve_stages_self, stepped]
    exact ⟨rfl, Engine.recordContent_getPost read⟩

theorem phase_serve_during (contest : Contest cfg calls postID engine post)
    (changes : (calls winner).edit.changes post = true) {state : Editing Caller}
    (waiting : ∀ caller, caller ≠ winner → state.stages caller = .start)
    (row : state.shared.metaDB = engine.metaDB)
    (underway : Underway postID post state.shared (state.stages winner)) :
    Phase calls postID engine post winner
      (serve (fun caller => editStep cfg (calls caller)) state winner) := by
  obtain ⟨reader, read⟩ := contest.read
  have sameID : post.id = postID := Engine.getPost_id read
  have stillWaiting : ∀ caller, caller ≠ winner →
      (serve (fun caller => editStep cfg (calls caller)) state winner).stages caller = .start := by
    intro caller different
    rw [serve_stages_of_ne _ _ different]
    exact waiting caller different
  cases stage : state.stages winner with
  | read found =>
      rw [stage] at underway
      obtain ⟨rfl, content⟩ := underway
      have checked : (calls winner).edit.check found = .changed :=
        (check_changed_iff (contest.expected winner).symm).mpr changes
      refine .during stillWaiting ?_ ?_
      · rw [serve_shared, stage]
        exact row
      · rw [serve_shared, serve_stages_self, stage]
        simp only [editStep, checked]
        exact ⟨rfl, content⟩
  | checked found =>
      rw [stage] at underway
      obtain ⟨rfl, content⟩ := underway
      refine .during stillWaiting ?_ ?_
      · rw [serve_shared, stage]
        exact row
      · rw [serve_shared, serve_stages_self, stage]
        exact ⟨rfl, state.shared.nextPostRevision_ne_zero _, content⟩
  | numbered found revision =>
      rw [stage] at underway
      obtain ⟨rfl, nonzero, content⟩ := underway
      refine .during stillWaiting ?_ ?_
      · rw [serve_shared, stage]
        exact row
      · rw [serve_shared, serve_stages_self, stage]
        refine ⟨rfl, nonzero, content, ?_⟩
        have archived := inHistory_setPostRevision state.shared
          ((calls winner).edit.archived found revision (calls winner).now)
        rw [← sameID]
        exact archived
  | archived found revision =>
      rw [stage] at underway
      obtain ⟨rfl, nonzero, _content, kept⟩ := underway
      refine .during stillWaiting ?_ ?_
      · rw [serve_shared, stage]
        exact row
      · rw [serve_shared, serve_stages_self, stage]
        refine ⟨rfl, nonzero, ?_, InHistory_of_same rfl kept⟩
        simp [editStep, Engine.recordContent, Engine.setPostRecord, PostEdit.apply, sameID]
  | recorded found revision =>
      rw [stage] at underway
      obtain ⟨rfl, nonzero, record, kept⟩ := underway
      obtain ⟨stored, present, _rest⟩ := Engine.getPost_ok read
      refine .after ⟨{ stored with
        title := ((calls winner).edit.apply found (calls winner).now).title
        modified := editTime (calls winner).now found.modified }, ?_, rfl⟩ ?_ ?_ ?_ ?_
      · rw [serve_shared, stage]
        simp only [editStep, Engine.setRowTitle, MetaDB.updatePost, PostEdit.apply, sameID,
          OrderedMap.get?_modify_self, row, present, Option.map_some]
      · rw [serve_shared, stage]
        exact record
      · rw [serve_shared, stage]
        exact InHistory_of_same rfl kept
      · rw [serve_stages_self, stage]
        exact ⟨rfl, nonzero⟩
      · intro caller different
        rw [stillWaiting caller different]
        trivial
  | start => rw [stage] at underway; exact underway.elim
  | written found revision => rw [stage] at underway; exact underway.elim
  | done result => rw [stage] at underway; exact underway.elim

theorem phase_serve_winner {state : Editing Caller}
    (sameID : post.id = postID)
    (row : ∃ row, state.shared.metaDB.posts.get? postID = some row ∧
      row.modified = editTime (calls winner).now post.modified)
    (record : (state.shared.recordContent postID).isSome = true)
    (kept : state.shared.InHistory postID post.content)
    (through : Through (calls winner) post (state.stages winner))
    (late : ∀ caller, caller ≠ winner →
      Late (editTime (calls winner).now post.modified) (state.stages caller)) :
    Phase calls postID engine post winner
      (serve (fun caller => editStep cfg (calls caller)) state winner) := by
  have stillLate : ∀ caller, caller ≠ winner →
      Late (editTime (calls winner).now post.modified)
        ((serve (fun caller => editStep cfg (calls caller)) state winner).stages caller) := by
    intro caller different
    rw [serve_stages_of_ne _ _ different]
    exact late caller different
  cases stage : state.stages winner with
  | written found revision =>
      rw [stage] at through
      obtain ⟨rfl, nonzero⟩ := through
      have frame := Engine.renderAndSave_frame cfg state.shared
        ((calls winner).edit.apply found (calls winner).now)
      have appliedID : ((calls winner).edit.apply found (calls winner).now).id = postID := sameID
      rw [appliedID] at frame
      refine .after ?_ ?_ ?_ ?_ stillLate
      · rw [serve_shared, stage]
        simp only [editStep]
        rw [frame.metaDB]
        exact row
      · rw [serve_shared, stage]
        exact recordContent_isSome_of_frame frame record
      · rw [serve_shared, stage]
        exact InHistory_of_same frame.historyDB kept
      · rw [serve_stages_self, stage]
        exact ⟨nonzero, rfl⟩
  | done result =>
      rw [stage] at through
      refine .after ?_ ?_ ?_ ?_ stillLate
      · rw [serve_shared, stage]
        exact row
      · rw [serve_shared, stage]
        exact record
      · rw [serve_shared, stage]
        exact kept
      · rw [serve_stages_self, stage]
        exact through
  | start => rw [stage] at through; exact through.elim
  | read found => rw [stage] at through; exact through.elim
  | checked found => rw [stage] at through; exact through.elim
  | numbered found revision => rw [stage] at through; exact through.elim
  | archived found revision => rw [stage] at through; exact through.elim
  | recorded found revision => rw [stage] at through; exact through.elim

omit [DecidableEq Caller] in
theorem late_editStep (contest : Contest cfg calls postID engine post)
    (notMax : post.modified ≠ Int64.maxValue) {shared : Engine} {now : Int64} (caller : Caller)
    (row : ∃ row, shared.metaDB.posts.get? postID = some row ∧
      row.modified = editTime now post.modified)
    (record : (shared.recordContent postID).isSome = true) {stage : EditStage}
    (late : Late (editTime now post.modified) stage) :
    (editStep cfg (calls caller) shared stage).1 = shared ∧
      Late (editTime now post.modified) (editStep cfg (calls caller) shared stage).2 := by
  cases stage with
  | start =>
      obtain ⟨stored, present, timeEq⟩ := row
      unfold Engine.recordContent at record
      rw [Option.isSome_map] at record
      obtain ⟨value, found⟩ := Option.isSome_iff_exists.mp record
      have read : shared.getPost cfg postID =
          (shared, .ok (Engine.withRecord (postOfRow postID stored) value)) :=
        Engine.getPost_of_record present found
      have positive : 0 < editTime now post.modified :=
        lt_trans contest.positive (editTime_gt notMax)
      simp only [editStep, contest.same caller, read, Late, Engine.withRecord_modified, postOfRow,
        timeEq, true_and]
      rw [if_neg (ne_of_gt positive)]
  | read found =>
      have refused := check_of_late contest notMax caller late
      simp only [editStep, refused, Late, true_and]
      exact congrArg EngineError.conflict late
  | done result =>
      cases result with
      | error failure => exact ⟨rfl, late⟩
      | ok value => exact late.elim
  | checked found => exact late.elim
  | numbered found revision => exact late.elim
  | archived found revision => exact late.elim
  | recorded found revision => exact late.elim
  | written found revision => exact late.elim

theorem phase_serve (contest : Contest cfg calls postID engine post)
    (notMax : post.modified ≠ Int64.maxValue)
    (changes : (calls winner).edit.changes post = true) (state : Editing Caller)
    (caller : Caller) (phase : Phase calls postID engine post winner state)
    (reads : ReadsAfter winner state caller) :
    Phase calls postID engine post winner
      (serve (fun caller => editStep cfg (calls caller)) state caller) := by
  obtain ⟨_reader, read⟩ := contest.read
  cases phase with
  | before untouched waiting =>
      rcases reads (waiting caller) with rfl | early
      · exact phase_serve_before contest untouched waiting
      · rw [waiting winner] at early
        cases early
  | during waiting row underway =>
      by_cases same : caller = winner
      · subst same
        exact phase_serve_during contest changes waiting row underway
      · rcases reads (waiting caller same) with served | early
        · exact absurd served same
        · rw [not_rowWritten_of_underway underway] at early
          cases early
  | after row record kept through late =>
      by_cases same : caller = winner
      · subst same
        exact phase_serve_winner (Engine.getPost_id read) row record kept through late
      · obtain ⟨sharedSame, stillLate⟩ :=
          late_editStep contest notMax caller row record (late caller same)
        refine .after ?_ ?_ ?_ ?_ ?_
        · rw [serve_shared, sharedSame]
          exact row
        · rw [serve_shared, sharedSame]
          exact record
        · rw [serve_shared, sharedSame]
          exact kept
        · rw [serve_stages_of_ne _ _ (Ne.symm same)]
          exact through
        · intro other different
          rw [serve_stages]
          split
          · exact stillLate
          · exact late other different

theorem phase_run (contest : Contest cfg calls postID engine post)
    (notMax : post.modified ≠ Int64.maxValue)
    (changes : (calls winner).edit.changes post = true) {schedule : List Caller}
    (reads : StepsMeet (serve (fun caller => editStep cfg (calls caller))) (ReadsAfter winner)
      (Editing.start Caller engine) schedule) :
    Phase calls postID engine post winner (editingRun cfg calls engine schedule) :=
  invariant_run (phase_serve contest notMax changes) (.before rfl (fun _ => rfl)) reads

omit [DecidableEq Caller] in
/-- A call that is about to write over a record is the winner, and it wrote over
what it archived. -/
theorem content_of_isArchived {state : Editing Caller} {caller : Caller} {content : Bytes}
    (phase : Phase calls postID engine post winner state)
    (archived : (state.stages caller).isArchived = true)
    (stored : content ∈ state.shared.recordContent postID) : content = post.content := by
  cases phase with
  | before _untouched waiting =>
      rw [waiting caller] at archived
      cases archived
  | during waiting _row underway =>
      by_cases same : caller = winner
      · subst same
        cases stage : state.stages caller with
        | archived found revision =>
            rw [stage] at underway
            rw [underway.2.2.1] at stored
            exact (Option.some.inj stored).symm
        | start => rw [stage] at archived; cases archived
        | read found => rw [stage] at archived; cases archived
        | checked found => rw [stage] at archived; cases archived
        | numbered found revision => rw [stage] at archived; cases archived
        | recorded found revision => rw [stage] at archived; cases archived
        | written found revision => rw [stage] at archived; cases archived
        | done result => rw [stage] at archived; cases archived
      · rw [waiting caller same] at archived
        cases archived
  | after _row _record _kept through late =>
      have reached : Through (calls winner) post (state.stages caller) ∨
          Late (editTime (calls winner).now post.modified) (state.stages caller) := by
        by_cases same : caller = winner
        · subst same
          exact Or.inl through
        · exact Or.inr (late caller same)
      cases stage : state.stages caller with
      | archived found revision =>
          rw [stage] at reached
          rcases reached with impossible | impossible
          · exact impossible.elim
          · exact impossible.elim
      | start => rw [stage] at archived; cases archived
      | read found => rw [stage] at archived; cases archived
      | checked found => rw [stage] at archived; cases archived
      | numbered found revision => rw [stage] at archived; cases archived
      | recorded found revision => rw [stage] at archived; cases archived
      | written found revision => rw [stage] at archived; cases archived
      | done result => rw [stage] at archived; cases archived

theorem oneEditWins_of_readsAfter (contest : Contest cfg calls postID engine post)
    (notMax : post.modified ≠ Int64.maxValue)
    (changes : (calls winner).edit.changes post = true) {schedule : List Caller}
    (reads : StepsMeet (serve (fun caller => editStep cfg (calls caller))) (ReadsAfter winner)
      (Editing.start Caller engine) schedule)
    (finished : ∀ caller, ((editingRun cfg calls engine schedule).stages caller).isDone = true) :
    OneEditWins cfg calls postID engine schedule := by
  cases phase_run contest notMax changes reads with
  | before _untouched waiting =>
      obtain ⟨result, ended⟩ := EditStage.eq_done_of_isDone (finished winner)
      rw [waiting winner] at ended
      cases ended
  | during _waiting _row underway =>
      obtain ⟨result, ended⟩ := EditStage.eq_done_of_isDone (finished winner)
      rw [ended] at underway
      exact underway.elim
  | after _row _record kept through late =>
      have refused : ∀ caller, caller ≠ winner →
          (editingRun cfg calls engine schedule).stages caller =
            .done (.error (.conflict (editTime (calls winner).now post.modified))) := by
        intro caller different
        obtain ⟨result, ended⟩ := EditStage.eq_done_of_isDone (finished caller)
        have tooLate := late caller different
        rw [ended] at tooLate
        cases result with
        | error failure => rw [ended, tooLate]
        | ok value => exact tooLate.elim
      have onlyWinner : ∀ caller, ((editingRun cfg calls engine schedule).stages caller).Won →
          caller = winner := by
        rintro caller ⟨revision, time, _nonzero, won⟩
        by_contra different
        rw [refused caller different] at won
        cases won
      refine ⟨?_, ?_, ?_⟩
      · intro caller
        by_cases same : caller = winner
        · subst same
          obtain ⟨result, ended⟩ := EditStage.eq_done_of_isDone (finished caller)
          rw [ended] at through ⊢
          cases result with
          | error failure => exact through.elim
          | ok value => exact Or.inl ⟨value.1, value.2, through.1, rfl⟩
        · exact Or.inr ⟨_, refused caller same⟩
      · intro caller other callerWon otherWon
        rw [onlyWinner caller callerWon, onlyWinner other otherWon]
      · intro before caller after split archived content stored
        rw [split] at reads
        have earlier := phase_run contest notMax changes reads.of_append
        rw [content_of_isArchived earlier archived stored]
        exact kept

end Phases

/-- Of several calls that expect the current time of modification at most one
gets through, with all others refused and nothing lost, exactly when some call
changes the post, every other call reads after that call has written its row,
and the time of modification is not the greatest there is. -/
theorem oneEditWins_iff [Nontrivial Caller] (postID : UInt64) (engine : Engine) (post : Post)
    (schedule : List Caller) (contest : Contest cfg calls postID engine post)
    (finished : ∀ caller, ((editingRun cfg calls engine schedule).stages caller).isDone = true) :
    OneEditWins cfg calls postID engine schedule ↔
      post.modified ≠ Int64.maxValue ∧
        ∃ winner, (calls winner).edit.changes post = true ∧
          StepsMeet (serve (fun caller => editStep cfg (calls caller))) (ReadsAfter winner)
            (Editing.start Caller engine) schedule := by
  constructor
  · exact readsAfter_of_oneEditWins contest
  · rintro ⟨notMax, winner, changes, reads⟩
    exact oneEditWins_of_readsAfter contest notMax changes reads finished

end Competing

local instance neZeroTwo : NeZero 2 := ⟨by decide⟩

def twoEdits (caller : Fin 2) : EditCall :=
  { edit :=
      { postID := 1
        newTitle := []
        newContent := utf8 (if caller = 0 then "one" else "two")
        expectedModified := 100 }
    now := 100 }

theorem twoEdits_contest : Contest {} twoEdits 1 (firstEngine 100) firstRead :=
  { read := ⟨firstEngine 100, by decide +kernel⟩
    positive := by decide
    same := by decide
    expected := by decide }

/-- The second call reads between the row and the file of the first. -/
theorem oneEditWins_second_late :
    OneEditWins {} twoEdits 1 (firstEngine 100) [0, 0, 0, 0, 0, 0, 1, 0, 1] :=
  (oneEditWins_iff {} twoEdits 1 (firstEngine 100) firstRead _ twoEdits_contest
    (by decide +kernel)).mpr ⟨by decide, 0, by decide +kernel, by decide +kernel⟩

/-- Both calls read before either writes: both get through, under the same
revision number. -/
theorem both_edits_win :
    let schedule := [0, 1, 0, 1, 0, 1, 0, 1, 0, 1, 0, 1, 0, 1]
    let final := editingRun {} twoEdits (firstEngine 100) schedule
    (twoEdits 0).edit.newContent ≠ (twoEdits 1).edit.newContent ∧
      Contest {} twoEdits 1 (firstEngine 100) firstRead ∧
      final.stages 0 = .done (.ok (1, 101)) ∧ final.stages 1 = .done (.ok (1, 101)) ∧
      ¬ OneEditWins {} twoEdits 1 (firstEngine 100) schedule := by
  have first : (editingRun {} twoEdits (firstEngine 100)
      [0, 1, 0, 1, 0, 1, 0, 1, 0, 1, 0, 1, 0, 1]).stages 0 = .done (.ok (1, 101)) := by
    decide +kernel
  have second : (editingRun {} twoEdits (firstEngine 100)
      [0, 1, 0, 1, 0, 1, 0, 1, 0, 1, 0, 1, 0, 1]).stages 1 = .done (.ok (1, 101)) := by
    decide +kernel
  refine ⟨by decide, twoEdits_contest, first, second, ?_⟩
  intro wins
  have same := wins.unique 0 1 ⟨1, 101, by decide, first⟩ ⟨1, 101, by decide, second⟩
  exact absurd same (by decide)

end Pttbbs.PostSvc
