/-
Comments added and edited at the same time.

`AddComment` reads the last floor and decides under a lock whether to merge, and
writes the record when the lock is free again.  An edit reads a comment, looks
for the next revision, archives what it read and writes the comment back.  The
lines of every accepted comment stay in the record of their floor or in one of
its revisions as long as each call overwrites what it read.
-/

import Pttbbs.Lib.Runs
import Pttbbs.Lib.Segments
import Pttbbs.PostSvc.Frame

namespace Pttbbs.PostSvc

open Pttbbs.Lib

inductive CommentEdit where
  | update (now : Int64) (sequence : UInt32) (newContent editorName : Bytes)
      (editorID : PersonID)
  | delete (now : Int64) (sequence : UInt32) (deleterName : Bytes) (deleterID : PersonID)
      (reason : Bytes)
deriving DecidableEq

namespace CommentEdit

def sequence : CommentEdit → UInt32
  | .update _ sequence _ _ _ => sequence
  | .delete _ sequence _ _ _ => sequence

def edited (comment : Comment) : CommentEdit → Option Comment
  | .update now _ newContent _ _ =>
      let newContent := truncateCommentLines newContent maxCommentLines
      if newContent = comment.content then none
      else some { comment with content := newContent, modifiedAt := now }
  | .delete now _ deleterName deleterID reason =>
      if comment.deletion.deletedOrRemoved then none
      else
        let deleter := editorOf deleterName deleterID comment.creatorName comment.creatorID
        some { comment with
          deletion := Deletion.delete comment.creatorName comment.creatorID deleter.1
            deleter.2 reason now }

def archived (comment : Comment) (revision : UInt32) : CommentEdit → CommentRevision
  | .update now _ _ editorName editorID =>
      revisionOfComment comment revision now
        (editorOf editorName editorID comment.creatorName comment.creatorID) (utf8 "edit") []
  | .delete now _ deleterName deleterID reason =>
      revisionOfComment comment revision now
        (editorOf deleterName deleterID comment.creatorName comment.creatorID)
        (utf8 "delete") reason

def finish (cfg : Config) (engine : Engine) (postID : UInt64) : CommentEdit → Engine
  | .update now _ _ _ _ => engine.touchPost cfg now postID
  | .delete _ _ _ _ _ => engine.rerenderPost cfg postID

end CommentEdit

inductive CommentCall where
  | add (now : Int64) (comment : Comment)
  | edit (edit : CommentEdit)
deriving DecidableEq

namespace CommentCall

def adds : CommentCall → Bool
  | .add _ _ => true
  | .edit _ => false

def lines : CommentCall → List Bytes
  | .add _ comment => contentLines (truncateCommentLines comment.content maxCommentLines)
  | .edit _ => []

end CommentCall

inductive CommentStage where
  | start
  | counted (added : Comment)
  | planned (plan : Engine.CommentPlan)
  | written (plan : Engine.CommentPlan)
  | added (plan : Engine.CommentPlan)
  | read (comment edited : Comment)
  | numbered (comment edited : Comment) (revision : UInt32)
  | archived (comment edited : Comment) (revision : UInt32)
  | rewritten (revision : UInt32)
  | ended (result : Except EngineError UInt32)
deriving DecidableEq

def stampedComment (postID : UInt64) (now : Int64) (comment : Comment) : Comment :=
  { comment with
    postID := postID
    createdAt := if comment.createdAt = 0 then now else comment.createdAt }

/-- One step of a call.  A call that puts the counter of the post into memory
shares the variable with the counter and reads its floor only after the lock. -/
def commentStep (cfg : Config) (postID : UInt64) (call : CommentCall) (engine : Engine)
    (stage : CommentStage) : Engine × CommentStage :=
  match call, stage with
  | .add now comment, .start =>
      match engine.postSeqs.get? postID, engine.planComment cfg (stampedComment postID now comment)
      with
      | none, (engine, .append added) => (engine, .counted added)
      | _, (engine, plan) => (engine, .planned plan)
  | .add _ _, .counted added =>
      let sequence := (engine.postSeqs.get? postID).getD added.sequence
      (engine, .planned (.append { added with sequence := sequence }))
  | .add _ _, .planned plan => (engine.setCommentRecord plan.record, .written plan)
  | .add _ _, .written plan => ((engine.finishComment cfg plan).1, .added plan)
  | .edit edit, .start =>
      match engine.readComment postID edit.sequence with
      | .error failure => (engine, .ended (.error failure))
      | .ok comment =>
          match edit.edited comment with
          | none => (engine, .ended (.ok 0))
          | some edited => (engine, .read comment edited)
  | .edit edit, .read comment edited =>
      (engine, .numbered comment edited (engine.nextCommentRevision postID edit.sequence))
  | .edit edit, .numbered comment edited revision =>
      (engine.setCommentRevision (edit.archived comment revision),
        .archived comment edited revision)
  | .edit _, .archived _ edited revision =>
      (engine.setCommentRecord edited, .rewritten revision)
  | .edit edit, .rewritten revision => (edit.finish cfg engine postID, .ended (.ok revision))
  | _, stage => (engine, stage)

def CommentStage.isDone : CommentStage → Bool
  | .added _ => true
  | .ended _ => true
  | _ => false

abbrev Commenting (Caller : Type) := Threads Caller Engine CommentStage

def Commenting.start (Caller : Type) (engine : Engine) : Commenting Caller :=
  { shared := engine, stages := fun _ => .start }

/-! ### The steps are the operations -/

section Steps

variable (cfg : Config) (postID : UInt64) (engine : Engine)

theorem addComment_eq_steps (now : Int64) (comment : Comment) :
    (run (serve (fun _ => commentStep cfg postID (.add now comment)))
      (Commenting.start Unit engine) (List.replicate 4 ())).shared =
      (engine.addComment cfg now { comment with postID := postID }).1 := by
  have whole : engine.addComment cfg now { comment with postID := postID } =
      let planned := engine.planComment cfg (stampedComment postID now comment)
      (planned.1.setCommentRecord planned.2.record).finishComment cfg planned.2 := rfl
  simp only [Commenting.start, run_serve_unit, Function.iterate_succ_apply, whole]
  generalize planning : engine.planComment cfg (stampedComment postID now comment) = planned
  obtain ⟨after, plan⟩ := planned
  cases cached : engine.postSeqs.get? postID with
  | some last => simp only [commentStep, cached, planning, Function.iterate_zero, id]
  | none =>
      cases plan with
      | merge previous added =>
          simp only [commentStep, cached, planning, Function.iterate_zero, id]
      | append added =>
          have counter : after.postSeqs.get? postID = some added.sequence := by
            unfold Engine.planComment at planning
            dsimp only at planning
            split at planning
            · cases planning
            · cases planning
              exact OrderedMap.get?_set_self _ _ _
          simp only [commentStep, cached, planning, counter, Option.getD_some,
            Function.iterate_zero, id]

theorem updateComment_eq_steps (now : Int64) (sequence : UInt32) (newContent editorName : Bytes)
    (editorID : PersonID) :
    (run (serve (fun _ => commentStep cfg postID
      (.edit (.update now sequence newContent editorName editorID))))
      (Commenting.start Unit engine) (List.replicate 5 ())).shared =
      (engine.updateComment cfg now postID sequence newContent editorName editorID).1 := by
  simp only [Commenting.start, run_serve_unit, Function.iterate_succ_apply]
  unfold Engine.updateComment
  cases reading : engine.readComment postID sequence with
  | error failure => simp only [commentStep, CommentEdit.sequence, reading, Function.iterate_zero, id]
  | ok comment =>
      dsimp only
      split
      · rename_i same
        simp only [commentStep, CommentEdit.sequence, reading, CommentEdit.edited, if_pos same,
          Function.iterate_zero, id]
      · rename_i different
        simp only [commentStep, CommentEdit.sequence, reading, CommentEdit.edited,
          if_neg different, CommentEdit.archived, CommentEdit.finish, Function.iterate_zero, id]

theorem deleteComment_eq_steps (now : Int64) (sequence : UInt32) (deleterName : Bytes)
    (deleterID : PersonID) (reason : Bytes) :
    (run (serve (fun _ => commentStep cfg postID
      (.edit (.delete now sequence deleterName deleterID reason))))
      (Commenting.start Unit engine) (List.replicate 5 ())).shared =
      (engine.deleteComment cfg now postID sequence deleterName deleterID reason).1 := by
  simp only [Commenting.start, run_serve_unit, Function.iterate_succ_apply]
  unfold Engine.deleteComment
  cases reading : engine.readComment postID sequence with
  | error failure => simp only [commentStep, CommentEdit.sequence, reading, Function.iterate_zero, id]
  | ok comment =>
      dsimp only
      split
      · rename_i gone
        simp only [commentStep, CommentEdit.sequence, reading, CommentEdit.edited, if_pos gone,
          Function.iterate_zero, id]
      · rename_i there
        simp only [commentStep, CommentEdit.sequence, reading, CommentEdit.edited,
          if_neg there, CommentEdit.archived, CommentEdit.finish, Function.iterate_zero, id]

end Steps

/-! ### What the steps do to floors and revisions -/

namespace Engine

def commentRecord (engine : Engine) (postID : UInt64) (floor : UInt32) : Option Bytes :=
  engine.commentsDB.get? (encodeCommentKey postID floor)

def FloorsCounted (engine : Engine) (postID : UInt64) : Prop :=
  ∀ floor, (engine.commentRecord postID floor).isSome → floor ≤ engine.lastSequence postID

def versionLines (engine : Engine) (postID : UInt64) (doc : UInt32 × Option UInt32) :
    Option (List Bytes) :=
  match doc.2 with
  | none => (engine.getComment postID doc.1).map (fun comment => contentLines comment.content)
  | some revision =>
      (engine.getCommentHistory postID doc.1 revision).map (fun archived =>
        contentLines archived.content)

/-- The two states agree in the comments and revisions of a post and in the
counter of its floors. -/
structure SameFloors (postID : UInt64) (before after : Engine) : Prop where
  records : after.commentRecord postID = before.commentRecord postID
  historyDB : after.historyDB = before.historyDB
  counter : after.postSeqs.get? postID = before.postSeqs.get? postID
  last : after.lastSequence postID = before.lastSequence postID

namespace SameFloors

variable {postID : UInt64} {before after : Engine}

theorem trans {last : Engine} (left : SameFloors postID before after)
    (right : SameFloors postID after last) : SameFloors postID before last :=
  ⟨right.records.trans left.records, right.historyDB.trans left.historyDB,
    right.counter.trans left.counter, right.last.trans left.last⟩

theorem of_frame {other : UInt64} (frame : RecordFrame other before after) :
    SameFloors postID before after :=
  ⟨by unfold commentRecord; rw [frame.commentsDB], frame.historyDB, by rw [frame.postSeqs],
    by unfold lastSequence lookupMaxSequence; rw [frame.postSeqs, frame.commentsDB]⟩

theorem getComment (same : SameFloors postID before after) (floor : UInt32) :
    after.getComment postID floor = before.getComment postID floor := by
  have record := congrFun same.records floor
  unfold commentRecord at record
  unfold Engine.getComment
  rw [record]

theorem versionLines (same : SameFloors postID before after) (doc : UInt32 × Option UInt32) :
    after.versionLines postID doc = before.versionLines postID doc := by
  unfold Engine.versionLines getCommentHistory
  rw [same.getComment, same.historyDB]

end SameFloors

theorem sameFloors_finishComment (cfg : Config) (postID : UInt64) (engine : Engine)
    (plan : CommentPlan) : SameFloors postID engine (engine.finishComment cfg plan).1 := by
  cases plan with
  | merge previous added =>
      exact .of_frame (appendMergedCommentCache_frame cfg engine added.postID added.content)
  | append added =>
      refine .trans ?_ (.of_frame (appendCommentCache_frame cfg _ added))
      refine ⟨?_, rfl, rfl, ?_⟩
      · funext floor
        exact OrderedMap.get?_set_of_ne _ _
          (Ne.symm (encodeAuthorCommentKey_ne_encodeCommentKey _ _ _ _ _ _))
      · have outside : ¬ (encodeCommentPrefix postID ≤ encodeAuthorCommentKey added.creatorName
            added.createdAt added.postID added.sequence ∧
            encodeAuthorCommentKey added.creatorName added.createdAt added.postID
              added.sequence < encodeCommentPrefix postID ++ [0xff]) := by
          rw [prefix_range_iff]
          rintro ⟨suffix, same, _below⟩
          exact absurd (List.cons.inj same).1 (by decide)
        unfold lastSequence lookupMaxSequence scanPrefix
        dsimp only [addDelta]
        rw [OrderedMap.range_set_outside _ _ outside]

theorem sameFloors_finish (cfg : Config) (postID : UInt64) (engine : Engine)
    (edit : CommentEdit) : SameFloors postID engine (edit.finish cfg engine postID) := by
  cases edit with
  | update now sequence newContent editorName editorID =>
      simp only [CommentEdit.finish, touchPost]
      have frame := getPost_frame cfg engine postID
      generalize engine.getPost cfg postID = read at frame
      obtain ⟨after, result⟩ := read
      cases result with
      | error failure => exact .of_frame frame
      | ok post =>
          refine .trans (.of_frame frame) (.trans ?_ (.of_frame (renderAndSave_frame cfg _ _)))
          exact ⟨rfl, rfl, rfl, rfl⟩
  | delete now sequence deleterName deleterID reason =>
      exact .of_frame (rerenderPost_frame cfg engine postID)

/-! #### Writing a comment -/

section Write

variable {engine : Engine} {postID : UInt64} {comment : Comment}

theorem commentRecord_setCommentRecord (engine : Engine) (here : comment.postID = postID)
    (floor : UInt32) :
    (engine.setCommentRecord comment).commentRecord postID floor =
      if floor = comment.sequence then some (encodeRFC822Comment comment)
      else engine.commentRecord postID floor := by
  unfold commentRecord setCommentRecord
  rw [OrderedMap.get?_set, here]
  simp only [encodeCommentKey_inj, true_and]

theorem getComment_setCommentRecord (here : comment.postID = postID) {floor : UInt32}
    (other : floor ≠ comment.sequence) :
    (engine.setCommentRecord comment).getComment postID floor =
      engine.getComment postID floor := by
  have record := commentRecord_setCommentRecord engine here floor
  rw [if_neg other] at record
  unfold commentRecord at record
  unfold getComment
  rw [record]

theorem versionLines_setCommentRecord (engine : Engine) (here : comment.postID = postID) :
    (engine.setCommentRecord comment).versionLines postID (comment.sequence, none) =
      some (contentLines comment.content) := by
  have record := commentRecord_setCommentRecord engine here comment.sequence
  rw [if_pos rfl] at record
  unfold commentRecord at record
  simp only [versionLines, getComment, record, Option.bind_some,
    decodeRFC822Comment_encodeRFC822Comment, Option.map_some, storedComment]

theorem versionLines_setCommentRecord_of_ne (here : comment.postID = postID)
    {doc : UInt32 × Option UInt32} (other : doc ≠ (comment.sequence, none)) :
    (engine.setCommentRecord comment).versionLines postID doc = engine.versionLines postID doc := by
  obtain ⟨floor, version⟩ := doc
  cases version with
  | none =>
      have different : floor ≠ comment.sequence := fun same => other (by rw [same])
      simp only [versionLines, getComment_setCommentRecord here different]
  | some revision => rfl

private theorem lookupMaxSequence_eq (engine : Engine) (postID : UInt64) :
    engine.lookupMaxSequence postID =
      ((((scanPrefix engine.commentsDB (encodeCommentPrefix postID)).map Prod.fst).getLast?).map
        (fun key => ((decodeCommentKey key).map Prod.snd).getD 0)).getD 0 := by
  unfold lookupMaxSequence
  rw [List.getLast?_map]
  cases (scanPrefix engine.commentsDB (encodeCommentPrefix postID)).getLast? <;> rfl

theorem lastSequence_setCommentRecord (here : comment.postID = postID)
    (stored : (engine.commentRecord postID comment.sequence).isSome) :
    (engine.setCommentRecord comment).lastSequence postID = engine.lastSequence postID := by
  unfold lastSequence
  rw [lookupMaxSequence_eq, lookupMaxSequence_eq]
  subst here
  unfold setCommentRecord scanPrefix
  dsimp only
  rw [OrderedMap.range_keys_set _ _ stored]

end Write

/-! #### Archiving a revision -/

section Archive

variable {engine : Engine} {revision : CommentRevision}

theorem versionLines_setCommentRevision :
    (engine.setCommentRevision revision).versionLines revision.postID
      (revision.sequence, some revision.revision) = some (contentLines revision.content) := by
  simp only [versionLines, getCommentHistory, setCommentRevision, OrderedMap.get?_set_self,
    Option.bind_some, decodeRFC822CommentRevision_encodeRFC822CommentRevision, Option.map_some,
    storedCommentRevision]

theorem versionLines_setCommentRevision_of_ne (postID : UInt64) {doc : UInt32 × Option UInt32}
    (other : doc ≠ (revision.sequence, some revision.revision)) :
    (engine.setCommentRevision revision).versionLines postID doc =
      engine.versionLines postID doc := by
  obtain ⟨floor, version⟩ := doc
  cases version with
  | none => rfl
  | some number =>
      have different : encodeCommentHistoryKey postID floor number ≠
          encodeCommentHistoryKey revision.postID revision.sequence revision.revision := by
        rw [Ne, encodeCommentHistoryKey_inj]
        rintro ⟨_post, rfl, rfl⟩
        exact other rfl
      simp only [versionLines, getCommentHistory, setCommentRevision,
        OrderedMap.get?_set_of_ne _ _ different]

end Archive

end Engine

/-! ### Stages -/

namespace CommentStage

def appended? : CommentStage → Option Comment
  | .counted comment => some comment
  | .planned (.append comment) => some comment
  | .written (.append comment) => some comment
  | .added (.append comment) => some comment
  | _ => none

def pending? : CommentStage → Option Comment
  | .counted comment => some comment
  | .planned (.append comment) => some comment
  | _ => none

def stored? : CommentStage → Option Engine.CommentPlan
  | .written plan => some plan
  | .added plan => some plan
  | _ => none

def underway : CommentStage → Bool
  | .counted _ => true
  | .planned _ => true
  | .written _ => true
  | .added _ => true
  | _ => false

/-- The revision an edit has archived before it writes the comment, and its lines. -/
def archive? : CommentStage → Option ((UInt32 × Option UInt32) × List Bytes)
  | .archived comment _ revision =>
      some ((comment.sequence, some revision), contentLines comment.content)
  | _ => none

theorem archive?_version {stage : CommentStage} {copy : (UInt32 × Option UInt32) × List Bytes}
    (found : stage.archive? = some copy) (floor : UInt32) : copy.1 ≠ (floor, none) := by
  cases stage with
  | archived comment edited revision =>
      cases found
      exact fun same => nomatch congrArg Prod.snd same
  | _ => cases found

def Fits (postID : UInt64) (call : CommentCall) : CommentStage → Prop
  | .start => True
  | .counted comment =>
      call.adds = true ∧ comment.postID = postID ∧ contentLines comment.content = call.lines
  | .planned plan | .written plan | .added plan =>
      call.adds = true ∧ plan.record.postID = postID ∧
        contentLines plan.added.content = call.lines
  | .read comment edited | .numbered comment edited _ | .archived comment edited _ =>
      (∃ edit, call = .edit edit ∧ comment.sequence = edit.sequence) ∧
        comment.postID = postID ∧ edited.postID = postID ∧ edited.sequence = comment.sequence
  | .rewritten _ | .ended _ => call.adds = false

end CommentStage

namespace Engine

theorem commentRecord_of_getComment {engine : Engine} {postID : UInt64} {sequence : UInt32}
    {comment : Comment} (found : engine.getComment postID sequence = some comment) :
    (engine.commentRecord postID sequence).isSome := by
  obtain ⟨value, stored, _decoded⟩ := Option.bind_eq_some_iff.mp found
  unfold commentRecord
  rw [stored]
  rfl

end Engine

theorem CommentEdit.edited_ids {edit : CommentEdit} {comment edited : Comment}
    (found : edit.edited comment = some edited) :
    edited.postID = comment.postID ∧ edited.sequence = comment.sequence := by
  unfold CommentEdit.edited at found
  split at found
  all_goals
    dsimp only at found
    split at found
    · cases found
    · cases found
      exact ⟨rfl, rfl⟩

theorem fits_commentStep (cfg : Config) (postID : UInt64) (call : CommentCall) (engine : Engine)
    (stage : CommentStage) (fits : stage.Fits postID call) :
    (commentStep cfg postID call engine stage).2.Fits postID call := by
  cases call with
  | add now comment =>
      cases stage with
      | start =>
          have plan := Engine.planComment_cases cfg engine (stampedComment postID now comment)
          dsimp only at plan
          rcases plan with ⟨previous, found, planned⟩ | planned
          · have ids := Engine.getComment_ids found
            unfold commentStep
            dsimp only
            rw [planned]
            cases engine.postSeqs.get? postID <;> exact ⟨rfl, ids.1, rfl⟩
          · unfold commentStep
            dsimp only
            rw [planned]
            cases engine.postSeqs.get? postID <;> exact ⟨rfl, rfl, rfl⟩
      | counted added => exact ⟨fits.1, fits.2.1, fits.2.2⟩
      | planned plan => exact fits
      | written plan => exact fits
      | added plan => exact fits
      | read comment edited => exact fits
      | numbered comment edited revision => exact fits
      | archived comment edited revision => exact fits
      | rewritten revision => exact fits
      | ended result => exact fits
  | edit edit =>
      cases stage with
      | start =>
          unfold commentStep
          dsimp only
          cases reading : engine.readComment postID edit.sequence with
          | error failure => exact rfl
          | ok comment =>
              dsimp only
              cases editing : edit.edited comment with
              | none => exact rfl
              | some edited =>
                  have ids := Engine.getComment_ids (Engine.readComment_ok reading)
                  have same := CommentEdit.edited_ids editing
                  exact ⟨⟨edit, rfl, ids.2⟩, ids.1, same.1.trans ids.1, same.2⟩
      | counted added => exact fits
      | planned plan => exact fits
      | written plan => exact fits
      | added plan => exact fits
      | read comment edited => exact fits
      | numbered comment edited revision => exact fits
      | archived comment edited revision => exact rfl
      | rewritten revision => exact rfl
      | ended result => exact fits

/-! ### Floors are given out once -/

section Interleaved

variable {Caller : Type} [DecidableEq Caller] {postID : UInt64} {engine after : Engine}
  {stages : Caller → CommentStage} {caller : Caller} {next : CommentStage}

/-- The floors that were given out are counted, differ, and are free until they
are written. -/
structure FloorsKept (postID : UInt64) (engine : Engine) (stages : Caller → CommentStage) :
    Prop where
  counted : engine.FloorsCounted postID
  cached : ∀ caller, (stages caller).underway = true → (engine.postSeqs.get? postID).isSome
  below : ∀ caller comment, (stages caller).appended? = some comment →
    comment.sequence ≤ engine.lastSequence postID
  distinct : ∀ caller other first second, (stages caller).appended? = some first →
    (stages other).appended? = some second → first.sequence = second.sequence → caller = other
  vacant : ∀ caller comment, (stages caller).pending? = some comment →
    engine.commentRecord postID comment.sequence = none

section

variable (kept : FloorsKept postID engine stages)

include kept

theorem FloorsKept.quiet (records : ∀ floor, (after.commentRecord postID floor).isSome =
      (engine.commentRecord postID floor).isSome)
    (counter : after.postSeqs.get? postID = engine.postSeqs.get? postID)
    (last : after.lastSequence postID = engine.lastSequence postID)
    (appended : next.appended? = (stages caller).appended?)
    (pending : ∀ comment, next.pending? = some comment →
      (stages caller).pending? = some comment)
    (underway : next.underway = true → (stages caller).underway = true) :
    FloorsKept postID after (Function.update stages caller next) := by
  have sameAppended : ∀ other,
      (Function.update stages caller next other).appended? = (stages other).appended? := by
    intro other
    by_cases this : other = caller
    · rw [this, Function.update_self, appended]
    · rw [Function.update_of_ne this]
  refine ⟨?_, ?_, ?_, ?_, ?_⟩
  · intro floor stored
    rw [records] at stored
    rw [last]
    exact kept.counted floor stored
  · intro other looked
    rw [counter]
    by_cases this : other = caller
    · rw [this, Function.update_self] at looked
      exact kept.cached caller (underway looked)
    · rw [Function.update_of_ne this] at looked
      exact kept.cached other looked
  · intro other comment opened
    rw [sameAppended] at opened
    rw [last]
    exact kept.below other comment opened
  · intro other more first second
    rw [sameAppended, sameAppended]
    exact kept.distinct other more first second
  · intro other comment waiting
    rw [← Option.not_isSome_iff_eq_none, records, Option.not_isSome_iff_eq_none]
    by_cases this : other = caller
    · rw [this, Function.update_self] at waiting
      exact kept.vacant caller comment (pending comment waiting)
    · rw [Function.update_of_ne this] at waiting
      exact kept.vacant other comment waiting

theorem FloorsKept.same (same : Engine.SameFloors postID engine after)
    (appended : next.appended? = (stages caller).appended?)
    (pending : ∀ comment, next.pending? = some comment →
      (stages caller).pending? = some comment)
    (underway : next.underway = true → (stages caller).underway = true) :
    FloorsKept postID after (Function.update stages caller next) :=
  kept.quiet (fun floor => by rw [same.records]) same.counter same.last appended pending underway

theorem FloorsKept.merge {plan : Engine.CommentPlan}
    (merges : (CommentStage.planned plan).appended? = none) :
    FloorsKept postID
      { engine with postSeqs := engine.postSeqs.set postID (engine.lastSequence postID) }
      (Function.update stages caller (.planned plan)) := by
  have last : Engine.lastSequence
      { engine with postSeqs := engine.postSeqs.set postID (engine.lastSequence postID) } postID =
        engine.lastSequence postID := by
    change ((engine.postSeqs.set postID _).get? postID).getD _ = _
    rw [OrderedMap.get?_set_self, Option.getD_some]
  have stage : ∀ other comment,
      (Function.update stages caller (.planned plan) other).appended? = some comment →
        (stages other).appended? = some comment := by
    intro other comment opened
    by_cases this : other = caller
    · rw [this, Function.update_self, merges] at opened
      cases opened
    · rwa [Function.update_of_ne this] at opened
  refine ⟨?_, ?_, ?_, ?_, ?_⟩
  · intro floor stored
    rw [last]
    exact kept.counted floor stored
  · intro _other _looked
    rw [OrderedMap.get?_set_self]
    rfl
  · intro other comment opened
    rw [last]
    exact kept.below other comment (stage other comment opened)
  · intro other more first second opened again
    exact kept.distinct other more first second (stage other first opened)
      (stage more second again)
  · intro other comment pending
    by_cases this : other = caller
    · rw [this, Function.update_self] at pending
      cases plan with
      | merge previous added => cases pending
      | append added => cases merges
    · rw [Function.update_of_ne this] at pending
      exact kept.vacant other comment pending

theorem FloorsKept.append {added : Comment}
    (room : engine.lastSequence postID ≠ 0xffffffff)
    (opens : next.appended? = some added)
    (number : added.sequence = engine.lastSequence postID + 1)
    (waits : ∀ comment, next.pending? = some comment →
      comment.sequence = engine.lastSequence postID + 1) :
    FloorsKept postID
      { engine with postSeqs := engine.postSeqs.set postID (engine.lastSequence postID + 1) }
      (Function.update stages caller next) := by
  have above := uint32_lt_add_one room
  have last : Engine.lastSequence
      { engine with postSeqs := engine.postSeqs.set postID (engine.lastSequence postID + 1) }
        postID = engine.lastSequence postID + 1 := by
    change ((engine.postSeqs.set postID _).get? postID).getD _ = _
    rw [OrderedMap.get?_set_self, Option.getD_some]
  have older : ∀ other comment, other ≠ caller →
      (Function.update stages caller next other).appended? = some comment →
        comment.sequence < engine.lastSequence postID + 1 := by
    intro other comment this opened
    rw [Function.update_of_ne this] at opened
    exact lt_of_le_of_lt (kept.below other comment opened) above
  have newest : ∀ comment, (Function.update stages caller next caller).appended? = some comment →
      comment.sequence = engine.lastSequence postID + 1 := by
    intro comment opened
    rw [Function.update_self, opens] at opened
    cases opened
    exact number
  refine ⟨?_, ?_, ?_, ?_, ?_⟩
  · intro floor stored
    rw [last]
    exact le_of_lt (lt_of_le_of_lt (kept.counted floor stored) above)
  · intro _other _looked
    rw [OrderedMap.get?_set_self]
    rfl
  · intro other comment opened
    rw [last]
    by_cases this : other = caller
    · subst this
      exact le_of_eq (newest comment opened)
    · exact le_of_lt (older other comment this opened)
  · intro other more first second opened again equal
    by_cases this : other = caller
    · by_cases that : more = caller
      · rw [this, that]
      · subst this
        exact absurd (equal.symm.trans (newest first opened))
          (ne_of_lt (older more second that again))
    · by_cases that : more = caller
      · subst that
        exact absurd (equal.trans (newest second again))
          (ne_of_lt (older other first this opened))
      · rw [Function.update_of_ne this] at opened
        rw [Function.update_of_ne that] at again
        exact kept.distinct other more first second opened again equal
  · intro other comment pending
    by_cases this : other = caller
    · rw [this, Function.update_self] at pending
      rw [waits comment pending]
      by_contra taken
      have stored := kept.counted _ (Option.isSome_iff_ne_none.mpr taken)
      exact absurd above (not_lt_of_ge stored)
    · rw [Function.update_of_ne this] at pending
      exact kept.vacant other comment pending

theorem FloorsKept.write {added : Comment}
    (here : added.postID = postID) (stage : stages caller = .planned (.append added)) :
    FloorsKept postID (engine.setCommentRecord added)
      (Function.update stages caller (.written (.append added))) := by
  have opened : (stages caller).appended? = some added := by rw [stage]; rfl
  obtain ⟨counter, cached⟩ := Option.isSome_iff_exists.mp
    (kept.cached caller (by rw [stage]; rfl))
  have last : (engine.setCommentRecord added).lastSequence postID =
      engine.lastSequence postID := by
    unfold Engine.lastSequence Engine.setCommentRecord
    dsimp only
    rw [cached]
    rfl
  have sameAppended : ∀ other,
      (Function.update stages caller (.written (.append added)) other).appended? =
        (stages other).appended? := by
    intro other
    by_cases this : other = caller
    · rw [this, Function.update_self, opened]
      rfl
    · rw [Function.update_of_ne this]
  refine ⟨?_, ?_, ?_, ?_, ?_⟩
  · intro floor stored
    rw [Engine.commentRecord_setCommentRecord engine here] at stored
    rw [last]
    split at stored
    · rename_i same
      rw [same]
      exact kept.below caller added opened
    · exact kept.counted floor stored
  · intro _other _looked
    exact Option.isSome_iff_exists.mpr ⟨counter, cached⟩
  · intro other comment found
    rw [sameAppended] at found
    rw [last]
    exact kept.below other comment found
  · intro other more first second
    rw [sameAppended, sameAppended]
    exact kept.distinct other more first second
  · intro other comment pending
    by_cases this : other = caller
    · rw [this, Function.update_self] at pending
      cases pending
    · rw [Function.update_of_ne this] at pending
      have otherOpened : (stages other).appended? = some comment := by
        revert pending
        cases stages other with
        | counted found => exact fun pending => pending
        | planned plan =>
            cases plan with
            | merge previous found => exact fun pending => nomatch pending
            | append found => exact fun pending => pending
        | _ => exact fun pending => nomatch pending
      have different : comment.sequence ≠ added.sequence := fun equal =>
        this (kept.distinct other caller comment added otherOpened opened equal)
      rw [Engine.commentRecord_setCommentRecord engine here, if_neg different]
      exact kept.vacant other comment pending

theorem FloorsKept.overwrite {comment : Comment}
    (here : comment.postID = postID)
    (stored : (engine.commentRecord postID comment.sequence).isSome)
    (appended : next.appended? = (stages caller).appended?)
    (pending : ∀ other, next.pending? = some other → (stages caller).pending? = some other)
    (underway : next.underway = true → (stages caller).underway = true) :
    FloorsKept postID (engine.setCommentRecord comment) (Function.update stages caller next) := by
  refine kept.quiet (fun floor => ?_) rfl (Engine.lastSequence_setCommentRecord here stored)
    appended pending underway
  rw [Engine.commentRecord_setCommentRecord engine here]
  split
  · rename_i same
    rw [same, stored]
    rfl
  · rfl

end

/-! ### Lines keep their place -/

/-- The lines of the calls that wrote stand on their floor or in a revision of
it, and a revision that was archived for an edit under way is still unused. -/
structure LinesKept (postID : UInt64) (calls : Caller → CommentCall) (engine : Engine)
    (stages : Caller → CommentStage) (place : Caller → Place (UInt32 × Option UInt32)) : Prop where
  placed : Lib.Placed (engine.versionLines postID) (fun caller => (calls caller).lines)
    (fun caller => (stages caller).stored?.isSome = true) place
  floor : ∀ caller plan, (stages caller).stored? = some plan →
    (place caller).doc.1 = plan.record.sequence
  archived : ∀ caller copy, (stages caller).archive? = some copy →
    engine.versionLines postID copy.1 = some copy.2
  unused : ∀ caller copy, (stages caller).archive? = some copy →
    ∀ other, (stages other).stored?.isSome = true → (place other).doc ≠ copy.1
  apart : ∀ caller other first second, (stages caller).archive? = some first →
    (stages other).archive? = some second → first.1 = second.1 → caller = other

variable {calls : Caller → CommentCall} {place : Caller → Place (UInt32 × Option UInt32)}

/-- A step that changes no comment and no revision that is stored, by a call that
does not write. -/
theorem LinesKept.quiet (kept : LinesKept postID calls engine stages place)
    (lines : ∀ doc, after.versionLines postID doc = engine.versionLines postID doc)
    (stored : next.stored? = (stages caller).stored?)
    (archive : ∀ copy, next.archive? = some copy → (stages caller).archive? = some copy) :
    LinesKept postID calls after (Function.update stages caller next) place := by
  have sameStored : ∀ other,
      (Function.update stages caller next other).stored? = (stages other).stored? := by
    intro other
    by_cases this : other = caller
    · rw [this, Function.update_self, stored]
    · rw [Function.update_of_ne this]
  have sameArchive : ∀ other copy,
      (Function.update stages caller next other).archive? = some copy →
        (stages other).archive? = some copy := by
    intro other copy found
    by_cases this : other = caller
    · rw [this, Function.update_self] at found
      rw [this]
      exact archive copy found
    · rwa [Function.update_of_ne this] at found
  refine ⟨?_, ?_, ?_, ?_, ?_⟩
  · simp only [sameStored]
    exact kept.placed.congr (fun doc _ => lines doc)
  · intro other plan
    rw [sameStored]
    exact kept.floor other plan
  · intro other copy found
    rw [lines]
    exact kept.archived other copy (sameArchive other copy found)
  · intro other copy found more
    rw [sameStored]
    exact kept.unused other copy (sameArchive other copy found) more
  · intro other more first second found again
    exact kept.apart other more first second (sameArchive other first found)
      (sameArchive more second again)

theorem LinesKept.write (kept : LinesKept postID calls engine stages place)
    {plan : Engine.CommentPlan} (old : List Bytes) (stage : stages caller = .planned plan)
    (here : plan.record.postID = postID)
    (before : engine.versionLines postID (plan.record.sequence, none) = some old ∨
      engine.versionLines postID (plan.record.sequence, none) = none ∧ old = [])
    (lines : contentLines plan.record.content = old ++ (calls caller).lines) :
    ∃ place, LinesKept postID calls (engine.setCommentRecord plan.record)
      (Function.update stages caller (.written plan)) place := by
  have fresh : ¬ (stages caller).stored?.isSome = true := by
    rw [stage]
    exact Bool.false_ne_true
  have written := Engine.versionLines_setCommentRecord engine here
  have others : ∀ doc, doc ≠ (plan.record.sequence, none) →
      (engine.setCommentRecord plan.record).versionLines postID doc =
        engine.versionLines postID doc :=
    fun doc other => Engine.versionLines_setCommentRecord_of_ne here other
  have placed := kept.placed.append caller (plan.record.sequence, none) old before
    (written.trans (congrArg some lines)) others fresh
  have stored : ∀ other, (Function.update stages caller (.written plan) other).stored?.isSome = true →
      (stages other).stored?.isSome = true ∨ other = caller := by
    intro other found
    by_cases this : other = caller
    · exact Or.inr this
    · rw [Function.update_of_ne this] at found
      exact Or.inl found
  have archive : ∀ other copy,
      (Function.update stages caller (.written plan) other).archive? = some copy →
        (stages other).archive? = some copy ∧ copy.1 ≠ (plan.record.sequence, none) := by
    intro other copy found
    by_cases this : other = caller
    · rw [this, Function.update_self] at found
      cases found
    · rw [Function.update_of_ne this] at found
      exact ⟨found, CommentStage.archive?_version found _⟩
  refine ⟨Function.update place caller ⟨(plan.record.sequence, none), old.length⟩, ?_, ?_, ?_,
    ?_, ?_⟩
  · exact placed.mono stored
  · intro other found
    by_cases this : other = caller
    · rw [this, Function.update_self, Function.update_self]
      intro same
      cases same
      rfl
    · rw [Function.update_of_ne this, Function.update_of_ne this]
      exact kept.floor other found
  · intro other copy found
    rw [others _ (archive other copy found).2]
    exact kept.archived other copy (archive other copy found).1
  · intro other copy found more moreStored
    by_cases this : more = caller
    · rw [this, Function.update_self]
      exact (archive other copy found).2.symm
    · rw [Function.update_of_ne this] at moreStored ⊢
      exact kept.unused other copy (archive other copy found).1 more moreStored
  · intro other more first second found again
    exact kept.apart other more first second (archive other first found).1
      (archive more second again).1

theorem LinesKept.archive (kept : LinesKept postID calls engine stages place)
    (caller : Caller) {revision : CommentRevision} {comment : Comment} (edited : Comment)
    (here : revision.postID = postID)
    (floor : revision.sequence = comment.sequence)
    (content : revision.content = comment.content)
    (stage : (stages caller).stored? = none)
    (free : engine.versionLines postID (revision.sequence, some revision.revision) = none) :
    LinesKept postID calls (engine.setCommentRevision revision)
      (Function.update stages caller (.archived comment edited revision.revision)) place := by
  have others : ∀ doc, (engine.versionLines postID doc).isSome →
      doc ≠ (revision.sequence, some revision.revision) := by
    intro doc present same
    rw [same, free] at present
    cases present
  have sameStored : ∀ other,
      (Function.update stages caller (.archived comment edited revision.revision) other).stored? =
        (stages other).stored? := by
    intro other
    by_cases this : other = caller
    · rw [this, Function.update_self, stage]
      rfl
    · rw [Function.update_of_ne this]
  have archived : ∀ other copy,
      (Function.update stages caller (.archived comment edited revision.revision)
        other).archive? = some copy →
        other = caller ∧ copy.1 = (revision.sequence, some revision.revision) ∧
            copy.2 = contentLines revision.content ∨
          other ≠ caller ∧ (stages other).archive? = some copy := by
    intro other copy found
    by_cases this : other = caller
    · rw [this, Function.update_self] at found
      cases found
      exact Or.inl ⟨this, by rw [floor], by rw [content]⟩
    · rw [Function.update_of_ne this] at found
      exact Or.inr ⟨this, found⟩
  have stands : ∀ other copy, (stages other).archive? = some copy →
      (engine.versionLines postID copy.1).isSome := by
    intro other copy found
    rw [kept.archived other copy found]
    rfl
  refine ⟨?_, ?_, ?_, ?_, ?_⟩
  · simp only [sameStored]
    exact kept.placed.congr (fun doc present =>
      Engine.versionLines_setCommentRevision_of_ne postID (others doc present))
  · intro other plan
    rw [sameStored]
    exact kept.floor other plan
  · intro other copy found
    rcases archived other copy found with ⟨_this, doc, lines⟩ | ⟨_this, old⟩
    · rw [doc, lines, ← here]
      exact Engine.versionLines_setCommentRevision
    · rw [Engine.versionLines_setCommentRevision_of_ne postID
        (others _ (stands other copy old))]
      exact kept.archived other copy old
  · intro other copy found more stored
    rw [sameStored] at stored
    rcases archived other copy found with ⟨_this, doc, _lines⟩ | ⟨_this, old⟩
    · rw [doc]
      exact others _ (kept.placed.isSome stored)
    · exact kept.unused other copy old more stored
  · intro other more first second found again equal
    rcases archived other first found with ⟨this, doc, _lines⟩ | ⟨_this, old⟩
    · rcases archived more second again with ⟨that, _doc, _lines⟩ | ⟨_that, older⟩
      · exact this.trans that.symm
      · exact absurd (equal.symm.trans doc) (others _ (stands more second older))
    · rcases archived more second again with ⟨_that, doc, _lines⟩ | ⟨_that, older⟩
      · exact absurd (equal.trans doc) (others _ (stands other first old))
      · exact kept.apart other more first second old older equal

theorem LinesKept.rewrite (kept : LinesKept postID calls engine stages place)
    {comment edited : Comment} {revision : UInt32}
    (stage : stages caller = .archived comment edited revision)
    (here : edited.postID = postID) (floor : edited.sequence = comment.sequence)
    (still : engine.versionLines postID (comment.sequence, none) =
      some (contentLines comment.content)) :
    ∃ place, LinesKept postID calls (engine.setCommentRecord edited)
      (Function.update stages caller (.rewritten revision)) place := by
  have copied : (stages caller).archive? =
      some ((comment.sequence, some revision), contentLines comment.content) := by
    rw [stage]
    rfl
  have others : ∀ doc, doc ≠ (comment.sequence, none) →
      (engine.setCommentRecord edited).versionLines postID doc =
        engine.versionLines postID doc :=
    fun doc other => Engine.versionLines_setCommentRecord_of_ne here (by rw [floor]; exact other)
  have copyHeld : (engine.setCommentRecord edited).versionLines postID
      (comment.sequence, some revision) =
        engine.versionLines postID (comment.sequence, none) := by
    rw [others _ (CommentStage.archive?_version copied _), kept.archived caller _ copied, still]
  have moved := kept.placed.move (comment.sequence, none) (comment.sequence, some revision)
    copyHeld others (fun writer stored => kept.unused caller _ copied writer stored)
  have sameStored : ∀ other,
      (Function.update stages caller (.rewritten revision) other).stored? =
        (stages other).stored? := by
    intro other
    by_cases this : other = caller
    · rw [this, Function.update_self, stage]
      rfl
    · rw [Function.update_of_ne this]
  have archive : ∀ other copy,
      (Function.update stages caller (.rewritten revision) other).archive? = some copy →
        other ≠ caller ∧ (stages other).archive? = some copy ∧
          copy.1 ≠ (comment.sequence, none) := by
    intro other copy found
    by_cases this : other = caller
    · rw [this, Function.update_self] at found
      cases found
    · rw [Function.update_of_ne this] at found
      exact ⟨this, found, CommentStage.archive?_version found _⟩
  refine ⟨fun writer =>
      if (place writer).doc = (comment.sequence, none) then
        ⟨(comment.sequence, some revision), (place writer).offset⟩
      else place writer, ?_, ?_, ?_, ?_, ?_⟩
  · simp only [sameStored]
    exact moved
  · intro other plan stored
    rw [sameStored] at stored
    have same := kept.floor other plan stored
    split
    · rename_i inside
      rw [inside] at same
      exact same
    · exact same
  · intro other copy found
    rw [others _ (archive other copy found).2.2]
    exact kept.archived other copy (archive other copy found).2.1
  · intro other copy found more stored
    rw [sameStored] at stored
    obtain ⟨different, old, _notRecord⟩ := archive other copy found
    split
    · intro same
      exact different (kept.apart other caller copy _ old copied same.symm)
    · exact kept.unused other copy old more stored
  · intro other more first second found again
    exact kept.apart other more first second (archive other first found).2.1
      (archive more second again).2.1

/-! ### Steps and runs -/

/-- A call writes over what it read, archives under a free number, takes the floor
it counted, and the floors have not run out. -/
def Undisturbed (postID : UInt64) (calls : Caller → CommentCall) (state : Commenting Caller)
    (caller : Caller) : Prop :=
  match calls caller, state.stages caller with
  | .add _ _, .start => state.shared.lastSequence postID ≠ 0xffffffff
  | .add _ _, .counted added => state.shared.postSeqs.get? postID = some added.sequence
  | .add _ _, .planned (.merge previous _) =>
      state.shared.getComment postID previous.sequence = some previous
  | .edit edit, .numbered _ _ revision =>
      state.shared.getCommentHistory postID edit.sequence revision = none
  | .edit edit, .archived comment _ _ =>
      state.shared.getComment postID edit.sequence = some comment
  | _, _ => True

instance (postID : UInt64) (calls : Caller → CommentCall) (state : Commenting Caller)
    (caller : Caller) : Decidable (Undisturbed postID calls state caller) := by
  unfold Undisturbed
  split <;> infer_instance

structure CommentsHeld (postID : UInt64) (calls : Caller → CommentCall)
    (state : Commenting Caller) : Prop where
  fits : ∀ caller, (state.stages caller).Fits postID (calls caller)
  floors : FloorsKept postID state.shared state.stages
  lines : ∃ place, LinesKept postID calls state.shared state.stages place

omit [DecidableEq Caller] in
theorem commentsHeld_start (postID : UInt64) (calls : Caller → CommentCall) (engine : Engine)
    (counted : engine.FloorsCounted postID) :
    CommentsHeld postID calls (Commenting.start Caller engine) := by
  refine ⟨fun _ => trivial, ⟨counted, ?_, ?_, ?_, ?_⟩, ⟨fun _ => ⟨(0, none), 0⟩, ?_, ?_, ?_, ?_, ?_⟩⟩
  · exact fun _ looked => nomatch looked
  · exact fun _ _ opened => nomatch opened
  · exact fun _ _ _ _ opened => nomatch opened
  · exact fun _ _ pending => nomatch pending
  · exact (Lib.Placed.nobody _ _ _).mono (fun _ stored => nomatch stored)
  · exact fun _ _ stored => nomatch stored
  · exact fun _ _ found => nomatch found
  · exact fun _ _ found => nomatch found
  · exact fun _ _ _ _ found => nomatch found

section Step

variable {cfg : Config} {state : Commenting Caller}

theorem floorsKept_serve (held : CommentsHeld postID calls state)
    (undisturbed : Undisturbed postID calls state caller) :
    let served := commentStep cfg postID (calls caller) state.shared (state.stages caller)
    FloorsKept postID served.1 (Function.update state.stages caller served.2) := by
  have floors := held.floors
  have fits := held.fits caller
  unfold Undisturbed at undisturbed
  dsimp only
  -- Steps that neither write nor count.
  have idle : ∀ next : CommentStage, next.appended? = (state.stages caller).appended? →
      (∀ comment, next.pending? = some comment →
        (state.stages caller).pending? = some comment) →
      (next.underway = true → (state.stages caller).underway = true) →
      FloorsKept postID state.shared (Function.update state.stages caller next) :=
    fun next => floors.same ⟨rfl, rfl, rfl, rfl⟩
  cases call : calls caller with
  | add now comment =>
      rw [call] at undisturbed fits
      cases stage : state.stages caller with
      | start =>
          rw [stage] at undisturbed
          have plan := Engine.planComment_cases cfg state.shared
            (stampedComment postID now comment)
          dsimp only at plan
          unfold commentStep
          dsimp only
          rcases plan with ⟨previous, _found, planned⟩ | planned
          · rw [planned]
            cases state.shared.postSeqs.get? postID <;> exact floors.merge rfl
          · rw [planned]
            cases state.shared.postSeqs.get? postID
            · exact floors.append undisturbed rfl rfl (fun _ same => by cases same; rfl)
            · exact floors.append undisturbed rfl rfl (fun _ same => by cases same; rfl)
      | counted added =>
          rw [stage] at undisturbed
          unfold commentStep
          dsimp only at undisturbed ⊢
          rw [undisturbed]
          exact idle _ (by rw [stage]; rfl) (fun _ same => by rw [stage]; exact same)
            (fun _ => by rw [stage]; rfl)
      | planned plan =>
          rw [stage] at undisturbed fits
          cases plan with
          | merge previous added =>
              dsimp only at undisturbed
              exact floors.overwrite fits.2.1
                (Engine.commentRecord_of_getComment undisturbed) (by rw [stage]; rfl)
                (fun _ pending => nomatch pending) (fun _ => by rw [stage]; rfl)
          | append added => exact floors.write fits.2.1 stage
      | written plan =>
          exact floors.same (Engine.sameFloors_finishComment cfg postID state.shared plan)
            (by rw [stage]; cases plan <;> rfl) (fun _ pending => nomatch pending)
            (fun _ => by rw [stage]; rfl)
      | _ =>
          exact idle _ (by rw [stage]; rfl) (fun _ same => by rw [stage]; exact same)
            (fun same => by rw [stage]; exact same)
  | edit edit =>
      rw [call] at undisturbed fits
      cases stage : state.stages caller with
      | start =>
          unfold commentStep
          dsimp only
          split
          · exact idle _ (by rw [stage]; rfl) (fun _ pending => nomatch pending)
              (fun looked => nomatch looked)
          · split
            · exact idle _ (by rw [stage]; rfl) (fun _ pending => nomatch pending)
                (fun looked => nomatch looked)
            · exact idle _ (by rw [stage]; rfl) (fun _ pending => nomatch pending)
                (fun looked => nomatch looked)
      | read found edited =>
          exact idle _ (by rw [stage]; rfl) (fun _ pending => nomatch pending)
            (fun looked => nomatch looked)
      | numbered found edited revision =>
          exact floors.quiet (fun _ => rfl) rfl rfl (by rw [stage]; rfl)
            (fun _ pending => nomatch pending) (fun looked => nomatch looked)
      | archived found edited revision =>
          rw [stage] at undisturbed fits
          obtain ⟨⟨same, isEdit, floor⟩, _postID, here, sequence⟩ := fits
          cases isEdit
          have stored := Engine.commentRecord_of_getComment undisturbed
          rw [← floor, ← sequence] at stored
          exact floors.overwrite here stored (by rw [stage]; rfl)
            (fun _ pending => nomatch pending) (fun looked => nomatch looked)
      | rewritten revision =>
          exact floors.same (Engine.sameFloors_finish cfg postID state.shared edit)
            (by rw [stage]; rfl) (fun _ pending => nomatch pending)
            (fun looked => nomatch looked)
      | _ =>
          exact idle _ (by rw [stage]; rfl) (fun _ same => by rw [stage]; exact same)
            (fun same => by rw [stage]; exact same)

theorem linesKept_serve (held : CommentsHeld postID calls state)
    (undisturbed : Undisturbed postID calls state caller) :
    let served := commentStep cfg postID (calls caller) state.shared (state.stages caller)
    ∃ place, LinesKept postID calls served.1 (Function.update state.stages caller served.2)
      place := by
  obtain ⟨place, kept⟩ := held.lines
  have fits := held.fits caller
  unfold Undisturbed at undisturbed
  dsimp only
  -- Steps that leave every comment and revision as it is.
  have idle : ∀ (after : Engine) (next : CommentStage),
      (∀ doc, after.versionLines postID doc = state.shared.versionLines postID doc) →
      next.stored? = (state.stages caller).stored? →
      (∀ copy, next.archive? = some copy → (state.stages caller).archive? = some copy) →
      ∃ place, LinesKept postID calls after (Function.update state.stages caller next) place :=
    fun _after _next lines stored archive => ⟨place, kept.quiet lines stored archive⟩
  cases call : calls caller with
  | add now comment =>
      rw [call] at undisturbed fits
      cases stage : state.stages caller with
      | start =>
          have plan := Engine.planComment_cases cfg state.shared
            (stampedComment postID now comment)
          dsimp only at plan
          unfold commentStep
          dsimp only
          rcases plan with ⟨previous, _found, planned⟩ | planned
          · rw [planned]
            cases state.shared.postSeqs.get? postID <;>
              exact idle _ _ (fun _ => rfl) (by rw [stage]; rfl) (fun _ found => nomatch found)
          · rw [planned]
            cases state.shared.postSeqs.get? postID <;>
              exact idle _ _ (fun _ => rfl) (by rw [stage]; rfl) (fun _ found => nomatch found)
      | counted added =>
          exact idle _ _ (fun _ => rfl) (by rw [stage]; rfl) (fun _ found => nomatch found)
      | planned plan =>
          rw [stage] at undisturbed fits
          cases plan with
          | merge previous added =>
              dsimp only at undisturbed
              refine kept.write (contentLines previous.content) stage fits.2.1 (Or.inl ?_) ?_
              · exact congrArg (Option.map (fun found => contentLines found.content)) undisturbed
              · rw [call, ← fits.2.2]
                change contentLines (trimRight [carriageReturn, newline] previous.content ++
                  [newline] ++ added.content) = _
                rw [List.append_assoc, List.singleton_append, contentLines_append,
                  contentLines_trimRight]
                rfl
          | append added =>
              have vacant := held.floors.vacant caller added (by rw [stage]; rfl)
              refine kept.write [] stage fits.2.1 (Or.inr ⟨?_, rfl⟩) ?_
              · unfold Engine.commentRecord at vacant
                simp only [Engine.versionLines, Engine.getComment, Engine.CommentPlan.record,
                  vacant, Option.bind_none, Option.map_none]
              · rw [call]
                exact fits.2.2
      | written plan =>
          exact idle _ _
            (Engine.sameFloors_finishComment cfg postID state.shared plan).versionLines
            (by rw [stage]; rfl) (fun _ found => nomatch found)
      | _ =>
          exact idle _ _ (fun _ => rfl) (by rw [stage]; rfl)
            (fun _ found => by rw [stage]; exact found)
  | edit edit =>
      rw [call] at undisturbed fits
      cases stage : state.stages caller with
      | start =>
          unfold commentStep
          dsimp only
          split
          · exact idle _ _ (fun _ => rfl) (by rw [stage]; rfl) (fun _ found => nomatch found)
          · split
            · exact idle _ _ (fun _ => rfl) (by rw [stage]; rfl) (fun _ found => nomatch found)
            · exact idle _ _ (fun _ => rfl) (by rw [stage]; rfl) (fun _ found => nomatch found)
      | read found edited =>
          exact idle _ _ (fun _ => rfl) (by rw [stage]; rfl) (fun _ found => nomatch found)
      | numbered found edited revision =>
          rw [stage] at undisturbed fits
          obtain ⟨⟨same, isEdit, floor⟩, here, _editedID, _sequence⟩ := fits
          cases isEdit
          have revised : (edit.archived found revision).postID = found.postID ∧
              (edit.archived found revision).sequence = found.sequence ∧
              (edit.archived found revision).revision = revision ∧
              (edit.archived found revision).content = found.content := by
            cases edit <;> exact ⟨rfl, rfl, rfl, rfl⟩
          have archived := kept.archive caller edited (revised.1.trans here)
             revised.2.1 revised.2.2.2 (by rw [stage]; rfl) (by
              rw [revised.2.1, revised.2.2.1, floor]
              exact congrArg (Option.map _) undisturbed)
          rw [revised.2.2.1] at archived
          exact ⟨place, archived⟩
      | archived found edited revision =>
          rw [stage] at undisturbed fits
          obtain ⟨⟨same, isEdit, floor⟩, _postID, here, sequence⟩ := fits
          cases isEdit
          refine kept.rewrite stage here sequence ?_
          rw [floor]
          exact congrArg (Option.map (fun found => contentLines found.content)) undisturbed
      | rewritten revision =>
          exact idle _ _ (Engine.sameFloors_finish cfg postID state.shared edit).versionLines
            (by rw [stage]; rfl) (fun _ found => nomatch found)
      | _ =>
          exact idle _ _ (fun _ => rfl) (by rw [stage]; rfl)
            (fun _ found => by rw [stage]; exact found)

theorem commentsHeld_serve (held : CommentsHeld postID calls state)
    (undisturbed : Undisturbed postID calls state caller) :
    CommentsHeld postID calls
      (serve (fun caller => commentStep cfg postID (calls caller)) state caller) := by
  refine ⟨fun other => ?_, floorsKept_serve held undisturbed, linesKept_serve held undisturbed⟩
  by_cases this : other = caller
  · subst this
    rw [serve_stages_self]
    exact fits_commentStep cfg postID _ _ _ (held.fits other)
  · rw [serve_stages_of_ne _ _ this]
    exact held.fits other

end Step

def commentingRun (cfg : Config) (postID : UInt64) (calls : Caller → CommentCall)
    (engine : Engine) (schedule : List Caller) : Commenting Caller :=
  run (serve (fun caller => commentStep cfg postID (calls caller)))
    (Commenting.start Caller engine) schedule

/-- The lines of every added comment stand, in order and apart from all others,
on the floor its call was given or in a revision of it, and no two calls opened
the same floor. -/
structure CommentsKept (postID : UInt64) (calls : Caller → CommentCall)
    (state : Commenting Caller) : Prop where
  lines : ∃ place : Caller → Place (UInt32 × Option UInt32),
    Lib.Placed (state.shared.versionLines postID) (fun caller => (calls caller).lines)
      (fun caller => (calls caller).adds = true) place ∧
    ∀ caller plan, state.stages caller = .added plan →
      (place caller).doc.1 = plan.record.sequence
  floors : ∀ caller other first second, state.stages caller = .added (.append first) →
    state.stages other = .added (.append second) → first.sequence = second.sequence →
      caller = other

/-- Calls that are not disturbed lose no line once they have all returned. -/
theorem commentsKept_of_undisturbed (cfg : Config) (postID : UInt64)
    (calls : Caller → CommentCall) (engine : Engine) (schedule : List Caller)
    (counted : engine.FloorsCounted postID)
    (undisturbed : StepsMeet (serve (fun caller => commentStep cfg postID (calls caller)))
      (Undisturbed postID calls) (Commenting.start Caller engine) schedule)
    (finished : ∀ caller,
      ((commentingRun cfg postID calls engine schedule).stages caller).isDone = true) :
    CommentsKept postID calls (commentingRun cfg postID calls engine schedule) := by
  have kept : ∀ state caller, CommentsHeld postID calls state →
      Undisturbed postID calls state caller → CommentsHeld postID calls
        (serve (fun caller => commentStep cfg postID (calls caller)) state caller) :=
    fun _state _caller held undisturbed => commentsHeld_serve held undisturbed
  have held : CommentsHeld postID calls (commentingRun cfg postID calls engine schedule) :=
    invariant_run kept (commentsHeld_start postID calls engine counted) undisturbed
  obtain ⟨place, kept⟩ := held.lines
  refine ⟨⟨place, kept.placed.mono ?_, ?_⟩, ?_⟩
  · intro caller adds
    have fits := held.fits caller
    have done := finished caller
    revert fits done
    cases (commentingRun cfg postID calls engine schedule).stages caller with
    | added plan => exact fun _ _ => rfl
    | ended result =>
        intro isEdit _done
        exact absurd (adds.symm.trans isEdit) (by decide)
    | _ => exact fun _ done => nomatch done
  · intro caller plan stage
    exact kept.floor caller plan (by rw [stage]; rfl)
  · intro caller other first second stage again
    exact held.floors.distinct caller other first second (by rw [stage]; rfl)
      (by rw [again]; rfl)

end Interleaved

theorem Engine.versionLines_stored {engine : Engine} {postID : UInt64}
    {doc : UInt32 × Option UInt32} {lines : List Bytes}
    (found : engine.versionLines postID doc = some lines) :
    ∃ value record, readRecord value = some record ∧
      ((∃ key, engine.commentsDB.get? key = some value) ∨
        (∃ key, engine.historyDB.get? key = some value)) ∧ lines = contentLines record.2 := by
  obtain ⟨floor, version⟩ := doc
  cases version with
  | none =>
      obtain ⟨comment, isComment, rfl⟩ := Option.map_eq_some_iff.mp found
      obtain ⟨value, stored, decoded⟩ := Option.bind_eq_some_iff.mp isComment
      obtain ⟨record, read, rfl⟩ := Option.map_eq_some_iff.mp decoded
      exact ⟨value, record, read, Or.inl ⟨_, stored⟩, rfl⟩
  | some revision =>
      obtain ⟨archived, isArchived, rfl⟩ := Option.map_eq_some_iff.mp found
      obtain ⟨value, stored, decoded⟩ := Option.bind_eq_some_iff.mp isArchived
      obtain ⟨record, read, rfl⟩ := Option.map_eq_some_iff.mp decoded
      exact ⟨value, record, read, Or.inr ⟨_, stored⟩, rfl⟩

def commentedEngine : Engine :=
  ((firstEngine 100).addComment {} 101
    { postID := 1, creatorName := utf8 "bob", content := utf8 "push" }).1

def threeCalls (caller : Fin 3) : CommentCall :=
  if caller = 2 then .edit (.delete 103 1 [] 0 [])
  else .add 102
    { creatorName := utf8 "bob", content := utf8 (if caller = 0 then "one" else "two") }

theorem commentedEngine_counted : commentedEngine.FloorsCounted 1 := by
  have below : (commentedEngine.commentsDB.entries.all fun entry =>
      (decodeCommentKey entry.1).all fun key => key.2 ≤ commentedEngine.lastSequence 1) = true := by
    decide +kernel
  intro floor stored
  obtain ⟨value, found⟩ := Option.isSome_iff_exists.mp stored
  have here := List.all_eq_true.mp below _ ((OrderedMap.get?_eq_some_iff _).mp found)
  rw [decodeCommentKey_encodeCommentKey] at here
  exact of_decide_eq_true here

/-- One after the other: both comments are merged before the deletion. -/
theorem commentsKept_in_turn :
    CommentsKept 1 threeCalls
      (commentingRun {} 1 threeCalls commentedEngine [0, 0, 0, 1, 1, 1, 2, 2, 2, 2, 2]) :=
  commentsKept_of_undisturbed {} 1 threeCalls commentedEngine _ commentedEngine_counted
    (by decide +kernel) (by decide +kernel)

/-- Both comments are merged into the comment both calls read, and the second
write takes the line of the first away. -/
theorem merged_comment_lost :
    let schedule := [0, 1, 0, 1, 0, 1, 2, 2, 2, 2, 2]
    let final := commentingRun {} 1 threeCalls commentedEngine schedule
    commentedEngine.FloorsCounted 1 ∧ (∀ caller, (final.stages caller).isDone = true) ∧
      ¬ CommentsKept 1 threeCalls final := by
  refine ⟨commentedEngine_counted, by decide +kernel, fun kept => ?_⟩
  obtain ⟨place, placed, _floor⟩ := kept.lines
  obtain ⟨before, after, found, _length⟩ := placed.found 0 (by decide)
  obtain ⟨value, record, read, stored, lines⟩ := Engine.versionLines_stored found
  have gone : ∀ value ∈
      ((commentingRun {} 1 threeCalls commentedEngine
          [0, 1, 0, 1, 0, 1, 2, 2, 2, 2, 2]).shared.commentsDB.entries ++
        (commentingRun {} 1 threeCalls commentedEngine
          [0, 1, 0, 1, 0, 1, 2, 2, 2, 2, 2]).shared.historyDB.entries).map Prod.snd,
      ∀ record ∈ readRecord value, utf8 "one" ∉ contentLines record.2 := by decide +kernel
  apply gone value (List.mem_map.mpr ?_) record read
  · rw [← lines]
    apply List.mem_append_left
    apply List.mem_append_right
    decide
  · rcases stored with ⟨key, here⟩ | ⟨key, here⟩
    · exact ⟨(key, value), List.mem_append_left _ ((OrderedMap.get?_eq_some_iff _).mp here), rfl⟩
    · exact ⟨(key, value), List.mem_append_right _ ((OrderedMap.get?_eq_some_iff _).mp here), rfl⟩

end Pttbbs.PostSvc
